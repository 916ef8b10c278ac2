-- SUMMARY: A feature is stored however deep its properties nest, and is read back only if they nest no deeper than a body may.
import FeatureStore.Proofs.ReadBack
import Mathlib.Order.MinMax

/-!
# Deep bodies

Whoever writes a feature prints its body, and any body can be printed. Whoever reads it parses
the body, and that ends where the containers nest too deep. Nothing compares the two: a batch
reports a feature as stored whatever its depth is, and the row of a feature that is too deep has
an error in place of the feature.
-/

namespace FeatureStore

namespace Json

/-! ## Values beyond the limit -/

mutual

/-- A value whose containers nest deeper than the limit is not read from its written form. -/
theorem value?_of_deep {limit : Nat} : (v : Json) → limit < v.depth →
    v.written.scanned.value? limit = none
  | .null, h | .bool _, h | .number _, h | .string _, h => absurd h (Nat.not_lt_zero _)
  | .array items, h => by
    cases limit with
    | zero => rfl
    | succ limit =>
      have hitems := values?_of_deep items (Nat.lt_of_succ_lt_succ h)
      simp [written, Written.scanned, Written.value?, hitems]
  | .object members, h => by
    cases limit with
    | zero => rfl
    | succ limit =>
      have hmembers := members?_of_deep members (Nat.lt_of_succ_lt_succ h)
      simp [written, Written.scanned, Written.value?, hmembers]

theorem values?_of_deep {limit : Nat} : (items : List Json) → limit < itemsDepth items →
    Written.values? limit (Written.scannedItems (writtenItems items)) = none
  | [], h => absurd h (Nat.not_lt_zero _)
  | item :: rest, h => by
    rcases lt_max_iff.mp h with hitem | hrest
    · simp [writtenItems, Written.scannedItems, Written.values?, value?_of_deep item hitem]
    · have hothers := values?_of_deep rest hrest
      simp only [writtenItems, Written.scannedItems, Written.values?, hothers]
      split <;> rfl

theorem members?_of_deep {limit : Nat} : (members : List (String × Json)) →
    limit < membersDepth members →
    Written.members? limit (Written.scannedMembers (writtenMembers members)) = none
  | [], h => absurd h (Nat.not_lt_zero _)
  | (name, value) :: rest, h => by
    rcases lt_max_iff.mp h with hvalue | hrest
    · simp [writtenMembers, Written.scannedMembers, Written.members?, value?_of_deep value hvalue]
    · have hothers := members?_of_deep rest hrest
      simp only [writtenMembers, Written.scannedMembers, Written.members?, hothers]
      split <;> rfl

end

end Json

/-! ## Bodies beyond the limit -/

namespace Feature

open Json

variable {f : Feature}

/-- No feature is read from a body that is too deep. -/
theorem ofBody?_of_deep (h : (Json.object f.properties).Exact) (hdeep : depthLimit < f.bodyDepth) :
    ofBody? f.body = none := by
  have hproperties : properties? (Json.object f.properties).written.scanned = none := by
    have hdepth : depthLimit - 1 < (Json.object f.properties).depth :=
      Nat.sub_lt_right_of_lt_add (by decide) hdeep
    rw [properties?, value?_of_deep _ hdepth]
    rfl
  have hfields : fieldNames.map (fun name =>
      (Keyed.find? name f.bodyMembers).map (fun value => value.written.scanned))
        = (fieldNames.map (fun name => Keyed.find? name f.bodyMembers)).map
            (Option.map (fun value => value.written.scanned)) := by
    simp only [List.map_map]
    rfl
  rw [ofBody?, ofText?_body h, Option.bind_some, ofWritten?,
    Written.fields?_written f.nodup_bodyMembers, hfields, find?_bodyMembers]
  simp [Written.withDefault, hproperties]

end Feature

/-! ## Rows beyond the limit -/

/-- Where the parts cannot be put together, a row has an error in place of the feature. -/
theorem featureRow_of_error {fmt : Format} {row : Parts} {cache : GeometryCache}
    (hgeometry : row.geometry.withParsed = .ok cache) (hjson : row.json.isSome) {e : CodecError}
    (hassemble : fmt.assemble { row with geometry := cache } = .error e) :
    (Codec.arrived row : Codec fmt).featureRow.1
      = { id := row.id, feature := none, error := some e } := by
  have hbody : row.json.isNone = false := by simpa using hjson
  have hencode : (Codec.arrived row : Codec fmt).encode false
      = { parts := { row with geometry := cache }, decoded := true, error := some e } := by
    simp [Codec.encode, Codec.arrived, Codec.ofLoad, hbody, hgeometry, Codec.withGeometry,
      Codec.assemble, hassemble]
  have hread : (Codec.arrived row : Codec fmt).id = (row.id, .arrived row) := by
    simp [Codec.id, Codec.read, Codec.sync, Codec.arrived, Codec.ofLoad]
  simp only [Codec.featureRow, hread, Codec.assembled, hencode]

namespace Feature

open Json

variable {f : Feature}

/-- What a reader takes from the row of the feature as it is stored under a token: the feature
    under this token or, if the body is too deep to be read, an error. -/
def storedRow (f : Feature) (token : String) : FeatureRow .geo :=
  if f.bodyDepth ≤ depthLimit then .ofFeature f.id (f.withVersion token)
  else { id := some f.id, feature := none, error := some .unreadableBody }

theorem storedRow_of_shallow (h : f.bodyDepth ≤ depthLimit) (token : String) :
    f.storedRow token = .ofFeature f.id (f.withVersion token) := if_pos h

theorem storedRow_of_deep (h : depthLimit < f.bodyDepth) (token : String) :
    f.storedRow token = { id := some f.id, feature := none, error := some .unreadableBody } :=
  if_neg (Nat.not_le_of_lt h)

/-- A row that shows the parts of a feature gives the feature unless its body is too deep. -/
theorem featureRow_of_shows (hexact : (Json.object f.properties).Exact)
    (hsized : ∀ g, f.geometry = some g → g.Sized) {row : Parts} {token : String}
    (hrow : row.Shows f.disassemble token) :
    (Codec.arrived row : Codec .geo).featureRow.1 = f.storedRow token := by
  rcases Nat.lt_or_ge depthLimit f.bodyDepth with hdeep | hshallow
  · obtain ⟨hsame, hgeometry⟩ := hrow
    have hjson : row.json = some f.body := by rw [hsame]; rfl
    have hid : row.id = some f.id := by rw [hsame]; rfl
    have hassemble : Format.assemble .geo { row with geometry := f.disassemble.geometry.withBinary }
        = .error .unreadableBody := by
      have hbody := ofBody?_of_deep hexact hdeep
      simp [Format.assemble, assemble, hjson, hbody]
    have hread := featureRow_of_error hgeometry (by rw [hjson]; rfl) hassemble
    rw [hread, storedRow_of_deep hdeep, hid]
  · have hreadable : Format.Readable .geo f := ⟨⟨hexact, hshallow⟩, hsized⟩
    rw [storedRow_of_shallow hshallow]
    exact FeatureStore.featureRow_of_shows hreadable rfl rfl hrow

end Feature

/-! ## Writing knows no limit -/

namespace Batch

/-- A feature is never too deep to be stored. -/
theorem Plan.store_ofFeature (executed : ExecutedOp) (op : WriteOp) (f : Feature) (id : String) :
    Plan.store executed (.ofFeature op f : WriteIntent .geo) id
      = .write executed
          { parts := { f.disassemble with
              op := none, id := some id, geometry := f.disassemble.geometry.withBinary }
            deleted := false } false := rfl

variable {τ : Type} [FeatureTable τ] [SteadyTable τ]

/-- Whatever its depth, a feature is created under an id that is free. -/
theorem execute_of_absent {t : τ} (hsound : SteadyTable.sound t) {f : Feature} (hid : f.id ≠ "")
    (habsent : RecordTable.records t f.id = none) {op : WriteOp} (hop : op = .create ∨ op = .put) :
    let intent : WriteIntent .geo := .ofFeature op f
    ∃ parts version, parts.id = some f.id ∧ parts.version = some version ∧
      (execute intent t).results = [.executed .created parts] := by
  intro intent
  have htarget : intent.target = some f.id := by
    have hparts : intent.sync.codec.parts.id = some f.id := rfl
    simp [WriteIntent.target, hparts, hid]
  have hmake : Plan.make intent f.id none = Plan.store .created intent f.id := by
    rcases hop with rfl | rfl <;> rfl
  obtain ⟨t₁, hload, hsound₁, -⟩ := SteadyTable.load_sound f.id hsound
  let record : StoredRecord :=
    { parts := { f.disassemble with
        op := none, id := some f.id, geometry := f.disassemble.geometry.withBinary }
      deleted := false }
  obtain ⟨t₂, hwrite, -⟩ := SteadyTable.write_ledger .created record hsound₁
  let version := (SteadyTable.versions t₁).head
  refine ⟨(stamp record version).parts, version, rfl, rfl, ?_⟩
  rw [execute_eq, htarget]
  simp only [hload, habsent, hmake]
  rw [Plan.store_ofFeature, perform_write]
  exact congrArg Step.results hwrite

/-- A batch that creates a feature under an id that is free has stored the feature last. -/
theorem exists_lastStored_of_absent {t : τ} (hsound : SteadyTable.sound t)
    {f : Format.Assembled .geo} (hid : f.id ≠ "") (habsent : RecordTable.records t f.id = none)
    {op : WriteOp} (hop : op = .create ∨ op = .put) (config : StoreConfig) :
    let intent : WriteIntent .geo := .ofFeature op f
    ∃ token, Deed.LastStored ((requestAttempts config [intent] t).map Attempt.deed) f f.id token := by
  intro intent
  obtain ⟨parts, token, hpartsId, htoken, hexecute⟩ := execute_of_absent hsound hid habsent hop
  let attempt : Attempt .geo τ := { submitted := 0, place := 0, intent := intent.sync, before := t }
  -- The request has one intent, so that sorting it has no effect.
  have hagenda : config.agenda [intent] = [(0, intent.sync)] :=
    List.perm_singleton.mp (config.agenda_perm [intent])
  have hattempts : requestAttempts config [intent] t = [attempt] := by
    rw [requestAttempts, hagenda, attempts]
    simp only [attempts, ite_self]
    rfl
  have hresults : attempt.results = [(ExecutedResult.executed .created parts).forIntent 0] := by
    have hstep : attempt.step.results = [.executed .created parts] := by
      rw [Attempt.step, execute_sync]
      exact hexecute
    have hkept : attempt.intent.noResult = false := rfl
    rw [Attempt.results, hkept, Bool.and_false, if_neg Bool.false_ne_true, hstep, List.map_singleton]
  have hcarries : attempt.intent.codec.Carries f := .inl (Codec.sync_sync _)
  have hreported : ((ExecutedResult.executed .created parts).forIntent 0).token = some token := by
    rw [ExecutedResult.token_forIntent, ExecutedResult.token_executed]
    exact htoken
  refine ⟨token, [], attempt.deed, [], ?_, ?_, fun _ hlater => by cases hlater⟩
  · rw [hattempts]
    rfl
  · exact .reported hcarries (hresults ▸ List.mem_singleton_self _) (.inl rfl) hpartsId hreported

end Batch

/-! ## Both stores -/

section Stores

variable {f : Format.Assembled .geo} (hexact : (Json.object f.properties).Exact)
  (hsized : ∀ g, f.geometry = some g → g.Sized)

include hexact hsized

/-- A read of the store in memory shows the feature that was the last to be stored under its
    id. -/
theorem MemoryStore.readsSole_of_lastStored {s : MemoryStore} (hid : Identified s.get)
    {calls : List StoreCall} {token : String} (hlast : Deed.LastStored (s.deeds calls) f f.id token)
    (hopen : (s.run calls).2.closed = false) :
    ∃ rows, (s.run calls).2.readAll = .ok rows ∧ ReadsSole () rows f.id (f.storedRow token) := by
  have hleaves := MemoryStore.leaves_run calls hid
  obtain ⟨p, hp, -, hrecord⟩ := hleaves.stored hlast
  cases hp
  refine ⟨⟨(s.run calls).2.records.live.map (fun entry => entry.2.row)⟩, ?_, ?_⟩
  · simp [MemoryStore.readAll, hopen]
  · have hrow := Feature.featureRow_of_shows hexact hsized (Parts.shows_row rfl hsized token)
    exact hrow ▸ MemoryStore.readsSole_readAll .geo hleaves.identified hrecord rfl

/-- A read of a collection shows the feature that was the last to be stored under its id. -/
theorem Database.readsSole_of_lastStored {db : Database} {collection : String}
    (hid : Identified (db.records collection).find?) {calls : List DatabaseCall} {token : String}
    (hlast : Deed.LastStored (db.deeds collection calls) f f.id token) {reader : DatabaseStore}
    (hcollection : reader.config.collection = collection) (hopen : reader.closed = false)
    {view : DatabaseView} (hview : view.database = db.run calls) :
    ∃ rows, reader.readAll = .ok rows ∧ ReadsSole view rows f.id (f.storedRow token) := by
  have hleaves := Database.leaves_run collection calls hid
  obtain ⟨p, hp, hpid, hrecord⟩ := hleaves.stored hlast
  rw [← hview] at hrecord
  cases hp
  refine ⟨.ofCollection collection reader.config.fetchSize, ?_, ?_⟩
  · simp [DatabaseStore.readAll, hopen, hcollection]
  · have hrow := Feature.featureRow_of_shows hexact hsized (Parts.shows_rowOf rfl hsized hpid token)
    exact hrow ▸ Database.readsSole_ofCollection .geo reader.config.fetchSize hrecord rfl

end Stores

/-- A feature is stored whatever its depth is, and a batch that creates it under a free id
    reports that. Once it was the last to be stored under its id, a read of the store in memory,
    or of the collection of any store in the database, has exactly one row with the id; this row
    gives the feature under the reported token if its body is no deeper than a body may be, and
    otherwise an error and no feature. -/
theorem stored_is_read_within_depth {f : Format.Assembled .geo}
    (hexact : (Json.object f.properties).Exact)
    (hsized : ∀ g, f.geometry = some g → g.Sized) :
    (∀ (s : MemoryStore) (op : WriteOp), s.closed = false → f.id ≠ "" → s.get f.id = none →
      op = .create ∨ op = .put →
      let intent : WriteIntent .geo := .ofFeature op f
      ∃ token, Deed.LastStored (s.deeds [.execute [intent]]) f f.id token) ∧
    (∀ (s : MemoryStore) (calls : List StoreCall) (token : String), Identified s.get →
      Deed.LastStored (s.deeds calls) f f.id token →
      let final := (s.run calls).2
      final.closed = false →
        ∃ rows, final.readAll = .ok rows ∧ ReadsSole () rows f.id (f.storedRow token)) ∧
    (∀ (db : Database) (collection : String) (calls : List DatabaseCall) (token : String),
      Identified (db.records collection).find? →
      Deed.LastStored (db.deeds collection calls) f f.id token →
      ∀ (reader : DatabaseStore) (view : DatabaseView),
        reader.config.collection = collection → reader.closed = false →
        view.database = db.run calls →
        ∃ rows, reader.readAll = .ok rows ∧ ReadsSole view rows f.id (f.storedRow token)) := by
  refine ⟨?_, ?_, ?_⟩
  · intro s op hopen hid habsent hop intent
    have hbegun : SteadyTable.sound s.begun := trivial
    obtain ⟨token, hlast⟩ := Batch.exists_lastStored_of_absent hbegun hid habsent hop s.config
    refine ⟨token, ?_⟩
    simp only [MemoryStore.deeds, hopen, Bool.false_eq_true, if_false, List.append_nil]
    exact hlast
  · intro s calls token hid hlast final hopen
    exact MemoryStore.readsSole_of_lastStored hexact hsized hid hlast hopen
  · intro db collection calls token hid hlast reader view hcollection hopen hview
    exact Database.readsSole_of_lastStored hexact hsized hid hlast hcollection hopen hview

/-- A value in a number of arrays, one in the other. -/
def Json.nested : Nat → Json
  | 0 => .null
  | n + 1 => .array [nested n]

def Feature.nested (arrays : Nat) : Format.Assembled .geo :=
  { id := "a", properties := [("n", .nested arrays)] }

theorem Json.exact_nested (n : Nat) : (nested n).Exact := by
  induction n with
  | zero => trivial
  | succ n ih => exact ⟨ih, trivial⟩

theorem Json.depth_nested (n : Nat) : (nested n).depth = n := by
  induction n with
  | zero => rfl
  | succ n ih => simp [nested, depth, itemsDepth, ih]

namespace Feature

theorem exact_nested (arrays : Nat) : (Json.object (nested arrays).properties).Exact :=
  ⟨List.pairwise_singleton _ _, Json.exact_nested arrays, trivial⟩

theorem bodyDepth_nested (arrays : Nat) : (nested arrays).bodyDepth = arrays + 2 := by
  simp [nested, bodyDepth, Json.depth, Json.membersDepth, Json.depth_nested]

theorem sized_nested (arrays : Nat) (g : Geometry) (h : (nested arrays).geometry = some g) :
    g.Sized := by
  cases h

end Feature

/-- A feature whose body is as deep as a body may be is put in place of one that is deeper by a
    single array. It can be read, and the one before it could not be. -/
theorem stored_is_read_within_depth_of_nested :
    let config : StoreConfig := { fetchSize := 1, sortWritesById := false }
    let f := Feature.nested
    let put (arrays : Nat) : DatabaseCall :=
      .execute { config } ([.ofFeature .put (f arrays)] : WriteRequest .geo)
    let view (calls : List DatabaseCall) : DatabaseView := { database := Database.run {} calls }
    let failed : FeatureRow .geo := { id := some "a", feature := none, error := some .unreadableBody }
    let shown : FeatureRow .geo := .ofFeature "a" ((f 125).withVersion "features:2:1")
    (∃ rows, ({ config } : DatabaseStore).readAll = .ok rows ∧
      ReadsSole (view [.openStore, put 126]) rows "a" failed) ∧
    ∃ rows, ({ config } : DatabaseStore).readAll = .ok rows ∧
      ReadsSole (view [.openStore, put 126, put 125]) rows "a" shown := by
  intro config f put view failed shown
  have hempty : Identified (Database.records {} "features").find? := fun _ _ h => by cases h
  have hread (arrays : Nat) := (stored_is_read_within_depth (Feature.exact_nested arrays)
    (Feature.sized_nested arrays)).2.2 {} "features"
  have hfirst : Deed.LastStored (Database.deeds "features" {} [.openStore, put 126]) (f 126) "a"
      "features:1:1" := by
    refine ⟨[], _, [], rfl, ?_, fun _ hlater => by cases hlater⟩
    exact .reported (.inl rfl) (List.head_mem (by decide +kernel)) (.inl (by decide +kernel))
      (by decide +kernel) (by decide +kernel)
  have hsecond : Deed.LastStored (Database.deeds "features" {} [.openStore, put 126, put 125])
      (f 125) "a" "features:2:1" := by
    refine ⟨(Database.deeds "features" {} [.openStore, put 126, put 125]).take 1, _, [], rfl, ?_,
      fun _ hlater => by cases hlater⟩
    exact .reported (.inl rfl) (List.head_mem (by decide +kernel)) (.inr (by decide +kernel))
      (by decide +kernel) (by decide +kernel)
  have hdeep := hread 126 _ _ hempty hfirst { config } (view [.openStore, put 126]) rfl rfl rfl
  have hshallow := hread 125 _ _ hempty hsecond { config }
    (view [.openStore, put 126, put 125]) rfl rfl rfl
  rw [Feature.storedRow_of_deep (by rw [Feature.bodyDepth_nested]; decide)] at hdeep
  rw [Feature.storedRow_of_shallow (by rw [Feature.bodyDepth_nested]; decide)] at hshallow
  exact ⟨hdeep, hshallow⟩

/-- A feature with 126 arrays in its property is created, and cannot be read. -/
theorem created_is_unreadable :
    let f := Feature.nested 126
    let s : MemoryStore := .ofConfig { fetchSize := 1, sortWritesById := false }
    let intent : WriteIntent .geo := .ofFeature .create f
    let done : WriteOutcome Unit .geo × MemoryStore := s.execute [intent]
    let unreadable : FeatureRow .geo :=
      { id := some f.id, feature := none, error := some .unreadableBody }
    f.id ≠ "" ∧ (Json.object f.properties).Exact ∧
      done.1.cursor.codecs.map (fun codec => codec.parts.op) = [some .created] ∧
      ∃ rows, done.2.readAll = .ok rows ∧ ReadsSole () rows f.id unreadable := by
  intro f s intent done unreadable
  have hempty : Identified s.get := fun _ _ h => by cases h
  have hlast : Deed.LastStored (s.deeds [.execute [intent]]) f f.id "features:1:1" := by
    refine ⟨[], _, [], rfl, ?_, fun _ hlater => by cases hlater⟩
    exact .reported (.inl rfl) (List.head_mem (by decide +kernel)) (.inl (by decide +kernel))
      (by decide +kernel) (by decide +kernel)
  have hdeep : Json.depthLimit < f.bodyDepth := by
    rw [Feature.bodyDepth_nested]
    decide
  obtain ⟨rows, hrows, hsole⟩ := MemoryStore.readsSole_of_lastStored (Feature.exact_nested 126)
    (Feature.sized_nested 126) hempty hlast rfl
  rw [Feature.storedRow_of_deep hdeep] at hsole
  exact ⟨by decide, Feature.exact_nested 126, by decide +kernel, rows, hrows, hsole⟩

end FeatureStore
