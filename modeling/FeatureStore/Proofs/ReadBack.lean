-- SUMMARY: What is written is what is read, from either store and in both formats, until the next write to the id.
import FeatureStore.Proofs.FeatureRows
import FeatureStore.Proofs.Runs
import FeatureStore.Proofs.SharedDatabase

/-!
# Reading back

A store goes through a list of calls, and does the deeds of its batches on the way. When a
feature was the last to be stored under an id, a read of the store has exactly one row with
that id, and the row gives the feature under the token that was reported for it.

The batches on a database may come from any number of stores. Those on other collections do
no deeds of the collection that is read, and opening a store does none either.
-/

namespace FeatureStore

variable {fmt : Format}

/-! ## The store in memory -/

namespace MemoryStore

def deeds (s : MemoryStore) : List StoreCall → List Deed
  | [] => []
  | .close :: rest => s.close.deeds rest
  | .execute request :: rest =>
    (if s.closed then []
      else (Batch.requestAttempts s.config request s.begun).map Batch.Attempt.deed)
      ++ (s.afterBatch request).deeds rest

theorem leaves_afterBatch {s : MemoryStore} (request : WriteRequest fmt) (h : ¬ s.closed)
    (hid : Identified s.get) :
    Leaves (RecordTable.keep MemoryStore) s.get
      ((Batch.requestAttempts s.config request s.begun).map Batch.Attempt.deed)
      (s.afterBatch request).get := by
  rw [afterBatch_open request h]
  have hbegun : Identified (RecordTable.records s.begun) := hid
  exact Batch.leaves_attempts (s.config.agenda request) hbegun

/-- A run leaves what its deeds leave. -/
theorem leaves_run (calls : List StoreCall) {s : MemoryStore} (hid : Identified s.get) :
    Leaves (RecordTable.keep MemoryStore) s.get (s.deeds calls) (s.run calls).2.get := by
  induction calls generalizing s with
  | nil => exact .nil hid
  | cons call rest ih =>
    cases call with
    | close => exact ih (s := s.close) hid
    | execute request =>
      simp only [deeds, run]
      by_cases hclosed : s.closed = true
      · rw [afterBatch_closed request hclosed, if_pos hclosed, List.nil_append]
        exact ih hid
      · rw [if_neg hclosed]
        have hbatch := leaves_afterBatch request hclosed hid
        exact hbatch.append (ih hbatch.identified)

/-- The rows of a store have one for a live record, which shows it. -/
theorem readsSole_readAll (fmt : Format) {s : MemoryStore} (hid : Identified s.get) {id : String}
    {record : StoredRecord} (hrecord : s.get id = some record) (hlive : record.deleted = false) :
    ReadsSole () (RowQueue.mk (s.records.live.map (fun entry => entry.2.row))) id
      (Codec.arrived record.row : Codec fmt).featureRow.1 := by
  refine readsSole_of_supplies (RowQueue.supplies _) ?_
  rw [List.map_map]
  have hkeys : ∀ entry ∈ s.records.live,
      (Codec.arrived entry.2.row : Codec fmt).featureRow.1.id = some entry.1 := by
    intro entry hentry
    exact hid entry.1 entry.2 (Records.mem_live.mp hentry).1
  exact sole_of_entries (s.records.ascending.sublist List.filter_sublist) hkeys
    (Records.mem_live.mpr ⟨hrecord, hlive⟩)

/-- The rows of an open store have one with the id of a feature that is there. -/
theorem readsOnce_readAll {s : MemoryStore} (hid : Identified s.get) {v : fmt.Assembled}
    (hv : fmt.Readable v) {p : Parts} (hp : fmt.disassemble v = .ok p) {id token : String}
    (hpid : p.id = some id)
    (hrecord : s.get id = some ((StoredRecord.mk (p.stored token) false).keeping
      (RecordTable.keep MemoryStore))) :
    ReadsOnce () (RowQueue.mk (s.records.live.map (fun entry => entry.2.row))) id
      (fmt.withVersion token v) := by
  have hsole := readsSole_readAll fmt hid hrecord rfl
  rw [featureRow_of_shows hv hp hpid (shows_row hv hp token)] at hsole
  exact hsole

end MemoryStore

/-! ## Stores in a database -/

/-- What is done on a database: a store is opened on it, or an open one executes a batch. -/
inductive DatabaseCall
  | openStore
  | execute (s : DatabaseStore) {fmt : Format} (request : WriteRequest fmt)

namespace Database

def afterBatch (db : Database) (s : DatabaseStore) (request : WriteRequest fmt) : Database :=
  let done : WriteOutcome Unit fmt × Database := s.execute request db
  done.2

def run (db : Database) : List DatabaseCall → Database
  | [] => db
  | .openStore :: rest => db.createTables.run rest
  | .execute s request :: rest => (db.afterBatch s request).run rest

def batchDeeds (db : Database) (s : DatabaseStore) (request : WriteRequest fmt) : List Deed :=
  if s.closed then []
  else
    match db.beginBatch s.config.collection with
    | .error _ => []
    | .ok (batch, database) =>
      let table : BatchTable := { database, collection := s.config.collection, batch }
      (Batch.requestAttempts s.config request table).map Batch.Attempt.deed

/-- The deeds of the batches on a collection. -/
def deeds (collection : String) (db : Database) : List DatabaseCall → List Deed
  | [] => []
  | .openStore :: rest => db.createTables.deeds collection rest
  | .execute s request :: rest =>
    (if s.config.collection = collection then db.batchDeeds s request else [])
      ++ (db.afterBatch s request).deeds collection rest

/-- A batch leaves what its deeds leave of its collection. -/
theorem leaves_afterBatch {db : Database} (s : DatabaseStore) (request : WriteRequest fmt)
    (hid : Identified (db.records s.config.collection).find?) :
    Leaves (RecordTable.keep BatchTable) (db.records s.config.collection).find?
      (db.batchDeeds s request) ((db.afterBatch s request).records s.config.collection).find? := by
  unfold afterBatch batchDeeds
  cases hclosed : s.closed with
  | true =>
    simp only [DatabaseStore.execute, hclosed, if_true]
    exact .nil hid
  | false =>
    cases hbegin : db.beginBatch s.config.collection with
    | error failure =>
      simp only [DatabaseStore.execute, hclosed, hbegin, Bool.false_eq_true, if_false]
      exact .nil hid
    | ok begin =>
      obtain ⟨batch, begun⟩ := begin
      obtain ⟨hdone, haside⟩ := execute_of_begun (σ := Unit) hclosed hbegin request
      have hbegun := records_begun hbegin
      -- The deeds are those of the request on the table that the batch has begun with.
      let table : BatchTable := { database := begun, collection := s.config.collection, batch }
      let done : WriteOutcome Unit fmt × BatchTable := executeRequest s.config request table
      have htable : Identified (RecordTable.records table) := hbegun ▸ hid
      have hleaves := Batch.leaves_request (σ := Unit) s.config request htable
      have hafter : RecordTable.records done.2
          = (done.2.database.records s.config.collection).find? := by
        funext id
        rw [← haside.own]
        exact BatchTable.find?_eq done.2 id
      simp only [hdone, Bool.false_eq_true, if_false]
      rw [← hafter, ← hbegun]
      exact hleaves

/-- Calls leave what their deeds leave of a collection. -/
theorem leaves_run (collection : String) (calls : List DatabaseCall) {db : Database}
    (hid : Identified (db.records collection).find?) :
    Leaves (RecordTable.keep BatchTable) (db.records collection).find? (db.deeds collection calls)
      ((db.run calls).records collection).find? := by
  induction calls generalizing db with
  | nil => exact .nil hid
  | cons call rest ih =>
    cases call with
    | openStore =>
      rw [← records_createTables] at hid ⊢
      exact ih hid
    | execute s request =>
      simp only [deeds, run]
      by_cases hown : s.config.collection = collection
      · subst hown
        rw [if_pos rfl]
        have hbatch := leaves_afterBatch s request hid
        exact hbatch.append (ih hbatch.identified)
      · have haside : (db.afterBatch s request).records collection = db.records collection :=
          (execute_aside db s request (Ne.symm hown)).1
        rw [← haside] at hid ⊢
        rw [if_neg hown, List.nil_append]
        exact ih hid

/-- The rows of a read of a collection have one for a live record, which shows it. -/
theorem readsSole_ofCollection (fmt : Format) {view : DatabaseView} {collection : String}
    (fetchSize : Nat) {id : String} {record : StoredRecord}
    (hrecord : (view.database.records collection).find? id = some record)
    (hlive : record.deleted = false) :
    ReadsSole view (PagedRows.ofCollection collection fetchSize) id
      (Codec.arrived (PagedRows.rowOf (id, record)) : Codec fmt).featureRow.1 := by
  have hfeatures : view.database.features.isSome := by
    cases hfeatures : view.database.features with
    | none => simp [Database.records, hfeatures] at hrecord
    | some features => rfl
  refine readsSole_of_supplies (PagedRows.supplies_ofCollection hfeatures collection fetchSize) ?_
  rw [List.map_map]
  have hkeys : ∀ entry ∈ (view.database.records collection).live,
      (Codec.arrived (PagedRows.rowOf entry) : Codec fmt).featureRow.1.id = some entry.1 :=
    fun _ _ => rfl
  exact sole_of_entries ((view.database.records collection).ascending.sublist List.filter_sublist)
    hkeys (Records.mem_live.mpr ⟨hrecord, hlive⟩)

/-- The rows of a read of a collection have one with the id of a feature that is there. -/
theorem readsOnce_ofCollection {view : DatabaseView} {collection : String} (fetchSize : Nat)
    {v : fmt.Assembled} (hv : fmt.Readable v) {p : Parts} (hp : fmt.disassemble v = .ok p)
    {id token : String} (hpid : p.id = some id)
    (hrecord : (view.database.records collection).find? id
      = some ((StoredRecord.mk (p.stored token) false).keeping (RecordTable.keep BatchTable))) :
    ReadsOnce view (PagedRows.ofCollection collection fetchSize) id
      (fmt.withVersion token v) := by
  have hsole := readsSole_ofCollection fmt fetchSize hrecord rfl
  rw [featureRow_of_shows hv hp hpid (shows_rowOf hv hp hpid token)] at hsole
  exact hsole

/-- The same holds of the rows that a cursor has moved onto when it reports its end, whatever
    has been written to other ids in between. -/
theorem once_of_ended {view : DatabaseView} {collection : String} (fetchSize : Nat)
    {v : fmt.Assembled} (hv : fmt.Readable v) {p : Parts} (hp : fmt.disassemble v = .ok p)
    {id token : String} (hpid : p.id = some id) (steps : List (ReadStep fmt)) :
    let run := (ReadRun.opened view (.ofCollection collection fetchSize)).run steps
    (∀ moment ∈ run.moments, (moment.records collection).find? id
      = some ((StoredRecord.mk (p.stored token) false).keeping (RecordTable.keep BatchTable))) →
    run.ended = true →
      FeatureRow.Once (run.returned.map (fun codec => codec.featureRow.1)) id
        (fmt.withVersion token v) := by
  intro run hsame hended
  have hinvariant : run.Invariant collection :=
    (ReadRun.invariant_opened view collection fetchSize).run steps
  obtain ⟨entries, hreturned, hascending, hlive, hgapless⟩ := hinvariant.sound
  have hstays : StaysLive collection run.moments id :=
    fun moment hmoment => ⟨_, Records.mem_live.mpr ⟨hsame moment hmoment, rfl⟩⟩
  obtain ⟨⟨_, record⟩, hentry, rfl⟩ := List.mem_map.mp (hgapless id hstays (.inr hended))
  obtain ⟨moment, hmoment, hshown⟩ := hlive _ hentry
  obtain ⟨hfound, -⟩ := Records.mem_live.mp hshown
  obtain rfl := Option.some.inj (hfound.symm.trans (hsame moment hmoment))
  rw [hreturned, List.map_map, FeatureRow.Once,
    ← featureRow_of_shows hv hp hpid (shows_rowOf hv hp hpid token)]
  exact sole_of_entries hascending (fun _ _ => rfl) hentry

end Database

/-! ## Both stores -/

/-- What is written is what is read, in both formats. A feature was the last to be stored
    under an id, by a deed of the calls on a store, and its result has reported a token. Then a
    read of the store in memory, or of the collection of any store in the database with pages
    of any size, has exactly one row with the id, and the row gives the feature under that
    token without an error; whether it is read from the source or held in memory first. In a
    database the same holds of a read that others write around, as long as they do not write
    to the id. -/
theorem written_is_read {v : fmt.Assembled} (hv : fmt.Readable v) (id token : String) :
    (∀ (s : MemoryStore) (calls : List StoreCall), Identified s.get →
      Deed.LastStored (s.deeds calls) v id token →
      let final := (s.run calls).2
      final.closed = false →
        ∃ rows, final.readAll = .ok rows ∧ ReadsOnce () rows id (fmt.withVersion token v)) ∧
    (∀ (db : Database) (collection : String) (calls : List DatabaseCall),
      Identified (db.records collection).find? →
      Deed.LastStored (db.deeds collection calls) v id token →
      ∀ (reader : DatabaseStore) (view : DatabaseView),
        reader.config.collection = collection → reader.closed = false →
        view.database = db.run calls →
        ∃ rows, reader.readAll = .ok rows ∧
          ReadsOnce view rows id (fmt.withVersion token v) ∧
          ∀ steps : List (ReadStep fmt),
            let run := (ReadRun.opened view rows).run steps
            (∀ moment ∈ run.moments,
              (moment.records collection).find? id
                = (view.database.records collection).find? id) →
            run.ended = true →
              FeatureRow.Once (run.returned.map (fun codec => codec.featureRow.1)) id
                (fmt.withVersion token v)) := by
  constructor
  · intro s calls hid hlast final hopen
    have hleaves := MemoryStore.leaves_run calls hid
    obtain ⟨p, hp, hpid, hrecord⟩ := hleaves.stored hlast
    refine ⟨⟨final.records.live.map (fun entry => entry.2.row)⟩, ?_, ?_⟩
    · simp [MemoryStore.readAll, hopen]
    · exact MemoryStore.readsOnce_readAll hleaves.identified hv hp hpid hrecord
  · intro db collection calls hid hlast reader view hcollection hopen hview
    have hleaves := Database.leaves_run collection calls hid
    obtain ⟨p, hp, hpid, hrecord⟩ := hleaves.stored hlast
    rw [← hview] at hrecord
    refine ⟨.ofCollection collection reader.config.fetchSize, ?_, ?_, ?_⟩
    · simp [DatabaseStore.readAll, hopen, hcollection]
    · exact Database.readsOnce_ofCollection reader.config.fetchSize hv hp hpid hrecord
    · intro steps run hsame hended
      refine Database.once_of_ended reader.config.fetchSize hv hp hpid steps ?_ hended
      exact fun moment hmoment => (hsame moment hmoment).trans hrecord

/-- A feature at a point that is not a number is put into a store in memory, and an object
    with a point is put into a database in place of an older version of it. Others are written
    to before and after. -/
theorem written_is_read_in_both_formats :
    let f : Format.Assembled .geo :=
      { id := "a", properties := [("n", .ofInt 7)]
        geometry := some (.point ⟨.ofBits 0x7FF8000000000001, .zero⟩) }
    let v : Format.Assembled .json := Json.object
      [("geometry", (Geometry.point ⟨.zero, .zero⟩).toJson), ("id", .string "b"),
        ("version", .string "features:1:1")]
    let config : StoreConfig := { fetchSize := 1, sortWritesById := false }
    let plain (id : String) : WriteIntent .geo := .ofFeature .put { id }
    let calls : List StoreCall :=
      [.execute [plain "b", .ofFeature .put f], .execute [plain "b"]]
    let others : List DatabaseCall :=
      [.openStore, .execute { config } [plain "b"],
        .execute { config } [.ofFeature .update v],
        .execute { config } [plain "a"]]
    let s : MemoryStore := .ofConfig config
    let final := (s.run calls).2
    let view : DatabaseView := { database := Database.run {} others }
    (∃ rows, final.readAll = .ok rows ∧
      ReadsOnce () rows "a" (Format.withVersion "features:1:2" .geo f)) ∧
    ∃ rows, ({ config } : DatabaseStore).readAll = .ok rows ∧
      ReadsOnce view rows "b" (Format.withVersion "features:2:1" .json v) := by
  intro f v config plain calls others s final view
  have hf : Format.Readable .geo f := by
    refine ⟨⟨?_, by decide⟩, ?_⟩
    · exact ⟨List.pairwise_singleton _ _, ⟨7, rfl, by decide, by decide⟩, trivial⟩
    · rintro g ⟨⟩
      trivial
  have hv : Format.Readable .json v := by
    refine ⟨_, rfl, ?_, ⟨?_, trivial, trivial, trivial⟩, by decide, .inr ⟨_, ?_, rfl⟩⟩
    · unfold Keyed.Ascending
      decide
    · unfold Keyed.Ascending
      decide
    · trivial
  have hempty : Identified s.get := fun _ _ h => by cases h
  have hfresh : Identified (Database.records {} "features").find? := fun _ _ h => by cases h
  have hf' : Deed.LastStored (s.deeds calls) f "a" "features:1:2" := by
    refine ⟨(s.deeds calls).take 1, _, (s.deeds calls).drop 2, rfl, ?_, ?_⟩
    · exact .reported (.inl rfl) (List.head_mem (by decide +kernel)) (.inl (by decide +kernel))
        (by decide +kernel) (by decide +kernel)
    · decide +kernel
  have hv' : Deed.LastStored (Database.deeds "features" {} others) v "b" "features:2:1" := by
    refine ⟨(Database.deeds "features" {} others).take 1, _,
      (Database.deeds "features" {} others).drop 2, rfl, ?_, ?_⟩
    · exact .reported (.inl rfl) (List.head_mem (by decide +kernel)) (.inr (by decide +kernel))
        (by decide +kernel) (by decide +kernel)
    · decide +kernel
  have hread := (written_is_read hf "a" "features:1:2").1 s calls hempty hf' (by decide +kernel)
  obtain ⟨rows, hrows, honce, -⟩ := (written_is_read hv "b" "features:2:1").2 {} "features" others
    hfresh hv' { config } view rfl rfl rfl
  exact ⟨hread, rows, hrows, honce⟩

end FeatureStore
