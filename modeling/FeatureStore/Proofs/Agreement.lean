-- SUMMARY: What a reader sees of parts, rows and results, and batches on two tables that look the same to a reader.
import FeatureStore.Proofs.BinaryLayout
import FeatureStore.Proofs.Ledger
import FeatureStore.Store.Execution

/-!
# Tables that look the same

A reader of a feature sees its operation, its id and version, its tags and its body, and
the values of both forms of its geometry; it does not see which of the two forms is held
and which is derived when it is asked for. A database keeps the binary form alone. A
record of a database `Reflects` one that was never in a database if a reader sees the
same in both and the same binary form is held.

Two ledgers whose records reflect each other stay so under every batch, and the batch
reports the same to a reader: nothing in the execution of an intent looks at the form in
which a stored geometry is held.
-/

namespace FeatureStore

variable {fmt : Format}

/-! ## Caches -/

namespace GeometryCache

/-- The forms that are held are forms of one geometry, of which the other form can be
    derived. -/
def Coherent : GeometryCache → Prop
  | .neither | .binary _ => True
  | .parsed g => g.Sized
  | .both bytes g => Geometry.decode? bytes = some g

/-- The binary form is held, if there is a geometry, and a parsed form is that of the
    bytes. -/
def Held : GeometryCache → Prop
  | .neither | .binary _ => True
  | .parsed _ => False
  | .both bytes g => Geometry.decode? bytes = some g

theorem Coherent.withBinary {cache : GeometryCache} (h : cache.Coherent) :
    cache.withBinary.Held := by
  cases cache with
  | neither => trivial
  | binary bytes => trivial
  | parsed g => exact Geometry.decode?_encode h
  | both bytes g => exact h

/-- A parsed form that is held is the one that would be derived from the bytes. -/
theorem Held.readParsed_ofBinary {cache : GeometryCache} (h : cache.Held) :
    (ofBinary cache.peekBinary).readParsed.1 = cache.readParsed.1 := by
  cases cache with
  | neither => rfl
  | binary bytes => rfl
  | parsed g => exact h.elim
  | both bytes g =>
    have hdecode : Geometry.decode? bytes = some g := h
    simp [ofBinary, peekBinary, readParsed, withParsed, hdecode, peekParsed]

theorem Held.readBinary_ofBinary {cache : GeometryCache} (h : cache.Held) :
    (ofBinary cache.peekBinary).readBinary.1 = cache.readBinary.1 := by
  cases cache with
  | neither => rfl
  | binary bytes => rfl
  | parsed g => exact h.elim
  | both bytes g => rfl

end GeometryCache

/-! ## What a reader sees -/

/-- What a reader sees of parts. -/
structure SeenParts where
  op : Option ExecutedOp
  id : Option String
  version : Option String
  featureType : Option String
  propertiesType : Option String
  json : Option String
  geometry : Except CodecError (Option Geometry)
  binary : Option (List UInt8)

structure SeenRow where
  parts : SeenParts
  error : Option CodecError

structure SeenResult where
  op : ExecutedOp
  id : Option String
  feature : Option SeenParts
  cause : Option ErrorCause
  intent : Nat

def Parts.seen (p : Parts) : SeenParts where
  op := p.op
  id := p.id
  version := p.version
  featureType := p.featureType
  propertiesType := p.propertiesType
  json := p.json
  geometry := p.geometry.readParsed.1
  binary := p.geometry.readBinary.1

def Codec.seen (c : Codec fmt) : SeenRow where
  parts :=
    { op := c.parts.op, id := c.id.1, version := c.version.1, featureType := c.featureType.1
      propertiesType := c.propertiesType.1, json := c.json.1, geometry := c.geometry.1
      binary := c.binaryGeometry.1 }
  error := c.error

theorem Codec.seen_of_decoded {c : Codec fmt} (h : c.decoded = true) :
    c.seen = { parts := c.parts.seen, error := c.error } := by
  have hsync := Codec.sync_of_decoded h
  simp only [seen, Codec.id, Codec.version, Codec.featureType, Codec.propertiesType, Codec.json,
    Codec.read, Codec.geometry, Codec.binaryGeometry, hsync]
  rfl

/-- What is made of parts by what a reader sees of them is the same for parts that look the
    same. -/
theorem map_eq_of_seen {α : Type} (f : Parts → α) (hf : ∀ p q : Parts, p.seen = q.seen → f p = f q)
    {p q : Option Parts} (h : p.map Parts.seen = q.map Parts.seen) : p.map f = q.map f := by
  cases p with
  | none =>
    cases q with
    | none => rfl
    | some q => cases h
  | some p =>
    cases q with
    | none => cases h
    | some q => exact congrArg some (hf p q (Option.some.inj h))

theorem Parts.seen_identity {p q : Parts} (h : p.seen = q.seen) :
    p.identity.seen = q.identity.seen := by
  simp only [seen, SeenParts.mk.injEq] at h
  simp only [identity, seen, h]

namespace ExecutedResult

def seen (r : ExecutedResult) : SeenResult where
  op := r.op
  id := r.id
  feature := r.feature.map Parts.seen
  cause := r.cause
  intent := r.intent

/-- What a reader sees in the row of a result is seen in the result. -/
theorem seen_toCodec {r s : ExecutedResult} (h : r.seen = s.seen) :
    (r.toCodec : Codec fmt).seen = (s.toCodec : Codec fmt).seen := by
  obtain ⟨op, id, feature, cause, intent⟩ := r
  obtain ⟨op', id', feature', cause', intent'⟩ := s
  simp only [seen, SeenResult.mk.injEq] at h
  obtain ⟨rfl, rfl, hfeature, rfl, rfl⟩ := h
  have hparts : (feature.getD {}).seen = (feature'.getD {}).seen := by
    have hgetD := congrArg (fun p => p.getD (Parts.seen {})) hfeature
    simpa only [Option.getD_map] using hgetD
  simp only [Parts.seen, SeenParts.mk.injEq] at hparts
  rw [Codec.seen_of_decoded rfl, Codec.seen_of_decoded rfl]
  simp only [toCodec, Codec.setError, Codec.ofParts, parts, Parts.seen, hparts]

theorem seen_forIntent {r s : ExecutedResult} (h : r.seen = s.seen) (place : Nat) :
    (r.forIntent place).seen = (s.forIntent place).seen := by
  simp only [seen, SeenResult.mk.injEq] at h
  simp only [seen, forIntent, h]

theorem seen_withoutBody {r s : ExecutedResult} (h : r.seen = s.seen) :
    r.withoutBody.seen = s.withoutBody.seen := by
  simp only [seen, SeenResult.mk.injEq] at h
  obtain ⟨hop, hid, hfeature, hcause, hintent⟩ := h
  have hidentity := map_eq_of_seen (fun p => p.identity.seen) (fun p q => Parts.seen_identity) hfeature
  simp only [seen, withoutBody, Option.map_map, Function.comp_def, hidentity, hop, hid, hcause,
    hintent]

theorem seen_executed (op : ExecutedOp) {p q : Parts} (h : p.seen = q.seen) :
    (executed op p).seen = (executed op q).seen := by
  have hid : p.id = q.id := congrArg SeenParts.id h
  simp only [seen, executed, Option.map_some, h, hid]

end ExecutedResult

/-- What is made of results by what a reader sees of them is the same for results that look
    the same. -/
theorem map_congr_of_seen {α : Type} (f : ExecutedResult → α)
    (hf : ∀ r s : ExecutedResult, r.seen = s.seen → f r = f s) {rs ss : List ExecutedResult}
    (h : rs.map ExecutedResult.seen = ss.map ExecutedResult.seen) : rs.map f = ss.map f := by
  induction rs generalizing ss with
  | nil =>
    obtain rfl := List.map_eq_nil_iff.mp h.symm
    rfl
  | cons r rest ih =>
    cases ss with
    | nil => cases h
    | cons s others =>
      obtain ⟨hhead, htail⟩ := List.cons.inj h
      exact congrArg₂ List.cons (hf r s hhead) (ih htail)

/-! ## Records -/

/-- A reader sees the same in both records, and both hold the same binary geometry. The
    first may hold the parsed form besides, and then it is that of the bytes. -/
structure StoredRecord.Reflects (r s : StoredRecord) : Prop where
  deleted : r.deleted = s.deleted
  seen : r.parts.seen = s.parts.seen
  held : r.parts.geometry.Held
  binary : r.parts.geometry.peekBinary = s.parts.geometry.peekBinary

namespace StoredRecord.Reflects

variable {r s : StoredRecord}

theorem refl (h : r.parts.geometry.Held) : r.Reflects r := ⟨rfl, rfl, h, rfl⟩

theorem id (h : r.Reflects s) : r.parts.id = s.parts.id := congrArg SeenParts.id h.seen

theorem version (h : r.Reflects s) : r.parts.version = s.parts.version :=
  congrArg SeenParts.version h.seen

theorem state (h : r.Reflects s) : r.state = s.state := by
  simp only [StoredRecord.state, h.version, h.deleted]

theorem stamp (h : r.Reflects s) (version : String) :
    (Batch.stamp r version).Reflects (Batch.stamp s version) := by
  refine ⟨h.deleted, ?_, h.held, h.binary⟩
  have hseen := h.seen
  simp only [Parts.seen, SeenParts.mk.injEq] at hseen
  simp only [Batch.stamp, Parts.seen, hseen]

/-- What a database keeps of a written record reflects what is kept in memory. -/
theorem keeping (h : r.Reflects s) (hop : s.parts.op = none) :
    (r.keeping (RecordTable.keep MemoryStore)).Reflects (s.keeping (RecordTable.keep BatchTable)) := by
  have hkept : r.keeping (RecordTable.keep MemoryStore) = r := rfl
  rw [hkept]
  have hseen := h.seen
  simp only [Parts.seen, SeenParts.mk.injEq] at hseen
  have hbinary : (s.keeping (RecordTable.keep BatchTable)).parts.geometry
      = .ofBinary r.parts.geometry.peekBinary := congrArg GeometryCache.ofBinary h.binary.symm
  refine ⟨h.deleted, ?_, h.held, ?_⟩
  · simp only [Parts.seen, hbinary, h.held.readParsed_ofBinary, h.held.readBinary_ofBinary]
    simp only [hseen, hop]
    rfl
  · rw [hbinary]
    cases r.parts.geometry.peekBinary <;> rfl

end StoredRecord.Reflects

/-! ## Plans and effects -/

namespace Batch

/-- The plans do the same, and what they write, purge or answer looks the same. -/
def Plan.Reflects : Plan → Plan → Prop
  | .answer r, .answer s => r.seen = s.seen
  | .write op r thenPurge, .write op' s thenPurge' =>
    op = op' ∧ thenPurge = thenPurge' ∧ r.Reflects s
  | .purge p, .purge q => p.seen = q.seen
  | _, _ => False

/-- What a reader sees of the effects is the same, and the records that they leave reflect
    each other. -/
structure Effect.Reflects (e f : Effect) : Prop where
  results : e.results.map ExecutedResult.seen = f.results.map ExecutedResult.seen
  record : Option.Rel StoredRecord.Reflects e.record f.record
  wrote : e.wrote = f.wrote

namespace Plan

theorem reflects_store {intent : WriteIntent fmt}
    (h : intent.sync.codec.parts.geometry.Coherent) (op : ExecutedOp) (id : String) :
    (store op intent id).Reflects (store op intent id) := by
  unfold store
  cases hparts : incomingParts intent id with
  | error cause => exact rfl
  | ok parts =>
    refine ⟨rfl, rfl, .refl ?_⟩
    unfold incomingParts WriteIntent.parts at hparts
    cases herror : intent.sync.codec.error with
    | some e => simp [herror, Except.map] at hparts
    | none =>
      simp only [herror, Option.isSome_none, Bool.false_eq_true, if_false, Except.map,
        Except.ok.injEq] at hparts
      rw [← hparts]
      exact h.withBinary

/-- Records that reflect each other get plans that do. -/
theorem reflects_make {intent : WriteIntent fmt}
    (hintent : intent.sync.codec.parts.geometry.Coherent) (id : String)
    {stored stored' : Option StoredRecord}
    (h : Option.Rel StoredRecord.Reflects stored stored') :
    (make intent id stored).Reflects (make intent id stored') := by
  have hstate : StoredState.ofRecord? stored = StoredState.ofRecord? stored' := by
    cases h with
    | none => rfl
    | some hrecord => exact hrecord.state
  have hparts : (stored.map StoredRecord.parts).map Parts.seen
      = (stored'.map StoredRecord.parts).map Parts.seen := by
    cases h with
    | none => rfl
    | some hrecord => exact congrArg some hrecord.seen
  have hreported : ∀ withCurrent : Bool,
      (if withCurrent then stored.map StoredRecord.parts else none).map Parts.seen
        = (if withCurrent then stored'.map StoredRecord.parts else none).map Parts.seen := by
    intro withCurrent
    split
    · exact hparts
    · rfl
  have haffected : ∀ deleted : Bool,
      StoredRecord.Reflects
        { parts := (stored.map StoredRecord.parts).getD (.ofId id), deleted }
        { parts := (stored'.map StoredRecord.parts).getD (.ofId id), deleted } := by
    intro deleted
    cases h with
    | none => exact .refl trivial
    | some hrecord => exact ⟨rfl, hrecord.seen, hrecord.held, hrecord.binary⟩
  -- The state alone decides, so both records get the same decision.
  unfold make
  rw [← hstate]
  cases Resolution.resolve intent.view.1 (.ofRecord? stored) with
  | retain withCurrent =>
    simp only [ofDecision, Reflects, ExecutedResult.seen, ExecutedResult.retained, hreported]
  | fail cause withCurrent =>
    simp only [ofDecision, Reflects, ExecutedResult.seen, ExecutedResult.rejected, hreported]
  | create => exact reflects_store hintent .created id
  | update => exact reflects_store hintent .updated id
  | delete => exact ⟨rfl, rfl, haffected true⟩
  | restore => exact ⟨rfl, rfl, haffected false⟩
  | purge => exact (haffected false).seen

/-- Plans that reflect each other have effects that do, in memory and in a database. -/
theorem reflects_effect {plan plan' : Plan} (hplan : plan.Reflects plan')
    {stored stored' : Option StoredRecord}
    (hstored : Option.Rel StoredRecord.Reflects stored stored') (version : String) :
    (plan.effect (RecordTable.keep MemoryStore) stored version).Reflects
      (plan'.effect (RecordTable.keep BatchTable) stored' version) := by
  cases plan with
  | answer r =>
    cases plan' with
    | answer s => exact ⟨congrArg ([·]) hplan, hstored, rfl⟩
    | write => exact hplan.elim
    | purge => exact hplan.elim
  | purge p =>
    cases plan' with
    | answer => exact hplan.elim
    | write => exact hplan.elim
    | purge q => exact ⟨congrArg ([·]) (ExecutedResult.seen_executed .purged hplan), .none, rfl⟩
  | write op r thenPurge =>
    cases plan' with
    | answer => exact hplan.elim
    | purge => exact hplan.elim
    | write op' s thenPurge' =>
      obtain ⟨rfl, rfl, hrecord⟩ := hplan
      have hstamped := hrecord.stamp version
      have hwritten := ExecutedResult.seen_executed op hstamped.seen
      cases thenPurge with
      | false => exact ⟨congrArg ([·]) hwritten, .some (hstamped.keeping rfl), rfl⟩
      | true =>
        have hpurged := ExecutedResult.seen_executed .purged hstamped.seen
        exact ⟨congrArg₂ (fun a b => [a, b]) hwritten hpurged, .none, rfl⟩

end Plan

end Batch

/-! ## Ledgers -/

namespace Ledger

/-- The records of one ledger reflect those of the other, and both have the same versions
    to give out. -/
structure Reflects (l m : Ledger) : Prop where
  records : ∀ id, Option.Rel StoredRecord.Reflects (l.records id) (m.records id)
  versions : l.versions = m.versions

variable {l m : Ledger}

theorem Reflects.after (h : l.Reflects m) (id : String) {e f : Batch.Effect} (heffect : e.Reflects f) :
    (l.after id e).Reflects (m.after id f) := by
  constructor
  · intro other
    simp only [Ledger.after, Function.update_apply]
    split
    · exact heffect.record
    · exact h.records other
  · simp only [Ledger.after, heffect.wrote, h.versions]

theorem Reflects.execute (h : l.Reflects m) {intent : WriteIntent fmt}
    (hintent : intent.sync.codec.parts.geometry.Coherent) :
    (l.execute (RecordTable.keep MemoryStore) intent).1.map ExecutedResult.seen
        = (m.execute (RecordTable.keep BatchTable) intent).1.map ExecutedResult.seen ∧
      (l.execute (RecordTable.keep MemoryStore) intent).2.Reflects
        (m.execute (RecordTable.keep BatchTable) intent).2 := by
  unfold Ledger.execute
  cases intent.target with
  | none => exact ⟨rfl, h⟩
  | some id =>
    have heffect := Batch.Plan.reflects_effect
      (Batch.Plan.reflects_make hintent id (h.records id)) (h.records id) l.versions.head
    have hhead : (m.effect (RecordTable.keep BatchTable) intent id)
        = (Batch.Plan.make intent id (m.records id)).effect (RecordTable.keep BatchTable)
            (m.records id) l.versions.head := by
      rw [h.versions]
      rfl
    rw [← hhead] at heffect
    exact ⟨heffect.results, h.after id heffect⟩

theorem map_seen_reported {rs ss : List ExecutedResult}
    (h : rs.map ExecutedResult.seen = ss.map ExecutedResult.seen) (place : Nat) (bare : Bool) :
    (if bare then (rs.map (fun r => r.forIntent place)).map ExecutedResult.withoutBody
        else rs.map (fun r => r.forIntent place)).map ExecutedResult.seen
      = (if bare then (ss.map (fun s => s.forIntent place)).map ExecutedResult.withoutBody
        else ss.map (fun s => s.forIntent place)).map ExecutedResult.seen := by
  have hplaced : (rs.map (fun r => r.forIntent place)).map ExecutedResult.seen
      = (ss.map (fun s => s.forIntent place)).map ExecutedResult.seen := by
    simp only [List.map_map]
    exact map_congr_of_seen _ (fun r s hrs => ExecutedResult.seen_forIntent hrs place) h
  cases bare with
  | false => exact hplaced
  | true =>
    simp only [if_true, List.map_map]
    exact map_congr_of_seen (fun r => (r.forIntent place).withoutBody.seen)
      (fun r s hrs => ExecutedResult.seen_withoutBody (ExecutedResult.seen_forIntent hrs place)) h

/-- A batch reports the same to a reader on ledgers that reflect each other, and leaves
    ledgers that do. -/
theorem Reflects.executeFrom (h : l.Reflects m) (place : Nat) {intents : List (WriteIntent fmt)}
    (hintents : ∀ intent ∈ intents, intent.sync.codec.parts.geometry.Coherent) :
    (l.executeFrom (RecordTable.keep MemoryStore) place intents).1.map ExecutedResult.seen
        = (m.executeFrom (RecordTable.keep BatchTable) place intents).1.map ExecutedResult.seen ∧
      (l.executeFrom (RecordTable.keep MemoryStore) place intents).2.Reflects
        (m.executeFrom (RecordTable.keep BatchTable) place intents).2 := by
  induction intents generalizing l m place with
  | nil => exact ⟨rfl, h⟩
  | cons intent rest ih =>
    obtain ⟨hresults, hafter⟩ := h.execute (hintents intent List.mem_cons_self)
    obtain ⟨hothers, hlast⟩ := ih hafter (place + 1)
      (fun other hmem => hintents other (List.mem_cons_of_mem _ hmem))
    refine ⟨?_, hlast⟩
    simp only [Ledger.executeFrom, List.map_append]
    exact congrArg₂ (· ++ ·) (map_seen_reported hresults place intent.noResult) hothers

end Ledger

/-! ## Outcomes -/

/-- What a reader sees of an outcome: its rows, the submission order that can be restored,
    and the failure. -/
structure SeenOutcome where
  rows : List SeenRow
  inputOrder : Option (Keyed Nat)
  failure : Option StoreError

namespace WriteOutcome

variable {σ τ : Type}

def seen (outcome : WriteOutcome σ fmt) : SeenOutcome where
  rows := outcome.cursor.codecs.map Codec.seen
  inputOrder := outcome.cursor.inputOrder
  failure := outcome.failure

/-- Results that look the same rank the ids in the same way. -/
theorem ranksFrom_of_seen (order : SubmissionOrder) {rs ss : List ExecutedResult}
    (h : rs.map ExecutedResult.seen = ss.map ExecutedResult.seen) (ranks : Keyed Nat)
    (previous : Nat) : ranksFrom order ranks previous rs = ranksFrom order ranks previous ss := by
  induction rs generalizing ss ranks previous with
  | nil =>
    obtain rfl := List.map_eq_nil_iff.mp h.symm
    rfl
  | cons r rest ih =>
    cases ss with
    | nil => cases h
    | cons s others =>
      obtain ⟨hhead, htail⟩ := List.cons.inj h
      have hid : r.id = s.id := congrArg SeenResult.id hhead
      have hrank : rank order r = rank order s := by
        have hintent : r.intent = s.intent := congrArg SeenResult.intent hhead
        rw [rank, hintent, rank]
      rw [ranksFrom, ranksFrom, hid, hrank]
      cases s.id with
      | none => rfl
      | some id => simp only [ih htail]

/-- Sorting by the places of submission looks at what a reader sees. -/
theorem map_seen_mergeSort (order : SubmissionOrder) {rs ss : List ExecutedResult}
    (h : rs.map ExecutedResult.seen = ss.map ExecutedResult.seen) :
    (rs.mergeSort (rankLe order)).map ExecutedResult.seen
      = (ss.mergeSort (rankLe order)).map ExecutedResult.seen := by
  let rankOf (r : SeenResult) : Nat := (order.submittedIndex r.intent).getD lastRank
  have hsort : ∀ results : List ExecutedResult,
      (results.mergeSort (rankLe order)).map ExecutedResult.seen
        = (results.map ExecutedResult.seen).mergeSort
            (fun a b => decide (rankOf a ≤ rankOf b)) :=
    fun results => List.map_mergeSort (fun a _ b _ => rfl)
  rw [hsort rs, hsort ss, h]

/-- Outcomes of results that look the same look the same. -/
theorem seen_ofResults {rs ss : List ExecutedResult}
    (h : rs.map ExecutedResult.seen = ss.map ExecutedResult.seen) (order : Option SubmissionOrder)
    (failure : Option StoreError) :
    (ofResults rs order failure : WriteOutcome σ fmt).seen
      = (ofResults ss order failure : WriteOutcome τ fmt).seen := by
  have hrows : ∀ {rs ss : List ExecutedResult},
      rs.map ExecutedResult.seen = ss.map ExecutedResult.seen →
        (rs.map (fun r => (r.toCodec : Codec fmt))).map Codec.seen
          = (ss.map (fun s => (s.toCodec : Codec fmt))).map Codec.seen := by
    intro rs ss h
    simp only [List.map_map]
    exact map_congr_of_seen _ (fun r s => ExecutedResult.seen_toCodec) h
  cases order with
  | none => exact congrArg (fun rows => SeenOutcome.mk rows none failure) (hrows h)
  | some order =>
    have hsorted := map_seen_mergeSort order h
    have hranks : ranksById order (rs.mergeSort (rankLe order))
        = ranksById order (ss.mergeSort (rankLe order)) :=
      ranksFrom_of_seen order hsorted [] 0
    exact congrArg₂ (fun rows ranks => SeenOutcome.mk rows ranks failure) (hrows hsorted) hranks

end WriteOutcome

/-! ## Requests -/

/-- On a steady table a request is a run of its ledger. -/
theorem SteadyTable.executeRequest_ledger {σ τ : Type} [FeatureTable τ] [SteadyTable τ]
    (config : StoreConfig) (request : WriteRequest fmt) {t : τ} (h : sound t)
    (hrecords : Identified (RecordTable.records t)) :
    let done : WriteOutcome σ fmt × τ := executeRequest config request t
    let run := (ledger t).executeFrom (RecordTable.keep τ) 0 (config.arrange request).1
    done.1 = .ofResults run.1 (config.arrange request).2 none ∧
      sound done.2 ∧ ledger done.2 = run.2 := by
  intro done run
  obtain ⟨t', hrun, hsound, hledger⟩ := executeFrom_ledger 0 (config.arrange request).1 h hrecords
  have hdone : done = (.ofResults run.1 (config.arrange request).2 none, t') := by
    simp only [done, executeRequest, applyBatch, hrun]
    rfl
  rw [hdone]
  exact ⟨rfl, hsound, hledger⟩

/-- The intents of a request have coherent geometries, once their parts are known. -/
def CoherentRequest (request : WriteRequest fmt) : Prop :=
  ∀ intent ∈ request, intent.sync.codec.parts.geometry.Coherent

theorem CoherentRequest.arrange {request : WriteRequest fmt} (h : CoherentRequest request)
    (config : StoreConfig) : CoherentRequest (config.arrange request).1 := by
  unfold StoreConfig.arrange
  split
  · intro intent hmem
    obtain ⟨entry, hentry, rfl⟩ := List.mem_map.mp hmem
    have hnumbered := List.mem_mergeSort.mp hentry
    obtain ⟨⟨original, place⟩, horiginal, rfl⟩ := List.mem_map.mp hnumbered
    rw [WriteIntent.sync_sync]
    exact h original (List.fst_mem_of_mem_zipIdx horiginal)
  · exact h

/-- A request is answered alike in memory and in a database whose records reflect those in
    memory, and these reflect them afterwards. -/
theorem Ledger.Reflects.executeRequest {σ τ : Type} {s : MemoryStore} {table : BatchTable}
    (h : (SteadyTable.ledger s).Reflects (SteadyTable.ledger table)) (hs : Identified s.get)
    (htable : table.Healthy) (config : StoreConfig) {request : WriteRequest fmt}
    (hrequest : CoherentRequest request) :
    let memory : WriteOutcome σ fmt × MemoryStore := FeatureStore.executeRequest config request s
    let database : WriteOutcome τ fmt × BatchTable :=
      FeatureStore.executeRequest config request table
    memory.1.seen = database.1.seen ∧
      (SteadyTable.ledger memory.2).Reflects (SteadyTable.ledger database.2) ∧
      Identified memory.2.get := by
  intro memory database
  -- The keys of the collection are right because those in memory are.
  have hidentified : Identified (RecordTable.records table) := by
    intro id record hrecord
    have hrel : Option.Rel StoredRecord.Reflects (s.get id) (RecordTable.records table id) :=
      h.records id
    rw [hrecord] at hrel
    cases hmemory : s.get id with
    | none =>
      rw [hmemory] at hrel
      cases hrel
    | some original =>
      rw [hmemory] at hrel
      cases hrel with
      | some hreflects => rw [← hreflects.id]; exact hs id original hmemory
  -- Neither table is stopped, so each request does what it does to the ledger of its table.
  obtain ⟨hmemory, -, hlast⟩ :=
    SteadyTable.executeRequest_ledger (σ := σ) (t := s) config request trivial hs
  obtain ⟨hdatabase, -, hfinal⟩ :=
    SteadyTable.executeRequest_ledger (σ := τ) (t := table) config request htable hidentified
  obtain ⟨hresults, hreflects⟩ := h.executeFrom 0 (hrequest.arrange config)
  refine ⟨?_, ?_, ?_⟩
  · rw [hmemory, hdatabase]
    exact WriteOutcome.seen_ofResults hresults _ none
  · rw [hlast, hfinal]
    exact hreflects
  · have hget : memory.2.get = (SteadyTable.ledger memory.2).records := rfl
    rw [hget, hlast]
    exact Ledger.identified_executeFrom _ 0 _ _ hs

end FeatureStore
