-- SUMMARY: Batches of intents that look the same, on tables that differ in derived forms of geometries alone.
import FeatureStore.Proofs.Agreement
import FeatureStore.Proofs.Coherence

/-!
# Derived forms

A record that has been read may hold a parsed geometry besides the binary one, and an intent
that has been read may hand such a record to a table. No table of the library treats records
differently for that. A relation of tables is *blind* if every operation keeps it, whichever
of two such records is saved, and answers alike on both tables. From the four operations of a
table this carries over to a write, to a plan, to an intent and to a batch.
-/

namespace FeatureStore

variable {τ : Type} [FeatureTable τ] {fmt : Format}

/-! ## Records -/

/-- The records look the same to a reader and hold the same binary geometry. A parsed form may
    be held by one of them alone. -/
structure StoredRecord.Resembles (r s : StoredRecord) : Prop where
  deleted : r.deleted = s.deleted
  seen : r.parts.seen = s.parts.seen
  binary : r.parts.geometry.peekBinary = s.parts.geometry.peekBinary

namespace StoredRecord.Resembles

variable {r s : StoredRecord}

theorem refl (r : StoredRecord) : r.Resembles r := ⟨rfl, rfl, rfl⟩

theorem key (h : r.Resembles s) : r.key = s.key := by
  have hid : r.parts.id = s.parts.id := congrArg SeenParts.id h.seen
  rw [StoredRecord.key, StoredRecord.key, hid]

theorem state (h : r.Resembles s) : r.state = s.state := by
  have hversion : r.parts.version = s.parts.version := congrArg SeenParts.version h.seen
  simp only [StoredRecord.state, hversion, h.deleted]

theorem stamp (h : r.Resembles s) (version : String) :
    (Batch.stamp r version).Resembles (Batch.stamp s version) := by
  refine ⟨h.deleted, ?_, h.binary⟩
  have hseen := h.seen
  simp only [Parts.seen, SeenParts.mk.injEq] at hseen
  simp only [Batch.stamp, Parts.seen, hseen]

/-- A database keeps nothing by which they differ. -/
theorem kept_eq (h : r.Resembles s) : Database.kept r = Database.kept s := by
  obtain ⟨⟨op, id, version, featureType, propertiesType, json, geometry⟩, deleted⟩ := r
  obtain ⟨hdeleted, hseen, hbinary⟩ := h
  simp only [Parts.seen, SeenParts.mk.injEq] at hseen
  obtain ⟨-, hid, hversion, hfeatureType, hpropertiesType, hjson, -, -⟩ := hseen
  simp only at hdeleted hid hversion hfeatureType hpropertiesType hjson hbinary
  simp only [Database.kept, hdeleted, hid, hversion, hfeatureType, hpropertiesType, hjson, hbinary]

end StoredRecord.Resembles

/-- Both fail in the same way, or neither, and then with records that resemble each other or
    with none. -/
inductive AlikeRecords :
    Except StoreError (Option StoredRecord) → Except StoreError (Option StoredRecord) → Prop
  | failed (failure : StoreError) : AlikeRecords (.error failure) (.error failure)
  | ok {r s : Option StoredRecord} (h : Option.Rel StoredRecord.Resembles r s) :
    AlikeRecords (.ok r) (.ok s)

theorem AlikeRecords.refl (result : Except StoreError (Option StoredRecord)) :
    AlikeRecords result result := by
  cases result with
  | error failure => exact .failed failure
  | ok record? =>
    cases record? with
    | none => exact .ok .none
    | some record => exact .ok (.some (.refl record))

namespace Batch

/-! ## Plans -/

/-- The plans do the same, and what they write, purge or answer looks the same. -/
inductive Plan.Resembles : Plan → Plan → Prop
  | answer {r s : ExecutedResult} (h : r.seen = s.seen) : Resembles (.answer r) (.answer s)
  | write {r s : StoredRecord} (op : ExecutedOp) (h : r.Resembles s) (thenPurge : Bool) :
    Resembles (.write op r thenPurge) (.write op s thenPurge)
  | purge {p q : Parts} (h : p.seen = q.seen) : Resembles (.purge p) (.purge q)

/-- The steps look the same, and the tables that they leave are related. -/
structure Step.Alike (R : τ → τ → Prop) (a b : Step τ) : Prop where
  results : a.results.map ExecutedResult.seen = b.results.map ExecutedResult.seen
  written : AlikeRecords a.written b.written
  table : R a.table b.table

/-- The batches have been reported alike, and the tables that they leave are related. -/
structure AlikeRuns (R : τ → τ → Prop) (run other : BatchReport × τ) : Prop where
  results : run.1.results.map ExecutedResult.seen = other.1.results.map ExecutedResult.seen
  failure : run.1.failure = other.1.failure
  table : R run.2 other.2

/-- Every operation keeps the relation and answers alike, whichever of two records that resemble
    each other it is given. -/
structure Blind (R : τ → τ → Prop) : Prop where
  load : ∀ {t u} id, R t u →
    AlikeRecords (FeatureTable.load id t).1 (FeatureTable.load id u).1 ∧
      R (FeatureTable.load id t).2 (FeatureTable.load id u).2
  save : ∀ {t u r s}, r.Resembles s → R t u →
    (FeatureTable.save r t).1 = (FeatureTable.save s u).1 ∧
      R (FeatureTable.save r t).2 (FeatureTable.save s u).2
  purge : ∀ {t u} id, R t u →
    (FeatureTable.purge id t).1 = (FeatureTable.purge id u).1 ∧
      R (FeatureTable.purge id t).2 (FeatureTable.purge id u).2
  nextVersion : ∀ {t u}, R t u →
    (FeatureTable.nextVersion t).1 = (FeatureTable.nextVersion u).1 ∧
      R (FeatureTable.nextVersion t).2 (FeatureTable.nextVersion u).2

namespace Blind

variable {R : τ → τ → Prop} {t u : τ}

omit [FeatureTable τ] in
theorem stop (failure : StoreError) (ht : R t u) :
    (Batch.stop failure t).Alike R (Batch.stop failure u) :=
  ⟨rfl, .failed failure, ht⟩

omit [FeatureTable τ] in
theorem report {r s : ExecutedResult} (h : r.seen = s.seen) (ht : R t u) :
    (Batch.report r t).Alike R (Batch.report s u) :=
  ⟨congrArg ([·]) h, .ok .none, ht⟩

theorem write (h : Blind R) (op : ExecutedOp) {r s : StoredRecord} (hrecord : r.Resembles s)
    (ht : R t u) : (Batch.write op r t).Alike R (Batch.write op s u) := by
  have hversion := h.nextVersion ht
  rw [write_eq, write_eq]
  generalize FeatureTable.nextVersion t = a at hversion
  generalize FeatureTable.nextVersion u = b at hversion
  obtain ⟨version, t₁⟩ := a
  obtain ⟨version', u₁⟩ := b
  obtain ⟨rfl, ht₁⟩ : version = version' ∧ R t₁ u₁ := hversion
  cases version with
  | error failure => exact stop failure ht₁
  | ok version =>
    have hstamped := hrecord.stamp version
    have hsave := h.save hstamped ht₁
    simp only
    generalize FeatureTable.save (stamp r version) t₁ = a at hsave
    generalize FeatureTable.save (stamp s version) u₁ = b at hsave
    obtain ⟨saved, t₂⟩ := a
    obtain ⟨saved', u₂⟩ := b
    obtain ⟨rfl, ht₂⟩ : saved = saved' ∧ R t₂ u₂ := hsave
    cases saved with
    | error failure => exact stop failure ht₂
    | ok _ =>
      exact ⟨congrArg ([·]) (ExecutedResult.seen_executed op hstamped.seen),
        .ok (.some hstamped), ht₂⟩

theorem purgeAfter (h : Blind R) {results others : List ExecutedResult}
    (hresults : results.map ExecutedResult.seen = others.map ExecutedResult.seen) (id : String)
    {p q : Parts} (hparts : p.seen = q.seen) (ht : R t u) :
    (Plan.purgeAfter results id p t).Alike R (Plan.purgeAfter others id q u) := by
  have hpurge := h.purge id ht
  unfold Plan.purgeAfter
  generalize FeatureTable.purge id t = a at hpurge
  generalize FeatureTable.purge id u = b at hpurge
  obtain ⟨purged, t₁⟩ := a
  obtain ⟨purged', u₁⟩ := b
  obtain ⟨rfl, ht₁⟩ : purged = purged' ∧ R t₁ u₁ := hpurge
  cases purged with
  | error failure => exact ⟨hresults, .failed failure, ht₁⟩
  | ok _ =>
    refine ⟨?_, .ok .none, ht₁⟩
    simp only [List.map_append, hresults, List.map_cons, List.map_nil,
      ExecutedResult.seen_executed .purged hparts]

theorem perform (h : Blind R) (id : String) {plan other : Plan} (hplan : plan.Resembles other)
    (ht : R t u) : (plan.perform id t).Alike R (other.perform id u) := by
  cases hplan with
  | answer hseen => exact report hseen ht
  | purge hseen => exact h.purgeAfter rfl id hseen ht
  | @write r s op hrecord thenPurge =>
    have hwrite := h.write op hrecord ht
    simp only [Plan.perform]
    generalize Batch.write op r t = a at hwrite
    generalize Batch.write op s u = b at hwrite
    obtain ⟨results, written, t₁⟩ := a
    obtain ⟨others, written', u₁⟩ := b
    obtain ⟨hresults, hwritten, ht₁⟩ := hwrite
    cases hwritten with
    | failed failure => exact ⟨hresults, .failed failure, ht₁⟩
    | ok hrel =>
      cases hrel with
      | none => exact ⟨hresults, .ok .none, ht₁⟩
      | some hstamped =>
        cases thenPurge with
        | false => exact ⟨hresults, .ok (.some hstamped), ht₁⟩
        | true => exact h.purgeAfter hresults id hstamped.seen ht₁

end Blind

end Batch

/-! ## Intents -/

/-- The parts as they are stored for an id. -/
def Parts.storedAs (p : Parts) (id : String) : Parts :=
  { p with id := some id, geometry := p.geometry.withBinary }

theorem Parts.seen_storedAs {p q : Parts} (h : p.seen = q.seen) (id : String) :
    (p.storedAs id).seen = (q.storedAs id).seen := by
  have hbinary (cache : GeometryCache) : cache.withBinary.readBinary.1 = cache.readBinary.1 := by
    cases cache <;> rfl
  simp only [seen, SeenParts.mk.injEq] at h
  simp only [seen, storedAs, GeometryCache.readParsed_withBinary, hbinary, h]

/-- What is stored of an intent without an error. -/
theorem Batch.incomingParts_of_valid {intent : WriteIntent fmt}
    (h : intent.sync.codec.error.isSome = false) (id : String) :
    incomingParts intent id = .ok (intent.sync.codec.parts.storedAs id) := by
  simp only [incomingParts, WriteIntent.parts, h, Bool.false_eq_true, if_false]
  rfl

/-- The intents are the same in everything that executing them looks at: in what is read of
    them, and in whether they have an error then. -/
structure WriteIntent.Alike (intent other : WriteIntent fmt) : Prop where
  view : intent.view.1 = other.view.1
  noResult : intent.noResult = other.noResult
  parts : intent.sync.codec.parts.seen = other.sync.codec.parts.seen
  error : intent.sync.codec.error.isSome = other.sync.codec.error.isSome

namespace WriteIntent.Alike

variable {intent other : WriteIntent fmt}

theorem target (h : intent.Alike other) : intent.target = other.target := by
  have hid : intent.sync.codec.parts.id = other.sync.codec.parts.id :=
    congrArg SeenParts.id h.parts
  rw [WriteIntent.target, WriteIntent.target, hid]

theorem store (h : intent.Alike other) (op : ExecutedOp) (id : String) :
    (Batch.Plan.store op intent id).Resembles (Batch.Plan.store op other id) := by
  have herror := h.error
  cases hintent : intent.sync.codec.error.isSome with
  | true =>
    rw [hintent] at herror
    have hinvalid {i : WriteIntent fmt} (hi : i.sync.codec.error.isSome = true) :
        Batch.incomingParts i id = .error .invalid := by
      simp only [Batch.incomingParts, WriteIntent.parts, hi, if_true]
      rfl
    rw [Batch.Plan.store, Batch.Plan.store, hinvalid hintent, hinvalid herror.symm]
    exact .answer rfl
  | false =>
    rw [hintent] at herror
    rw [Batch.Plan.store, Batch.Plan.store, Batch.incomingParts_of_valid hintent,
      Batch.incomingParts_of_valid herror.symm]
    have hrecord : StoredRecord.Resembles ⟨intent.sync.codec.parts.storedAs id, false⟩
        ⟨other.sync.codec.parts.storedAs id, false⟩ :=
      ⟨rfl, Parts.seen_storedAs h.parts id, congrArg SeenParts.binary h.parts⟩
    exact .write op hrecord false

theorem make (h : intent.Alike other) (id : String) {stored stored' : Option StoredRecord}
    (hstored : Option.Rel StoredRecord.Resembles stored stored') :
    (Batch.Plan.make intent id stored).Resembles (Batch.Plan.make other id stored') := by
  have hstate : StoredState.ofRecord? stored = StoredState.ofRecord? stored' := by
    cases hstored with
    | none => rfl
    | some hrecord => exact hrecord.state
  have hop : intent.op = other.op := congrArg IntentView.op h.view
  have hcurrent (withCurrent : Bool) :
      (if withCurrent then stored.map StoredRecord.parts else none).map Parts.seen
        = (if withCurrent then stored'.map StoredRecord.parts else none).map Parts.seen := by
    cases withCurrent with
    | false => rfl
    | true =>
      cases hstored with
      | none => rfl
      | some hrecord => exact congrArg some hrecord.seen
  have haffected (deleted : Bool) : StoredRecord.Resembles
      { parts := (stored.map StoredRecord.parts).getD (.ofId id), deleted }
      { parts := (stored'.map StoredRecord.parts).getD (.ofId id), deleted } := by
    cases hstored with
    | none => exact .refl _
    | some hrecord => exact ⟨rfl, hrecord.seen, hrecord.binary⟩
  -- Both intents show the same to the decision, and so do both records.
  unfold Batch.Plan.make
  rw [h.view, hstate]
  cases Resolution.resolve other.view.1 (.ofRecord? stored') with
  | retain withCurrent =>
    apply Batch.Plan.Resembles.answer
    simp only [ExecutedResult.seen, ExecutedResult.retained, hcurrent]
  | fail cause withCurrent =>
    apply Batch.Plan.Resembles.answer
    simp only [ExecutedResult.seen, ExecutedResult.rejected, hcurrent]
  | create => exact h.store .created id
  | update => exact h.store .updated id
  | delete =>
    simp only [Batch.Plan.ofDecision, hop]
    exact .write .deleted (haffected true) _
  | restore => exact .write .restored (haffected false) false
  | purge => exact .purge (haffected false).seen

end WriteIntent.Alike

namespace Batch.Blind

variable {R : τ → τ → Prop} {t u : τ}

theorem execute (h : Blind R) {intent other : WriteIntent fmt} (hintent : intent.Alike other)
    (ht : R t u) : (Batch.execute intent t).Alike R (Batch.execute other u) := by
  rw [execute_eq, execute_eq, hintent.target]
  cases other.target with
  | none => exact report rfl ht
  | some id =>
    have hload := h.load id ht
    simp only
    generalize FeatureTable.load id t = a at hload
    generalize FeatureTable.load id u = b at hload
    obtain ⟨loaded, t₁⟩ := a
    obtain ⟨loaded', u₁⟩ := b
    obtain ⟨hloaded, ht₁⟩ := hload
    cases hloaded with
    | failed failure => exact stop failure ht₁
    | ok hrel => exact h.perform id (hintent.make id hrel) ht₁

/-- A batch of intents that look the same reports the same to a reader, and leaves related
    tables. -/
theorem executeFrom (h : Blind R) (place : Nat) {intents others : List (WriteIntent fmt)}
    (hintents : List.Forall₂ WriteIntent.Alike intents others) (ht : R t u) :
    AlikeRuns R (Batch.executeFrom place t intents) (Batch.executeFrom place u others) := by
  induction hintents generalizing place t u with
  | nil => exact ⟨rfl, rfl, ht⟩
  | @cons intent other rest others hintent hrest ih =>
    have hstep := h.execute hintent ht
    simp only [Batch.executeFrom]
    generalize Batch.execute intent t = a at hstep
    generalize Batch.execute other u = b at hstep
    obtain ⟨results, written, t₁⟩ := a
    obtain ⟨results', written', u₁⟩ := b
    obtain ⟨hresults, hwritten, ht₁⟩ := hstep
    cases hwritten with
    | failed failure => exact ⟨Ledger.map_seen_reported hresults place false, rfl, ht₁⟩
    | ok hrel =>
      obtain ⟨hothers, hfailure, hlast⟩ := ih (place + 1) ht₁
      refine ⟨?_, hfailure, hlast⟩
      simp only [List.map_append, hintent.noResult]
      exact congrArg₂ (· ++ ·) (Ledger.map_seen_reported hresults place other.noResult) hothers

end Batch.Blind

/-! ## The tables -/

/-- The stores differ in the parsed geometries that their records hold, if at all. -/
structure MemoryStore.Resembles (s t : MemoryStore) : Prop where
  config : s.config = t.config
  batch : s.batch = t.batch
  writes : s.writes = t.writes
  closed : s.closed = t.closed
  records : ∀ id, Option.Rel StoredRecord.Resembles (s.get id) (t.get id)

theorem MemoryStore.Resembles.refl (s : MemoryStore) : s.Resembles s := by
  refine ⟨rfl, rfl, rfl, rfl, fun id => ?_⟩
  cases s.get id with
  | none => exact .none
  | some record => exact .some (.refl record)

theorem MemoryStore.blind : Batch.Blind MemoryStore.Resembles where
  load id h := ⟨.ok (h.records id), h⟩
  save {s t r r'} hrecord h := by
    refine ⟨rfl, h.config, h.batch, h.writes, h.closed, fun id => ?_⟩
    have hget (s : MemoryStore) (r : StoredRecord) :
        (FeatureTable.save r s).2.get id = if r.key = id then some r else s.get id :=
      Dictionary.find?_insert r.key id r s.records
    rw [hget, hget, hrecord.key]
    split
    · exact .some hrecord
    · exact h.records id
  purge {s t} key h := by
    refine ⟨rfl, h.config, h.batch, h.writes, h.closed, fun id => ?_⟩
    have hget (s : MemoryStore) :
        (FeatureTable.purge key s).2.get id = if key = id then none else s.get id :=
      Dictionary.find?_erase key id s.records
    rw [hget, hget]
    split
    · exact .none
    · exact h.records id
  nextVersion {s t} h := by
    have htoken : s.nextVersion.1 = t.nextVersion.1 := by
      simp only [MemoryStore.nextVersion, h.config, h.batch, h.writes]
    refine ⟨congrArg Except.ok htoken, h.config, h.batch, ?_, h.closed, h.records⟩
    exact congrArg nextCount h.writes

/-- The tables of a database differ in nothing. -/
theorem BatchTable.blind : Batch.Blind (@Eq BatchTable) where
  load id h := by
    subst h
    exact ⟨.refl _, rfl⟩
  save {t u r s} hrecord h := by
    subst h
    have hsame : FeatureTable.save r t = FeatureTable.save s t := by
      have hsaved : t.database.save t.collection r = t.database.save t.collection s := by
        simp only [Database.save, hrecord.key, hrecord.kept_eq]
      exact congrArg t.afterStatement hsaved
    rw [hsame]
    exact ⟨rfl, rfl⟩
  purge id h := by
    subst h
    exact ⟨rfl, rfl⟩
  nextVersion h := by
    subst h
    exact ⟨rfl, rfl⟩

end FeatureStore
