-- SUMMARY: Every record of a store carries its key as its id and a version, whatever has failed or been damaged on the way.
import FeatureStore.Proofs.Policies
import FeatureStore.Proofs.ReachedRecords

/-!
# Marked records

Whoever wants to guard a write needs an id and a version of what is stored. Both are on every
record: a batch writes nothing but stamped records under the ids of its intents, also one that a
failure has stopped. So it stays in a database that any stores work on and that is damaged and
repaired in between. A fault may take records away, and brings none.
-/

namespace FeatureStore

variable {fmt : Format}

/-- Every record carries its key as its id, and it carries a version. -/
structure Marked (records : String → Option StoredRecord) : Prop where
  identified : Identified records
  versioned : Versioned records

namespace Marked

variable {records : String → Option StoredRecord}

theorem nil : Marked (fun _ => none) where
  identified _ _ h := by cases h
  versioned _ _ h := by cases h

/-- The marks of a record with an id. -/
theorem exists_version (h : Marked records) {id : String} {record : StoredRecord}
    (hrecord : records id = some record) :
    record.parts.id = some id ∧ ∃ version, record.parts.version = some version :=
  ⟨h.identified id record hrecord, Option.isSome_iff_exists.mp (h.versioned id record hrecord)⟩

theorem update (h : Marked records) {id : String} {record : Option StoredRecord}
    (hid : ∀ r, record = some r → r.parts.id = some id)
    (hversion : ∀ r, record = some r → r.parts.version.isSome) :
    Marked (Function.update records id record) where
  identified := h.identified.update hid
  versioned other r hr := by
    by_cases heq : other = id
    · subst heq
      rw [Function.update_self] at hr
      exact hversion r hr
    · rw [Function.update_of_ne heq] at hr
      exact h.versioned other r hr

theorem erase (h : Marked records) (id : String) : Marked (Function.update records id none) :=
  h.update (fun _ hr => by cases hr) (fun _ hr => by cases hr)

/-- What is stamped under an id is marked. -/
theorem stamp (h : Marked records) {id : String} {record : StoredRecord}
    (hid : record.parts.id = some id) (version : String) (keep : Body → Body) :
    Marked (Function.update records id (some ((Batch.stamp record version).keeping keep))) := by
  refine h.update (fun r hr => ?_) (fun r hr => ?_)
  · cases hr
    exact hid
  · cases hr
    rfl

end Marked

/-! ## Batches -/

namespace Batch

variable {τ : Type} [FeatureTable τ] [RecordTable τ] {t : τ}

/-- A write changes nothing, or puts its record in place under a version. -/
theorem records_write_cases (op : ExecutedOp) (record : StoredRecord) (t : τ) :
    RecordTable.records (write op record t).table = RecordTable.records t ∨
      ∃ version, RecordTable.records (write op record t).table
        = Function.update (RecordTable.records t) record.key
            (some ((stamp record version).keeping (RecordTable.keep τ))) := by
  rw [write_eq]
  split
  · next hversion => exact .inl (RecordTable.nextVersion_records hversion)
  · next version t₁ hversion =>
    have hrecords := RecordTable.nextVersion_records hversion
    split
    · next hsave => exact .inl ((RecordTable.save_error hsave).trans hrecords)
    · next hsave =>
      refine .inr ⟨version, (RecordTable.save_ok hsave).trans ?_⟩
      rw [hrecords]
      rfl

theorem records_purgeAfter_cases (results : List ExecutedResult) (id : String) (parts : Parts)
    (t : τ) :
    let after := RecordTable.records (Plan.purgeAfter results id parts t).table
    after = RecordTable.records t ∨ after = Function.update (RecordTable.records t) id none := by
  unfold Plan.purgeAfter
  split
  · next hpurge => exact .inl (RecordTable.purge_error hpurge)
  · next hpurge => exact .inr (RecordTable.purge_ok hpurge)

theorem marked_write (h : Marked (RecordTable.records t)) (op : ExecutedOp) {record : StoredRecord}
    {id : String} (hid : record.parts.id = some id) :
    Marked (RecordTable.records (write op record t).table) := by
  have hkey : record.key = id := by rw [StoredRecord.key, hid, Option.getD_some]
  obtain hsame | ⟨version, hdone⟩ := records_write_cases op record t
  · rwa [hsame]
  · rw [hdone, hkey]
    exact h.stamp hid version _

theorem marked_purgeAfter (h : Marked (RecordTable.records t)) (results : List ExecutedResult)
    (id : String) (parts : Parts) :
    Marked (RecordTable.records (Plan.purgeAfter results id parts t).table) := by
  obtain hsame | hdone := records_purgeAfter_cases results id parts t
  · rwa [hsame]
  · rw [hdone]
    exact h.erase id

theorem marked_perform (h : Marked (RecordTable.records t)) {id : String} {plan : Plan}
    (hplan : plan.KeyedBy id) : Marked (RecordTable.records (plan.perform id t).table) := by
  cases plan with
  | answer result => exact h
  | purge parts => exact marked_purgeAfter h [] id parts
  | write op record thenPurge =>
    have hwrite := marked_write h op hplan
    simp only [Plan.perform]
    split
    · split
      · exact marked_purgeAfter hwrite _ id _
      · exact hwrite
    · exact hwrite

theorem marked_execute (h : Marked (RecordTable.records t)) (intent : WriteIntent fmt) :
    Marked (RecordTable.records (execute intent t).table) := by
  rw [execute_eq]
  split
  · exact h
  · next id _ =>
    split
    · next hload => rwa [← RecordTable.load_error hload] at h
    · next stored t₁ hload =>
      obtain ⟨rfl, hrecords⟩ := RecordTable.load_ok hload
      have hplan := Plan.keyedBy_make intent (fun record => h.identified id record)
      rw [← hrecords] at h
      exact marked_perform h hplan

/-- Whatever a batch leaves is marked, also where it has been stopped. -/
theorem marked_executeFrom (h : Marked (RecordTable.records t)) (place : Nat)
    (intents : List (WriteIntent fmt)) :
    Marked (RecordTable.records (executeFrom place t intents).2) := by
  induction intents generalizing place t with
  | nil => exact h
  | cons intent rest ih =>
    have hstep := marked_execute h intent
    simp only [executeFrom]
    split
    · exact hstep
    · exact ih hstep (place + 1)

end Batch

/-! ## Stores -/

theorem MemoryStore.Reachable.marked {s : MemoryStore} (h : MemoryStore.Reachable s) :
    Marked s.get :=
  ⟨h.numbered.identified, h.numbered.versioned⟩

namespace Database

/-- The databases that come about when stores are opened on an empty one and execute batches,
    and faults happen in between. -/
inductive Reachable : Database → Prop
  | empty : Reachable {}
  | openStore {db : Database} : Reachable db → Reachable db.createTables
  | execute {db : Database} (s : DatabaseStore) {fmt : Format} (request : WriteRequest fmt) :
    Reachable db → Reachable (db.afterBatch s request)
  | suffer {db : Database} (fault : Fault) : Reachable db → Reachable (db.suffer fault)

/-- A fault changes no record of a collection, or takes them all away. -/
theorem records_suffer (db : Database) (fault : Fault) (collection : String) :
    (db.suffer fault).records collection = db.records collection ∨
      (db.suffer fault).records collection = .empty := by
  cases fault with
  | dropFeatures => exact .inr rfl
  | dropBatches => exact .inl rfl
  | heal => exact .inl rfl
  | rejectSave id =>
    left
    simp only [suffer]
    split <;> rfl
  | rejectPurge id =>
    left
    simp only [suffer]
    split <;> rfl

/-- A batch leaves every collection marked. -/
theorem marked_afterBatch {db : Database} (h : ∀ collection, Marked (db.records collection).find?)
    (s : DatabaseStore) (request : WriteRequest fmt) (collection : String) :
    Marked ((db.afterBatch s request).records collection).find? := by
  obtain ⟨hsame, -⟩ | ⟨begun, hbegin, -, hafter, haside⟩ := db.afterBatch_cases s request
  · rw [hsame]
    exact h collection
  · by_cases hown : collection = s.config.collection
    · subst hown
      have hbegun := h s.config.collection
      rw [← records_begun hbegin] at hbegun
      have hdone := Batch.marked_executeFrom hbegun 0 (s.config.arrange request).1
      have hrecords := funext (fun id => haside.own ▸ BatchTable.find?_eq _ id)
      rw [hafter, ← hrecords]
      exact hdone
    · have hothers : (db.afterBatch s request).records collection = db.records collection :=
        (execute_aside db s request hown).1
      rw [hothers]
      exact h collection

theorem Reachable.marked {db : Database} (h : db.Reachable) (collection : String) :
    Marked (db.records collection).find? := by
  induction h generalizing collection with
  | empty => exact .nil
  | openStore _ ih =>
    rw [records_createTables]
    exact ih collection
  | execute s request _ ih => exact marked_afterBatch ih s request collection
  | @suffer db fault _ ih =>
    rcases db.records_suffer fault collection with hsame | hnone
    · rw [hsame]
      exact ih collection
    · rw [hnone]
      exact .nil

end Database

end FeatureStore
