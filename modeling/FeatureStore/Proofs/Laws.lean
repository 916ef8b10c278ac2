-- SUMMARY: Laws of tables: maps of records whose operations may fail, and tables that never fail.
import Mathlib.Data.Stream.Init
import Mathlib.Logic.Function.Basic
import FeatureStore.Store.DatabaseStore
import FeatureStore.Store.Limited
import FeatureStore.Store.Memory

/-!
# Laws of tables

A table of any kind is a map from ids to records: an operation that succeeds acts on
that map, and one that fails leaves it as it was. A table may keep less of a record than
it is given, as a database does, which has no place for a parsed geometry.

A steady table does more. As long as it is in order no operation fails, and the versions
that it will allocate are known beforehand.
-/

namespace FeatureStore

/-- A feature apart from its id and its version. -/
structure Body where
  op : Option ExecutedOp
  featureType : Option String
  propertiesType : Option String
  json : Option String
  geometry : GeometryCache

namespace Parts

def body (p : Parts) : Body :=
  { op := p.op, featureType := p.featureType, propertiesType := p.propertiesType
    json := p.json, geometry := p.geometry }

/-- The parts with another body under the same id and version. -/
def withBody (p : Parts) (body : Body) : Parts :=
  { p with
    op := body.op, featureType := body.featureType, propertiesType := body.propertiesType
    json := body.json, geometry := body.geometry }

end Parts

/-- A record of which a table has kept only some of the body. -/
def StoredRecord.keeping (record : StoredRecord) (keep : Body → Body) : StoredRecord :=
  { record with parts := record.parts.withBody (keep record.parts.body) }

/-- A table that acts on a map from ids to records. -/
class RecordTable (τ : Type) [FeatureTable τ] where
  /-- The record of each id. -/
  records : τ → String → Option StoredRecord
  /-- What the table keeps of a body. -/
  keep : Body → Body
  load_ok : ∀ {id t stored t'}, FeatureTable.load id t = (.ok stored, t') →
    stored = records t id ∧ records t' = records t
  load_error : ∀ {id t failure t'}, FeatureTable.load id t = (.error failure, t') →
    records t' = records t
  save_ok : ∀ {record t t'}, FeatureTable.save record t = (.ok (), t') →
    records t' = Function.update (records t) record.key (some (record.keeping keep))
  save_error : ∀ {record t failure t'}, FeatureTable.save record t = (.error failure, t') →
    records t' = records t
  purge_ok : ∀ {id t t'}, FeatureTable.purge id t = (.ok (), t') →
    records t' = Function.update (records t) id none
  purge_error : ∀ {id t failure t'}, FeatureTable.purge id t = (.error failure, t') →
    records t' = records t
  nextVersion_records : ∀ {t result t'}, FeatureTable.nextVersion t = (result, t') →
    records t' = records t

/-- A table that never fails while it is in order, and whose versions are known. -/
class SteadyTable (τ : Type) [FeatureTable τ] extends RecordTable τ where
  /-- The table is in order. -/
  sound : τ → Prop
  /-- The versions of the next states, in the order in which they will be allocated. -/
  versions : τ → Stream' String
  load_sound : ∀ {t} id, sound t → ∃ t', FeatureTable.load id t = (.ok (records t id), t') ∧
    sound t' ∧ versions t' = versions t
  save_sound : ∀ {t} record, sound t → ∃ t', FeatureTable.save record t = (.ok (), t') ∧
    sound t' ∧ versions t' = versions t
  purge_sound : ∀ {t} id, sound t → ∃ t', FeatureTable.purge id t = (.ok (), t') ∧
    sound t' ∧ versions t' = versions t
  nextVersion_sound : ∀ {t}, sound t →
    ∃ t', FeatureTable.nextVersion t = (.ok (versions t).head, t') ∧
      sound t' ∧ versions t' = (versions t).tail

/-- Every record carries its key as its id. -/
def Identified (records : String → Option StoredRecord) : Prop :=
  ∀ id record, records id = some record → record.parts.id = some id

/-- Every record carries a version. -/
def Versioned (records : String → Option StoredRecord) : Prop :=
  ∀ id record, records id = some record → record.parts.version.isSome

/-! ## The versions of a counter -/

/-- The versions that a counter of writes will give out from a count on. -/
def counterVersions (collection : String) (batch writes : Nat) : Stream' String :=
  (Stream'.iterate nextCount (nextCount writes)).map (versionToken collection batch)

@[simp] theorem counterVersions_tail (collection : String) (batch writes : Nat) :
    (counterVersions collection batch writes).tail
      = counterVersions collection batch (nextCount writes) := by
  rw [counterVersions, Stream'.tail_map, Stream'.tail_iterate]
  rfl

/-! ## The store in memory -/

namespace MemoryStore

theorem get_insert (s : MemoryStore) (record : StoredRecord) :
    MemoryStore.get { s with records := s.records.insert record.key record }
      = Function.update s.get record.key (some record) := by
  funext id
  simp only [get, Dictionary.find?_insert, Function.update_apply, eq_comm]

theorem get_erase (s : MemoryStore) (id : String) :
    MemoryStore.get { s with records := s.records.erase id } = Function.update s.get id none := by
  funext other
  simp only [get, Dictionary.find?_erase, Function.update_apply, eq_comm]

instance : SteadyTable MemoryStore where
  records := get
  keep := id
  load_ok h := by cases h; exact ⟨rfl, rfl⟩
  load_error h := by cases h
  save_ok h := by cases h; exact get_insert _ _
  save_error h := by cases h
  purge_ok h := by cases h; exact get_erase _ _
  purge_error h := by cases h
  nextVersion_records h := by cases h; rfl
  sound _ := True
  versions s := counterVersions s.config.collection s.batch s.writes
  load_sound _ _ := ⟨_, rfl, trivial, rfl⟩
  save_sound _ _ := ⟨_, rfl, trivial, rfl⟩
  purge_sound _ _ := ⟨_, rfl, trivial, rfl⟩
  nextVersion_sound _ := ⟨_, rfl, trivial, (counterVersions_tail _ _ _).symm⟩

end MemoryStore

/-! ## The table of a batch on a database

A database keeps neither an operation nor a parsed geometry. A batch on it is in order
as long as the tables are there and no id is refused. -/

namespace BatchTable

def find? (table : BatchTable) (id : String) : Option StoredRecord :=
  table.database.features.bind (fun features =>
    (Database.recordsOf features table.collection).find? id)

/-- The database has its tables and refuses no id. -/
def Healthy (table : BatchTable) : Prop :=
  table.database.features.isSome ∧ table.database.rejectedSaves = [] ∧
    table.database.rejectedPurges = []

theorem load_eq {table : BatchTable} {id : String} {stored : Option StoredRecord}
    (h : table.database.load table.collection id = .ok stored) : stored = table.find? id := by
  unfold Database.load at h
  unfold find?
  split at h
  · cases h
  · next features hfeatures =>
    cases h
    simp [hfeatures]

theorem find?_save {table : BatchTable} {record : StoredRecord} {database : Database}
    (h : table.database.save table.collection record = .ok database) :
    find? { table with database }
      = Function.update table.find? record.key (some (Database.kept record)) := by
  unfold Database.save at h
  split at h
  · cases h
  · next features hfeatures =>
    split at h
    · cases h
    · cases h
      funext id
      simp only [find?, hfeatures, Option.bind_some, Database.recordsOf,
        Keyed.find?_insert_self, Option.getD_some, Dictionary.find?_insert,
        Function.update_apply, eq_comm]

theorem find?_purge {table : BatchTable} {id : String} {database : Database}
    (h : table.database.purge table.collection id = .ok database) :
    find? { table with database } = Function.update table.find? id none := by
  unfold Database.purge at h
  split at h
  · cases h
  · next features hfeatures =>
    simp only at h
    split at h
    · cases h
    · cases h
      funext other
      simp only [find?, hfeatures, Option.bind_some, Database.recordsOf,
        Keyed.find?_insert_self, Option.getD_some, Dictionary.find?_erase,
        Function.update_apply, eq_comm]

/-- What a statement that may have failed says about the table after it. -/
theorem afterStatement_ok {table table' : BatchTable} {result : Except StoreError Database}
    (h : table.afterStatement result = (.ok (), table')) :
    ∃ database, result = .ok database ∧ table' = { table with database } := by
  cases result with
  | ok database => cases h; exact ⟨database, rfl, rfl⟩
  | error failure => cases h

theorem afterStatement_error {table table' : BatchTable} {result : Except StoreError Database}
    {failure : StoreError} (h : table.afterStatement result = (.error failure, table')) :
    table' = table := by
  cases result with
  | ok database => cases h
  | error failure => cases h; rfl

theorem save_healthy {table : BatchTable} (record : StoredRecord) (h : table.Healthy) :
    ∃ database, table.database.save table.collection record = .ok database ∧
      Healthy { table with database } := by
  obtain ⟨hfeatures, hsaves, hpurges⟩ := h
  obtain ⟨features, hfeatures⟩ := Option.isSome_iff_exists.mp hfeatures
  simp [Database.save, Healthy, hfeatures, hsaves, hpurges]

theorem purge_healthy {table : BatchTable} (id : String) (h : table.Healthy) :
    ∃ database, table.database.purge table.collection id = .ok database ∧
      Healthy { table with database } := by
  obtain ⟨hfeatures, hsaves, hpurges⟩ := h
  obtain ⟨features, hfeatures⟩ := Option.isSome_iff_exists.mp hfeatures
  simp [Database.purge, Healthy, hfeatures, hsaves, hpurges]

instance : SteadyTable BatchTable where
  records := find?
  keep body := { body with op := none, geometry := .ofBinary body.geometry.peekBinary }
  load_ok h := by
    obtain ⟨hload, rfl⟩ := Prod.mk.inj h
    exact ⟨load_eq hload, rfl⟩
  load_error h := by
    obtain ⟨-, rfl⟩ := Prod.mk.inj h
    rfl
  save_ok h := by
    obtain ⟨database, hsave, rfl⟩ := afterStatement_ok h
    exact find?_save hsave
  save_error h := by rw [afterStatement_error h]
  purge_ok h := by
    obtain ⟨database, hpurge, rfl⟩ := afterStatement_ok h
    exact find?_purge hpurge
  purge_error h := by rw [afterStatement_error h]
  nextVersion_records h := by
    obtain ⟨-, rfl⟩ := Prod.mk.inj h
    rfl
  sound := Healthy
  versions table := counterVersions table.collection table.batch table.writes
  load_sound id h := by
    obtain ⟨features, hfeatures⟩ := Option.isSome_iff_exists.mp h.1
    exact ⟨_, Prod.ext (by simp [FeatureTable.load, Database.load, find?, hfeatures]) rfl, h, rfl⟩
  save_sound record h := by
    obtain ⟨database, hsave, hhealthy⟩ := save_healthy record h
    exact ⟨_, by simp [FeatureTable.save, afterStatement, hsave], hhealthy, rfl⟩
  purge_sound id h := by
    obtain ⟨database, hpurge, hhealthy⟩ := purge_healthy id h
    exact ⟨_, by simp [FeatureTable.purge, afterStatement, hpurge], hhealthy, rfl⟩
  nextVersion_sound h := ⟨_, rfl, h, (counterVersions_tail _ _ _).symm⟩

end BatchTable

/-! ## Limited tables -/

namespace LimitedTable

instance : RecordTable LimitedTable where
  records t := t.records.find?
  keep := id
  load_ok h := by
    simp only [FeatureTable.load] at h
    split at h <;> cases h
    exact ⟨rfl, rfl⟩
  load_error h := by
    simp only [FeatureTable.load] at h
    split at h <;> cases h
    rfl
  save_ok h := by
    simp only [FeatureTable.save] at h
    split at h <;> cases h
    funext id
    simp only [Dictionary.find?_insert, Function.update_apply, eq_comm]
    rfl
  save_error h := by
    simp only [FeatureTable.save] at h
    split at h <;> cases h
    rfl
  purge_ok h := by
    simp only [FeatureTable.purge] at h
    split at h <;> cases h
    funext id
    simp only [Dictionary.find?_erase, Function.update_apply, eq_comm]
  purge_error h := by
    simp only [FeatureTable.purge] at h
    split at h <;> cases h
    rfl
  nextVersion_records h := by
    simp only [FeatureTable.nextVersion] at h
    split at h <;> cases h <;> rfl

end LimitedTable

end FeatureStore
