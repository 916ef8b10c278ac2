-- SUMMARY: A database of collections, its tables as a batch sees them, and the faults that it can have.
import FeatureStore.Store.Record

/-!
# Databases

A database holds the records of any number of collections and a batch counter for
each. It is shared by all stores that have opened it, so the counters outlive a
store and versions are never given out twice.

A table stores texts and the binary geometry only; a parsed geometry is not kept and
no operation is.

Someone else may damage a database: a table may be missing, and certain ids may be
refused when their record is saved or purged. A statement that fails changes nothing.
-/

namespace FeatureStore

/-- A database. A missing table is `none`. -/
structure Database where
  /-- The records of each collection. -/
  features : Option (Keyed Records) := none
  /-- The number of batches of each collection. -/
  batches : Option (Keyed Nat) := none
  /-- The ids whose records cannot be saved. -/
  rejectedSaves : List String := []
  /-- The ids whose records cannot be purged. -/
  rejectedPurges : List String := []
deriving Inhabited

namespace Database

/-- The database with empty tables in place of missing ones. -/
def createTables (db : Database) : Database :=
  { db with features := some (db.features.getD []), batches := some (db.batches.getD []) }

/-- The records of a collection among those of all. -/
def recordsOf (features : Keyed Records) (collection : String) : Records :=
  (features.find? collection).getD .empty

/-- What a table keeps of a record. -/
def kept (record : StoredRecord) : StoredRecord :=
  { record with
    parts := { record.parts with
      op := none, geometry := .ofBinary record.parts.geometry.peekBinary } }

def load (db : Database) (collection id : String) : Except StoreError (Option StoredRecord) :=
  match db.features with
  | none => .error (.statement "load feature")
  | some features => .ok ((recordsOf features collection).find? id)

/-- Put a record in place of any other of its id. -/
def save (db : Database) (collection : String) (record : StoredRecord) :
    Except StoreError Database :=
  match db.features with
  | none => .error (.statement "save feature")
  | some features =>
    if db.rejectedSaves.contains record.key then .error (.statement "save feature")
    else
      let records := (recordsOf features collection).insert record.key (kept record)
      .ok { db with features := some (features.insert collection records) }

/-- Remove the record of an id. An id without a record cannot be refused. -/
def purge (db : Database) (collection id : String) : Except StoreError Database :=
  match db.features with
  | none => .error (.statement "purge feature")
  | some features =>
    let records := recordsOf features collection
    if db.rejectedPurges.contains id && (records.find? id).isSome then
      .error (.statement "purge feature")
    else .ok { db with features := some (features.insert collection (records.erase id)) }

/-- The largest number of a batch. -/
def batchLimit : Nat := Int64.maxValue.toNatClampNeg

/-- Allocate the number of a batch. -/
def beginBatch (db : Database) (collection : String) : Except StoreError (Nat × Database) :=
  match db.batches with
  | none => .error (.statement "allocate batch number")
  | some batches =>
    let batch := (batches.find? collection).getD 0 + 1
    if batchLimit < batch then .error (.statement "allocate batch number")
    else .ok (batch, { db with batches := some (batches.insert collection batch) })

/-! ## Faults -/

/-- A damage to a database, or its repair. -/
inductive Fault
  | dropFeatures
  | dropBatches
  | rejectSave (id : String)
  | rejectPurge (id : String)
  /-- No id is refused any more. -/
  | heal
deriving DecidableEq, Repr

/-- The database after a fault. Ids are refused by the table of the records, so the
    refusals vanish with it. -/
def suffer (db : Database) : Fault → Database
  | .dropFeatures => { db with features := none, rejectedSaves := [], rejectedPurges := [] }
  | .dropBatches => { db with batches := none }
  | .rejectSave id =>
    if db.features.isSome then { db with rejectedSaves := id :: db.rejectedSaves } else db
  | .rejectPurge id =>
    if db.features.isSome then { db with rejectedPurges := id :: db.rejectedPurges } else db
  | .heal => { db with rejectedSaves := [], rejectedPurges := [] }

end Database

/-! ## The table of a batch -/

/-- A collection of a database during a batch. -/
structure BatchTable where
  database : Database
  collection : String
  batch : Nat
  writes : Nat := 0

namespace BatchTable

/-- The table after a statement that may have changed the database. -/
def afterStatement (table : BatchTable) :
    Except StoreError Database → Except StoreError Unit × BatchTable
  | .ok database => (.ok (), { table with database })
  | .error failure => (.error failure, table)

/-- Allocate the next version of the batch. -/
def nextVersion (table : BatchTable) : String × BatchTable :=
  let writes := nextCount table.writes
  (versionToken table.collection table.batch writes, { table with writes })

instance : FeatureTable BatchTable where
  load id table := (table.database.load table.collection id, table)
  save record table := table.afterStatement (table.database.save table.collection record)
  purge id table := table.afterStatement (table.database.purge table.collection id)
  nextVersion table := (.ok table.nextVersion.1, table.nextVersion.2)

end BatchTable

end FeatureStore
