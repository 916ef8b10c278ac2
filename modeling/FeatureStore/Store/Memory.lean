-- SUMMARY: The store in memory.
import FeatureStore.Cursor.Source
import FeatureStore.Store.Execution

/-!
# The store in memory

The store keeps the records of one collection in a dictionary. It counts its batches
and the writes of the current batch, and the two counts make up the version of a
write. A read sees the records as they are when it begins.

Only whole batches and reads are refused once the store is closed.
-/

namespace FeatureStore

structure MemoryStore where
  config : StoreConfig := {}
  records : Records := .empty
  batch : Nat := 0
  writes : Nat := 0
  closed : Bool := false

namespace MemoryStore

/-- An empty store. -/
def ofConfig (config : StoreConfig) : MemoryStore := { config }

def get (s : MemoryStore) (id : String) : Option StoredRecord := s.records.find? id

def liveCount (s : MemoryStore) : Nat := s.records.live.length

/-- Refuse further batches and reads. -/
def close (s : MemoryStore) : MemoryStore := { s with closed := true }

def nextVersion (s : MemoryStore) : String × MemoryStore :=
  let writes := nextCount s.writes
  (versionToken s.config.collection s.batch writes, { s with writes })

instance : FeatureTable MemoryStore where
  load id s := (.ok (s.get id), s)
  save record s := (.ok (), { s with records := s.records.insert record.key record })
  purge id s := (.ok (), { s with records := s.records.erase id })
  nextVersion s := (.ok s.nextVersion.1, s.nextVersion.2)

/-- The live features in the order of their ids. -/
def readAll (s : MemoryStore) : Except StoreError RowQueue :=
  if s.closed then .error .closed
  else .ok ⟨s.records.live.map (fun entry => entry.2.row)⟩

def execute {σ : Type} {fmt : Format} (s : MemoryStore) (request : WriteRequest fmt) :
    WriteOutcome σ fmt × MemoryStore :=
  if s.closed then (.failed .closed, s)
  else executeRequest s.config request { s with batch := nextCount s.batch, writes := 0 }

end MemoryStore

end FeatureStore
