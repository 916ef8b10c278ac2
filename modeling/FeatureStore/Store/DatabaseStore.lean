-- SUMMARY: The store in a database.
import FeatureStore.Store.Execution
import FeatureStore.Store.Pages

/-!
# The store in a database

A store in a database works on one of its collections. The database is not part of
the store: every operation takes the database as it is at that moment, and a batch
gives back the database it leaves behind. What a batch has written before a statement
failed is kept.
-/

namespace FeatureStore

structure DatabaseStore where
  config : StoreConfig := {}
  closed : Bool := false

namespace DatabaseStore

/-- Refuse every further operation. -/
def close (s : DatabaseStore) : DatabaseStore := { s with closed := true }

def get (s : DatabaseStore) (db : Database) (id : String) :
    Except StoreError (Option StoredRecord) :=
  if s.closed then .error .closed else db.load s.config.collection id

/-- The live features in the order of their ids. -/
def readAll (s : DatabaseStore) : Except StoreError PagedRows :=
  if s.closed then .error .closed
  else .ok (.ofCollection s.config.collection s.config.fetchSize)

def execute {σ : Type} {fmt : Format} (s : DatabaseStore) (request : WriteRequest fmt)
    (db : Database) : WriteOutcome σ fmt × Database :=
  if s.closed then (.failed .closed, db)
  else
    match db.beginBatch s.config.collection with
    | .error failure => (.failed failure, db)
    | .ok (batch, database) =>
      let table : BatchTable := { database, collection := s.config.collection, batch }
      let (outcome, table) := executeRequest s.config request table
      (outcome, table.database)

end DatabaseStore

end FeatureStore
