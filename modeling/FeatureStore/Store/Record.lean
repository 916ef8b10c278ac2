-- SUMMARY: Stored records, and the tables that batches are executed on.
import FeatureStore.Codec.Parts
import FeatureStore.Error
import FeatureStore.Keyed
import FeatureStore.Write.Resolution

/-!
# Records and tables

A table holds at most one record for each id, the live or the deleted state of a
feature. A table also allocates the versions of the states that are written to it.

Every operation of a table may fail. It returns its result and the table it leaves
behind, also when it fails.
-/

namespace FeatureStore

structure StoredRecord where
  parts : Parts
  /-- Whether this is the deleted state. -/
  deleted : Bool
deriving Repr, Inhabited

/-- The records of a collection by id. -/
abbrev Records := Dictionary StoredRecord

namespace StoredRecord

def state (record : StoredRecord) : StoredState :=
  let version := record.parts.version.getD ""
  if record.deleted then .deleted version else .live version

/-- The key of the record. -/
def key (record : StoredRecord) : String := record.parts.id.getD ""

/-- The row that a read shows for the record. -/
def row (record : StoredRecord) : Parts := { record.parts with op := some .read }

end StoredRecord

namespace Records

/-- The records that are live, in the order of their ids. -/
def live (records : Records) : List (String × StoredRecord) :=
  records.entries.filter (fun entry => !entry.2.deleted)

end Records

/-- The state that the resolution sees when a record may be missing. -/
def StoredState.ofRecord? : Option StoredRecord → StoredState
  | none => .absent
  | some record => record.state

/-- A table of records. -/
class FeatureTable (τ : Type) where
  /-- The record of an id. -/
  load : String → τ → Except StoreError (Option StoredRecord) × τ
  /-- Put a record in place of any other of its id. -/
  save : StoredRecord → τ → Except StoreError Unit × τ
  /-- Remove the record of an id. -/
  purge : String → τ → Except StoreError Unit × τ
  /-- The version of the next state. -/
  nextVersion : τ → Except StoreError String × τ

/-- The version tokens of a store: the collection, the number of the batch and the
    number of the write within it. -/
def versionToken (collection : String) (batch write : Nat) : String :=
  collection ++ ":" ++ toString batch ++ ":" ++ toString write

/-- The successor of a counter of sixty-four bits. It stays at its largest value. -/
def nextCount (n : Nat) : Nat := min (n + 1) (UInt64.size - 1)

end FeatureStore
