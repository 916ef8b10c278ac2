-- SUMMARY: Settings of a store, and reading them from text.
import FeatureStore.Json.Record

/-!
# Store settings

The settings are a JSON record of which every field may be missing. Rows are
fetched at least one at a time.
-/

namespace FeatureStore

structure StoreConfig where
  /-- The collection that the store works on. -/
  collection : String := "features"
  /-- How many rows a read fetches at a time. -/
  fetchSize : Nat := 100
  /-- Whether batches are executed in the order of the ids. -/
  sortWritesById : Bool := true
deriving DecidableEq, Repr, Inhabited

namespace StoreConfig

def ofCollection (collection : String) : StoreConfig := { collection }

/-- The settings with another fetch size, which is raised to one if it is zero. -/
def withFetchSize (config : StoreConfig) (fetchSize : Nat) : StoreConfig :=
  { config with fetchSize := max fetchSize 1 }

def withSortWritesById (config : StoreConfig) (sort : Bool) : StoreConfig :=
  { config with sortWritesById := sort }

def fieldNames : List String := ["collection", "fetch_size", "sort_writes_by_id"]

def ofWritten? (w : Json.Written) : Option StoreConfig := do
  let default : StoreConfig := {}
  match ← w.fields? fieldNames with
  | [collection, fetchSize, sort] =>
    return {
      collection := ← Json.Written.withDefault Json.Written.string? default.collection collection
      fetchSize := ← Json.Written.withDefault Json.Written.nat? default.fetchSize fetchSize
      sortWritesById := ← Json.Written.withDefault Json.Written.bool? default.sortWritesById sort }
  | _ => none

def ofText? (text : String) : Option StoreConfig := (Json.Written.ofText? text).bind ofWritten?

end StoreConfig

end FeatureStore
