-- SUMMARY: The JSON body of a feature: printing and reading it.
import FeatureStore.Feature.Basic
import FeatureStore.Json.Printing
import FeatureStore.Json.Record

/-!
# The body of a feature

The body of a feature is a JSON record of everything but the geometry, with the
fields `id`, `type`, `propertiesType`, `version` and `properties` in this order.
The second and third texts are left out when absent. When a body is read, every
field but `id` may be missing.
-/

namespace FeatureStore

namespace Feature

def fieldNames : List String := ["id", "type", "propertiesType", "version", "properties"]

/-- A member that is left out when it has no text. -/
def optionalMember (name : String) : Option String → List Json.WrittenMember
  | none => []
  | some text => [(Json.pieces name, .string (Json.pieces text))]

def written (f : Feature) : Json.Written :=
  .object ([(Json.pieces "id", .string (Json.pieces f.id)),
      (Json.pieces "type", .string (Json.pieces f.featureType))]
    ++ optionalMember "propertiesType" f.propertiesType
    ++ optionalMember "version" f.version
    ++ [(Json.pieces "properties", .object (Json.writtenMembers f.properties))])

def body (f : Feature) : String := f.written.text

/-- Properties, read as an object one level inside the record. -/
def properties? (w : Json.Written) : Option (Keyed Json) :=
  (w.value? (Json.depthLimit - 1)).bind Json.object?

/-- The feature of a written body. It has no geometry. -/
def ofWritten? (w : Json.Written) : Option Feature := do
  match ← w.fields? fieldNames with
  | [some id, featureType, propertiesType, version, properties] =>
    return {
      id := ← id.string?
      featureType := ← Json.Written.withDefault Json.Written.string? defaultFeatureType featureType
      propertiesType := ← Json.Written.optionalString? propertiesType
      version := ← Json.Written.optionalString? version
      properties := ← Json.Written.withDefault properties? [] properties }
  | _ => none

/-- The feature of a body. It has no geometry. -/
def ofBody? (body : String) : Option Feature := (Json.Written.ofText? body).bind ofWritten?

end Feature

end FeatureStore
