-- SUMMARY: Features: identified records with properties, a version and a geometry.
import FeatureStore.Geometry.Basic
import FeatureStore.Json.Value

/-!
# Features

A feature has an id within its collection, a type, perhaps a type for its
properties and a version, free-form properties, and perhaps a geometry.
-/

namespace FeatureStore

/-- The type of a feature that names none. -/
def defaultFeatureType : String := "Feature"

structure Feature where
  id : String
  featureType : String := defaultFeatureType
  propertiesType : Option String := none
  version : Option String := none
  properties : Keyed Json := []
  geometry : Option Geometry := none
deriving Inhabited

namespace Feature

/-- The feature with a property set, in place of any other value of it. -/
def withProperty (f : Feature) (key : String) (value : Json) : Feature :=
  { f with properties := f.properties.insert key value }

end Feature

end FeatureStore
