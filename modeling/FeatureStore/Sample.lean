-- SUMMARY: Sample features, in assembled form and as a store would load them.
import FeatureStore.Codec.Parts
import FeatureStore.Feature.Basic

/-!
# Samples

Samples are made from an id and a version. Features of different ids have different
points, as far as the sums of the bytes of their ids differ.
-/

namespace FeatureStore

namespace Sample

/-- The sum of numbers of a byte each. The sum of none is `-0.0`, which is neutral for the
addition of floating point numbers: adding `0.0` to it gives `0.0`. -/
def byteSum : List UInt8 → Binary64
  | [] => Binary64.zero.neg
  | bytes => .ofNat (bytes.foldl (fun sum byte => sum + byte.toNat) 0)

/-- The point of a sample: the sum of the bytes of the id, at a latitude of 51.5. -/
def point (id : String) : Geometry := .point ⟨byteSum id.toUTF8.toList, .ofRatio 103 2⟩

def name (id : String) : String := "Feature " ++ id

def feature (id version : String) : Feature :=
  let plain : Feature := { id, version := some version, geometry := some (point id) }
  plain.withProperty "name" (.string (name id))

/-- The body of a sample. The id is not escaped. -/
def body (id : String) : String :=
  "\x7b\"id\":\"" ++ id ++ "\",\"type\":\"Feature\",\"properties\":\x7b\"name\":\"" ++ name id
    ++ "\"\x7d\x7d"

/-- The parts of a sample. The geometry is in binary form. -/
def parts (id version : String) : Parts :=
  { id := some id
    version := some version
    featureType := some defaultFeatureType
    json := some (body id)
    geometry := .binary (point id).encode }

end Sample

end FeatureStore
