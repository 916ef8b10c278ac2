-- SUMMARY: The parts of a feature taken apart.
import FeatureStore.Geometry.Cache

/-!
# Parts

The parts of a feature are its id, its version, its two type tags, its JSON body
without the geometry, and the geometry in a cache. A store keeps features in this
form. A row that comes from a store also says which operation produced it.
-/

namespace FeatureStore

/-- A feature taken apart. Any part may be missing. -/
structure Parts where
  op : Option ExecutedOp := none
  id : Option String := none
  version : Option String := none
  featureType : Option String := none
  propertiesType : Option String := none
  json : Option String := none
  geometry : GeometryCache := .neither
deriving Repr, Inhabited

namespace Parts

def ofId (id : String) : Parts := { id := some id }

/-- The id and the version alone. -/
def identity (p : Parts) : Parts := { id := p.id, version := p.version }

def onlyOp (p : Parts) : Parts := { op := p.op }

end Parts

end FeatureStore
