-- SUMMARY: Plane geometries over binary64 coordinates.
import FeatureStore.Numeric.Binary64

/-!
# Geometries

A geometry is what was given, neither checked nor brought into a normal form:
rings may stay open, a rectangle's minimum may exceed its maximum, and
coordinates may be infinite or NaN.
-/

namespace FeatureStore

structure Coord where
  x : Binary64
  y : Binary64
deriving DecidableEq, Repr, Inhabited

/-- A polygon: its outer ring and its holes. -/
structure Polygon where
  exterior : List Coord
  interiors : List (List Coord)
deriving DecidableEq, Repr, Inhabited

inductive Geometry
  | point (c : Coord)
  | line (start stop : Coord)
  | lineString (points : List Coord)
  | polygon (p : Polygon)
  | multiPoint (points : List Coord)
  | multiLineString (lines : List (List Coord))
  | multiPolygon (polygons : List Polygon)
  | collection (members : List Geometry)
  | rect (min max : Coord)
  | triangle (a b c : Coord)
deriving Repr

namespace Coord

def isFinite (c : Coord) : Bool := c.x.isFinite && c.y.isFinite

end Coord

namespace Polygon

def isFinite (p : Polygon) : Bool :=
  p.exterior.all Coord.isFinite && p.interiors.all (fun ring => ring.all Coord.isFinite)

end Polygon

namespace Geometry

instance : Inhabited Geometry := ⟨.collection []⟩

mutual

def isFinite : Geometry → Bool
  | .point c => c.isFinite
  | .line start stop => start.isFinite && stop.isFinite
  | .lineString points => points.all Coord.isFinite
  | .polygon p => p.isFinite
  | .multiPoint points => points.all Coord.isFinite
  | .multiLineString lines => lines.all (fun points => points.all Coord.isFinite)
  | .multiPolygon polygons => polygons.all Polygon.isFinite
  | .collection members => areFinite members
  | .rect min max => min.isFinite && max.isFinite
  | .triangle a b c => a.isFinite && b.isFinite && c.isFinite

def areFinite : List Geometry → Bool
  | [] => true
  | g :: rest => g.isFinite && areFinite rest

end

end Geometry

end FeatureStore
