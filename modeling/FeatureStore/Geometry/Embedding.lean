-- SUMMARY: Geometries as JSON values.
import FeatureStore.Geometry.Basic
import FeatureStore.Json.Value

/-!
# Geometries in JSON

A geometry is embedded as an object with one member, named for its kind. A record
inside it (a point, a line, a polygon, a rectangle) is an object of its fields. A
coordinate that is not finite has no JSON form and is embedded as `null`, which
no coordinate reads back as.

Reading is a little more liberal than writing: a record may also be the array of
its fields in their order, fields that a record does not have are ignored, and a
coordinate may be an integer.
-/

namespace FeatureStore

/-! ## Writing -/

def Coord.toJson (c : Coord) : Json :=
  .ofMembers [("x", .ofBinary64 c.x), ("y", .ofBinary64 c.y)]

def Coord.listToJson (points : List Coord) : Json := .array (points.map Coord.toJson)

def Polygon.toJson (p : Polygon) : Json :=
  .ofMembers [("exterior", Coord.listToJson p.exterior),
    ("interiors", .array (p.interiors.map Coord.listToJson))]

namespace Geometry

mutual

def toJson : Geometry → Json
  | .point c => .object [("Point", c.toJson)]
  | .line start stop =>
    .object [("Line", .ofMembers [("start", start.toJson), ("end", stop.toJson)])]
  | .lineString points => .object [("LineString", Coord.listToJson points)]
  | .polygon p => .object [("Polygon", p.toJson)]
  | .multiPoint points => .object [("MultiPoint", Coord.listToJson points)]
  | .multiLineString lines => .object [("MultiLineString", .array (lines.map Coord.listToJson))]
  | .multiPolygon polygons => .object [("MultiPolygon", .array (polygons.map Polygon.toJson))]
  | .collection members => .object [("GeometryCollection", .array (membersToJson members))]
  | .rect min max => .object [("Rect", .ofMembers [("min", min.toJson), ("max", max.toJson)])]
  | .triangle a b c => .object [("Triangle", .array [a.toJson, b.toJson, c.toJson])]

def membersToJson : List Geometry → List Json
  | [] => []
  | g :: rest => g.toJson :: membersToJson rest

end

end Geometry

/-! ## Reading -/

namespace Json

/-- The number nearest to a JSON number. -/
def binary64? : Json → Option Binary64
  | .number n => some n.toBinary64
  | _ => none

/-- The items of an array, each read by `read`. -/
def list? {α : Type} (read : Json → Option α) : Json → Option (List α)
  | .array items => items.mapM read
  | _ => none

/-- The two fields of a record, from an object that has them or an array of just these. -/
def fields? (first second : String) : Json → Option (Json × Json)
  | .object members =>
    match Keyed.find? first members, Keyed.find? second members with
    | some a, some b => some (a, b)
    | _, _ => none
  | .array [a, b] => some (a, b)
  | _ => none

end Json

def Coord.ofJson? (v : Json) : Option Coord := do
  let (x, y) ← v.fields? "x" "y"
  return ⟨← x.binary64?, ← y.binary64?⟩

def Coord.listOfJson? (v : Json) : Option (List Coord) := v.list? Coord.ofJson?

def Polygon.ofJson? (v : Json) : Option Polygon := do
  let (exterior, interiors) ← v.fields? "exterior" "interiors"
  return ⟨← Coord.listOfJson? exterior, ← interiors.list? Coord.listOfJson?⟩

namespace Geometry

/-- The geometry of a kind that holds no geometries, from the value of the member
    named for the kind. -/
def ofMember? (kind : String) (body : Json) : Option Geometry :=
  match kind with
  | "Point" => return .point (← Coord.ofJson? body)
  | "Line" => do
    let (start, stop) ← body.fields? "start" "end"
    return .line (← Coord.ofJson? start) (← Coord.ofJson? stop)
  | "LineString" => return .lineString (← Coord.listOfJson? body)
  | "Polygon" => return .polygon (← Polygon.ofJson? body)
  | "MultiPoint" => return .multiPoint (← Coord.listOfJson? body)
  | "MultiLineString" => return .multiLineString (← body.list? Coord.listOfJson?)
  | "MultiPolygon" => return .multiPolygon (← body.list? Polygon.ofJson?)
  | "Rect" => do
    let (min, max) ← body.fields? "min" "max"
    return .rect (← Coord.ofJson? min) (← Coord.ofJson? max)
  | "Triangle" =>
    match body with
    | .array [a, b, c] =>
      return .triangle (← Coord.ofJson? a) (← Coord.ofJson? b) (← Coord.ofJson? c)
    | _ => none
  | _ => none

mutual

def ofJson? : Json → Option Geometry
  | .object [("GeometryCollection", .array items)] => (membersOfJson? items).map .collection
  | .object [(kind, body)] => ofMember? kind body
  | _ => none

def membersOfJson? : List Json → Option (List Geometry)
  | [] => some []
  | item :: rest =>
    match ofJson? item with
    | none => none
    | some g => (membersOfJson? rest).map (g :: ·)

end

end Geometry

end FeatureStore
