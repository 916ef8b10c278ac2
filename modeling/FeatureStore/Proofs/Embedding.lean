-- SUMMARY: A geometry that is embedded in JSON is read back as itself, or not at all.
import FeatureStore.Geometry.Embedding

/-!
# Reading back an embedded geometry

A geometry with finite coordinates is read back from its JSON object bit for bit. A
coordinate that is not finite has been embedded as `null`, and nothing is read back from a
geometry that has one. So an embedded geometry never comes back as another one.
-/

namespace FeatureStore

/-! ## Numbers, lists and records -/

theorem bind_if {α β : Type} (p : Bool) (a : α) (f : α → Option β) :
    (if p then some a else none).bind f = if p then f a else none := by
  cases p <;> rfl

theorem if_and {α : Type} (p q : Bool) (a : α) :
    (if p && q then some a else none) = if p then (if q then some a else none) else none := by
  cases p <;> rfl

namespace Json

/-- A number that is finite is read back as itself, and another one not at all. -/
theorem binary64?_ofBinary64 (x : Binary64) :
    (ofBinary64 x).binary64? = if x.isFinite then some x else none := by
  unfold ofBinary64
  split <;> rfl

/-- The items of a list are read back if each of them is. -/
theorem list?_map {α : Type} {write : α → Json} {read : Json → Option α} {p : α → Bool}
    (h : ∀ a, read (write a) = if p a then some a else none) (as : List α) :
    (Json.array (as.map write)).list? read = if as.all p then some as else none := by
  rw [list?]
  induction as with
  | nil => rfl
  | cons a as ih =>
    rw [List.map_cons, List.mapM_cons, h, ih, List.all_cons]
    simp only [Option.bind_eq_bind, bind_if, if_and]
    rfl

/-- The fields of a record are found under their names. -/
theorem fields?_ofMembers {first second : String} (h : first ≠ second) (a b : Json) :
    (ofMembers [(first, a), (second, b)]).fields? first second = some (a, b) := by
  have hfirst : Keyed.find? first (Keyed.ofList [(first, a), (second, b)]) = some a := by
    rw [Keyed.ofList, List.foldl_cons, List.foldl_cons, List.foldl_nil, Keyed.find?_insert,
      if_neg h.symm, Keyed.find?_insert_self]
  have hsecond : Keyed.find? second (Keyed.ofList [(first, a), (second, b)]) = some b := by
    rw [Keyed.ofList, List.foldl_cons, List.foldl_cons, List.foldl_nil, Keyed.find?_insert_self]
  rw [ofMembers, fields?, hfirst, hsecond]

end Json

/-! ## Points and polygons -/

theorem Coord.ofJson?_toJson (c : Coord) :
    Coord.ofJson? c.toJson = if c.isFinite then some c else none := by
  rw [Coord.ofJson?, Coord.toJson, Json.fields?_ofMembers (by decide)]
  rw [Coord.isFinite, if_and]
  simp only [Option.bind_eq_bind, Option.bind_some, Json.binary64?_ofBinary64, bind_if]
  rfl

theorem Coord.listOfJson?_listToJson (points : List Coord) :
    Coord.listOfJson? (Coord.listToJson points)
      = if points.all Coord.isFinite then some points else none :=
  Json.list?_map Coord.ofJson?_toJson points

theorem Polygon.ofJson?_toJson (p : Polygon) :
    Polygon.ofJson? p.toJson = if p.isFinite then some p else none := by
  rw [Polygon.ofJson?, Polygon.toJson, Json.fields?_ofMembers (by decide)]
  rw [Polygon.isFinite, if_and]
  simp only [Option.bind_eq_bind, Option.bind_some, Coord.listOfJson?_listToJson,
    Json.list?_map Coord.listOfJson?_listToJson, bind_if]
  rfl

/-! ## Geometries -/

namespace Geometry

/-- An object of one member is read by the name of the member. -/
theorem ofJson?_member {kind : String} (h : kind ≠ "GeometryCollection") (body : Json) :
    ofJson? (.object [(kind, body)]) = ofMember? kind body := by
  unfold ofJson?
  split
  · next items heq =>
    cases heq
    exact absurd rfl h
  · next heq =>
    cases heq
    rfl
  · next heq => exact absurd rfl (heq kind body)

mutual

/-- A geometry is read back if its coordinates are finite, and otherwise nothing is. -/
theorem ofJson?_toJson : (g : Geometry) → ofJson? g.toJson = if g.isFinite then some g else none
  | .point c => by
    rw [toJson, ofJson?_member (by decide)]
    simp only [ofMember?, Coord.ofJson?_toJson, isFinite, Option.bind_eq_bind, bind_if]
    rfl
  | .line start stop => by
    rw [toJson, ofJson?_member (by decide), isFinite, if_and]
    simp only [ofMember?, Json.fields?_ofMembers (by decide : "start" ≠ "end"),
      Coord.ofJson?_toJson, Option.bind_eq_bind, Option.bind_some, bind_if]
    rfl
  | .lineString points => by
    rw [toJson, ofJson?_member (by decide)]
    simp only [ofMember?, Coord.listOfJson?_listToJson, isFinite, Option.bind_eq_bind, bind_if]
    rfl
  | .polygon p => by
    rw [toJson, ofJson?_member (by decide)]
    simp only [ofMember?, Polygon.ofJson?_toJson, isFinite, Option.bind_eq_bind, bind_if]
    rfl
  | .multiPoint points => by
    rw [toJson, ofJson?_member (by decide)]
    simp only [ofMember?, Coord.listOfJson?_listToJson, isFinite, Option.bind_eq_bind, bind_if]
    rfl
  | .multiLineString lines => by
    rw [toJson, ofJson?_member (by decide)]
    simp only [ofMember?, Json.list?_map Coord.listOfJson?_listToJson, isFinite,
      Option.bind_eq_bind, bind_if]
    rfl
  | .multiPolygon polygons => by
    rw [toJson, ofJson?_member (by decide)]
    simp only [ofMember?, Json.list?_map Polygon.ofJson?_toJson, isFinite, Option.bind_eq_bind,
      bind_if]
    rfl
  | .collection members => by
    rw [toJson, ofJson?, membersOfJson?_membersToJson members, isFinite]
    split <;> rfl
  | .rect min max => by
    rw [toJson, ofJson?_member (by decide), isFinite, if_and]
    simp only [ofMember?, Json.fields?_ofMembers (by decide : "min" ≠ "max"),
      Coord.ofJson?_toJson, Option.bind_eq_bind, Option.bind_some, bind_if]
    rfl
  | .triangle a b c => by
    rw [toJson, ofJson?_member (by decide), isFinite, Bool.and_assoc, if_and, if_and]
    simp only [ofMember?, Coord.ofJson?_toJson, Option.bind_eq_bind, bind_if]
    rfl

theorem membersOfJson?_membersToJson : (gs : List Geometry) →
    membersOfJson? (membersToJson gs) = if areFinite gs then some gs else none
  | [] => rfl
  | g :: rest => by
    rw [membersToJson, membersOfJson?, ofJson?_toJson g, membersOfJson?_membersToJson rest, areFinite,
      if_and]
    cases g.isFinite with
    | false => rfl
    | true => split <;> simp_all

end

end Geometry

end FeatureStore
