-- SUMMARY: Which JSON values are read as which geometries.
import FeatureStore.Proofs.Embedding
import FeatureStore.Proofs.JsonText
import FeatureStore.Proofs.Lookups
import FeatureStore.Proofs.Rounding
import Mathlib.Data.List.Forall2

/-!
# The JSON forms of geometries

A geometry has more than one JSON form. A record may be the object of its fields, with
others among them, or the array of its fields in their order, and a coordinate may be an
integer. `DenotedBy` says of which geometry a JSON value is a form, by recursion on the
geometry. Reading accepts these forms and no others.

The numbers of a JSON value are finite: a float that is not has no JSON form, and an integer
of sixty-four bits is rounded to a finite number. So the geometry that a JSON value denotes
has finite coordinates.
-/

namespace FeatureStore

/-! ## Numbers, lists and records -/

namespace Json

variable {α : Type}

/-- The value is a number, and the binary64 number nearest to it is `x`. -/
def IsNumber (v : Json) (x : Binary64) : Prop := ∃ n, v = .number n ∧ n.toBinary64 = x

/-- The value is an array of the forms of the items. -/
def IsList (isItem : Json → α → Prop) (v : Json) (as : List α) : Prop :=
  ∃ items, v = .array items ∧ List.Forall₂ isItem items as

/-- The value is an object that has the two fields, or the array of the two. -/
def IsRecord (first second : String) (v a b : Json) : Prop :=
  (∃ members, v = .object members ∧ Keyed.find? first members = some a ∧
    Keyed.find? second members = some b) ∨ v = .array [a, b]

theorem binary64?_eq_some {v : Json} {x : Binary64} : v.binary64? = some x ↔ v.IsNumber x := by
  cases v <;> simp [binary64?, IsNumber]

theorem list?_eq_some {read : Json → Option α} {isItem : Json → α → Prop}
    (h : ∀ v a, read v = some a ↔ isItem v a) {v : Json} {as : List α} :
    v.list? read = some as ↔ v.IsList isItem as := by
  have hitems : ∀ items : List Json, items.mapM read = some as ↔ List.Forall₂ isItem items as := by
    intro items
    induction items generalizing as with
    | nil => cases as <;> simp
    | cons item rest ih =>
      rw [List.mapM_cons]
      cases as <;> simp [Option.bind_eq_some_iff, h, ih]
  cases v <;> simp [list?, IsList, hitems]

theorem fields?_eq_some {first second : String} {v a b : Json} :
    v.fields? first second = some (a, b) ↔ v.IsRecord first second a b := by
  unfold fields? IsRecord
  split
  · split <;> simp_all
  · simp
  · next hobject harray => simp_all

end Json

/-! ## Points and polygons -/

/-- The value is a form of the point. -/
def Coord.DenotedBy (c : Coord) (v : Json) : Prop :=
  ∃ x y, v.IsRecord "x" "y" x y ∧ x.IsNumber c.x ∧ y.IsNumber c.y

def Coord.ListDenotedBy (points : List Coord) (v : Json) : Prop :=
  v.IsList (fun item c => c.DenotedBy item) points

def Polygon.DenotedBy (p : Polygon) (v : Json) : Prop :=
  ∃ exterior interiors, v.IsRecord "exterior" "interiors" exterior interiors ∧
    Coord.ListDenotedBy p.exterior exterior ∧
    interiors.IsList (fun ring points => Coord.ListDenotedBy points ring) p.interiors

theorem Coord.ofJson?_eq_some {v : Json} {c : Coord} :
    Coord.ofJson? v = some c ↔ c.DenotedBy v := by
  obtain ⟨x, y⟩ := c
  simp [Coord.ofJson?, Coord.DenotedBy, Option.bind_eq_some_iff, Json.fields?_eq_some,
    Json.binary64?_eq_some]

theorem Coord.listOfJson?_eq_some {v : Json} {points : List Coord} :
    Coord.listOfJson? v = some points ↔ Coord.ListDenotedBy points v :=
  Json.list?_eq_some fun _ _ => Coord.ofJson?_eq_some

theorem Coord.linesOfJson?_eq_some {v : Json} {lines : List (List Coord)} :
    v.list? Coord.listOfJson? = some lines ↔
      v.IsList (fun line points => Coord.ListDenotedBy points line) lines :=
  Json.list?_eq_some fun _ _ => Coord.listOfJson?_eq_some

theorem Polygon.ofJson?_eq_some {v : Json} {p : Polygon} :
    Polygon.ofJson? v = some p ↔ p.DenotedBy v := by
  obtain ⟨exterior, interiors⟩ := p
  simp [Polygon.ofJson?, Polygon.DenotedBy, Option.bind_eq_some_iff, Json.fields?_eq_some,
    Coord.listOfJson?_eq_some, Coord.linesOfJson?_eq_some]

theorem Polygon.listOfJson?_eq_some {v : Json} {polygons : List Polygon} :
    v.list? Polygon.ofJson? = some polygons ↔
      v.IsList (fun item p => p.DenotedBy item) polygons :=
  Json.list?_eq_some fun _ _ => Polygon.ofJson?_eq_some

/-! ## Geometries -/

namespace Geometry

/-- The name of the member that holds a geometry of this kind. -/
def memberName : Geometry → String
  | .point _ => "Point"
  | .line .. => "Line"
  | .lineString _ => "LineString"
  | .polygon _ => "Polygon"
  | .multiPoint _ => "MultiPoint"
  | .multiLineString _ => "MultiLineString"
  | .multiPolygon _ => "MultiPolygon"
  | .collection _ => "GeometryCollection"
  | .rect .. => "Rect"
  | .triangle .. => "Triangle"

mutual

/-- The value of the member that is named for the kind is a form of the geometry. -/
def BodyDenotedBy : Geometry → Json → Prop
  | .point c, body => c.DenotedBy body
  | .line start stop, body =>
    ∃ a b, body.IsRecord "start" "end" a b ∧ start.DenotedBy a ∧ stop.DenotedBy b
  | .lineString points, body | .multiPoint points, body => Coord.ListDenotedBy points body
  | .polygon p, body => p.DenotedBy body
  | .multiLineString lines, body =>
    body.IsList (fun line points => Coord.ListDenotedBy points line) lines
  | .multiPolygon polygons, body => body.IsList (fun item p => p.DenotedBy item) polygons
  | .collection members, body => ∃ items, body = .array items ∧ AreDenotedBy members items
  | .rect min max, body =>
    ∃ a b, body.IsRecord "min" "max" a b ∧ min.DenotedBy a ∧ max.DenotedBy b
  | .triangle a b c, body =>
    ∃ x y z, body = .array [x, y, z] ∧ a.DenotedBy x ∧ b.DenotedBy y ∧ c.DenotedBy z

def AreDenotedBy : List Geometry → List Json → Prop
  | [], items => items = []
  | g :: rest, items =>
    ∃ body others, items = .object [(g.memberName, body)] :: others ∧ g.BodyDenotedBy body ∧
      AreDenotedBy rest others

end

/-- The value is a form of the geometry: an object of one member. -/
def DenotedBy (g : Geometry) (v : Json) : Prop :=
  ∃ body, v = .object [(g.memberName, body)] ∧ g.BodyDenotedBy body

/-- The geometries of kinds that hold no geometries are read from the forms of their members. -/
theorem ofMember?_eq_some {kind : String} {body : Json} {g : Geometry}
    (h : kind ≠ "GeometryCollection") :
    ofMember? kind body = some g ↔ kind = g.memberName ∧ g.BodyDenotedBy body := by
  -- Forward the cases are those of the names, and backward those of the geometry.
  constructor
  · intro hread
    unfold ofMember? at hread
    split at hread
    · obtain ⟨c, hc, ⟨⟩⟩ := Option.bind_eq_some_iff.mp hread
      exact ⟨rfl, Coord.ofJson?_eq_some.mp hc⟩
    · obtain ⟨⟨x, y⟩, hrecord, hread⟩ := Option.bind_eq_some_iff.mp hread
      obtain ⟨start, hstart, hread⟩ := Option.bind_eq_some_iff.mp hread
      obtain ⟨stop, hstop, ⟨⟩⟩ := Option.bind_eq_some_iff.mp hread
      exact ⟨rfl, x, y, Json.fields?_eq_some.mp hrecord, Coord.ofJson?_eq_some.mp hstart,
        Coord.ofJson?_eq_some.mp hstop⟩
    · obtain ⟨points, hpoints, ⟨⟩⟩ := Option.bind_eq_some_iff.mp hread
      exact ⟨rfl, Coord.listOfJson?_eq_some.mp hpoints⟩
    · obtain ⟨p, hp, ⟨⟩⟩ := Option.bind_eq_some_iff.mp hread
      exact ⟨rfl, Polygon.ofJson?_eq_some.mp hp⟩
    · obtain ⟨points, hpoints, ⟨⟩⟩ := Option.bind_eq_some_iff.mp hread
      exact ⟨rfl, Coord.listOfJson?_eq_some.mp hpoints⟩
    · obtain ⟨lines, hlines, ⟨⟩⟩ := Option.bind_eq_some_iff.mp hread
      exact ⟨rfl, Coord.linesOfJson?_eq_some.mp hlines⟩
    · obtain ⟨polygons, hpolygons, ⟨⟩⟩ := Option.bind_eq_some_iff.mp hread
      exact ⟨rfl, Polygon.listOfJson?_eq_some.mp hpolygons⟩
    · obtain ⟨⟨x, y⟩, hrecord, hread⟩ := Option.bind_eq_some_iff.mp hread
      obtain ⟨min, hmin, hread⟩ := Option.bind_eq_some_iff.mp hread
      obtain ⟨max, hmax, ⟨⟩⟩ := Option.bind_eq_some_iff.mp hread
      exact ⟨rfl, x, y, Json.fields?_eq_some.mp hrecord, Coord.ofJson?_eq_some.mp hmin,
        Coord.ofJson?_eq_some.mp hmax⟩
    · split at hread
      · next x y z =>
        obtain ⟨a, ha, hread⟩ := Option.bind_eq_some_iff.mp hread
        obtain ⟨b, hb, hread⟩ := Option.bind_eq_some_iff.mp hread
        obtain ⟨c, hc, ⟨⟩⟩ := Option.bind_eq_some_iff.mp hread
        exact ⟨rfl, x, y, z, rfl, Coord.ofJson?_eq_some.mp ha, Coord.ofJson?_eq_some.mp hb,
          Coord.ofJson?_eq_some.mp hc⟩
      · cases hread
    · cases hread
  · rintro ⟨rfl, hbody⟩
    cases g with
    | point c => simp [ofMember?, memberName, Coord.ofJson?_eq_some.mpr hbody]
    | line start stop =>
      obtain ⟨a, b, hrecord, hstart, hstop⟩ := hbody
      simp [ofMember?, memberName, Json.fields?_eq_some.mpr hrecord,
        Coord.ofJson?_eq_some.mpr hstart, Coord.ofJson?_eq_some.mpr hstop]
    | lineString points => simp [ofMember?, memberName, Coord.listOfJson?_eq_some.mpr hbody]
    | polygon p => simp [ofMember?, memberName, Polygon.ofJson?_eq_some.mpr hbody]
    | multiPoint points => simp [ofMember?, memberName, Coord.listOfJson?_eq_some.mpr hbody]
    | multiLineString lines => simp [ofMember?, memberName, Coord.linesOfJson?_eq_some.mpr hbody]
    | multiPolygon polygons => simp [ofMember?, memberName, Polygon.listOfJson?_eq_some.mpr hbody]
    | collection members => exact absurd rfl h
    | rect min max =>
      obtain ⟨a, b, hrecord, hmin, hmax⟩ := hbody
      simp [ofMember?, memberName, Json.fields?_eq_some.mpr hrecord,
        Coord.ofJson?_eq_some.mpr hmin, Coord.ofJson?_eq_some.mpr hmax]
    | triangle a b c =>
      obtain ⟨x, y, z, rfl, ha, hb, hc⟩ := hbody
      simp [ofMember?, memberName, Coord.ofJson?_eq_some.mpr ha, Coord.ofJson?_eq_some.mpr hb,
        Coord.ofJson?_eq_some.mpr hc]

/-- Only an object of one member is read, by the name of the member. -/
theorem ofJson?_cases {v : Json} {g : Geometry} (h : ofJson? v = some g) :
    (∃ kind body, v = .object [(kind, body)] ∧ kind ≠ "GeometryCollection" ∧
      ofMember? kind body = some g) ∨
    ∃ items members, v = .object [("GeometryCollection", .array items)] ∧
      membersOfJson? items = some members ∧ g = .collection members := by
  unfold ofJson? at h
  split at h
  · obtain ⟨members, hmembers, rfl⟩ := Option.map_eq_some_iff.mp h
    exact .inr ⟨_, members, rfl, hmembers, rfl⟩
  · next kind body _ =>
    refine .inl ⟨kind, body, rfl, fun hkind => ?_, h⟩
    subst hkind
    cases h
  · cases h

/-- The forms of a geometry that holds no geometries are read. -/
theorem ofJson?_eq_some_of_ne {g : Geometry} (h : g.memberName ≠ "GeometryCollection") (v : Json) :
    ofJson? v = some g ↔ g.DenotedBy v := by
  constructor
  · intro hread
    rcases ofJson?_cases hread with ⟨kind, body, rfl, hkind, hbody⟩ | ⟨items, members, -, -, rfl⟩
    · obtain ⟨rfl, hdenoted⟩ := (ofMember?_eq_some hkind).mp hbody
      exact ⟨body, rfl, hdenoted⟩
    · exact absurd rfl h
  · rintro ⟨body, rfl, hbody⟩
    rw [ofJson?_member h]
    exact (ofMember?_eq_some h).mpr ⟨rfl, hbody⟩

mutual

/-- Reading accepts the forms of a geometry and no other values. -/
theorem ofJson?_eq_some : (g : Geometry) → (v : Json) → (ofJson? v = some g ↔ g.DenotedBy v)
  | .point _, v | .line .., v | .lineString _, v | .polygon _, v | .multiPoint _, v
  | .multiLineString _, v | .multiPolygon _, v | .rect .., v | .triangle .., v =>
    ofJson?_eq_some_of_ne (by simp [memberName]) v
  | .collection members, v => by
    constructor
    · intro hread
      rcases ofJson?_cases hread with ⟨kind, body, -, hkind, hbody⟩ | ⟨items, others, rfl, h, hsame⟩
      · exact absurd ((ofMember?_eq_some hkind).mp hbody).1 hkind
      · cases hsame
        exact ⟨.array items, rfl, items, rfl, (membersOfJson?_eq_some members items).mp h⟩
    · rintro ⟨_, rfl, items, rfl, hitems⟩
      rw [memberName, ofJson?, (membersOfJson?_eq_some members items).mpr hitems]
      rfl

theorem membersOfJson?_eq_some : (gs : List Geometry) → (items : List Json) →
    (membersOfJson? items = some gs ↔ AreDenotedBy gs items)
  | [], items => by
    cases items with
    | nil => simp [membersOfJson?, AreDenotedBy]
    | cons item rest =>
      simp only [membersOfJson?, AreDenotedBy]
      cases ofJson? item <;> simp
  | g :: rest, items => by
    cases items with
    | nil => simp [membersOfJson?, AreDenotedBy]
    | cons item others =>
      -- The geometries are nested, so this calls the theorem on one geometry for each member.
      have hitem := ofJson?_eq_some g item
      have hothers := membersOfJson?_eq_some rest others
      rw [AreDenotedBy, membersOfJson?]
      constructor
      · intro hread
        cases hfirst : ofJson? item with
        | none => simp [hfirst] at hread
        | some first =>
          simp only [hfirst, Option.map_eq_some_iff] at hread
          obtain ⟨gs, hgs, ⟨⟩⟩ := hread
          obtain ⟨body, rfl, hbody⟩ := hitem.mp hfirst
          exact ⟨body, others, rfl, hbody, hothers.mp hgs⟩
      · rintro ⟨body, _, hsame, hbody, hrest⟩
        obtain ⟨rfl, rfl⟩ := List.cons.inj hsame
        rw [hitem.mpr ⟨body, rfl, hbody⟩, hothers.mpr hrest]
        rfl

end

/-- An embedded geometry with finite coordinates is a form of itself. -/
theorem denotedBy_toJson {g : Geometry} (h : g.isFinite = true) : g.DenotedBy g.toJson := by
  rw [← ofJson?_eq_some, ofJson?_toJson, if_pos h]

end Geometry

/-! ## Numbers of a JSON value -/

/-- The number is an integer of sixty-four bits, or it is finite. -/
def Number.WellFormed : Number → Prop
  | .int i => Json.FitsWord i
  | .float x => x.isFinite = true

theorem Number.WellFormed.isFinite {n : Number} (h : n.WellFormed) :
    n.toBinary64.isFinite = true := by
  cases n with
  | int i =>
    obtain ⟨hlow, hhigh⟩ := h
    have hshifts : (1 <<< 63 : Nat) = 2 ^ 63 ∧ (1 <<< 64 : Nat) = 2 ^ 64 := ⟨rfl, rfl⟩
    exact Binary64.isFinite_ofInt (by omega)
  | float x => exact h

namespace Json

mutual

/-- The numbers of the value are integers of sixty-four bits or finite, and the members of its
    objects stand in the order of their names. -/
def WellFormed : Json → Prop
  | .null | .bool _ | .string _ => True
  | .number n => n.WellFormed
  | .array items => AreWellFormed items
  | .object members => Keyed.Ascending members ∧ MembersWellFormed members

def AreWellFormed : List Json → Prop
  | [] => True
  | item :: rest => item.WellFormed ∧ AreWellFormed rest

def MembersWellFormed : List (String × Json) → Prop
  | [] => True
  | (_, value) :: rest => value.WellFormed ∧ MembersWellFormed rest

end

theorem membersWellFormed_iff {members : List (String × Json)} :
    MembersWellFormed members ↔ ∀ member ∈ members, member.2.WellFormed := by
  induction members with
  | nil => simp [MembersWellFormed]
  | cons member rest ih => rw [MembersWellFormed, ih, List.forall_mem_cons]

/-- A member of a well-formed object is well-formed. -/
theorem WellFormed.find? {members : Keyed Json} (h : (Json.object members).WellFormed)
    {name : String} {v : Json} (hv : members.find? name = some v) : v.WellFormed :=
  membersWellFormed_iff.mp h.2 (name, v) ((Keyed.find?_eq_some_iff h.1).mp hv)

theorem IsNumber.isFinite {v : Json} {x : Binary64} (h : v.IsNumber x) (hv : v.WellFormed) :
    x.isFinite = true := by
  obtain ⟨n, rfl, rfl⟩ := h
  exact Number.WellFormed.isFinite hv

theorem IsRecord.wellFormed {first second : String} {v a b : Json} (h : v.IsRecord first second a b)
    (hv : v.WellFormed) : a.WellFormed ∧ b.WellFormed := by
  rcases h with ⟨members, rfl, ha, hb⟩ | rfl
  · exact ⟨hv.find? ha, hv.find? hb⟩
  · exact ⟨hv.1, hv.2.1⟩

/-- What holds of the item of each well-formed form holds of all items of a list. -/
theorem IsList.all {α : Type} {isItem : Json → α → Prop} {p : α → Bool} {v : Json} {as : List α}
    (h : v.IsList isItem as) (hv : v.WellFormed)
    (hitem : ∀ item a, isItem item a → item.WellFormed → p a = true) : as.all p = true := by
  obtain ⟨items, rfl, hitems⟩ := h
  have hwell : AreWellFormed items := hv
  clear hv
  induction hitems with
  | nil => rfl
  | cons hfirst _ ih => rw [List.all_cons, hitem _ _ hfirst hwell.1, ih hwell.2, Bool.true_and]

end Json

theorem Coord.DenotedBy.isFinite {c : Coord} {v : Json} (h : c.DenotedBy v) (hv : v.WellFormed) :
    c.isFinite = true := by
  obtain ⟨x, y, hrecord, hx, hy⟩ := h
  obtain ⟨hwellX, hwellY⟩ := hrecord.wellFormed hv
  rw [Coord.isFinite, hx.isFinite hwellX, hy.isFinite hwellY, Bool.true_and]

theorem Coord.ListDenotedBy.isFinite {points : List Coord} {v : Json}
    (h : Coord.ListDenotedBy points v) (hv : v.WellFormed) : points.all Coord.isFinite = true :=
  h.all hv fun _ _ hc => hc.isFinite

theorem Polygon.DenotedBy.isFinite {p : Polygon} {v : Json} (h : p.DenotedBy v)
    (hv : v.WellFormed) : p.isFinite = true := by
  obtain ⟨exterior, interiors, hrecord, hexterior, hinteriors⟩ := h
  obtain ⟨hwellExterior, hwellInteriors⟩ := hrecord.wellFormed hv
  rw [Polygon.isFinite, hexterior.isFinite hwellExterior, Bool.true_and]
  exact hinteriors.all hwellInteriors fun _ _ hring => hring.isFinite

namespace Geometry

mutual

theorem isFinite_of_body : (g : Geometry) → {body : Json} → g.BodyDenotedBy body →
    body.WellFormed → g.isFinite = true
  | .point _, _, h, hbody => Coord.DenotedBy.isFinite h hbody
  | .line .., _, ⟨_, _, hrecord, hstart, hstop⟩, hbody => by
    obtain ⟨hwellStart, hwellStop⟩ := hrecord.wellFormed hbody
    rw [isFinite, hstart.isFinite hwellStart, hstop.isFinite hwellStop, Bool.true_and]
  | .lineString _, _, h, hbody | .multiPoint _, _, h, hbody =>
    Coord.ListDenotedBy.isFinite h hbody
  | .polygon _, _, h, hbody => Polygon.DenotedBy.isFinite h hbody
  | .multiLineString _, _, h, hbody => Json.IsList.all h hbody fun _ _ hline => hline.isFinite
  | .multiPolygon _, _, h, hbody => Json.IsList.all h hbody fun _ _ hp => hp.isFinite
  | .collection members, _, ⟨items, hsame, hitems⟩, hbody => by
    subst hsame
    rw [isFinite]
    exact areFinite_of_items members hitems hbody
  | .rect .., _, ⟨_, _, hrecord, hmin, hmax⟩, hbody => by
    obtain ⟨hwellMin, hwellMax⟩ := hrecord.wellFormed hbody
    rw [isFinite, hmin.isFinite hwellMin, hmax.isFinite hwellMax, Bool.true_and]
  | .triangle .., _, ⟨_, _, _, hsame, ha, hb, hc⟩, hbody => by
    subst hsame
    obtain ⟨hwellA, hwellB, hwellC, -⟩ := hbody
    rw [isFinite, ha.isFinite hwellA, hb.isFinite hwellB, hc.isFinite hwellC, Bool.true_and,
      Bool.true_and]

theorem areFinite_of_items : (gs : List Geometry) → {items : List Json} → AreDenotedBy gs items →
    Json.AreWellFormed items → areFinite gs = true
  | [], _, _, _ => rfl
  | g :: rest, _, ⟨_, _, hsame, hbody, hrest⟩, hitems => by
    subst hsame
    obtain ⟨⟨-, hwell, -⟩, hwellRest⟩ := hitems
    rw [areFinite, isFinite_of_body g hbody hwell, areFinite_of_items rest hrest hwellRest,
      Bool.true_and]

end

/-- A geometry that a well-formed value is a form of has finite coordinates. -/
theorem DenotedBy.isFinite {g : Geometry} {v : Json} (h : g.DenotedBy v) (hv : v.WellFormed) :
    g.isFinite = true := by
  obtain ⟨body, rfl, hbody⟩ := h
  exact isFinite_of_body g hbody hv.2.1

end Geometry

end FeatureStore
