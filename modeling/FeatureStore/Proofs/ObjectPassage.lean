-- SUMMARY: A JSON object comes through its parts with its geometry brought into the form in which geometries are embedded.
import FeatureStore.Proofs.Coherence
import FeatureStore.Proofs.EmbeddedForms

/-!
# Objects in parts

A JSON object is taken apart if its geometry, when there is one, is in any of the forms of
a geometry. Put together from the parts it has all its other members as they were, of
whatever type they are, and the geometry in the one form in which geometries are embedded.
An object with its geometry in this form comes through its parts unchanged, so going
through the parts a second time changes nothing more.

Any other value is refused, and a codec that is told to take it apart notes the error and
is otherwise left as it was.

A geometry that is embedded when an object is put together is there again when the object is
taken apart, bit for bit, however deeply its members are nested. A coordinate that is not finite
has no form in JSON, so a geometry that has one anywhere is refused as a whole: a geometry never
comes out as another one.
-/

namespace FeatureStore

namespace Json

variable {members : Keyed Json} {geometry : Option Geometry}

/-! ## The geometry of an object -/

/-- The object has no geometry, which may be said by `null`, or a form of the geometry. -/
def Carries (members : Keyed Json) : Option Geometry → Prop
  | none => members.find? geometryMember = none ∨ members.find? geometryMember = some .null
  | some g => ∃ v, members.find? geometryMember = some v ∧ g.DenotedBy v

/-- What is read from a member that is not `null`. -/
theorem embeddedGeometry_of_ne_null {v : Json} (hfound : members.find? geometryMember = some v)
    (hnull : v ≠ .null) :
    embeddedGeometry members
      = match Geometry.ofJson? v with
        | some g => .ok (some g)
        | none => .error .unreadableGeometry := by
  unfold embeddedGeometry
  split
  · next hnone => exact absurd (hnone.symm.trans hfound) nofun
  · next hsame => exact absurd (Option.some.inj (hfound.symm.trans hsame)) hnull
  · next hsame =>
    obtain rfl := Option.some.inj (hfound.symm.trans hsame)
    rfl

theorem ne_null_of_denotedBy {g : Geometry} {v : Json} (h : g.DenotedBy v) : v ≠ .null := by
  obtain ⟨body, rfl, -⟩ := h
  nofun

theorem embeddedGeometry_of_carries (h : Carries members geometry) :
    embeddedGeometry members = .ok geometry := by
  cases geometry with
  | none => rcases h with hnone | hnull <;> simp [embeddedGeometry, *]
  | some g =>
    obtain ⟨v, hfound, hdenoted⟩ := h
    rw [embeddedGeometry_of_ne_null hfound (ne_null_of_denotedBy hdenoted),
      (Geometry.ofJson?_eq_some g v).mpr hdenoted]

/-- A member that is no form of any geometry is refused. -/
theorem embeddedGeometry_of_undenoted {v : Json} (hfound : members.find? geometryMember = some v)
    (hnull : v ≠ .null) (h : ∀ g : Geometry, ¬ g.DenotedBy v) :
    embeddedGeometry members = .error .unreadableGeometry := by
  rw [embeddedGeometry_of_ne_null hfound hnull]
  cases hread : Geometry.ofJson? v with
  | none => rfl
  | some g => exact absurd ((Geometry.ofJson?_eq_some g v).mp hread) (h g)

theorem disassemble_of_not_object {v : Json} (h : ∀ members, v ≠ .object members) :
    disassemble v = .error .notAnObject := by
  cases v with
  | object members => exact absurd rfl (h members)
  | null | bool _ | number _ | string _ | array _ => rfl

theorem disassemble_of_undenoted {v : Json} (hfound : members.find? geometryMember = some v)
    (hnull : v ≠ .null) (h : ∀ g : Geometry, ¬ g.DenotedBy v) :
    disassemble (.object members) = .error .unreadableGeometry := by
  rw [disassemble, embeddedGeometry_of_undenoted hfound hnull h]
  rfl

/-- The geometry of a well-formed object has finite coordinates. -/
theorem Carries.isFinite (h : Carries members geometry) (hwell : (Json.object members).WellFormed) :
    ∀ g, geometry = some g → g.isFinite = true := by
  rintro g rfl
  obtain ⟨v, hfound, hdenoted⟩ := h
  exact hdenoted.isFinite (hwell.find? hfound)

/-- An embedded geometry is read as the geometry, if its coordinates are finite, and otherwise not
    at all. -/
theorem embeddedGeometry_of_toJson {g : Geometry}
    (hfound : members.find? geometryMember = some g.toJson) :
    embeddedGeometry members
      = if g.isFinite then .ok (some g) else .error .unreadableGeometry := by
  rw [embeddedGeometry_of_ne_null hfound (toJson_ne_null g), Geometry.ofJson?_toJson]
  cases g.isFinite <;> rfl

/-- If it is read at all, then it is the geometry that was embedded. -/
theorem eq_of_toJson {g : Geometry} (hread : embeddedGeometry members = .ok geometry)
    (hfound : members.find? geometryMember = some g.toJson) : geometry = some g := by
  rw [embeddedGeometry_of_toJson hfound] at hread
  by_cases hfinite : g.isFinite = true
  · rw [if_pos hfinite] at hread
    exact (Except.ok.inj hread).symm
  · rw [if_neg hfinite] at hread
    cases hread

/-! ## The object with its geometry in the embedded form -/

/-- The members of an object with the geometry in the form in which geometries are embedded. -/
def settled (members : Keyed Json) (geometry : Option Geometry) : Keyed Json :=
  setMember geometryMember (geometry.map Geometry.toJson) (Keyed.erase geometryMember members)

theorem find?_settled (members : Keyed Json) (geometry : Option Geometry) (name : String) :
    (settled members geometry).find? name
      = if geometryMember = name then geometry.map Geometry.toJson else members.find? name := by
  rw [settled, find?_setMember, Keyed.find?_erase]
  split
  · rw [Option.or_none]
  · rfl

theorem ascending_settled (h : members.Ascending) (geometry : Option Geometry) :
    (settled members geometry).Ascending :=
  ascending_setMember (Keyed.ascending_erase h geometryMember) geometryMember _

/-- A geometry in its embedded form stays as it is. -/
theorem settled_eq_self (h : members.Ascending)
    (hsame : members.find? geometryMember = geometry.map Geometry.toJson) :
    settled members geometry = members := by
  refine Keyed.eq_of_find? (ascending_settled h geometry) h fun name => ?_
  rw [find?_settled]
  split
  · next hname => rw [← hname, hsame]
  · rfl

/-- An object without a geometry, or with an embedded one, is settled already. -/
theorem Carries.settled_eq_self (hcarries : Carries members geometry) (h : members.Ascending)
    (hembedded : members.find? geometryMember = none ∨
      ∃ g : Geometry, members.find? geometryMember = some g.toJson) :
    settled members geometry = members := by
  refine Json.settled_eq_self h ?_
  rcases hembedded with hnone | ⟨g, hfound⟩
  · cases geometry with
    | none => exact hnone
    | some g =>
      obtain ⟨v, hfound, -⟩ := hcarries
      cases hnone.symm.trans hfound
  · rw [eq_of_toJson (embeddedGeometry_of_carries hcarries) hfound, hfound]
    rfl

/-- Only the geometry is another one. -/
theorem erase_settled (h : members.Ascending) (geometry : Option Geometry) :
    Keyed.erase geometryMember (settled members geometry) = Keyed.erase geometryMember members := by
  refine erase_setMember (Keyed.ascending_erase h geometryMember) ?_ _
  rw [Keyed.find?_erase, if_pos rfl]

theorem Legible.settled (h : Legible members) (geometry : Option Geometry) :
    Legible (settled members geometry) := by
  have hbody := erase_settled h.ascending geometry
  exact ⟨ascending_settled h.ascending geometry, by rw [hbody]; exact h.exact,
    by rw [hbody]; exact h.shallow⟩

/-! ## Through the parts -/

/-- The parts of an object are put together to the object with its geometry in the embedded
    form. -/
theorem assemble_of_carries (h : Legible members) (hgeometry : Carries members geometry)
    {p : Parts} (hp : disassemble (.object members) = .ok p) (op : Option ExecutedOp) :
    assemble { p with op } = .ok (.object (settled members geometry)) := by
  have hassemble := assemble_parts h hp op p.version p.geometry
  obtain ⟨_, found, hobject, hfound, rfl⟩ := exists_members hp
  cases hobject
  obtain rfl : geometry = found :=
    Except.ok.inj ((embeddedGeometry_of_carries hgeometry).symm.trans hfound)
  rw [setMember_textMember? h.ascending "version" (by decide),
    GeometryCache.peekParsed_ofParsed] at hassemble
  exact hassemble

theorem exists_parts (h : Carries members geometry) : ∃ p, disassemble (.object members) = .ok p := by
  rw [disassemble, embeddedGeometry_of_carries h]
  exact ⟨_, rfl⟩

/-- With its geometry in the embedded form, an object comes through its parts unchanged. -/
theorem survives_settled (h : Legible members)
    (hfinite : ∀ g, geometry = some g → g.isFinite = true) :
    Format.Survives .json (.object (settled members geometry)) := by
  have hcarries : Carries (settled members geometry) geometry := by
    have hfound := find?_settled members geometry geometryMember
    rw [if_pos rfl] at hfound
    cases geometry with
    | none => exact .inl hfound
    | some g => exact ⟨g.toJson, hfound, Geometry.denotedBy_toJson (hfinite g rfl)⟩
  obtain ⟨p, hp⟩ := exists_parts hcarries
  have hassemble := assemble_of_carries (h.settled geometry) hcarries hp p.op
  rw [settled_eq_self (ascending_settled h.ascending geometry)
    (by rw [find?_settled, if_pos rfl])] at hassemble
  have hdisassemble : Format.disassemble .json (.object (settled members geometry)) = .ok p := hp
  rw [Format.Survives, hdisassemble]
  exact hassemble

/-! ## Embedded geometries -/

variable {p : Parts} {g : Geometry}

/-- An object with an embedded geometry is taken apart with this geometry, or with none. -/
theorem geometry_of_disassemble (h : members.find? geometryMember = some g.toJson)
    (hp : disassemble (.object members) = .ok p) : p.geometry = .ofParsed (some g) := by
  obtain ⟨_, geometry, hobject, hread, rfl⟩ := exists_members hp
  cases hobject
  rw [eq_of_toJson hread h]

theorem disassemble_of_isFinite (h : members.find? geometryMember = some g.toJson)
    (hfinite : g.isFinite = true) :
    ∃ p, disassemble (.object members) = .ok p ∧ p.geometry = .ofParsed (some g) := by
  have hread := embeddedGeometry_of_toJson h
  rw [hfinite] at hread
  have hparts : ∃ p, disassemble (.object members) = .ok p := by
    rw [disassemble, hread]
    exact ⟨_, rfl⟩
  obtain ⟨p, hp⟩ := hparts
  exact ⟨p, hp, geometry_of_disassemble h hp⟩

theorem disassemble_of_not_isFinite (h : members.find? geometryMember = some g.toJson)
    (hfinite : g.isFinite = false) :
    disassemble (.object members) = .error .unreadableGeometry := by
  have hread := embeddedGeometry_of_toJson h
  rw [hfinite] at hread
  rw [disassemble, hread]
  rfl

/-- Parts with a body of an object are put together, and what they have of a geometry is
    embedded, in place of any member of that name that the body has. -/
theorem assemble_embeds (hbody : (ofText? (p.json.getD "\x7b\x7d")).bind object? = some members)
    (hgeometry : p.geometry.peekParsed = some g) :
    ∃ after : Keyed Json, assemble p = .ok (.object after) ∧
      after.find? geometryMember = some g.toJson := by
  rw [assemble, hbody]
  refine ⟨_, rfl, ?_⟩
  rw [find?_setMember, if_pos rfl, hgeometry]
  rfl

/-- Parts with a geometry and with the body of an object are put together to an object in which
    the geometry is embedded. Taken apart, the object has the same geometry, bit for bit, if all
    coordinates are finite, and is refused because of its geometry if any of them is not. It never
    has another geometry. -/
theorem geometry_kept_or_refused
    (hbody : (ofText? (p.json.getD "\x7b\x7d")).bind object? = some members)
    (hgeometry : p.geometry.peekParsed = some g) :
    ∃ after : Keyed Json, assemble p = .ok (.object after) ∧
      after.find? geometryMember = some g.toJson ∧
      (g.isFinite = true → ∃ parts, disassemble (.object after) = .ok parts ∧
        parts.geometry = .ofParsed (some g)) ∧
      (g.isFinite = false → ∃ e, disassemble (.object after) = .error e ∧ e.kind = .geometry) ∧
      ∀ parts, disassemble (.object after) = .ok parts → parts.geometry = .ofParsed (some g) := by
  obtain ⟨after, hassemble, hembedded⟩ := assemble_embeds hbody hgeometry
  refine ⟨after, hassemble, hembedded, disassemble_of_isFinite hembedded, fun hfinite => ?_,
    fun parts => geometry_of_disassemble hembedded⟩
  exact ⟨_, disassemble_of_not_isFinite hembedded hfinite, rfl⟩

/-- A polygon with a hole, in a collection in a collection: it is kept with a negative zero in the
    hole, and refused with an infinite coordinate there. -/
theorem geometry_kept_or_refused_in_hole :
    let ring (x : Binary64) : List Coord := [⟨.zero, .zero⟩, ⟨x, .zero⟩]
    let nested (x : Binary64) : Geometry :=
      .collection [.rect ⟨.zero, .zero⟩ ⟨.ofInt 1, .zero⟩,
        .collection [.polygon ⟨ring (.ofInt 1), [ring x]⟩]]
    let p (x : Binary64) : Parts := { geometry := .parsed (nested x) }
    (∃ v parts, assemble (p Binary64.zero.neg) = .ok v ∧ disassemble v = .ok parts ∧
      parts.geometry = .ofParsed (some (nested Binary64.zero.neg))) ∧
    ∃ v e, assemble (p .infinity) = .ok v ∧ disassemble v = .error e ∧ e.kind = .geometry := by
  intro ring nested p
  have hbody : (ofText? "\x7b\x7d").bind object? = some [] := by rfl
  obtain ⟨after, hassemble, -, hkept, -⟩ :=
    geometry_kept_or_refused (p := p Binary64.zero.neg) hbody rfl
  obtain ⟨parts, hparts, hgeometry⟩ := hkept (by decide)
  obtain ⟨after', hassemble', -, -, hrefused, -⟩ :=
    geometry_kept_or_refused (p := p .infinity) hbody rfl
  obtain ⟨e, he, hkind⟩ := hrefused (by decide)
  exact ⟨⟨_, parts, hassemble, hparts, hgeometry⟩, _, e, hassemble', he, hkind⟩

end Json

/-! ## Codecs -/

namespace Codec

open Json

/-- Decoding takes the assembled feature apart, unless the parts are there already. -/
theorem decode_of_feature {fmt : Format} {c : Codec fmt} {f : fmt.Assembled}
    (hf : c.feature = some f) {force : Bool} (hforce : (c.decoded && !force) = false) :
    c.decode force
      = match fmt.disassemble f with
        | .ok parts =>
          { c with parts := { parts with op := c.parts.op }, decoded := true, error := none }
        | .error e => { c with decoded := false, error := some e } := by
  rw [decode, if_neg (Bool.eq_false_iff.mp hforce)]
  split
  · next hnone => cases hf.symm.trans hnone
  · next found hfound =>
    obtain rfl := Option.some.inj (hf.symm.trans hfound)
    rfl

/-- A codec holds a JSON value and is told to take it apart. A value that is no object, or
    that has a geometry in no form of one, leaves an error on the codec and nothing else. An
    object without a geometry or with a form of one is taken apart, and the parts are put
    together to an object that has the same members, but for the geometry: it is missing if
    the object had none, and in the embedded form otherwise. So an object whose geometry was
    missing or embedded is unchanged, and any object is unchanged the second time. -/
theorem decode_settles_geometry {c : Codec .json} {v : Json} (hv : c.feature = some v)
    {force : Bool} (hforce : (c.decoded && !force) = false) :
    ((∀ members, v ≠ .object members) →
      c.decode force = { c with decoded := false, error := some .notAnObject }) ∧
    (∀ members value, v = .object members →
      Keyed.find? geometryMember members = some value → value ≠ .null →
      (∀ g : Geometry, ¬ g.DenotedBy value) →
      c.decode force = { c with decoded := false, error := some .unreadableGeometry }) ∧
    (∀ members geometry, v = .object members → Carries members geometry → v.WellFormed →
      (Json.object (Keyed.erase geometryMember members)).Exact →
      (Json.object (Keyed.erase geometryMember members)).depth ≤ depthLimit →
      (c.decode force).decoded = true ∧ (c.decode force).error = none ∧
      ∃ after : Keyed Json,
        Format.assemble .json (c.decode force).parts = .ok (.object after) ∧
        after.Ascending ∧ after.find? geometryMember = geometry.map Geometry.toJson ∧
        (∀ name, name ≠ geometryMember → after.find? name = Keyed.find? name members) ∧
        ((Keyed.find? geometryMember members = none ∨
          ∃ g : Geometry, Keyed.find? geometryMember members = some g.toJson) →
          after = members) ∧
        Format.Survives .json (.object after)) := by
  have hdecode := decode_of_feature hv hforce
  refine ⟨fun hobject => ?_, ?_, ?_⟩
  · have hrefused : Format.disassemble .json v = .error .notAnObject :=
      disassemble_of_not_object hobject
    rw [hdecode, hrefused]
  · rintro members value rfl hfound hnull hforms
    have hrefused : Format.disassemble .json (.object members) = .error .unreadableGeometry :=
      disassemble_of_undenoted hfound hnull hforms
    rw [hdecode, hrefused]
  · rintro members geometry rfl hcarries hwell hexact hshallow
    have hlegible : Legible members := ⟨hwell.1, hexact, hshallow⟩
    obtain ⟨p, hp⟩ := exists_parts hcarries
    have hparts : Format.disassemble .json (.object members) = .ok p := hp
    rw [hdecode, hparts]
    refine ⟨rfl, rfl, settled members geometry, assemble_of_carries hlegible hcarries hp c.parts.op,
      ascending_settled hwell.1 geometry, ?_, fun name hname => ?_,
      hcarries.settled_eq_self hwell.1, survives_settled hlegible (hcarries.isFinite hwell)⟩
    · rw [find?_settled, if_pos rfl]
    · rw [find?_settled, if_neg (Ne.symm hname)]

/-- The geometry is a record with a field that lines do not have, of points that are arrays of
    integers and floats, and no tag is a text. -/
theorem decode_settles_geometry_of_arrays :
    let v : Json := .object
      [("geometry", .object [("Line", .object
          [("end", .array [.ofInt 1, .ofInt 0]), ("extra", .null),
            ("start", .array [.number (.float .zero), .ofInt 0])])]),
        ("id", .ofInt 7), ("type", .null), ("version", .array [])]
    let c : Codec .json := .ofFeature v
    (c.decode false).error = none ∧ ∃ after : Keyed Json,
      Format.assemble .json (c.decode false).parts = .ok (.object after) ∧
      after.find? geometryMember = some (Geometry.line ⟨.zero, .zero⟩ ⟨.ofInt 1, .zero⟩).toJson ∧
      after.find? "id" = some (.ofInt 7) ∧ Format.Survives .json (.object after) := by
  intro v c
  have hzero : Binary64.ofInt 0 = .zero := by decide
  have hcarries : Carries
      [("geometry", .object [("Line", .object
          [("end", .array [.ofInt 1, .ofInt 0]), ("extra", .null),
            ("start", .array [.number (.float .zero), .ofInt 0])])]),
        ("id", .ofInt 7), ("type", .null), ("version", .array [])]
      (some (.line ⟨.zero, .zero⟩ ⟨.ofInt 1, .zero⟩)) :=
    ⟨_, rfl, _, rfl, _, _, .inl ⟨_, rfl, rfl, rfl⟩,
      ⟨_, _, .inr rfl, ⟨_, rfl, rfl⟩, ⟨_, rfl, hzero⟩⟩,
      ⟨_, _, .inr rfl, ⟨_, rfl, rfl⟩, ⟨_, rfl, hzero⟩⟩⟩
  have hword (i : Int) (h : i = 0 ∨ i = 1 ∨ i = 7) : FitsWord i := by
    rcases h with rfl | rfl | rfl <;> exact ⟨by decide, by decide⟩
  have hfloat : Binary64.zero.isFinite = true := by decide
  have hwell : v.WellFormed := by
    refine ⟨?_, ⟨⟨?_, ⟨⟨?_, ⟨hword 1 (by decide), hword 0 (by decide), trivial⟩, trivial,
      ⟨hfloat, hword 0 (by decide), trivial⟩, trivial⟩, trivial⟩⟩, hword 7 (by decide), trivial,
      trivial, trivial⟩⟩
    all_goals
      unfold Keyed.Ascending
      decide
  have hexact : (Json.object [("id", .ofInt 7), ("type", .null), ("version", .array [])]).Exact := by
    refine ⟨?_, ⟨7, rfl, hword 7 (by decide)⟩, trivial, trivial, trivial⟩
    unfold Keyed.Ascending
    decide
  have hforce : (c.decoded && !false) = false := rfl
  obtain ⟨-, herror, after, hafter, -, hgeometry, hothers, -, hagain⟩ :=
    (decode_settles_geometry (c := c) rfl hforce).2.2 _ _ rfl hcarries hwell hexact (by decide)
  exact ⟨herror, after, hafter, hgeometry, hothers "id" (by decide), hagain⟩

end Codec

end FeatureStore
