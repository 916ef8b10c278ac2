-- SUMMARY: A feature comes through its parts unchanged, also by way of the binary form of its geometry and of the other format.
import FeatureStore.Proofs.RoundTrip

/-!
# Features in parts

Taken apart, a feature with a readable body is its id, its version, its tags, its geometry
and its body, and it is put together from them as it was. The geometry may be encoded and
decoded on the way.

The same parts are also those of a JSON object. Its members are the fields of the body in
another order, and the geometry as a member of its own. So its body is another text, but
the record in it is the same, and the parts of the object are again put together to the
feature.
-/

namespace FeatureStore

open Json

namespace Feature

/-! ## Parts of a feature -/

/-- A feature comes through its parts: they say everything about it, and put together they
    are the feature again. So they are when the geometry has been through its binary form,
    which asks of it that its lists are counted by words. -/
theorem passes_through_parts {f : Feature} (h : f.Readable) :
    ∃ p, Format.disassemble .geo f = .ok p ∧
      p.id = some f.id ∧ p.version = f.version ∧ p.featureType = some f.featureType ∧
      p.propertiesType = f.propertiesType ∧ p.geometry.readParsed.1 = .ok f.geometry ∧
      Format.assemble .geo p = .ok f ∧
      ((∀ g, f.geometry = some g → g.Sized) →
        ∃ cache, (GeometryCache.ofBinary p.geometry.readBinary.1).withParsed = .ok cache ∧
          Format.assemble .geo { p with geometry := cache } = .ok f) := by
  have hassemble {cache : GeometryCache} (hcache : cache.peekParsed = f.geometry) :
      Feature.assemble { f.disassemble with geometry := cache } = .ok f := by
    have hparts := assemble_parts (ofBody?_body h) none f.version hcache
    rwa [Option.or_self] at hparts
  have hparsed : (GeometryCache.ofParsed f.geometry).readParsed.1 = .ok f.geometry := by
    rw [GeometryCache.readParsed, GeometryCache.withParsed_ofParsed]
    exact congrArg Except.ok (GeometryCache.peekParsed_ofParsed f.geometry)
  refine ⟨f.disassemble, rfl, rfl, rfl, rfl, rfl, hparsed, ?_, fun hsized => ?_⟩
  · simp only [Format.assemble]
    exact hassemble (GeometryCache.peekParsed_ofParsed f.geometry)
  · refine ⟨_, (GeometryCache.withParsed_kept hsized).2, ?_⟩
    simp only [Format.assemble]
    exact hassemble ((GeometryCache.peekParsed_withBinary _).trans
      (GeometryCache.peekParsed_ofParsed f.geometry))

/-- The texts hold quotes, controls and characters beyond sixteen bits, the numbers are the
    least and the greatest, and the point is not a number. -/
theorem passes_through_parts_of_nan :
    let f : Feature :=
      { id := "\"\\\n\x00é😀", propertiesType := some "", version := some "v\t1"
        properties := [("", .array [.ofInt (-0x8000000000000000), .ofInt 0xFFFFFFFFFFFFFFFF, .null]),
          ("geometry", .object [("id", .string "\x7f")])]
        geometry := some (.collection [.point ⟨.ofBits 0x7FF8000000000001, .infinity⟩]) }
    f.Readable ∧ ∃ p, Format.disassemble .geo f = .ok p ∧ Format.assemble .geo p = .ok f ∧
      ∃ cache, (GeometryCache.ofBinary p.geometry.readBinary.1).withParsed = .ok cache ∧
        Format.assemble .geo { p with geometry := cache } = .ok f := by
  intro f
  have hf : f.Readable := by
    refine ⟨⟨?_, ?_⟩, by decide⟩
    · unfold Keyed.Ascending
      decide
    · refine ⟨⟨⟨_, rfl, by decide, by decide⟩, ⟨_, rfl, by decide, by decide⟩, trivial, trivial⟩,
        ⟨?_, trivial, trivial⟩, trivial⟩
      exact List.pairwise_singleton _ _
  have hsized : ∀ g, f.geometry = some g → g.Sized := by
    rintro g ⟨⟩
    exact ⟨by decide, trivial, trivial⟩
  obtain ⟨p, hp, -, -, -, -, -, hassemble, hbinary⟩ := passes_through_parts hf
  exact ⟨hf, p, hp, hassemble, hbinary hsized⟩

/-! ## The JSON object of a feature -/

/-- The members of the JSON object of a feature, but for the geometry. -/
def plainMembers (f : Feature) : Keyed Json := Keyed.ofList f.bodyMembers

def members (f : Feature) : Keyed Json :=
  setMember geometryMember (f.geometry.map Geometry.toJson) f.plainMembers

theorem ascending_plainMembers (f : Feature) : f.plainMembers.Ascending :=
  Keyed.ascending_ofList f.bodyMembers

theorem find?_plainMembers (f : Feature) (name : String) :
    f.plainMembers.find? name = Keyed.find? name f.bodyMembers :=
  Keyed.find?_ofList f.nodup_bodyMembers name

theorem find?_plainMembers_geometry (f : Feature) : f.plainMembers.find? geometryMember = none := by
  rw [find?_plainMembers]
  obtain ⟨id, featureType, propertiesType, version, properties, geometry⟩ := f
  cases propertiesType <;> cases version <;> rfl

/-- What the object holds under the names of the fields. -/
theorem find?_fields (f : Feature) :
    f.plainMembers.find? "id" = some (.string f.id) ∧
      f.plainMembers.find? "type" = some (.string f.featureType) ∧
      f.plainMembers.find? "propertiesType" = f.propertiesType.map .string ∧
      f.plainMembers.find? "version" = f.version.map .string := by
  have hfields := f.find?_bodyMembers
  simp only [fieldNames, List.map_cons, List.cons.injEq] at hfields
  obtain ⟨hid, htype, hpropertiesType, hversion, -⟩ := hfields
  simp only [find?_plainMembers]
  exact ⟨hid, htype, hpropertiesType, hversion⟩

theorem exact_plainMembers {f : Feature} (h : f.Readable) : (Json.object f.plainMembers).Exact := by
  refine ⟨f.ascending_plainMembers, exactMembers_iff.mpr fun member hmem => ?_⟩
  exact exactMembers_iff.mp (exactMembers_bodyMembers h.exact) member (Keyed.mem_of_mem_ofList hmem)

/-- The body of a feature, read as any JSON text, is the object without the geometry. -/
theorem ofText?_body_object {f : Feature} (h : f.Readable) :
    Json.ofText? f.body = some (.object f.plainMembers) := by
  have hdepth : membersDepth f.bodyMembers ≤ depthLimit - 1 := by
    have hproperties : (Json.object f.properties).depth ≤ depthLimit - 1 :=
      Nat.le_sub_one_of_lt h.shallow
    rw [membersDepth_le_iff]
    obtain ⟨id, featureType, propertiesType, version, properties, geometry⟩ := f
    cases propertiesType <;> cases version <;>
      simp [bodyMembers, optionalText, depth] at hproperties ⊢ <;> exact hproperties
  rw [Json.ofText?, ofTextWithin?, ofText?_body h.exact, Option.bind_some]
  change (Written.members? (depthLimit - 1) _).map ofMembers = _
  rw [members?_scanned f.bodyMembers (exactMembers_bodyMembers h.exact) hdepth]
  rfl

/-- The parts of a feature are put together to its JSON object. -/
theorem json_assemble_disassemble {f : Feature} (h : f.Readable) :
    Json.assemble f.disassemble = .ok (.object f.members) := by
  obtain ⟨hid, htype, hpropertiesType, hversion⟩ := f.find?_fields
  have htag {name : String} {value : Option Json} (hfound : f.plainMembers.find? name = value) :
      setMember name value f.plainMembers = f.plainMembers :=
    setMember_of_find? f.ascending_plainMembers fun _ hvalue => hfound.trans hvalue
  simp only [Json.assemble, disassemble, Option.getD_some, ofText?_body_object h, Option.bind_some,
    object?, Option.map_some, htag hid, htag htype, htag hpropertiesType, htag hversion,
    GeometryCache.peekParsed_ofParsed, members]

/-- The JSON object of a feature with finite coordinates has the parts of the feature, but for
    the text of the body. -/
theorem json_disassemble_members {f : Feature}
    (hfinite : ∀ g, f.geometry = some g → g.isFinite = true) :
    Json.disassemble (.object f.members)
      = .ok { f.disassemble with json := some (Json.object f.plainMembers).print } := by
  obtain ⟨hid, htype, hpropertiesType, hversion⟩ := f.find?_fields
  have hgeometry : embeddedGeometry f.members = .ok f.geometry := by
    refine embeddedGeometry_of_find? ?_ hfinite
    rw [members, find?_setMember, if_pos rfl, find?_plainMembers_geometry, Option.or_none]
  have hbody : Keyed.erase geometryMember f.members = f.plainMembers :=
    erase_setMember f.ascending_plainMembers f.find?_plainMembers_geometry _
  have htext {name : String} (hname : geometryMember ≠ name) :
      textMember? name f.members = (f.plainMembers.find? name).bind string? := by
    rw [textMember?, members, find?_setMember, if_neg hname]
  have hstring (text : Option String) : (text.map Json.string).bind string? = text := by
    cases text <;> rfl
  rw [Json.disassemble, hgeometry, hbody, htext (by decide), htext (by decide), htext (by decide),
    htext (by decide), hid, htype, hpropertiesType, hversion, hstring, hstring]
  rfl

/-- A feature with finite coordinates comes through the other format: its parts are put
    together to a JSON object, and the parts of this object to the feature, with the members
    that it had and no others. -/
theorem passes_through_object {f : Feature} (h : f.Readable)
    (hfinite : ∀ g, f.geometry = some g → g.isFinite = true) :
    ∃ p v q, Format.disassemble .geo f = .ok p ∧ Format.assemble .json p = .ok v ∧
      Format.disassemble .json v = .ok q ∧ Format.assemble .geo q = .ok f := by
  have hbody : ofBody? (Json.object f.plainMembers).print = some { f with geometry := none } := by
    rw [ofBody?, print, Written.ofText?_text (plain_written _ (exact_plainMembers h))]
    exact ofWritten?_members h (Keyed.nodup_of_ascending f.ascending_plainMembers)
      f.find?_plainMembers
  have hassemble := assemble_parts hbody none f.version
    (GeometryCache.peekParsed_ofParsed f.geometry)
  rw [Option.or_self] at hassemble
  refine ⟨f.disassemble, .object f.members, _, rfl, ?_, json_disassemble_members hfinite, ?_⟩
  · simp only [Format.assemble]
    exact json_assemble_disassemble h
  · simp only [Format.assemble]
    exact hassemble

/-- The properties hold members that are named like fields of the feature, and optional fields
    are missing. -/
theorem passes_through_object_of_named_properties :
    let f : Feature :=
      { id := "a", version := some "1"
        properties := [("geometry", .null), ("id", .ofInt 7), ("version", .string "2")]
        geometry := some (.line ⟨.zero, .zero⟩ ⟨.zero, .zero⟩) }
    f.Readable ∧ (∀ g, f.geometry = some g → g.isFinite = true) ∧
      ∃ p v q, Format.disassemble .geo f = .ok p ∧ Format.assemble .json p = .ok v ∧
        Format.disassemble .json v = .ok q ∧ Format.assemble .geo q = .ok f := by
  intro f
  have hf : f.Readable := by
    refine ⟨⟨?_, trivial, ⟨7, rfl, by decide, by decide⟩, trivial, trivial⟩, by decide⟩
    unfold Keyed.Ascending
    decide
  have hfinite : ∀ g, f.geometry = some g → g.isFinite = true := by
    rintro g ⟨⟩
    decide
  exact ⟨hf, hfinite, passes_through_object hf hfinite⟩

end Feature

end FeatureStore
