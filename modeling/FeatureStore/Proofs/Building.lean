-- SUMMARY: Caches and codecs as their operations build them, and what a codec with a feature holds.
import FeatureStore.Proofs.Coherence
import FeatureStore.Proofs.Plan

/-!
# Building caches and codecs

A geometry cache is made of one form or of none, and then read and set. So when it holds both
forms, one of them was derived from the other. A codec is made empty, of a feature or of
parts, and then used in any way; its geometry always is in a cache that has been built. And
whenever it counts as decoded next to an assembled feature, its parts have a body: either the
feature was put together from them, or they were taken from it.
-/

namespace FeatureStore

/-! ## Caches -/

namespace GeometryCache

/-- Caches that come about by their operations. -/
inductive Built : GeometryCache → Prop
  | neither : Built .neither
  | ofBinary (bytes : Option (List UInt8)) : Built (.ofBinary bytes)
  | ofParsed (g : Option Geometry) : Built (.ofParsed g)
  | perform {cache : GeometryCache} (h : Built cache) (action : Action) :
      Built (cache.perform action).2

/-- If both forms are held, then the parsed form is what the binary form is decoded to. A list
    with more items than the layout can count has no binary form to be decoded. -/
def Agrees : GeometryCache → Prop
  | .neither | .binary _ | .parsed _ => True
  | .both bytes g => g.Sized → Geometry.decode? bytes = some g

variable {cache : GeometryCache}

theorem Agrees.perform (h : cache.Agrees) (action : Action) : (cache.perform action).2.Agrees := by
  cases action with
  | setParsed value => cases value <;> trivial
  | setBinary value => cases value <;> trivial
  | readBinary =>
    cases cache with
    | neither => trivial
    | binary bytes => trivial
    | both bytes g => exact h
    | parsed g => exact Geometry.decode?_encode
  | readParsed =>
    cases cache with
    | neither => trivial
    | parsed g => trivial
    | both bytes g => exact h
    | binary bytes =>
      simp only [GeometryCache.perform, readParsed, withParsed]
      cases hdecode : Geometry.decode? bytes with
      | none => trivial
      | some g => exact fun _ => hdecode

namespace Built

theorem agrees (h : cache.Built) : cache.Agrees := by
  induction h with
  | neither => trivial
  | ofBinary bytes => cases bytes <;> trivial
  | ofParsed g => cases g <;> trivial
  | perform _ action ih => exact ih.perform action

theorem withBinary (h : cache.Built) : cache.withBinary.Built := h.perform .readBinary

/-- Deriving the parsed form is what reading it does. -/
theorem yields (h : cache.Built) {derived : GeometryCache} (hyields : cache.Yields derived) :
    derived.Built := by
  obtain rfl | hparsed := hyields
  · exact h
  · have hread := h.perform .readParsed
    simpa only [GeometryCache.perform, readParsed, hparsed] using hread

end Built

end GeometryCache

/-! ## Codecs -/

/-- Taking a feature apart leaves its geometry parsed, and nothing else of it. -/
theorem Format.geometry_of_disassemble {fmt : Format} {f : fmt.Assembled} {parts : Parts}
    (h : fmt.disassemble f = .ok parts) : ∃ geometry, parts.geometry = .ofParsed geometry := by
  cases fmt with
  | geo =>
    cases h
    exact ⟨f.geometry, rfl⟩
  | json =>
    obtain ⟨members, geometry, -, -, rfl⟩ := Json.exists_members h
    exact ⟨geometry, rfl⟩

namespace Codec

variable {fmt : Format} {c : Codec fmt}

/-- Codecs that come about by their operations, of parts whose geometry is in a cache that has
    come about by its operations. -/
inductive Built : Codec fmt → Prop
  | new : Built {}
  | ofFeature (f : fmt.Assembled) : Built (.ofFeature f)
  | ofParts {parts : Parts} (h : parts.geometry.Built) : Built (.ofParts parts)
  | perform {c : Codec fmt} (h : Built c) (action : Action fmt)
      (hcopy : ∀ other, action = .copyFrom other → Built other)
      (hparts : ∀ parts, action = .withParts parts → parts.geometry.Built)
      (hload : ∀ parts ending, action = .load parts ending → parts.geometry.Built) :
      Built (c.perform action).2

/-- The geometry is in a cache that has been built, and decoded parts next to an assembled
    feature have a body. -/
structure Whole (c : Codec fmt) : Prop where
  geometry : c.parts.geometry.Built
  body : c.decoded = true → c.feature.isSome = true → c.parts.json.isSome = true

namespace Whole

/-- Without a feature only the geometry counts. -/
theorem of_no_feature (hgeometry : c.parts.geometry.Built) (h : c.feature = none) : c.Whole :=
  ⟨hgeometry, fun _ hfeature => by rw [h] at hfeature; cases hfeature⟩

theorem withGeometry (h : c.Whole) {cache : GeometryCache} (hcache : cache.Built) :
    (c.withGeometry cache).Whole := ⟨hcache, h.body⟩

/-- The parts of a feature have a body, and its geometry is parsed. -/
theorem decode (h : c.Whole) (force : Bool) : (c.decode force).Whole := by
  rcases c.decode_cases force with hsame | ⟨e, hfail⟩ | ⟨f, parts, -, hparts, hdone⟩
  · rwa [hsame]
  · rw [hfail]
    exact ⟨h.geometry, by nofun⟩
  · rw [hdone]
    refine ⟨?_, fun _ _ => (Format.isSome_json hparts : parts.json.isSome = true)⟩
    obtain ⟨geometry, hgeometry⟩ := Format.geometry_of_disassemble hparts
    exact hgeometry ▸ .ofParsed geometry

theorem sync (h : c.Whole) : c.sync.Whole := by
  unfold Codec.sync
  split
  · exact h.decode false
  · exact h

/-- A feature is put together of parts with a body alone. -/
theorem encode (h : c.Whole) (force : Bool) : (c.encode force).Whole := by
  rcases c.encode_cases force with
    hsame | ⟨hjson, cache, hcache, ⟨f, -, hdone⟩ | ⟨e, -, hfail⟩⟩
  · rwa [hsame]
  · rw [hdone]
    exact ⟨h.geometry.yields hcache, fun _ _ => hjson⟩
  · rw [hfail]
    exact ⟨h.geometry.yields hcache, fun _ _ => hjson⟩

/-- Every use of a codec keeps it whole, if what it takes over is. -/
theorem perform (h : c.Whole) (action : Action fmt)
    (hcopy : ∀ other, action = .copyFrom other → other.Whole)
    (hparts : ∀ parts, action = .withParts parts → parts.geometry.Built)
    (hload : ∀ parts ending, action = .load parts ending → parts.geometry.Built) :
    (c.perform action).2.Whole := by
  have hgeometry := h.sync.geometry
  -- Parts are taken over by copies and loads alone. All else keeps the geometry or builds it.
  cases action with
  | decode force => exact h.decode force
  | encode force => exact h.encode force
  | clear => exact .of_no_feature .neither rfl
  | clearParts => exact ⟨.neither, by nofun⟩
  | clearFeature => exact .of_no_feature h.geometry rfl
  | copyFrom other => exact hcopy other rfl
  | withParts parts => exact .of_no_feature (hparts parts rfl) rfl
  | load parts ending => exact .of_no_feature (hload parts ending rfl) rfl
  | hasError => exact h
  | readFeature => exact h.encode false
  | takeFeature => exact .of_no_feature (h.encode false).geometry rfl
  | setFeature f => exact ⟨.neither, by nofun⟩
  | readOp => exact h
  | readId => exact h.sync
  | readVersion => exact h.sync
  | readFeatureType => exact h.sync
  | readPropertiesType => exact h.sync
  | readJson => exact h.sync
  | readGeometry => exact h.sync.withGeometry (hgeometry.perform .readParsed)
  | readBinary => exact h.sync.withGeometry hgeometry.withBinary
  | setOp value => exact ⟨h.geometry, h.body⟩
  | setId value => exact .of_no_feature hgeometry rfl
  | setVersion value => exact .of_no_feature hgeometry rfl
  | setFeatureType value => exact .of_no_feature hgeometry rfl
  | setPropertiesType value => exact .of_no_feature hgeometry rfl
  | setJson value => exact .of_no_feature hgeometry rfl
  | setGeometry value => exact .of_no_feature (.ofParsed value) rfl
  | setBinary value => exact .of_no_feature (.ofBinary value) rfl
  | setError error => exact ⟨h.geometry, h.body⟩

end Whole

theorem Built.whole (h : c.Built) : c.Whole := by
  induction h with
  | new => exact .of_no_feature .neither rfl
  | ofFeature f => exact ⟨.neither, by nofun⟩
  | ofParts hparts => exact .of_no_feature hparts rfl
  | perform _ action _ hparts hload ih ihcopy => exact ih.perform action ihcopy hparts hload

/-- Deriving the parts is what reading any of them does. -/
theorem Built.sync (h : c.Built) : c.sync.Built :=
  h.perform .readId (fun _ hread => by cases hread) (fun _ hread => by cases hread)
    (fun _ _ hread => by cases hread)

/-- So the parts of a codec, of whatever format, may be taken over by another one. -/
theorem Built.withParts {other : Format} {source : Codec other} (h : source.Built) :
    (withParts source : Codec fmt).Built := .ofParts h.whole.geometry

/-- Once the parts of a codec that carries a feature have been derived without an error, they
    have a body. -/
theorem Whole.isSome_json (h : c.Whole)
    (hcarried : (c.feature.isSome || c.parts.json.isSome) = true) (hsound : c.sync.error = none) :
    c.sync.parts.json.isSome = true := by
  unfold Codec.sync at hsound ⊢
  by_cases hderive : (!c.decoded && c.feature.isSome) = true
  · rw [if_pos hderive] at hsound ⊢
    obtain ⟨hdecoded, hfeature⟩ : c.decoded = false ∧ c.feature.isSome = true := by
      simpa using hderive
    obtain ⟨f, hf⟩ := Option.isSome_iff_exists.mp hfeature
    cases hparts : fmt.disassemble f with
    | ok parts =>
      have hbody := Format.isSome_json hparts
      simpa [Codec.decode, hdecoded, hf, hparts] using hbody
    | error e => simp [Codec.decode, hdecoded, hf, hparts] at hsound
  · rw [if_neg hderive]
    cases hfeature : c.feature with
    | none => simpa [hfeature] using hcarried
    | some f =>
      have hsome : c.feature.isSome = true := by rw [hfeature, Option.isSome_some]
      have hdecoded : c.decoded = true := by simpa [hsome] using hderive
      exact h.body hdecoded hsome

end Codec

end FeatureStore
