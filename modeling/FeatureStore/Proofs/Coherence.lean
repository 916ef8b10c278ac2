-- SUMMARY: The two forms of a codec agree, whatever has been done with it.
import FeatureStore.Codec.Action
import FeatureStore.Proofs.RoundTrip

/-!
# Coherent codecs

A codec can hold an assembled feature and parts with a body at the same time. One of them
was then derived from the other, and every use of the codec that changes one drops the
other or derives it anew. So the parts put together are the assembled feature, as long as
that feature is one that its format can take apart and put together again.
-/

namespace FeatureStore

/-! ## Caches that have been read -/

namespace GeometryCache

/-- What has been derived is there to stay. -/
theorem withParsed_of_withParsed {cache derived : GeometryCache}
    (h : cache.withParsed = .ok derived) : derived.withParsed = .ok derived := by
  cases cache with
  | binary bytes =>
    cases hdecode : Geometry.decode? bytes with
    | none => simp [withParsed, hdecode] at h
    | some g =>
      obtain rfl : both bytes g = derived := by simpa [withParsed, hdecode] using h
      rfl
  | neither => cases h; rfl
  | parsed g => cases h; rfl
  | both bytes g => cases h; rfl

/-- Deriving the parsed form does not change what it is read as. -/
theorem readParsed_of_withParsed {cache derived : GeometryCache}
    (h : cache.withParsed = .ok derived) : derived.readParsed.1 = cache.readParsed.1 := by
  simp only [readParsed, h, withParsed_of_withParsed h]

/-- The one cache is the other one, or the other one with the parsed form derived. -/
def Yields (cache derived : GeometryCache) : Prop :=
  derived = cache ∨ cache.withParsed = .ok derived

theorem Yields.readParsed_eq {cache derived : GeometryCache} (h : cache.Yields derived) :
    derived.readParsed.1 = cache.readParsed.1 := by
  obtain rfl | hparsed := h
  · rfl
  · exact readParsed_of_withParsed hparsed

theorem Yields.trans {cache derived last : GeometryCache} (h : cache.Yields derived)
    (hlast : derived.Yields last) : cache.Yields last := by
  obtain rfl | hparsed := h
  · exact hlast
  · obtain rfl | hagain := hlast
    · exact .inr hparsed
    · rw [withParsed_of_withParsed hparsed] at hagain
      exact .inr (hparsed.trans hagain)

/-- Reading the parsed form leaves such a cache behind. -/
theorem yields_readParsed (cache : GeometryCache) : cache.Yields cache.readParsed.2 := by
  cases h : cache.withParsed with
  | ok derived => exact .inr (by simp [readParsed, h])
  | error e => exact .inl (by simp [readParsed, h])

/-- Deriving the binary form does not change what the parsed form is read as, either. -/
theorem readParsed_withBinary (cache : GeometryCache) :
    cache.withBinary.readParsed.1 = cache.readParsed.1 := by
  cases cache <;> rfl

end GeometryCache

/-! ## Putting parts together -/

namespace Format

variable {fmt : Format} {p : Parts}

/-- Put parts together, their geometry parsed first. -/
def rebuild (fmt : Format) (p : Parts) : Except CodecError fmt.Assembled :=
  p.geometry.withParsed.bind (fun cache => fmt.assemble { p with geometry := cache })

/-- The feature is the same after it has been taken apart and put together again. -/
def Survives (fmt : Format) (f : fmt.Assembled) : Prop :=
  (fmt.disassemble f).bind fmt.assemble = .ok f

/-- What is put together depends neither on the operation nor on the binary form of the
    geometry. -/
theorem assemble_congr (op : Option ExecutedOp) {cache : GeometryCache}
    (h : cache.peekParsed = p.geometry.peekParsed) :
    fmt.assemble { p with op, geometry := cache } = fmt.assemble p := by
  cases fmt with
  | geo => simp only [assemble, Feature.assemble, h]
  | json => simp only [assemble, Json.assemble, h]

theorem rebuild_of_withParsed {cache : GeometryCache} (h : p.geometry.withParsed = .ok cache) :
    fmt.rebuild p = fmt.assemble { p with geometry := cache } := by
  rw [rebuild, h]
  rfl

theorem rebuild_of_unparsed {e : CodecError} (h : p.geometry.withParsed = .error e) :
    fmt.rebuild p = .error e := by
  rw [rebuild, h]
  rfl

/-- Only the parsed geometry counts, in whatever form it is held. -/
theorem rebuild_congr (op : Option ExecutedOp) {cache : GeometryCache}
    (h : cache.readParsed.1 = p.geometry.readParsed.1) :
    fmt.rebuild { p with op, geometry := cache } = fmt.rebuild p := by
  unfold GeometryCache.readParsed at h
  cases hcache : cache.withParsed with
  | error e =>
    cases hgeometry : p.geometry.withParsed with
    | error e' =>
      obtain rfl : e = e' := by simpa [hcache, hgeometry] using h
      rw [rebuild_of_unparsed hcache, rebuild_of_unparsed hgeometry]
    | ok other => simp [hcache, hgeometry] at h
  | ok derived =>
    cases hgeometry : p.geometry.withParsed with
    | error e => simp [hcache, hgeometry] at h
    | ok other =>
      have hpeek : derived.peekParsed = other.peekParsed := by
        simpa [hcache, hgeometry] using h
      rw [rebuild_of_withParsed hcache, rebuild_of_withParsed hgeometry]
      exact assemble_congr (p := { p with geometry := other }) op hpeek

/-- Taking a feature apart leaves its geometry parsed. -/
theorem withParsed_of_disassemble {f : fmt.Assembled} (hp : fmt.disassemble f = .ok p) :
    p.geometry.withParsed = .ok p.geometry := by
  cases fmt with
  | geo =>
    cases hp
    exact GeometryCache.withParsed_ofParsed f.geometry
  | json =>
    obtain ⟨members, geometry, -, -, rfl⟩ := Json.exists_members hp
    exact GeometryCache.withParsed_ofParsed geometry

/-- The parts of a feature that survives are put together to that feature. -/
theorem Survives.rebuild {f : fmt.Assembled} (h : fmt.Survives f)
    (hp : fmt.disassemble f = .ok p) (op : Option ExecutedOp) :
    fmt.rebuild { p with op } = .ok f := by
  have hassemble : fmt.assemble p = .ok f := by
    rw [Survives, hp] at h
    exact h
  have hparsed := withParsed_of_disassemble hp
  calc fmt.rebuild { p with op }
      = fmt.assemble { p with op } := rebuild_of_withParsed (p := { p with op }) hparsed
    _ = fmt.assemble p := assemble_congr op rfl
    _ = .ok f := hassemble

/-- A feature that can be read back survives under the version that it has. -/
theorem Readable.survives {f : fmt.Assembled} (h : fmt.Readable f)
    (hp : fmt.disassemble f = .ok p) {version : String} (hversion : p.version = some version)
    (hsame : fmt.withVersion version f = f) : fmt.Survives f := by
  have hassemble : fmt.assemble { p with op := none } = .ok f := by
    have hrebuilt := assemble_disassemble h hp none version (rfl : p.geometry.peekParsed = _)
    rwa [hsame, ← hversion] at hrebuilt
  have hwhole : fmt.assemble p = .ok f := (assemble_congr none rfl).symm.trans hassemble
  rw [Survives, hp]
  exact hwhole

end Format

/-! ## Deriving one form from the other -/

namespace Codec

variable {fmt : Format} {c : Codec fmt}

/-- Decoding does nothing, fails, or takes the parts from the feature. -/
theorem decode_cases (c : Codec fmt) (force : Bool) :
    c.decode force = c ∨
    (∃ e, c.decode force = { c with decoded := false, error := some e }) ∨
    ∃ f parts, c.feature = some f ∧ fmt.disassemble f = .ok parts ∧
      c.decode force
        = { c with parts := { parts with op := c.parts.op }, decoded := true, error := none } := by
  by_cases hguard : (c.decoded && !force) = true
  · exact .inl (if_pos hguard)
  · rw [decode, if_neg hguard]
    cases hfeature : c.feature with
    | none => exact .inr (.inl ⟨.missingFeature, by simp only⟩)
    | some f =>
      cases hparts : fmt.disassemble f with
      | ok parts => exact .inr (.inr ⟨f, parts, rfl, hparts, by simp only [hparts]⟩)
      | error e => exact .inr (.inl ⟨e, by simp only [hparts]⟩)

/-- Encoding that does not find its work done puts the parts together, or it fails for the
    reason for which they cannot be put together. -/
theorem encode_of_stale {force : Bool}
    (hstale : (c.encoded && !force || c.parts.json.isNone) = false) :
    ∃ cache, c.parts.geometry.Yields cache ∧
      ((∃ f, fmt.rebuild c.parts = .ok f ∧ c.encode force
          = { c.withGeometry cache with feature := some f, encoded := true, error := none }) ∨
        ∃ e, fmt.rebuild c.parts = .error e ∧ c.encode force
          = { c.withGeometry cache with encoded := false, error := some e }) := by
  rw [encode, if_neg (Bool.eq_false_iff.mp hstale)]
  cases hcache : c.parts.geometry.withParsed with
  | error e =>
    exact ⟨c.parts.geometry, .inl rfl, .inr ⟨e, Format.rebuild_of_unparsed hcache, rfl⟩⟩
  | ok cache =>
    refine ⟨cache, .inr hcache, ?_⟩
    rw [Format.rebuild_of_withParsed hcache]
    simp only [assemble, withGeometry]
    cases hassemble : fmt.assemble { c.parts with geometry := cache } with
    | ok f => exact .inl ⟨f, rfl, rfl⟩
    | error e => exact .inr ⟨e, rfl, rfl⟩

/-- Encoding does nothing, or it puts the parts together, or it fails for the reason for
    which they cannot be put together. -/
theorem encode_cases (c : Codec fmt) (force : Bool) :
    c.encode force = c ∨
    (c.parts.json.isSome = true ∧
      ∃ cache, c.parts.geometry.Yields cache ∧
        ((∃ f, fmt.rebuild c.parts = .ok f ∧ c.encode force
            = { c.withGeometry cache with feature := some f, encoded := true, error := none }) ∨
          ∃ e, fmt.rebuild c.parts = .error e ∧ c.encode force
            = { c.withGeometry cache with encoded := false, error := some e })) := by
  cases hstale : (c.encoded && !force || c.parts.json.isNone) with
  | true => exact .inl (if_pos hstale)
  | false =>
    have hjson : c.parts.json.isSome = true := by
      cases hbody : c.parts.json <;> simp_all
    exact .inr ⟨hjson, encode_of_stale hstale⟩

end Codec

/-! ## Coherence -/

namespace Codec

variable {fmt : Format} {c : Codec fmt}

/-- A codec that counts as encoded holds a feature, and a feature that it holds along with a
    body is the one that the parts are put together to. -/
structure Coherent (c : Codec fmt) : Prop where
  held : c.encoded = true → c.feature.isSome = true
  agrees : ∀ f, c.feature = some f → fmt.Survives f → c.parts.json.isSome = true →
    fmt.rebuild c.parts = .ok f

/-- Without a feature there is nothing to agree with. -/
theorem coherent_of_feature_eq_none (hencoded : c.encoded = false) (h : c.feature = none) :
    c.Coherent := by
  refine ⟨fun hheld => ?_, fun f hf => ?_⟩
  · rw [hencoded] at hheld
    cases hheld
  · rw [h] at hf
    cases hf

namespace Coherent

/-- New parts that keep the body and what they are put together to keep the codec coherent. -/
theorem withParts (h : c.Coherent) {parts : Parts} (hjson : parts.json = c.parts.json)
    (hrebuild : fmt.rebuild parts = fmt.rebuild c.parts) : { c with parts }.Coherent := by
  refine ⟨h.held, fun f hf hsurvives hbody => ?_⟩
  rw [hjson] at hbody
  rw [hrebuild]
  exact h.agrees f hf hsurvives hbody

theorem withGeometry (h : c.Coherent) {cache : GeometryCache}
    (hcache : cache.readParsed.1 = c.parts.geometry.readParsed.1) :
    (c.withGeometry cache).Coherent :=
  h.withParts rfl (Format.rebuild_congr c.parts.op hcache)

theorem decode (h : c.Coherent) (force : Bool) : (c.decode force).Coherent := by
  rcases c.decode_cases force with hsame | ⟨e, hfail⟩ | ⟨f, parts, hfeature, hparts, hdone⟩
  · rwa [hsame]
  · rw [hfail]
    exact ⟨h.held, h.agrees⟩
  · rw [hdone]
    refine ⟨h.held, fun other hother hsurvives _ => ?_⟩
    obtain rfl : f = other := Option.some.inj (hfeature.symm.trans hother)
    exact hsurvives.rebuild hparts c.parts.op

theorem sync (h : c.Coherent) : c.sync.Coherent := by
  unfold Codec.sync
  split
  · exact h.decode false
  · exact h

/-- A feature that survives is what the parts are put together to already, so encoding fails
    only where there is none. -/
theorem encode (h : c.Coherent) (force : Bool) : (c.encode force).Coherent := by
  rcases c.encode_cases force with
    hsame | ⟨hjson, cache, hcache, ⟨f, hrebuild, hdone⟩ | ⟨e, hrebuild, hfail⟩⟩
  · rwa [hsame]
  · rw [hdone]
    refine ⟨fun _ => rfl, fun other hother _ _ => ?_⟩
    obtain rfl : f = other := Option.some.inj hother
    exact (Format.rebuild_congr c.parts.op hcache.readParsed_eq).trans hrebuild
  · rw [hfail]
    refine ⟨fun hheld => ?_, fun f hf hsurvives _ => ?_⟩
    · cases hheld
    have hagrees := h.agrees f hf hsurvives hjson
    rw [hrebuild] at hagrees
    cases hagrees

/-- Every use of a codec keeps it coherent, if a codec that it is made a copy of is. -/
theorem perform (h : c.Coherent) (action : Action fmt)
    (hcopy : ∀ other, action = .copyFrom other → other.Coherent) :
    (c.perform action).2.Coherent := by
  -- What sets a part drops the feature, what reads one only fills the cache of the geometry.
  cases action with
  | decode force => exact h.decode force
  | encode force => exact h.encode force
  | clear => exact coherent_of_feature_eq_none rfl rfl
  | clearParts => exact ⟨h.held, fun _ _ _ hbody => nomatch hbody⟩
  | clearFeature => exact coherent_of_feature_eq_none rfl rfl
  | copyFrom other => exact hcopy other rfl
  | withParts parts => exact coherent_of_feature_eq_none rfl rfl
  | load parts ending => exact coherent_of_feature_eq_none rfl rfl
  | hasError => exact h
  | readFeature => exact h.encode false
  | takeFeature => exact coherent_of_feature_eq_none rfl rfl
  | setFeature f => exact ⟨fun _ => rfl, fun _ _ _ hbody => nomatch hbody⟩
  | readOp => exact h
  | readId => exact h.sync
  | readVersion => exact h.sync
  | readFeatureType => exact h.sync
  | readPropertiesType => exact h.sync
  | readJson => exact h.sync
  | readGeometry => exact h.sync.withGeometry (GeometryCache.yields_readParsed _).readParsed_eq
  | readBinary => exact h.sync.withGeometry (GeometryCache.readParsed_withBinary _)
  | setOp value => exact h.withParts rfl (Format.rebuild_congr value rfl)
  | setId value => exact coherent_of_feature_eq_none rfl rfl
  | setVersion value => exact coherent_of_feature_eq_none rfl rfl
  | setFeatureType value => exact coherent_of_feature_eq_none rfl rfl
  | setPropertiesType value => exact coherent_of_feature_eq_none rfl rfl
  | setJson value => exact coherent_of_feature_eq_none rfl rfl
  | setGeometry value => exact coherent_of_feature_eq_none rfl rfl
  | setBinary value => exact coherent_of_feature_eq_none rfl rfl
  | setError error => exact ⟨h.held, h.agrees⟩

end Coherent

/-! ## Whole histories -/

/-- Codecs that come about by their operations. A copy is made of such a codec, too; the parts
    of any other codec, and whatever a load leaves behind, are parts like any others. -/
inductive Reached : Codec fmt → Prop
  | new : Reached {}
  | ofFeature (f : fmt.Assembled) : Reached (.ofFeature f)
  | ofParts (parts : Parts) : Reached (.ofParts parts)
  | perform {c : Codec fmt} (h : Reached c) (action : Action fmt)
      (hcopy : ∀ other, action = .copyFrom other → Reached other) :
      Reached (c.perform action).2

theorem Reached.coherent (h : c.Reached) : c.Coherent := by
  induction h with
  | new => exact coherent_of_feature_eq_none rfl rfl
  | ofFeature f => exact ⟨fun _ => rfl, fun _ _ _ hbody => nomatch hbody⟩
  | ofParts parts => exact coherent_of_feature_eq_none rfl rfl
  | perform h action hcopy ih ihcopy => exact ih.perform action ihcopy

/-- What any sequence of uses leads to. -/
theorem Reached.performAll (h : c.Reached) (actions : List (Action fmt))
    (hcopies : ∀ other, .copyFrom other ∈ actions → Reached other) :
    (c.performAll actions).2.Reached := by
  induction actions generalizing c with
  | nil => exact h
  | cons action rest ih =>
    refine ih (h.perform action fun other hcopy => ?_) fun other hmem => ?_
    · exact hcopies other (hcopy ▸ List.mem_cons_self)
    · exact hcopies other (List.mem_cons_of_mem action hmem)

/-- The two forms of a codec agree, whatever has been done with it. A codec that counts as
    encoded holds a feature. If the feature that it holds is one that its format takes apart
    and puts together again, then its parts, as long as they have a body, are put together to
    just that feature, and a forced encoding leaves it as it is. Of the features that the codec
    has held before nothing is asked. -/
theorem Reached.forms_agree {c : Codec fmt} (h : c.Reached) :
    (c.encoded = true → c.feature.isSome = true) ∧
    ∀ f, c.feature = some f → fmt.Survives f →
      (c.parts.json.isSome = true → fmt.rebuild c.parts = .ok f) ∧
      (c.encode true).feature = some f := by
  refine ⟨h.coherent.held, fun f hf hsurvives => ⟨h.coherent.agrees f hf hsurvives, ?_⟩⟩
  rcases c.encode_cases true with
    hsame | ⟨hjson, cache, -, ⟨other, hrebuild, hdone⟩ | ⟨e, hrebuild, -⟩⟩
  · rw [hsame, hf]
  · have hagrees := h.coherent.agrees f hf hsurvives hjson
    rw [hdone, ← Except.ok.inj (hrebuild.symm.trans hagrees)]
  · have hagrees := h.coherent.agrees f hf hsurvives hjson
    rw [hrebuild] at hagrees
    cases hagrees

/-- A feature at a point that is not a number takes the place of another one, which has been
    read, and is then taken apart, and its geometry is read in binary form. -/
theorem Reached.forms_agree_of_replaced :
    let other : Format.Assembled .geo := { id := "a" }
    let f : Format.Assembled .geo :=
      { id := "a", version := some "v2", properties := [("n", .ofInt 7)]
        geometry := some (.point ⟨.ofBits 0x7FF8000000000001, .zero⟩) }
    let uses : List (Action .geo) :=
      [.readJson, .setOp (some .read), .setFeature f, .readBinary, .setError none]
    let c := ((Codec.ofFeature other).performAll uses).2
    c.Reached ∧ c.parts.json.isSome = true ∧ c.feature = some f ∧ Format.Survives .geo f ∧
      c.encoded = true ∧ Format.rebuild .geo c.parts = .ok f ∧
      (c.encode true).feature = some f := by
  intro other f uses c
  have hreached : c.Reached := by
    refine (Reached.ofFeature other).performAll uses fun copied hcopy => ?_
    simp [uses] at hcopy
  have hf : Format.Readable .geo f := by
    refine ⟨⟨?_, by decide⟩, ?_⟩
    · exact ⟨List.pairwise_singleton _ _, ⟨7, rfl, by decide, by decide⟩, trivial⟩
    · rintro g ⟨⟩
      trivial
  have hsurvives : Format.Survives .geo f := hf.survives rfl rfl rfl
  have hfeature : c.feature = some f := rfl
  have hjson : c.parts.json.isSome = true := rfl
  obtain ⟨hagrees, hkept⟩ := hreached.forms_agree.2 f hfeature hsurvives
  exact ⟨hreached, hjson, hfeature, hsurvives, rfl, hagrees hjson, hkept⟩

end Codec

end FeatureStore
