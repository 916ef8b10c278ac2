-- SUMMARY: Deriving the parts of a codec changes nothing of what is read of it, whatever has been done with it.
import FeatureStore.Proofs.Coherence
import FeatureStore.Proofs.LazyReads

/-!
# Paired forms

Whoever sorts rows by their ids reads every one of them, and so derives the parts of rows that
were known by their assembled features alone. A codec may have been forced to derive its
forms, or been told to drop one of them, so it need not be current. Its two forms are still a
pair: an assembled feature next to parts with a body is what they are put together to, or they
are what it has been taken apart to. And a feature that does not count as encoded is one for
which putting together has failed, so it stays when that is tried once more.
-/

namespace FeatureStore

variable {fmt : Format}

/-- What is put together does not depend on the operation. -/
theorem Format.rebuilt?_withOp (p : Parts) (op : Option ExecutedOp) :
    fmt.rebuilt? { p with op } = fmt.rebuilt? p := by
  have hrebuild : fmt.rebuild { p with op } = fmt.rebuild p := Format.rebuild_congr op rfl
  rw [rebuilt?, rebuilt?, hrebuild]

theorem Format.rebuilt?_of_error {p : Parts} {e : CodecError} (h : fmt.rebuild p = .error e) :
    fmt.rebuilt? p = none := by
  rw [rebuilt?, h]
  split <;> rfl

theorem Format.rebuilt?_of_no_body {p : Parts} (h : p.json = none) : fmt.rebuilt? p = none := by
  rw [rebuilt?, h]
  rfl

namespace Codec

variable {c : Codec fmt}

/-- The parts go with the assembled feature. -/
def Matches (p : Parts) (f : fmt.Assembled) : Prop :=
  p.json.isSome = true →
    fmt.rebuild p = .ok f ∨
      ∃ taken, fmt.disassemble f = .ok taken ∧ p.seen = { taken with op := p.op }.seen

/-- The two forms of a codec go together, and a feature that does not count as encoded cannot
    be put together. -/
structure Paired (c : Codec fmt) : Prop where
  pair : ∀ f, c.feature = some f → Matches c.parts f
  stuck : ∀ f, c.feature = some f → c.encoded = false →
    fmt.rebuilt? c.parts = none ∧ ∀ taken, fmt.disassemble f = .ok taken → fmt.rebuilt? taken = none

theorem Matches.withCache {p : Parts} {f : fmt.Assembled} (h : Matches p f)
    {cache : GeometryCache} (hparsed : cache.readParsed.1 = p.geometry.readParsed.1)
    (hbinary : cache.readBinary.1 = p.geometry.readBinary.1) :
    Matches { p with geometry := cache } f := by
  have hseen := Parts.seen_withCache hparsed hbinary
  intro hjson
  rcases h hjson with hrebuild | ⟨taken, htaken, hparts⟩
  · exact .inl ((Parts.rebuild_of_seen hseen fmt).trans hrebuild)
  · exact .inr ⟨taken, htaken, hseen.trans hparts⟩

theorem Matches.withOp {p : Parts} {f : fmt.Assembled} (h : Matches p f)
    (op : Option ExecutedOp) : Matches { p with op } f := by
  intro hjson
  rcases h hjson with hrebuild | ⟨taken, htaken, hparts⟩
  · exact .inl ((Format.rebuild_congr op rfl).trans hrebuild)
  · refine .inr ⟨taken, htaken, ?_⟩
    simp only [Parts.seen, SeenParts.mk.injEq] at hparts ⊢
    exact ⟨trivial, hparts.2⟩

namespace Paired

theorem of_no_feature (h : c.feature = none) : c.Paired := by
  refine ⟨fun f hf => ?_, fun f hf => ?_⟩
  all_goals cases h.symm.trans hf

/-- Parts without a body go with any feature. -/
theorem of_no_body (hjson : c.parts.json = none) (hencoded : c.encoded = true) : c.Paired := by
  refine ⟨fun f hf hbody => ?_, fun f hf hstale => ?_⟩
  · rw [hjson] at hbody
    cases hbody
  · cases hencoded.symm.trans hstale

theorem decode (h : c.Paired) (force : Bool) : (c.decode force).Paired := by
  rcases c.decode_cases force with hsame | ⟨e, hfail⟩ | ⟨f, taken, hfeature, htaken, hdone⟩
  · rwa [hsame]
  · rw [hfail]
    exact ⟨h.pair, h.stuck⟩
  · rw [hdone]
    refine ⟨fun g hg _ => ?_, fun g hg hstale => ?_⟩
    · obtain rfl : f = g := Option.some.inj (hfeature.symm.trans hg)
      exact .inr ⟨taken, htaken, rfl⟩
    · obtain rfl : f = g := Option.some.inj (hfeature.symm.trans hg)
      obtain ⟨-, hstuck⟩ := h.stuck f hfeature hstale
      exact ⟨(Format.rebuilt?_withOp taken _).trans (hstuck taken htaken), hstuck⟩

theorem sync (h : c.Paired) : c.sync.Paired := by
  unfold Codec.sync
  split
  · exact h.decode false
  · exact h

theorem withGeometry (h : c.Paired) {cache : GeometryCache}
    (hparsed : cache.readParsed.1 = c.parts.geometry.readParsed.1)
    (hbinary : cache.readBinary.1 = c.parts.geometry.readBinary.1) :
    (c.withGeometry cache).Paired := by
  refine ⟨fun f hf => (h.pair f hf).withCache hparsed hbinary, fun f hf hstale => ?_⟩
  obtain ⟨hparts, htaken⟩ := h.stuck f hf hstale
  exact ⟨(Format.rebuilt?_of_seen (Parts.seen_withCache hparsed hbinary)).trans hparts, htaken⟩

/-- Parts that fail to be put together next to a feature have been taken from it, so what can be
    taken from it fails as well. -/
theorem encode (h : c.Paired) (force : Bool) : (c.encode force).Paired := by
  rcases c.encode_cases force with
    hsame | ⟨hjson, cache, hcache, ⟨f, hrebuild, hdone⟩ | ⟨e, hrebuild, hfail⟩⟩
  · rwa [hsame]
  all_goals
    have hseen : { c.parts with geometry := cache }.seen = c.parts.seen :=
      Parts.seen_withCache hcache.readParsed_eq hcache.readBinary_eq
  · rw [hdone]
    refine ⟨fun g hg _ => ?_, fun g _ hstale => ?_⟩
    · obtain rfl : f = g := Option.some.inj hg
      exact .inl ((Parts.rebuild_of_seen hseen fmt).trans hrebuild)
    · cases hstale
  · rw [hfail]
    have hparts : fmt.rebuilt? c.parts = none := Format.rebuilt?_of_error hrebuild
    refine ⟨fun g hg => (h.pair g hg).withCache hcache.readParsed_eq hcache.readBinary_eq,
      fun g hg _ => ⟨(Format.rebuilt?_of_seen hseen).trans hparts, fun taken htaken => ?_⟩⟩
    rcases h.pair g hg hjson with hwhole | ⟨source, hsource, hsame⟩
    · cases hrebuild.symm.trans hwhole
    · obtain rfl : source = taken := Except.ok.inj (hsource.symm.trans htaken)
      rw [← Format.rebuilt?_withOp source c.parts.op, ← Format.rebuilt?_of_seen hsame]
      exact hparts

theorem setOp (h : c.Paired) (op : Option ExecutedOp) : (c.setOp op).Paired := by
  refine ⟨fun f hf => (h.pair f hf).withOp op, fun f hf hstale => ?_⟩
  obtain ⟨hparts, htaken⟩ := h.stuck f hf hstale
  exact ⟨(Format.rebuilt?_withOp c.parts op).trans hparts, htaken⟩

/-- Every use of a codec leaves a pair, if what it takes over is one. -/
theorem perform (h : c.Paired) (action : Action fmt)
    (hcopy : ∀ other, action = .copyFrom other → other.Paired) : (c.perform action).2.Paired := by
  have hread (cache : GeometryCache)
      (hparsed : cache.readParsed.1 = c.sync.parts.geometry.readParsed.1)
      (hbinary : cache.readBinary.1 = c.sync.parts.geometry.readBinary.1) :=
    h.sync.withGeometry hparsed hbinary
  have hyields := GeometryCache.yields_readParsed c.sync.parts.geometry
  -- What sets a part drops the feature, so that the two forms have nothing to differ in.
  cases action with
  | decode force => exact h.decode force
  | encode force => exact h.encode force
  | clear => exact of_no_feature rfl
  | clearParts =>
    refine ⟨fun f _ hbody => ?_, fun f hf hstale => ?_⟩
    · cases hbody
    · exact ⟨Format.rebuilt?_of_no_body rfl, (h.stuck f hf hstale).2⟩
  | clearFeature => exact of_no_feature rfl
  | copyFrom other => exact hcopy other rfl
  | withParts parts => exact of_no_feature rfl
  | load parts ending => exact of_no_feature rfl
  | hasError => exact h
  | readFeature => exact h.encode false
  | takeFeature => exact of_no_feature rfl
  | setFeature f => exact of_no_body rfl rfl
  | readOp => exact h
  | readId => exact h.sync
  | readVersion => exact h.sync
  | readFeatureType => exact h.sync
  | readPropertiesType => exact h.sync
  | readJson => exact h.sync
  | readGeometry => exact hread _ hyields.readParsed_eq hyields.readBinary_eq
  | readBinary =>
    refine hread _ (GeometryCache.readParsed_withBinary _) ?_
    cases c.sync.parts.geometry <;> rfl
  | setOp value => exact h.setOp value
  | setId value => exact of_no_feature rfl
  | setVersion value => exact of_no_feature rfl
  | setFeatureType value => exact of_no_feature rfl
  | setPropertiesType value => exact of_no_feature rfl
  | setJson value => exact of_no_feature rfl
  | setGeometry value => exact of_no_feature rfl
  | setBinary value => exact of_no_feature rfl
  | setError error => exact ⟨h.pair, h.stuck⟩

/-- A feature that cannot be put together stays when that is tried. -/
theorem feature_encode (h : c.Paired) {f : fmt.Assembled} (hfeature : c.feature = some f) :
    (c.encode false).feature = some f ∨ c.encoded = true := by
  cases hencoded : c.encoded with
  | true => exact .inr rfl
  | false =>
    obtain ⟨hparts, -⟩ := h.stuck f hfeature hencoded
    refine .inl ?_
    rcases c.encode_cases false with
      hsame | ⟨hjson, cache, -, ⟨g, hrebuild, -⟩ | ⟨e, -, hfail⟩⟩
    · rw [hsame, hfeature]
    · obtain ⟨body, hbody⟩ := Option.isSome_iff_exists.mp hjson
      rw [Format.rebuilt?, hbody, hrebuild] at hparts
      cases hparts
    · rw [hfail]
      exact hfeature

/-- A codec shows the same after its parts have been derived. -/
theorem shown_sync (h : c.Paired) : c.sync.shown = c.shown := by
  have hfeature : (c.sync.encode false).feature = (c.encode false).feature := by
    by_cases hderive : (!c.decoded && c.feature.isSome) = true
    · obtain ⟨-, hsome⟩ : c.decoded = false ∧ c.feature.isSome = true := by simpa using hderive
      obtain ⟨f, hf⟩ := Option.isSome_iff_exists.mp hsome
      have hsynced : c.sync.feature = some f := c.feature_sync.trans hf
      rcases h.feature_encode hf with hkept | hencoded
      · rcases h.sync.feature_encode hsynced with hagain | hencoded
        · rw [hagain, hkept]
        · rw [feature_encode_of_encoded hencoded, hsynced, hkept]
      · rw [feature_encode_of_encoded (c.encoded_sync.trans hencoded),
          feature_encode_of_encoded hencoded, hsynced, hf]
    · have hsame : c.sync = c := if_neg hderive
      rw [hsame]
  simp only [shown, sync_sync, hfeature]

end Paired

theorem Reached.paired (h : c.Reached) : c.Paired := by
  induction h with
  | new => exact .of_no_feature rfl
  | ofFeature f => exact .of_no_body rfl rfl
  | ofParts _ => exact .of_no_feature rfl
  | perform _ action _ ih ihcopy => exact ih.perform action ihcopy

end Codec

end FeatureStore
