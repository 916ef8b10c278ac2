-- SUMMARY: Whoever reads an intent before it is executed does not change what it does.
import FeatureStore.Proofs.DerivedForms
import FeatureStore.Proofs.LazyReads

/-!
# Previews

An intent may be read before it is submitted: its id, its version, what the resolution looks
at, its parts, and whatever its codec can be asked for. A read of parts derives what an
execution would derive anyway, and so does not change it. A read of the assembled feature does
more. It puts the parts together, and keeps on the codec what is wrong with that, or takes
away the error that was there; and an intent is valid or not by whether its codec has an error.
So such a read is harmless only where it changes nothing of that. It is for every intent that
carries an assembled feature, and for an intent of parts if they can be put together.
-/

namespace FeatureStore

variable {fmt : Format}

/-! ## Codecs of intents -/

namespace Codec

variable {c d e : Codec fmt}

/-- Executing an intent finds the same in both codecs. -/
structure SameWrite (c d : Codec fmt) : Prop where
  parts : c.sync.parts.seen = d.sync.parts.seen
  error : c.sync.error.isSome = d.sync.error.isSome
  body : (c.feature.isSome || c.parts.json.isSome) = (d.feature.isSome || d.parts.json.isSome)

namespace SameWrite

theorem refl (c : Codec fmt) : c.SameWrite c := ⟨rfl, rfl, rfl⟩

theorem trans (h : c.SameWrite d) (h' : d.SameWrite e) : c.SameWrite e :=
  ⟨h.parts.trans h'.parts, h.error.trans h'.error, h.body.trans h'.body⟩

end SameWrite

theorem sameWrite_sync (c : Codec fmt) : c.SameWrite c.sync := by
  refine ⟨by rw [sync_sync], by rw [sync_sync], ?_⟩
  cases hfeature : c.feature with
  | some f => simp [hfeature]
  | none =>
    have hsync : c.sync = c := by simp [sync, hfeature]
    rw [hsync, hfeature]

theorem sameWrite_withGeometry (hsync : c.sync = c) {cache : GeometryCache}
    (hparsed : cache.readParsed.1 = c.parts.geometry.readParsed.1)
    (hbinary : cache.readBinary.1 = c.parts.geometry.readBinary.1) :
    c.SameWrite (c.withGeometry cache) := by
  have hseen : (c.withGeometry cache).parts.seen = c.parts.seen :=
    Parts.seen_withCache hparsed hbinary
  have hafter := sync_withGeometry hsync cache
  exact ⟨by rw [hafter, hsync, hseen], by rw [hafter, hsync]; rfl, rfl⟩

/-! ### Putting the parts together -/

/-- Putting the parts together changes nothing of whether the codec has an error, neither now
    nor after its parts have been derived. -/
structure Quiet (c : Codec fmt) : Prop where
  settled : c.decoded = true ∨ c.encoded = true ∨ c.parts.json = none
  steady : (c.sync.encode false).error.isSome = c.sync.error.isSome

/-- A codec of an assembled feature has nothing to put together. -/
theorem quiet_ofFeature (f : fmt.Assembled) : (ofFeature f : Codec fmt).Quiet := by
  refine ⟨.inr (.inl rfl), ?_⟩
  have hencoded : (ofFeature f : Codec fmt).sync.encoded = true := encoded_sync _
  rw [encode_of_encoded hencoded]

/-- A codec of parts is quiet if they have no body or can be put together. -/
theorem quiet_ofParts_iff (p : Parts) :
    (ofParts p : Codec fmt).Quiet ↔ p.json = none ∨ fmt.fault? p = none := by
  have hsync : (ofParts p : Codec fmt).sync = ofParts p := sync_of_decoded rfl
  have hsteady : (ofParts p : Codec fmt).Quiet
      ↔ ((ofParts p : Codec fmt).encode false).error.isSome = false := by
    constructor
    · intro h
      have hsteady := h.steady
      rwa [hsync] at hsteady
    · intro h
      refine ⟨.inl rfl, ?_⟩
      rwa [hsync]
  rw [hsteady]
  cases hjson : p.json with
  | none =>
    have hsame : (ofParts p : Codec fmt).encode false = ofParts p :=
      encode_of_no_body (c := ofParts p) hjson false
    rw [hsame]
    simp [ofParts]
  | some body =>
    have herror : ((ofParts p : Codec fmt).encode false).error = fmt.fault? p :=
      error_encode_of_stale (c := ofParts p) rfl (congrArg Option.isSome hjson) false
    rw [herror]
    simp

theorem error_encode_withGeometry {cache : GeometryCache}
    (hparsed : cache.readParsed.1 = c.parts.geometry.readParsed.1)
    (hbinary : cache.readBinary.1 = c.parts.geometry.readBinary.1) :
    ((c.withGeometry cache).encode false).error = (c.encode false).error := by
  cases hencoded : c.encoded with
  | true =>
    have hsame : (c.withGeometry cache).encode false = c.withGeometry cache :=
      encode_of_encoded hencoded
    rw [hsame, encode_of_encoded hencoded]
    rfl
  | false =>
    cases hjson : c.parts.json with
    | none =>
      have hsame : (c.withGeometry cache).encode false = c.withGeometry cache :=
        encode_of_no_body (c := c.withGeometry cache) hjson false
      rw [hsame, encode_of_no_body hjson]
      rfl
    | some body =>
      have hbody : c.parts.json.isSome = true := congrArg Option.isSome hjson
      have hrebuild : fmt.rebuild (c.withGeometry cache).parts = fmt.rebuild c.parts :=
        Parts.rebuild_of_seen (Parts.seen_withCache hparsed hbinary) fmt
      rw [error_encode_of_stale hencoded hbody,
        error_encode_of_stale (c := c.withGeometry cache) hencoded hbody,
        Format.fault?_congr hrebuild]

theorem Quiet.sync (h : c.Quiet) : c.sync.Quiet := by
  refine ⟨?_, by rw [sync_sync, h.steady]⟩
  cases hdecoded : c.decoded with
  | true => exact .inl (decoded_sync_of_decoded hdecoded)
  | false =>
    have hsettled := h.settled.resolve_left (by simp [hdecoded])
    cases hfeature : c.feature with
    | none =>
      have hsync : c.sync = c := by simp [Codec.sync, hfeature]
      rw [hsync]
      exact .inr hsettled
    | some f =>
      have hsync : c.sync = c.decode false := by simp [Codec.sync, hdecoded, hfeature]
      rcases c.decode_cases false with hsame | ⟨e, hfail⟩ | ⟨f, parts, -, -, hdone⟩
      · rw [hsync, hsame]
        exact .inr hsettled
      · rw [hsync, hfail]
        exact .inr hsettled
      · rw [hsync, hdone]
        exact .inl rfl

theorem Quiet.withGeometry (h : c.Quiet) (hsync : c.sync = c) {cache : GeometryCache}
    (hparsed : cache.readParsed.1 = c.parts.geometry.readParsed.1)
    (hbinary : cache.readBinary.1 = c.parts.geometry.readBinary.1) :
    (c.withGeometry cache).Quiet := by
  refine ⟨h.settled, ?_⟩
  have hsteady := h.steady
  rw [hsync] at hsteady
  rw [sync_withGeometry hsync, error_encode_withGeometry hparsed hbinary]
  exact hsteady

/-- Where putting the parts together is quiet it changes nothing that an execution looks at, and
    is quiet the next time. -/
theorem Quiet.encode (h : c.Quiet) : c.SameWrite (c.encode false) ∧ (c.encode false).Quiet := by
  have hunchanged (hsame : c.encode false = c) :
      c.SameWrite (c.encode false) ∧ (c.encode false).Quiet := by
    rw [hsame]
    exact ⟨.refl c, h⟩
  cases hencoded : c.encoded with
  | true => exact hunchanged (encode_of_encoded hencoded)
  | false =>
    cases hjson : c.parts.json with
    | none => exact hunchanged (encode_of_no_body hjson false)
    -- The parts are put together, so they are the source, and reading them derives nothing.
    | some body =>
      have hdecoded : c.decoded = true := h.settled.resolve_right (by simp [hencoded, hjson])
      have hsync : c.sync = c := sync_of_decoded hdecoded
      have hafter : (c.encode false).sync = c.encode false :=
        sync_of_decoded (c.decoded_encode.trans hdecoded)
      have hseen := c.seen_parts_encode
      have hbody : (c.encode false).parts.json = some body :=
        (congrArg SeenParts.json hseen).trans hjson
      have hsteady := h.steady
      rw [hsync] at hsteady
      refine ⟨⟨?parts, ?error, ?body⟩, ⟨.inl (c.decoded_encode.trans hdecoded), ?steady⟩⟩
      case parts => rw [hsync, hafter, hseen]
      case error => rw [hsync, hafter, hsteady]
      case body => simp [hjson, hbody]
      case steady =>
        rw [hafter]
        cases hagain : (c.encode false).encoded with
        | true => rw [encode_of_encoded hagain]
        | false =>
          have hrebuild := Parts.rebuild_of_seen hseen fmt
          rw [error_encode_of_stale hagain (congrArg Option.isSome hbody),
            error_encode_of_stale hencoded (congrArg Option.isSome hjson),
            Format.fault?_congr hrebuild]

/-- A read is harmless to an execution, unless it is one of the assembled feature of a codec that
    is not quiet. -/
theorem sameWrite_read (read : LazyRead) (h : read ≠ .feature ∨ c.Quiet) :
    c.SameWrite (c.perform read.action).2 := by
  rcases c.read_cases read with hsame | ⟨cache, hparsed, hbinary, hcache⟩ | ⟨hfeature, hencode⟩
  · rw [hsame]
    exact .refl c
  · rw [hcache]
    exact c.sameWrite_sync.trans (sameWrite_withGeometry c.sync_sync hparsed hbinary)
  · rw [hencode]
    exact (h.resolve_left (fun hne => hne hfeature)).encode.1

theorem Quiet.read (h : c.Quiet) (read : LazyRead) : (c.perform read.action).2.Quiet := by
  rcases c.read_cases read with hsame | ⟨cache, hparsed, hbinary, hcache⟩ | ⟨-, hencode⟩
  · rw [hsame]
    exact h
  · rw [hcache]
    exact h.sync.withGeometry c.sync_sync hparsed hbinary
  · rw [hencode]
    exact h.encode.2

end Codec

/-! ## Reads of intents -/

inductive IntentRead
  | id
  | version
  | view
  | parts
  | codec (read : LazyRead)
deriving DecidableEq, Repr

namespace WriteIntent

variable {intent other third : WriteIntent fmt}

def look (intent : WriteIntent fmt) : IntentRead → WriteIntent fmt
  | .id => intent.id.2
  | .version => intent.version.2
  | .view => intent.view.2
  | .parts => intent.parts.2
  | .codec read => { intent with codec := (intent.codec.perform read.action).2 }

def lookAll (intent : WriteIntent fmt) (reads : List IntentRead) : WriteIntent fmt :=
  reads.foldl look intent

theorem Alike.refl (intent : WriteIntent fmt) : intent.Alike intent := ⟨rfl, rfl, rfl, rfl⟩

theorem Alike.trans (h : intent.Alike other) (h' : other.Alike third) : intent.Alike third :=
  ⟨h.view.trans h'.view, h.noResult.trans h'.noResult, h.parts.trans h'.parts,
    h.error.trans h'.error⟩

theorem alike_of_sameWrite {codec : Codec fmt} (h : intent.codec.SameWrite codec) :
    intent.Alike { intent with codec } := by
  have hversion : intent.codec.sync.parts.version = codec.sync.parts.version :=
    congrArg SeenParts.version h.parts
  have hbody : intent.hasFeature = { intent with codec }.hasFeature := h.body
  refine ⟨?_, rfl, h.parts, h.error⟩
  simp only [view, sync, hversion, hbody]

/-- A read of the assembled feature of an intent that is not quiet is the only one that may
    change its execution. -/
theorem alike_look (read : IntentRead) (h : read ≠ .codec .feature ∨ intent.codec.Quiet) :
    intent.Alike (intent.look read) := by
  have hsync : intent.Alike intent.sync := alike_of_sameWrite intent.codec.sameWrite_sync
  cases read with
  | id => exact hsync
  | version => exact hsync
  | view => exact hsync
  | parts => exact hsync
  | codec field =>
    apply alike_of_sameWrite
    apply Codec.sameWrite_read field
    exact h.imp_left (fun hne hfield => hne (congrArg IntentRead.codec hfield))

theorem quiet_look (h : intent.codec.Quiet) (read : IntentRead) :
    (intent.look read).codec.Quiet := by
  cases read with
  | id => exact h.sync
  | version => exact h.sync
  | view => exact h.sync
  | parts => exact h.sync
  | codec field => exact h.read field

theorem alike_lookAll (intent : WriteIntent fmt) {reads : List IntentRead}
    (h : .codec .feature ∉ reads ∨ intent.codec.Quiet) : intent.Alike (intent.lookAll reads) := by
  induction reads generalizing intent with
  | nil => exact .refl intent
  | cons read rest ih =>
    have hfirst : read ≠ .codec .feature ∨ intent.codec.Quiet :=
      h.imp_left fun hnone heq => hnone (heq ▸ List.mem_cons_self)
    apply (alike_look read hfirst).trans
    apply ih
    exact h.imp (fun hnone hmem => hnone (List.mem_cons_of_mem _ hmem)) (quiet_look · read)

/-- An intent of parts with a body that cannot be put together is valid, until its assembled feature
    is read. -/
theorem invalid_of_read_feature {p : Parts} {e : CodecError} (hjson : p.json.isSome = true)
    (h : fmt.fault? p = some e) (op : WriteOp) :
    let intent : WriteIntent fmt := ofCodec op (.ofParts p)
    intent.parts.1 = .ok p ∧ (intent.look (.codec .feature)).parts.1 = .error .invalid := by
  intro intent
  refine ⟨rfl, ?_⟩
  have hdecoded : (intent.look (.codec .feature)).codec.decoded = true :=
    Codec.decoded_encode (.ofParts p)
  have herror : (intent.look (.codec .feature)).codec.error = some e :=
    (Codec.error_encode_of_stale (c := .ofParts p) rfl hjson false).trans h
  simp only [parts, sync, Codec.sync_of_decoded hdecoded, herror, Option.isSome_some, if_true]

end WriteIntent

/-! ## Batches -/

namespace Batch

/-- Reading intents before they are executed changes neither what is reported to a reader nor the
    table, but for parsed geometries that its records may hold. This holds in memory and in a
    database, and of any table that treats records alike when they differ in such forms
    alone. Only a read of an assembled feature may be otherwise, and it is not if it neither brings
    an error nor takes one away. -/
theorem reading_is_harmless (previews : List (WriteIntent fmt × List IntentRead))
    (hquiet : ∀ preview ∈ previews, .codec .feature ∉ preview.2 ∨ preview.1.codec.Quiet) :
    let plain := previews.map Prod.fst
    let read := previews.map (fun preview => preview.1.lookAll preview.2)
    (∀ s : MemoryStore, AlikeRuns MemoryStore.Resembles (applyBatch s plain) (applyBatch s read)) ∧
    (∀ table : BatchTable, AlikeRuns Eq (applyBatch table plain) (applyBatch table read)) ∧
    ∀ {τ : Type} [FeatureTable τ] (R : τ → τ → Prop), Blind R → ∀ t, R t t →
      AlikeRuns R (applyBatch t plain) (applyBatch t read) := by
  intro plain read
  have hintents : List.Forall₂ WriteIntent.Alike plain read := by
    rw [List.forall₂_map_left_iff, List.forall₂_map_right_iff, List.forall₂_same]
    exact fun preview hmem => preview.1.alike_lookAll (hquiet preview hmem)
  have hall {τ : Type} [FeatureTable τ] (R : τ → τ → Prop) (hR : Blind R) (t : τ) (ht : R t t) :
      AlikeRuns R (applyBatch t plain) (applyBatch t read) := hR.executeFrom 0 hintents ht
  refine ⟨?memory, ?database, hall⟩
  case memory => exact fun s => hall _ MemoryStore.blind s (.refl s)
  case database => exact fun table => hall _ BatchTable.blind table rfl

/-- The assembled feature is read of an intent that carries one. Of an intent with a body that is
    no feature only the parts are read. -/
theorem reading_is_harmless_of_parts_read :
    let whole : WriteIntent .geo := .ofFeature .create { id := "a", version := some "v1" }
    let broken : WriteIntent .geo :=
      .ofCodec .put (.ofParts { id := some "b", json := some "[]", geometry := .binary [0] })
    let previews := [(whole, [.view, .codec .feature, .codec .binary, .parts]),
      (broken, [.id, .codec .geometry, .codec .json])]
    AlikeRuns MemoryStore.Resembles (applyBatch ({} : MemoryStore) (previews.map Prod.fst))
      (applyBatch ({} : MemoryStore)
        (previews.map (fun preview => preview.1.lookAll preview.2))) := by
  intro whole broken previews
  have hquiet : ∀ preview ∈ previews,
      .codec .feature ∉ preview.2 ∨ preview.1.codec.Quiet := by
    intro preview hmem
    rcases List.mem_pair.mp hmem with rfl | rfl
    · exact .inr (Codec.quiet_ofFeature _)
    · exact .inl (by decide)
  exact (reading_is_harmless previews hquiet).1 {}

/-- An intent with a body that is no feature creates a record, and is rejected once its assembled
    feature has been asked for. -/
theorem read_feature_is_rejected :
    let intent : WriteIntent .geo :=
      .ofCodec .create (.ofParts { id := some "a", json := some "[]" })
    let plain := applyBatch ({} : MemoryStore) [intent]
    let read := applyBatch ({} : MemoryStore) [intent.look (.codec .feature)]
    plain.1.results.map ExecutedResult.op = [.created] ∧ plain.2.liveCount = 1 ∧
      read.1.results.map ExecutedResult.cause = [some .invalid] ∧ read.2.liveCount = 0 := by
  refine ⟨?_, ?_, ?_, ?_⟩ <;> rfl

end Batch

end FeatureStore
