-- SUMMARY: Reading a codec, at whatever time, changes nothing of what is read of it later.
import FeatureStore.Proofs.Retargeting

/-!
# Lazy reads

Whoever reads a codec may make it derive a form of the feature or of its geometry, and may
make it keep what it has derived, or what has gone wrong. None of this is seen by whoever reads
or edits the codec afterwards. A codec is *current* when one of its two forms is what it was
made of or edited to, and the other form is derived from that one or is missing. What a current
codec shows does not change by a read, and what it shows after an edit depends on nothing but
the edit and what it has shown before.
-/

namespace FeatureStore

variable {fmt : Format}

/-- The feature that parts are put together to, if they have a body and can be. -/
def Format.rebuilt? (fmt : Format) (p : Parts) : Option fmt.Assembled :=
  if p.json.isNone then none else (fmt.rebuild p).toOption

/-- Parts that are seen alike are put together to the same feature. -/
theorem Format.rebuilt?_of_seen {p q : Parts} (h : q.seen = p.seen) :
    fmt.rebuilt? q = fmt.rebuilt? p := by
  have hjson : q.json = p.json := congrArg SeenParts.json h
  rw [rebuilt?, rebuilt?, hjson, Parts.rebuild_of_seen h]

namespace Codec

/-! ## The life of a codec as data -/

/-- What a codec is made of. -/
inductive Origin (fmt : Format)
  /-- An assembled feature. -/
  | feature (f : fmt.Assembled)
  /-- Parts. -/
  | parts (p : Parts)
  /-- The parts that another codec holds, whatever its format is. -/
  | copied {source : Format} (c : Codec source)
  /-- The parts that a load has found. -/
  | row (p : Parts)

def Origin.made : Origin fmt → Codec fmt
  | .feature f => .ofFeature f
  | .parts p => .ofParts p
  | .copied c => withParts c
  | .row p => .ofLoad p true

/-- An edit of one part. -/
inductive PartEdit
  | id (value : Option String)
  | version (value : Option String)
  | featureType (value : Option String)
  | propertiesType (value : Option String)
  | json (value : Option String)
  | geometry (value : Option Geometry)
  | binary (value : Option (List UInt8))

namespace PartEdit

def action : PartEdit → Action fmt
  | .id value => .setId value
  | .version value => .setVersion value
  | .featureType value => .setFeatureType value
  | .propertiesType value => .setPropertiesType value
  | .json value => .setJson value
  | .geometry value => .setGeometry value
  | .binary value => .setBinary value

def apply (p : Parts) : PartEdit → Parts
  | .id value => { p with id := value }
  | .version value => { p with version := value }
  | .featureType value => { p with featureType := value }
  | .propertiesType value => { p with propertiesType := value }
  | .json value => { p with json := value }
  | .geometry value => { p with geometry := .ofParsed value }
  | .binary value => { p with geometry := .ofBinary value }

theorem perform_action (c : Codec fmt) (edit : PartEdit) :
    c.perform edit.action = (.done, c.edit edit.apply) := by
  cases edit <;> rfl

/-- Parts that are seen alike are seen alike after the edit. -/
theorem seen_apply {p q : Parts} (h : q.seen = p.seen) (edit : PartEdit) :
    (edit.apply q).seen = (edit.apply p).seen := by
  simp only [Parts.seen, SeenParts.mk.injEq] at h
  cases edit <;> simp only [apply, Parts.seen, h]

end PartEdit

/-- An edit of a codec. -/
inductive Edit (fmt : Format)
  | part (edit : PartEdit)
  | op (value : Option ExecutedOp)
  | feature (f : fmt.Assembled)

def Edit.action : Edit fmt → Action fmt
  | .part edit => edit.action
  | .op value => .setOp value
  | .feature f => .setFeature f

theorem Edit.perform_part (c : Codec fmt) (edit : PartEdit) :
    (c.perform (Edit.part edit).action).2 = c.edit edit.apply :=
  congrArg Prod.snd (edit.perform_action c)

/-- A read, or a derivation that is not forced. -/
inductive LazyUse
  | read (read : LazyRead)
  | decode
  | encode

def LazyUse.action : LazyUse → Action fmt
  | .read field => field.action
  | .decode => .decode false
  | .encode => .encode false

/-- A use in the life of a codec. What is asked aside is no part of that life: it might as well
    not have been asked. -/
inductive Use (fmt : Format)
  | edit (edit : Edit fmt)
  | ask (use : LazyUse)
  | aside (use : LazyUse)

/-- Whether the use is made aside. -/
def Use.isAside : Use fmt → Bool
  | .aside _ => true
  | .edit _ | .ask _ => false

def Use.action : Use fmt → Action fmt
  | .edit change => change.action
  | .ask use | .aside use => use.action

def useAll (c : Codec fmt) (uses : List LazyUse) : Codec fmt :=
  uses.foldl (fun c use => (c.perform use.action).2) c

def live (c : Codec fmt) (uses : List (Use fmt)) : Codec fmt :=
  uses.foldl (fun c use => (c.perform use.action).2) c

/-- The answers to all uses that are not made aside, in their order. -/
def answers (c : Codec fmt) : List (Use fmt) → List (Answer fmt)
  | [] => []
  | use :: rest =>
    let (answer, c) := c.perform use.action
    if use.isAside then c.answers rest else answer :: c.answers rest

/-! ## Current codecs -/

variable {c d : Codec fmt}

/-- One form of the feature is what the codec was made of or edited to. The assembled feature
    is held only as long as it is that form, or the one derived from it. -/
structure Current (c : Codec fmt) : Prop where
  known : c.decoded = true ∨ c.encoded = true
  held : c.feature.isSome = c.encoded

/-- What a codec shows: what is seen of its parts, and the assembled feature. -/
structure Shown (fmt : Format) where
  parts : SeenParts
  feature : Option fmt.Assembled

/-- What a codec shows once it has derived what can be. -/
def shown (c : Codec fmt) : Shown fmt where
  parts := c.sync.parts.seen
  feature := (c.encode false).feature

/-- The answer to a lazy use by what the codec shows. -/
def LazyUse.answer (shown : Shown fmt) : LazyUse → Answer fmt
  | .read .op => .op shown.parts.op
  | .read .id => .text shown.parts.id
  | .read .version => .text shown.parts.version
  | .read .featureType => .text shown.parts.featureType
  | .read .propertiesType => .text shown.parts.propertiesType
  | .read .json => .text shown.parts.json
  | .read .geometry => .geometry shown.parts.geometry
  | .read .binary => .binary shown.parts.binary
  | .read .feature => .feature shown.feature
  | .decode | .encode => .done

/-! ### Deriving the parts -/

theorem encoded_decode (c : Codec fmt) (force : Bool) : (c.decode force).encoded = c.encoded := by
  rcases c.decode_cases force with hsame | ⟨e, hfail⟩ | ⟨f, parts, -, -, hdone⟩
  · rw [hsame]
  · rw [hfail]
  · rw [hdone]

theorem encoded_sync (c : Codec fmt) : c.sync.encoded = c.encoded := by
  unfold sync
  split
  · exact c.encoded_decode false
  · rfl

theorem decoded_sync_of_decoded (h : c.decoded = true) : c.sync.decoded = true := by
  rw [sync_of_decoded h, h]

theorem Current.sync (h : c.Current) : c.sync.Current := by
  refine ⟨?_, by rw [feature_sync, encoded_sync, h.held]⟩
  rw [encoded_sync]
  exact h.known.imp_left decoded_sync_of_decoded

/-- Decoding a current codec that is not decoded is what reading its parts does. -/
theorem Current.decode_eq (h : c.Current) : c.decode false = c.sync := by
  cases hdecoded : c.decoded with
  | true =>
    rw [sync_of_decoded hdecoded]
    simp [decode, hdecoded]
  | false =>
    have hencoded : c.encoded = true := h.known.resolve_left (by simp [hdecoded])
    have hfeature : c.feature.isSome = true := h.held.trans hencoded
    simp [Codec.sync, hdecoded, hfeature]

/-! ### Deriving the assembled feature -/

theorem feature_encode_of_encoded (h : c.encoded = true) :
    (c.encode false).feature = c.feature := by
  rw [encode_of_encoded h]

/-- A current codec that is not encoded shows the feature that its parts are put together to. -/
theorem Current.feature_encode (h : c.Current) (hstale : c.encoded = false) :
    (c.encode false).feature = fmt.rebuilt? c.parts := by
  have hnone : c.feature = none := by
    have hheld := h.held
    rw [hstale] at hheld
    simpa using hheld
  cases hjson : c.parts.json with
  | none =>
    rw [encode_of_no_body hjson, hnone, Format.rebuilt?, hjson]
    rfl
  | some body =>
    have hskip : (c.encoded && !false || c.parts.json.isNone) = false := by
      rw [hstale, hjson]
      rfl
    rw [Format.rebuilt?, hjson]
    obtain ⟨cache, -, ⟨f, hrebuild, hdone⟩ | ⟨e, hrebuild, hfail⟩⟩ := encode_of_stale hskip
    · rw [hdone, hrebuild]
      rfl
    · rw [hfail, hrebuild]
      exact hnone

theorem Current.encode (h : c.Current) : (c.encode false).Current := by
  cases hstale : (c.encoded && !false || c.parts.json.isNone) with
  | true =>
    have hsame : c.encode false = c := if_pos hstale
    rwa [hsame]
  | false =>
    have hencoded : c.encoded = false := by
      revert hstale
      cases c.encoded <;> simp
    obtain ⟨cache, -, ⟨f, -, hdone⟩ | ⟨e, -, hfail⟩⟩ := encode_of_stale hstale
    · rw [hdone]
      exact ⟨.inr rfl, rfl⟩
    · rw [hfail]
      exact ⟨h.known.imp_right (by simp [hencoded]), h.held.trans hencoded⟩

/-! ### What is shown -/

theorem Current.shown_sync (h : c.Current) : c.sync.shown = c.shown := by
  have hfeature : (c.sync.encode false).feature = (c.encode false).feature := by
    cases hdecoded : c.decoded with
    | true => rw [sync_of_decoded hdecoded]
    | false =>
      have hencoded : c.encoded = true := h.known.resolve_left (by simp [hdecoded])
      rw [feature_encode_of_encoded (c.encoded_sync.trans hencoded),
        feature_encode_of_encoded hencoded, feature_sync]
  simp only [shown, sync_sync, hfeature]

/-- A cache that holds another form of the same geometry makes no difference. -/
theorem Current.shown_withGeometry (h : c.Current) (hsync : c.sync = c) {cache : GeometryCache}
    (hparsed : cache.readParsed.1 = c.parts.geometry.readParsed.1)
    (hbinary : cache.readBinary.1 = c.parts.geometry.readBinary.1) :
    (c.withGeometry cache).Current ∧ (c.withGeometry cache).shown = c.shown := by
  have hcurrent : (c.withGeometry cache).Current := ⟨h.known, h.held⟩
  have hseen : (c.withGeometry cache).parts.seen = c.parts.seen :=
    Parts.seen_withCache hparsed hbinary
  have hfeature : ((c.withGeometry cache).encode false).feature = (c.encode false).feature := by
    cases hencoded : c.encoded with
    | true =>
      have hafter : ((c.withGeometry cache).encode false).feature = c.feature :=
        feature_encode_of_encoded hencoded
      rw [hafter, feature_encode_of_encoded hencoded]
    | false =>
      rw [h.feature_encode hencoded, hcurrent.feature_encode hencoded]
      exact Format.rebuilt?_of_seen hseen
  refine ⟨hcurrent, ?_⟩
  simp only [shown, sync_withGeometry hsync, hsync, hseen, hfeature]

theorem seen_parts_encode (c : Codec fmt) : (c.encode false).parts.seen = c.parts.seen := by
  rcases c.encode_cases false with hsame | ⟨-, cache, hcache, ⟨f, -, hdone⟩ | ⟨e, -, hfail⟩⟩
  · rw [hsame]
  · rw [hdone]
    exact Parts.seen_withCache hcache.readParsed_eq hcache.readBinary_eq
  · rw [hfail]
    exact Parts.seen_withCache hcache.readParsed_eq hcache.readBinary_eq

theorem decoded_encode (c : Codec fmt) : (c.encode false).decoded = c.decoded := by
  rcases c.encode_cases false with hsame | ⟨-, cache, -, ⟨f, -, hdone⟩ | ⟨e, -, hfail⟩⟩
  · rw [hsame]
  · rw [hdone]
    rfl
  · rw [hfail]
    rfl

/-- What could not be put together once cannot be put together again. -/
theorem Current.shown_encode (h : c.Current) : (c.encode false).shown = c.shown := by
  cases hencoded : c.encoded with
  | true => rw [encode_of_encoded hencoded]
  | false =>
    have hdecoded : c.decoded = true := h.known.resolve_right (by simp [hencoded])
    have hparts : (c.encode false).sync.parts.seen = c.sync.parts.seen := by
      rw [sync_of_decoded hdecoded, sync_of_decoded (c.decoded_encode.trans hdecoded)]
      exact c.seen_parts_encode
    have hfeature : ((c.encode false).encode false).feature = (c.encode false).feature := by
      -- If the first attempt has failed, the second one puts parts together that are seen alike.
      cases hagain : (c.encode false).encoded with
      | true => rw [encode_of_encoded hagain]
      | false =>
        rw [h.encode.feature_encode hagain, h.feature_encode hencoded]
        exact Format.rebuilt?_of_seen c.seen_parts_encode
    simp only [shown, hparts, hfeature]

/-- A lazy use is answered by what the codec shows. -/
theorem answer_eq (c : Codec fmt) (use : LazyUse) :
    (c.perform use.action).1 = use.answer c.shown := by
  cases use with
  | decode => rfl
  | encode => rfl
  | read field =>
    cases field with
    | op => exact congrArg Answer.op c.op_sync.symm
    | id | version | featureType | propertiesType | json | geometry | binary | feature => rfl

/-- A read leaves the codec as it was, or with its parts derived and perhaps another form of their
    geometry, or with the assembled feature derived. -/
theorem read_cases (c : Codec fmt) (read : LazyRead) :
    (c.perform read.action).2 = c ∨
    (∃ cache : GeometryCache, cache.readParsed.1 = c.sync.parts.geometry.readParsed.1 ∧
      cache.readBinary.1 = c.sync.parts.geometry.readBinary.1 ∧
      (c.perform read.action).2 = c.sync.withGeometry cache) ∨
    (read = .feature ∧ (c.perform read.action).2 = c.encode false) := by
  have hsync {read : LazyRead} (hread : (c.perform read.action).2 = c.sync) :
      ∃ cache : GeometryCache, cache.readParsed.1 = c.sync.parts.geometry.readParsed.1 ∧
        cache.readBinary.1 = c.sync.parts.geometry.readBinary.1 ∧
        (c.perform read.action).2 = c.sync.withGeometry cache :=
    ⟨c.sync.parts.geometry, rfl, rfl, hread⟩
  cases read with
  | op => exact .inl rfl
  | feature => exact .inr (.inr ⟨rfl, rfl⟩)
  | geometry =>
    have hyields := GeometryCache.yields_readParsed c.sync.parts.geometry
    exact .inr (.inl ⟨_, hyields.readParsed_eq, hyields.readBinary_eq, rfl⟩)
  | binary =>
    refine .inr (.inl ⟨_, GeometryCache.readParsed_withBinary _, ?_, rfl⟩)
    cases c.sync.parts.geometry <;> rfl
  | id | version | featureType | propertiesType | json => exact .inr (.inl (hsync rfl))

/-- And it leaves a codec that shows the same. -/
theorem Current.use (h : c.Current) (use : LazyUse) :
    (c.perform use.action).2.Current ∧ (c.perform use.action).2.shown = c.shown := by
  cases use with
  | decode =>
    have hdecode : (c.perform (.decode false)).2 = c.sync := h.decode_eq
    exact hdecode ▸ ⟨h.sync, h.shown_sync⟩
  | encode => exact ⟨h.encode, h.shown_encode⟩
  | read field =>
    have haction : (LazyUse.read field).action = (field.action : Action fmt) := rfl
    rw [haction]
    rcases c.read_cases field with hsame | ⟨cache, hparsed, hbinary, hcache⟩ | ⟨-, hencode⟩
    · rw [hsame]
      exact ⟨h, rfl⟩
    · obtain ⟨hcurrent, hshown⟩ := h.sync.shown_withGeometry c.sync_sync hparsed hbinary
      rw [hcache]
      exact ⟨hcurrent, hshown.trans h.shown_sync⟩
    · rw [hencode]
      exact ⟨h.encode, h.shown_encode⟩

theorem Current.useAll (h : c.Current) (uses : List LazyUse) :
    (c.useAll uses).Current ∧ (c.useAll uses).shown = c.shown := by
  induction uses generalizing c with
  | nil => exact ⟨h, rfl⟩
  | cons use rest ih =>
    obtain ⟨hcurrent, hshown⟩ := h.use use
    obtain ⟨hlast, hsame⟩ := ih hcurrent
    exact ⟨hlast, hsame.trans hshown⟩

/-! ### Edits -/

theorem current_edit (c : Codec fmt) (change : Parts → Parts) : (c.edit change).Current :=
  ⟨.inl rfl, rfl⟩

/-- After an edit of its parts a codec shows the edited parts and what they are put together
    to. -/
theorem shown_edit (c : Codec fmt) (change : Parts → Parts) :
    (c.edit change).shown
      = { parts := (change c.sync.parts).seen, feature := fmt.rebuilt? (change c.sync.parts) } := by
  have hfeature := (c.current_edit change).feature_encode rfl
  have hsync : (c.edit change).sync = c.edit change := sync_of_decoded rfl
  simp only [shown, hsync, hfeature]
  rfl

theorem sync_setOp (c : Codec fmt) (op : Option ExecutedOp) :
    (c.setOp op).sync = c.sync.setOp op := by
  cases hdecoded : c.decoded with
  | true =>
    have hsame : (c.setOp op).sync = c.setOp op := sync_of_decoded hdecoded
    rw [hsame, sync_of_decoded hdecoded]
  | false =>
    cases hfeature : c.feature with
    | none => simp [sync, setOp, hfeature]
    | some f =>
      cases hparts : fmt.disassemble f <;>
        simp [sync, decode, setOp, hdecoded, hfeature, hparts]

theorem Current.setOp (h : c.Current) (op : Option ExecutedOp) :
    (c.setOp op).Current := ⟨h.known, h.held⟩

theorem Current.shown_setOp (h : c.Current) (op : Option ExecutedOp) :
    (c.setOp op).shown = { c.shown with parts := { c.shown.parts with op } } := by
  have hfeature : ((c.setOp op).encode false).feature = (c.encode false).feature := by
    cases hencoded : c.encoded with
    | true =>
      have hafter : ((c.setOp op).encode false).feature = c.feature :=
        feature_encode_of_encoded hencoded
      rw [hafter, feature_encode_of_encoded hencoded]
    | false =>
      rw [h.feature_encode hencoded, (h.setOp op).feature_encode hencoded]
      have hrebuild : fmt.rebuild (c.setOp op).parts = fmt.rebuild c.parts :=
        Format.rebuild_congr op rfl
      simp only [Format.rebuilt?, hrebuild]
      rfl
  simp only [shown, sync_setOp, hfeature]
  rfl

theorem Current.edit (h : c.Current) (edit : Edit fmt) : (c.perform edit.action).2.Current := by
  cases edit with
  | part edit =>
    rw [Edit.perform_part]
    exact c.current_edit _
  | op value => exact h.setOp value
  | feature f => exact ⟨.inr rfl, rfl⟩

/-- What a current codec shows after an edit depends on what it has shown before alone. -/
theorem Current.shown_edit_congr (hc : c.Current) (hd : d.Current) (h : d.shown = c.shown)
    (edit : Edit fmt) : (d.perform edit.action).2.shown = (c.perform edit.action).2.shown := by
  have hseen : d.sync.parts.seen = c.sync.parts.seen := congrArg Shown.parts h
  cases edit with
  | part edit =>
    have hedited := edit.seen_apply hseen
    have hrebuilt : fmt.rebuilt? (edit.apply d.sync.parts) = fmt.rebuilt? (edit.apply c.sync.parts) :=
      Format.rebuilt?_of_seen hedited
    rw [Edit.perform_part, Edit.perform_part, shown_edit, shown_edit, hedited, hrebuilt]
  | op value =>
    have hafter (c : Codec fmt) : (c.perform (Edit.op value).action).2 = c.setOp value := rfl
    rw [hafter, hafter, hd.shown_setOp, hc.shown_setOp, h]
  | feature f =>
    have hop : d.parts.op = c.parts.op := by
      have hsync : d.sync.parts.op = c.sync.parts.op := congrArg SeenParts.op hseen
      rwa [op_sync, op_sync] at hsync
    have hafter (c : Codec fmt) : (c.perform (Edit.feature f).action).2 = c.setFeature f := rfl
    rw [hafter, hafter, setFeature, setFeature, Parts.onlyOp, Parts.onlyOp, hop]

/-! ## Whole lives -/

theorem Origin.current_made (origin : Origin fmt) : origin.made.Current := by
  cases origin with
  | feature f => exact ⟨.inr rfl, rfl⟩
  | parts p => exact ⟨.inl rfl, rfl⟩
  | copied c => exact ⟨.inl rfl, rfl⟩
  | row p => exact ⟨.inl rfl, rfl⟩

theorem Current.live (h : c.Current) (uses : List (Use fmt)) : (c.live uses).Current := by
  induction uses generalizing c with
  | nil => exact h
  | cons use rest ih =>
    cases use with
    | edit edit => exact ih (h.edit edit)
    | ask use => exact ih (h.use use).1
    | aside use => exact ih (h.use use).1

/-- Codecs that show the same answer the same, whether or not they are also asked aside. -/
theorem Current.answers_eq (hc : c.Current) (hd : d.Current) (h : d.shown = c.shown)
    (uses : List (Use fmt)) :
    d.answers uses = c.answers (uses.filter (fun use => !use.isAside)) := by
  -- What is asked aside is asked of `d` alone; the two codecs still show the same after it.
  induction uses generalizing c d with
  | nil => rfl
  | cons use rest ih =>
    cases use with
    | edit edit =>
      have hdone (c : Codec fmt) : (c.perform edit.action).1 = .done := by
        cases edit with
        | part edit => exact congrArg Prod.fst (edit.perform_action c)
        | op value => rfl
        | feature f => rfl
      have hrest := ih (hc.edit edit) (hd.edit edit) (hc.shown_edit_congr hd h edit)
      exact congrArg₂ List.cons ((hdone d).trans (hdone c).symm) hrest
    | ask use =>
      obtain ⟨hc', hcshown⟩ := hc.use use
      obtain ⟨hd', hdshown⟩ := hd.use use
      have hfirst : (d.perform use.action).1 = (c.perform use.action).1 := by
        rw [answer_eq, answer_eq, h]
      have hrest := ih hc' hd' (hdshown.trans (h.trans hcshown.symm))
      exact congrArg₂ List.cons hfirst hrest
    | aside use =>
      obtain ⟨hd', hdshown⟩ := hd.use use
      exact ih hc hd' (hdshown.trans h)

/-- Lazy reads are pure as far as values go. Of whatever a codec is made, and however it is
    edited and read in its life: what is asked aside, anywhere and any number of times, changes
    no answer to the rest. And a read is answered as it was before, whatever has been read in
    between. -/
theorem Origin.reads_are_pure (origin : Origin fmt) (uses : List (Use fmt)) :
    origin.made.answers uses = origin.made.answers (uses.filter (fun use => !use.isAside)) ∧
    ∀ (between : List LazyUse) (use : LazyUse),
      let c := origin.made.live uses
      ((c.useAll between).perform use.action).1 = (c.perform use.action).1 := by
  have hmade := origin.current_made
  refine ⟨hmade.answers_eq hmade rfl uses, ?_⟩
  intro between use c
  obtain ⟨-, hshown⟩ := (hmade.live uses).useAll between
  rw [answer_eq, answer_eq, hshown]

end Codec

end FeatureStore
