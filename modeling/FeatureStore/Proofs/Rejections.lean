-- SUMMARY: How long the row of a rejected write shows its cause to a reader.
import FeatureStore.Proofs.Lookahead
import FeatureStore.Proofs.Plan
import FeatureStore.Proofs.Releasing
import FeatureStore.Write.Outcome

/-!
# Rejections

The row of a rejected write shows the cause as its error, next to the feature that stood in
the way if there is one. Whoever reads the row may ask for anything that it holds, in any
order. Reading its parts leaves the error alone. Reading the assembled feature puts the parts
together, and what comes of that takes the place of the error; only a row without a body has
nothing to put together and goes on showing the cause.
-/

namespace FeatureStore

variable {σ : Type} {fmt : Format}

/-! ## Lazy reads -/

/-- A read of a row, which derives what it asks for. -/
inductive LazyRead
  | op
  | id
  | version
  | featureType
  | propertiesType
  | json
  | geometry
  | binary
  | feature
deriving DecidableEq, Repr

def LazyRead.action : LazyRead → Codec.Action fmt
  | .op => .readOp
  | .id => .readId
  | .version => .readVersion
  | .featureType => .readFeatureType
  | .propertiesType => .readPropertiesType
  | .json => .readJson
  | .geometry => .readGeometry
  | .binary => .readBinary
  | .feature => .readFeature

/-- Why the parts cannot be put together, if they cannot. -/
def Format.fault? (fmt : Format) (p : Parts) : Option CodecError :=
  match fmt.rebuild p with
  | .ok _ => none
  | .error e => some e

theorem Format.fault?_of_ok {p : Parts} {f : fmt.Assembled} (h : fmt.rebuild p = .ok f) :
    fmt.fault? p = none := by
  rw [fault?, h]

theorem Format.fault?_of_error {p : Parts} {e : CodecError} (h : fmt.rebuild p = .error e) :
    fmt.fault? p = some e := by
  rw [fault?, h]

theorem Format.fault?_congr {p q : Parts} (h : fmt.rebuild p = fmt.rebuild q) :
    fmt.fault? p = fmt.fault? q := by
  simp only [fault?, h]

/-- Parts that cannot be put together are no rejected write. -/
theorem Format.fault?_ne_ofCause (p : Parts) (cause : ErrorCause) :
    fmt.fault? p ≠ some (.ofCause cause) := by
  intro h
  cases hrebuild : fmt.rebuild p with
  | ok f =>
    rw [fault?_of_ok hrebuild] at h
    cases h
  | error e =>
    rw [fault?_of_error hrebuild] at h
    obtain rfl := Option.some.inj h
    exact Bool.noConfusion (isRejection_of_rebuild hrebuild)

/-! ## Rows of rejected writes -/

namespace Codec

variable {c : Codec fmt} {p : Parts} {cause : ErrorCause} {asked : Bool}

/-- The codec shows parts whose write was rejected. Whether its assembled feature has been
    asked for decides what it shows as its error, unless the parts have no body. -/
structure ShowsRejection (p : Parts) (cause : ErrorCause) (asked : Bool) (c : Codec fmt) :
    Prop where
  decoded : c.decoded = true
  json : c.parts.json = p.json
  rebuild : fmt.rebuild c.parts = fmt.rebuild p
  encoded : c.encoded = true → asked = true
  error : c.error = if asked && p.json.isSome then fmt.fault? p else some (.ofCause cause)

theorem showsRejection_toCodec {result : ExecutedResult} (h : result.cause = some cause) :
    ShowsRejection result.parts cause false (result.toCodec : Codec fmt) where
  decoded := rfl
  json := rfl
  rebuild := rfl
  encoded := by
    intro hencoded
    cases hencoded
  error := by
    rw [ExecutedResult.toCodec, h]
    rfl

/-- Parts that are not put together yet are put together by encoding, and that tells what is
    wrong with them. -/
theorem error_encode_of_stale (hstale : c.encoded = false) (hjson : c.parts.json.isSome = true)
    (force : Bool) : (c.encode force).error = fmt.fault? c.parts := by
  have hguard : (c.encoded && !force || c.parts.json.isNone) = false := by
    cases hbody : c.parts.json <;> simp_all
  obtain ⟨cache, -, ⟨f, hrebuild, hdone⟩ | ⟨e, hrebuild, hfail⟩⟩ := encode_of_stale hguard
  · rw [hdone]
    exact (Format.fault?_of_ok hrebuild).symm
  · rw [hfail]
    exact (Format.fault?_of_error hrebuild).symm

theorem encode_of_encoded (h : c.encoded = true) : c.encode false = c := by
  simp [encode, h]

theorem encode_of_no_body (h : c.parts.json = none) (force : Bool) : c.encode force = c := by
  simp [encode, h]

namespace ShowsRejection

theorem sync_eq (h : c.ShowsRejection p cause asked) : c.sync = c := sync_of_decoded h.decoded

/-- A cache that is read as the same geometry makes no difference. -/
theorem withGeometry (h : c.ShowsRejection p cause asked) {cache : GeometryCache}
    (hcache : cache.readParsed.1 = c.parts.geometry.readParsed.1) :
    (c.withGeometry cache).ShowsRejection p cause asked where
  decoded := h.decoded
  json := h.json
  rebuild := (Format.rebuild_congr c.parts.op hcache).trans h.rebuild
  encoded := h.encoded
  error := h.error

/-- Encoding puts what comes of it in the place of the cause. -/
theorem encode (h : c.ShowsRejection p cause asked) :
    (c.encode false).ShowsRejection p cause true := by
  cases hjson : p.json with
  | none =>
    rw [encode_of_no_body (h.json.trans hjson)]
    refine ⟨h.decoded, h.json, h.rebuild, fun _ => rfl, ?_⟩
    rw [h.error, hjson, Option.isSome_none, Bool.and_false, Bool.and_false]
  | some body =>
    have hbody : c.parts.json.isSome = true := by rw [h.json, hjson, Option.isSome_some]
    cases hencoded : c.encoded with
    | true =>
      obtain rfl := h.encoded hencoded
      rwa [encode_of_encoded hencoded]
    | false =>
      -- The attempt to put the parts together replaces the cause by what comes of it.
      have herror : (c.encode false).error = fmt.fault? p :=
        (error_encode_of_stale hencoded hbody false).trans (Format.fault?_congr h.rebuild)
      have hkept : (c.encode false).decoded = true ∧ (c.encode false).parts.json = p.json ∧
          fmt.rebuild (c.encode false).parts = fmt.rebuild p := by
        rcases c.encode_cases false with
          hsame | ⟨-, cache, hcache, ⟨f, -, hdone⟩ | ⟨e, -, hfail⟩⟩
        · rw [hsame]
          exact ⟨h.decoded, h.json, h.rebuild⟩
        · have hread := h.withGeometry hcache.readParsed_eq
          rw [hdone]
          exact ⟨hread.decoded, hread.json, hread.rebuild⟩
        · have hread := h.withGeometry hcache.readParsed_eq
          rw [hfail]
          exact ⟨hread.decoded, hread.json, hread.rebuild⟩
      obtain ⟨hdecoded, hsame, hrebuild⟩ := hkept
      refine ⟨hdecoded, hsame, hrebuild, fun _ => rfl, ?_⟩
      rw [herror, hjson]
      rfl

/-- Only the read of the assembled feature makes a difference. -/
theorem read (h : c.ShowsRejection p cause asked) (read : LazyRead) :
    (c.perform read.action).2.ShowsRejection p cause (asked || decide (read = .feature)) := by
  have hsync : c.sync.ShowsRejection p cause asked := by rwa [h.sync_eq]
  have hother (hread : read ≠ .feature) : (asked || decide (read = .feature)) = asked := by
    rw [decide_eq_false hread, Bool.or_false]
  cases read with
  | feature =>
    rw [decide_eq_true rfl, Bool.or_true]
    exact h.encode
  | op =>
    rw [hother (by decide)]
    exact h
  | geometry =>
    rw [hother (by decide)]
    exact hsync.withGeometry (GeometryCache.yields_readParsed _).readParsed_eq
  | binary =>
    rw [hother (by decide)]
    exact hsync.withGeometry (GeometryCache.readParsed_withBinary _)
  | id | version | featureType | propertiesType | json =>
    rw [hother (by decide)]
    exact hsync

end ShowsRejection

end Codec

/-! ## Readers of an outcome -/

/-- A look at a row: where to go, and what to read there. -/
structure Look where
  position : Nat
  read : LazyRead
deriving DecidableEq, Repr

namespace HeapCursor

variable {c : HeapCursor σ fmt} {p : Parts} {cause : ErrorCause} {asked : Bool}

def look (c : HeapCursor σ fmt) (look : Look) : HeapCursor σ fmt :=
  ((c.absolute look.position).2.onCurrent (fun row => row.perform look.read.action)).2

def lookAll (c : HeapCursor σ fmt) (looks : List Look) : HeapCursor σ fmt := looks.foldl look c

/-- Go to a row and ask for its error. -/
def errorAt (c : HeapCursor σ fmt) (position : Nat) : Except CursorError (Option CodecError) :=
  ((c.absolute position).2.onCurrent (fun row => (row.error, row))).1

theorem codecs_absolute (c : HeapCursor σ fmt) (position : Int) :
    (c.absolute position).2.codecs = c.codecs := by
  unfold absolute
  split
  · rfl
  split
  · rfl
  split <;> rfl

/-- The row that a reader finds where it goes. -/
theorem row_absolute (hopen : c.closed = false) (position : Nat) {row : Codec fmt}
    (hrow : c.codecs[position]? = some row) :
    (c.absolute position).2.row (c.absolute position).2.position = .ok (position, row) := by
  have hlength : position < c.length := (List.getElem?_eq_some_iff.mp hrow).1
  have hmoved : (c.absolute position).2 = { c with position } := by
    simp only [absolute, hopen]
    rw [if_neg (by decide), if_neg (by omega), if_neg (by omega)]
  rw [hmoved]
  simp [HeapCursor.row, hopen, hrow]

theorem errorAt_eq (hopen : c.closed = false) {position : Nat} {row : Codec fmt}
    (hrow : c.codecs[position]? = some row) : c.errorAt position = .ok row.error := by
  rw [errorAt, onCurrent, row_absolute hopen position hrow]

/-- Where there is no row the reader comes behind the last one, and finds none there. -/
theorem row_absolute_of_length_le (hopen : c.closed = false) {position : Nat}
    (hlength : c.length ≤ position) :
    (c.absolute position).2.row (c.absolute position).2.position
      = .error (.outOfBounds c.length) := by
  have hmoved : (c.absolute position).2 = { c with position := c.length } := by
    simp only [absolute, hopen]
    rw [if_neg (by decide), if_pos (by omega)]
  rw [hmoved]
  simp [HeapCursor.row, hopen, length]

/-- A look changes the row that it is at, and no other. -/
theorem codecs_look (hopen : c.closed = false) (look : Look) :
    (c.look look).codecs
      = c.codecs.modify look.position (fun row => (row.perform look.read.action).2) := by
  cases hrow : c.codecs[look.position]? with
  | some row =>
    rw [HeapCursor.look, onCurrent, row_absolute hopen look.position hrow]
    simp only [withRow, codecs_absolute, List.modify_eq_set_getElem?, hrow]
    rfl
  | none =>
    have hlength : c.codecs.length ≤ look.position := List.getElem?_eq_none_iff.mp hrow
    rw [HeapCursor.look, onCurrent, row_absolute_of_length_le hopen hlength, codecs_absolute,
      List.modify_eq_self hlength]

theorem closed_look (look : Look) : (c.look look).closed = c.closed := by
  have hmoved := (c.sameOrigin_absolute look.position).2
  exact ((c.absolute look.position).2.sameOrigin_onCurrent _).2.trans hmoved

/-- The cursor is open and has a row of a rejected write, whose assembled feature has been
    asked for or not. -/
def HoldsRejection (c : HeapCursor σ fmt) (position : Nat) (p : Parts) (cause : ErrorCause)
    (asked : Bool) : Prop :=
  c.closed = false ∧ ∃ row, c.codecs[position]? = some row ∧ row.ShowsRejection p cause asked

namespace HoldsRejection

variable {position : Nat}

theorem look (h : c.HoldsRejection position p cause asked) (look : Look) :
    (c.look look).HoldsRejection position p cause
      (asked || decide (look = ⟨position, .feature⟩)) := by
  obtain ⟨hopen, row, hrow, hshows⟩ := h
  refine ⟨(closed_look look).trans hopen, ?_⟩
  rw [codecs_look hopen, List.getElem?_modify, hrow]
  obtain ⟨place, read⟩ := look
  by_cases hplace : place = position
  · subst hplace
    have hread : decide ((⟨place, read⟩ : Look) = ⟨place, .feature⟩)
        = decide (read = .feature) := by
      simp only [Look.mk.injEq, true_and]
    rw [hread]
    exact ⟨_, congrArg some (if_pos rfl), hshows.read read⟩
  · have hread : decide ((⟨place, read⟩ : Look) = ⟨position, .feature⟩) = false := by
      simp only [Look.mk.injEq, hplace, false_and, decide_false]
    rw [hread, Bool.or_false]
    exact ⟨row, congrArg some (if_neg hplace), hshows⟩

/-- After any looks at any rows it is known what the row shows as its error. -/
theorem lookAll (h : c.HoldsRejection position p cause asked) (looks : List Look) :
    (c.lookAll looks).HoldsRejection position p cause
      (asked || decide (⟨position, .feature⟩ ∈ looks)) := by
  induction looks generalizing c asked with
  | nil =>
    rw [decide_eq_false List.not_mem_nil, Bool.or_false]
    exact h
  | cons first rest ih =>
    have hrest := ih (h.look first)
    have hmem : (asked || decide (⟨position, .feature⟩ ∈ first :: rest))
        = (asked || decide (first = ⟨position, .feature⟩)
          || decide (⟨position, .feature⟩ ∈ rest)) := by
      rw [Bool.or_assoc, ← Bool.decide_or]
      simp only [List.mem_cons, eq_comm]
    rw [hmem]
    exact hrest

theorem errorAt_eq (h : c.HoldsRejection position p cause asked) :
    c.errorAt position
      = .ok (if asked && p.json.isSome then fmt.fault? p else some (.ofCause cause)) := by
  obtain ⟨hopen, row, hrow, hshows⟩ := h
  rw [HeapCursor.errorAt_eq hopen hrow, hshows.error]

end HoldsRejection

end HeapCursor

namespace WriteOutcome

/-- Any row of an outcome that shows a rejected write shows its cause to whoever has read of
    the rows whatever they hold, in any order, if and only if the assembled feature of that
    row has not been read or the row has no body. Otherwise it shows what is wrong with the
    feature that stood in the way, and if nothing is, no error at all. -/
theorem shows_cause_iff (results : List ExecutedResult) (order : Option SubmissionOrder)
    (failure : Option StoreError) (position : Nat) (result : ExecutedResult) (cause : ErrorCause)
    (hrow : (ofResults results order failure : WriteOutcome σ fmt).cursor.codecs[position]?
      = some result.toCodec)
    (hcause : result.cause = some cause) (looks : List Look) :
    let cursor := (ofResults results order failure : WriteOutcome σ fmt).cursor.lookAll looks
    (cursor.errorAt position = .ok (some (.ofCause cause)) ↔
      (⟨position, .feature⟩ ∉ looks ∨ result.parts.json = none)) ∧
    (⟨position, .feature⟩ ∈ looks → result.parts.json.isSome = true →
      cursor.errorAt position = .ok (fmt.fault? result.parts)) := by
  intro cursor
  have hopen : (ofResults results order failure : WriteOutcome σ fmt).cursor.closed = false := by
    cases order <;> rfl
  have hholds : cursor.HoldsRejection position result.parts cause
      (false || decide (⟨position, .feature⟩ ∈ looks)) :=
    HeapCursor.HoldsRejection.lookAll
      ⟨hopen, _, hrow, Codec.showsRejection_toCodec hcause⟩ looks
  rw [hholds.errorAt_eq, Bool.false_or]
  have hfault : (Except.ok (fmt.fault? result.parts) : Except CursorError (Option CodecError))
      ≠ .ok (some (.ofCause cause)) :=
    fun h => Format.fault?_ne_ofCause result.parts cause (Except.ok.inj h)
  by_cases hread : ⟨position, .feature⟩ ∈ looks
  · cases hjson : result.parts.json with
    | none => simp [hread]
    | some body => simpa [hread] using hfault
  · simp [hread]

/-- A conflict with a stored feature, and a feature that is not there. The body of the second
    row is missing, so its assembled feature may be read. -/
theorem shows_cause_of_parts_read :
    let stored : Parts :=
      { id := some "a", version := some "v1", json := some "\x7b\"id\":\"a\"\x7d" }
    let conflict : ExecutedResult := .rejected .conflict (some "a") (some stored)
    let missing : ExecutedResult := .rejected .notFound (some "b") none
    let cursor := (ofResults [conflict, missing] none none : WriteOutcome RowQueue .geo).cursor
    let looks : List Look := [⟨0, .json⟩, ⟨1, .feature⟩, ⟨0, .binary⟩]
    (cursor.lookAll looks).errorAt 0 = .ok (some (.ofCause .conflict)) ∧
      (cursor.lookAll looks).errorAt 1 = .ok (some (.ofCause .notFound)) ∧
      (cursor.lookAll (looks ++ [⟨0, .feature⟩])).errorAt 0 = .ok none := by
  intro stored conflict missing cursor looks
  have hread : Format.fault? .geo conflict.parts = none := by decide
  refine ⟨?_, ?_, ?_⟩
  · exact (shows_cause_iff [conflict, missing] none none 0 conflict .conflict rfl rfl looks).1.mpr
      (.inl (by decide))
  · exact (shows_cause_iff [conflict, missing] none none 1 missing .notFound rfl rfl looks).1.mpr
      (.inr rfl)
  · rw [← hread]
    exact (shows_cause_iff [conflict, missing] none none 0 conflict .conflict rfl rfl _).2
      (by decide) rfl

/-- Reading the feature that stood in the way takes the conflict away. -/
theorem feature_hides_conflict :
    let stored : Parts :=
      { id := some "a", version := some "v1", json := some "\x7b\"id\":\"a\"\x7d" }
    let conflict : ExecutedResult := .rejected .conflict (some "a") (some stored)
    let cursor := (ofResults [conflict] none none : WriteOutcome RowQueue .geo).cursor
    conflict.op = .error ∧ cursor.errorAt 0 = .ok (some (.ofCause .conflict)) ∧
      (cursor.look ⟨0, .feature⟩).errorAt 0 = .ok none :=
  ⟨rfl, rfl, rfl⟩

end WriteOutcome

end FeatureStore
