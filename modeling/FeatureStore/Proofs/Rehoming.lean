-- SUMMARY: What a codec of the other format has of a feature, and of one that cannot be taken apart.
import FeatureStore.Proofs.Retargeting

/-!
# Features that change their format

A feature comes to the other format by its parts, so a codec with nothing but an assembled
feature is decoded on the way. If that succeeds, the new codec has all that decoding has
yielded. If it fails, the failure is kept on the codec that is left behind, and the new codec
has the parts that were there before: those of no feature, as a rule. Their error is at most
what is wrong with putting them together.
-/

namespace FeatureStore

variable {ε σ : Type} [RowSource ε σ] {fmt target : Format}

/-- What keeps a feature from being taken apart is never a rejected write. -/
theorem Format.isRejection_of_disassemble {f : fmt.Assembled} {e : CodecError}
    (h : fmt.disassemble f = .error e) : e.isRejection = false := by
  cases fmt with
  | geo => cases h
  | json =>
    cases f with
    | object members =>
      simp only [Format.disassemble, Json.disassemble, Json.embeddedGeometry] at h
      split at h
      · cases h
      · cases h
      · split at h <;> cases h
        rfl
    | null | bool | number | string | array => cases h; rfl

namespace Codec

/-- A way to bring a codec to another format. -/
inductive Rehoming
  | adopt
  | retarget (reEncode : Bool)

/-- Whether the parts are put together on arrival. -/
def Rehoming.together : Rehoming → Bool
  | .adopt => false
  | .retarget reEncode => reEncode

/-- The codec that is brought to a format. -/
def rehome (c : Codec fmt) (target : Format) : Rehoming → Codec target
  | .adopt => c.adopt target
  | .retarget reEncode => c.retarget target reEncode

/-- What the codec `d` of another format has of the feature of `c`. -/
inductive Rehomed (c : Codec fmt) (together : Bool) (d : Codec target) : Prop
  /-- The parts of the feature. -/
  | kept (decoded : (c.decode false).decoded = true)
      (parts : d.seen.parts = (c.decode false).parts.seen)
  /-- Nothing of it, and nothing of what is wrong with it. -/
  | lost (f : fmt.Assembled) (e : CodecError) (feature : c.feature = some f)
      (disassemble : fmt.disassemble f = .error e) (decoded : (c.decode false).decoded = false)
      (failure : (c.decode false).error = some e) (parts : d.seen.parts = c.parts.seen)
      (error : d.error = if together && c.parts.json.isSome then target.fault? c.parts else none)

variable {c : Codec fmt}

/-- The parts of a codec with a feature are derived by decoding. -/
theorem sync_of_feature {f : fmt.Assembled} (h : c.feature = some f) :
    c.sync = c.decode false := by
  cases hdecoded : c.decoded with
  | true =>
    rw [sync_of_decoded hdecoded]
    simp [decode, hdecoded]
  | false => simp [sync, hdecoded, h]

theorem adopt_of_ne (c : Codec fmt) (h : fmt ≠ target) : c.adopt target = withParts c.sync := by
  simp [adopt, cast?, h]

/-- To another format a codec is always moved, whether or not it is put together there. -/
theorem retarget_eq_move (c : Codec fmt) (h : fmt ≠ target) (reEncode : Bool) :
    c.retarget target reEncode = c.move target reEncode := by
  cases reEncode with
  | true => rfl
  | false => exact c.retarget_of_ne h

/-- Whichever way is taken, the parts are those that are read of the codec before. -/
theorem seen_rehome (c : Codec fmt) (h : fmt ≠ target) (way : Rehoming) :
    (c.rehome target way).seen.parts = c.sync.parts.seen := by
  cases way with
  | retarget reEncode => exact (c.alike_retarget target reEncode).seen.trans c.seen_parts
  | adopt =>
    have hadopt : c.rehome target .adopt = withParts c.sync := c.adopt_of_ne h
    rw [hadopt, seen_parts, sync_of_decoded rfl]
    rfl

/-- What is wrong with parts after they have been moved, as far as it has been tried. -/
theorem error_moveParts (c : Codec fmt) (target : Format) (together : Bool) :
    (c.moveParts target together).error
      = if together && c.sync.parts.json.isSome then target.fault? c.sync.parts else none := by
  cases together with
  | false => rfl
  | true =>
    let moved : Codec target := ofParts c.sync.parts
    cases hjson : c.sync.parts.json with
    | none =>
      have hsame : c.moveParts target true = moved := encode_of_no_body (c := moved) hjson true
      rw [hsame]
      rfl
    | some body =>
      have hbody : moved.parts.json.isSome = true := congrArg Option.isSome hjson
      exact error_encode_of_stale rfl hbody true

/-- A codec without the error of a rejected write brings no error along. -/
theorem error_rehome (h : fmt ≠ target) (hrejection : c.sync.rejection = none) (way : Rehoming) :
    (c.rehome target way).error
      = if way.together && c.sync.parts.json.isSome then target.fault? c.sync.parts else none := by
  cases way with
  | adopt => exact congrArg error (c.adopt_of_ne h)
  | retarget reEncode =>
    have hmove : c.rehome target (.retarget reEncode) = c.move target reEncode :=
      c.retarget_eq_move h reEncode
    rw [hmove, move_eq, hrejection]
    exact c.error_moveParts target reEncode

/-- A codec with a feature is brought to the other format with the parts of the feature, or
    without anything of it. -/
theorem rehomed_rehome {f : fmt.Assembled} (hfeature : c.feature = some f) (h : fmt ≠ target)
    (way : Rehoming) : c.Rehomed way.together (c.rehome target way) := by
  have hparts := c.seen_rehome h way
  rw [sync_of_feature hfeature] at hparts
  cases hdecoded : (c.decode false).decoded with
  | true => exact .kept hdecoded hparts
  | false =>
    have hstale : c.decoded = false := by
      rw [← Bool.not_eq_true]
      intro hknown
      simp [decode, hknown] at hdecoded
    cases hdisassemble : fmt.disassemble f with
    | ok parts => simp [decode, hstale, hfeature, hdisassemble] at hdecoded
    | error e =>
      have hdecode : c.decode false = { c with decoded := false, error := some e } := by
        simp [decode, hstale, hfeature, hdisassemble]
      have hrejection : c.sync.rejection = none := by
        rw [sync_of_feature hfeature, hdecode]
        exact Option.filter_some_neg (by simp [Format.isRejection_of_disassemble hdisassemble])
      have herror := error_rehome h hrejection way
      rw [sync_of_feature hfeature, hdecode] at herror
      rw [hdecode] at hparts
      exact .lost f e hfeature hdisassemble hdecoded (by rw [hdecode]) hparts herror

end Codec

/-! ## Rows of cursors -/

/-- If the one row has a feature, the other one has it or has nothing of it. -/
def Codec.Brings (together : Bool) (c : Codec fmt) (d : Codec target) : Prop :=
  c.feature.isSome = true → c.Rehomed together d

theorem Codec.brings_rehome (c : Codec fmt) (h : fmt ≠ target) (way : Rehoming) :
    c.Brings way.together (c.rehome target way) := by
  intro hfeature
  obtain ⟨f, hf⟩ := Option.isSome_iff_exists.mp hfeature
  exact rehomed_rehome hf h way

theorem Codec.brings_retarget (h : fmt ≠ target) (reEncode : Bool) (rows : List (Codec fmt)) :
    List.Forall₂ (Codec.Brings reEncode) rows
      (rows.map (fun row => row.retarget target reEncode)) := by
  rw [List.forall₂_map_right_iff]
  exact List.forall₂_same.mpr fun row _ => row.brings_rehome h (.retarget reEncode)

/-- The rows that a heap cursor takes into another format are those after its position. -/
theorem HeapCursor.materialize_of_open {c : HeapCursor σ fmt} (hopen : c.closed = false)
    (target : Format) :
    c.materialize target
      = .ok (.ofTaken ((c.codecs.drop (c.position + 1).toNat).map
          (fun row => row.retarget target false)) c.handle?) := by
  simp only [materialize, forEach, hopen, Bool.false_eq_true, if_false, List.map_map]
  rfl

/-- However a codec with a feature is brought to the other format, on its own or as a row of a
    cursor that changes its format or is taken into memory: if the feature can be taken apart,
    the new codec has its parts. If it cannot, the new codec has nothing of it, and is not told
    what is wrong with it. -/
theorem Codec.brought_or_lost (h : fmt ≠ target) :
    (∀ (c : Codec fmt) (way : Rehoming), c.Brings way.together (c.rehome target way)) ∧
    (∀ (c : Cursor σ fmt) (reEncode : Bool),
      List.Forall₂ (Brings reEncode) c.rows (c.withFormat target reEncode).rows) ∧
    (∀ c : HeapCursor σ fmt, c.closed = false →
      ∃ taken, c.materialize target = .ok taken ∧
        List.Forall₂ (Brings false) (c.codecs.drop (c.position + 1).toNat) taken.codecs) ∧
    ∀ (c : StreamingCursor σ fmt) (env : ε) (codecs : List (Codec fmt)),
      c.Sound → c.ahead env = .ok codecs →
        ∃ taken, c.materialize env target = .ok taken ∧
          List.Forall₂ (Brings false) codecs taken.codecs := by
  refine ⟨fun c way => c.brings_rehome h way, ?rows, ?heap, ?stream⟩
  case rows =>
    intro c reEncode
    rw [Cursor.rows_withFormat]
    exact brings_retarget h reEncode c.rows
  case heap =>
    intro c hopen
    exact ⟨_, HeapCursor.materialize_of_open hopen target, brings_retarget h false _⟩
  case stream =>
    intro c env codecs hsound hahead
    obtain ⟨handle, htaken⟩ := StreamingCursor.materialize_of_ahead hsound hahead target
    exact ⟨_, htaken, brings_retarget h false codecs⟩

/-- A feature of the format that can always be taken apart. -/
theorem Codec.brought_from_geo :
    let f : Feature := { id := "a", version := some "v1" }
    let c : Codec .geo := .ofFeature f
    ∀ way : Rehoming, (c.rehome .json way).seen.parts = f.disassemble.seen := by
  intro f c way
  obtain ⟨hcodec, -⟩ := @Codec.brought_or_lost Unit RowQueue _ .geo .json (by decide)
  cases hcodec c way rfl with
  | kept decoded parts => exact parts
  | lost f e feature disassemble => cases disassemble

/-- An assembled value that is no object is replaced by empty parts without an error. -/
theorem Codec.array_is_lost :
    let c : Codec .json := .ofFeature (.array [])
    (c.decode false).error = some .notAnObject ∧
      ∀ way : Rehoming, (c.rehome .geo way).seen.parts = Parts.seen {} ∧
        (c.rehome .geo way).feature = none ∧ (c.rehome .geo way).error = none := by
  refine ⟨rfl, fun way => ?_⟩
  cases way with
  | adopt => exact ⟨rfl, rfl, rfl⟩
  | retarget reEncode => cases reEncode <;> exact ⟨rfl, rfl, rfl⟩

end FeatureStore
