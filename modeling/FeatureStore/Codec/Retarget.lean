-- SUMMARY: Moving a feature to a codec of another format.
import FeatureStore.Codec.Basic

/-!
# Retargeting

A feature moves to another format by its parts. A codec that only holds an
assembled feature is decoded first. When the format does not change there is
nothing to move and the codec stays as it is, both of its forms and its error
included.
-/

namespace FeatureStore

namespace Codec

variable {fmt : Format}

/-- The codec itself, if it has the wanted format. -/
def cast? (c : Codec fmt) (target : Format) : Option (Codec target) :=
  if h : fmt = target then some (h ▸ c) else none

/-- A codec of the wanted format with the same parts. -/
def adopt (c : Codec fmt) (target : Format) : Codec target :=
  match c.cast? target with
  | some same => same
  | none => withParts c.sync

/-- The codec moved by its parts, assembled at once if `reEncode`. The error of a
    rejected write moves with it. -/
def move (c : Codec fmt) (target : Format) (reEncode : Bool) : Codec target :=
  let moved : Codec target := withParts c.sync
  let moved := if reEncode then moved.encode true else moved
  match c.sync.error with
  | some e => if e.isRejection then moved.setError (some e) else moved
  | none => moved

/-- The codec in the wanted format. It is moved even to its own format if it has to
    be assembled again. -/
def retarget (c : Codec fmt) (target : Format) (reEncode : Bool) : Codec target :=
  if reEncode then c.move target true
  else
    match c.cast? target with
    | some same => same
    | none => c.move target false

/-- In its own format a codec stays as it is. -/
theorem retarget_self (c : Codec fmt) : c.retarget fmt false = c := by
  simp [retarget, cast?]

/-- To another format it is moved. -/
theorem retarget_of_ne (c : Codec fmt) {target : Format} (h : fmt ≠ target) :
    c.retarget target false = c.move target false := by
  simp [retarget, cast?, h]

end Codec

end FeatureStore
