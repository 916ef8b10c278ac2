-- SUMMARY: The meaning of written JSON: characters of strings, values of numerals, and JSON values within a depth limit.
import FeatureStore.Json.Value
import FeatureStore.Json.Written

/-!
# The meaning of written JSON

Giving meaning to a written value can fail where writing it cannot: a lone
surrogate is no character, a numeral can be out of range, and containers may
nest only to a limit.

## Numerals

A numeral without fraction and exponent is an integer when it fits in sixty-four
bits: from `0` to `2 ^ 64 - 1`, and with a minus sign from `-1` down to `-2 ^ 63`.
Every other numeral is a binary64 number; `-0` is `-0.0`.

A binary64 number is read from its leading digits, as many as fit in sixty-four
bits. Whole digits after those only raise the exponent; fraction digits after
those are dropped. The leading digits are rounded to binary64, then multiplied or
divided once by a rounded power of ten, which rounds again. Exponents below -308
take several divisions. The result can so differ from the nearest number in its
last bit; it is the value that a body has when it is read back.
-/

namespace FeatureStore

namespace Json

/-! ## Strings -/

/-- Whether a unit of sixteen bits is the first of a surrogate pair. -/
def isHighSurrogate (u : Nat) : Bool := decide (0xD800 ≤ u) && decide (u < 0xDC00)

/-- Whether a unit of sixteen bits is the second of a surrogate pair. -/
def isLowSurrogate (u : Nat) : Bool := decide (0xDC00 ≤ u) && decide (u < 0xE000)

/-- The characters of a written string. Two units that form a surrogate pair are
    one character; a lone surrogate is none. -/
def characters? : List Piece → Option (List Char)
  | [] => some []
  | .char c :: rest => (characters? rest).map (c :: ·)
  | .unit high :: .unit low :: rest =>
    if isHighSurrogate high then
      if isLowSurrogate low then
        let c := Char.ofNat (0x10000 + (high - 0xD800) * 0x400 + (low - 0xDC00))
        (characters? rest).map (c :: ·)
      else none
    else if isLowSurrogate high then none
    else (characters? (.unit low :: rest)).map (Char.ofNat high :: ·)
  | .unit u :: rest =>
    if isHighSurrogate u || isLowSurrogate u then none
    else (characters? rest).map (Char.ofNat u :: ·)

/-- The text of a written string. -/
def text? (pieces : List Piece) : Option String := (characters? pieces).map String.ofList

/-! ## Numerals -/

/-- The largest integer that is kept exactly while digits are read. -/
def significandLimit : Nat := UInt64.size - 1

def digitValue (c : Char) : Nat := c.toNat - '0'.toNat

/-- Append digits to a significand for as long as it stays within the limit. Yields
    the significand and the number of digits that were left over. -/
def pushDigits (significand : Nat) : List Char → Nat × Nat
  | [] => (significand, 0)
  | c :: rest =>
    let next := significand * 10 + digitValue c
    if next ≤ significandLimit then pushDigits next rest
    else (significand, rest.length + 1)

/-- A power of ten, rounded to binary64. -/
def powerOfTen (k : Nat) : Binary64 := Binary64.ofNat (Nat.pow 10 k)

/-- Divide a magnitude by `10 ^ k`, in steps of at most `10 ^ 308`. -/
def scaleDown (x : Binary64) (k : Nat) : Binary64 :=
  if k ≤ 308 then x.divMagnitude (powerOfTen k)
  else if x.isZero then x
  else scaleDown (x.divMagnitude (powerOfTen 308)) (k - 308)
termination_by k

/-- The magnitude `significand * 10 ^ exponent`, unless it is out of range. -/
def magnitude? (significand : Nat) (exponent : Int) : Option Binary64 :=
  let x := Binary64.ofNat significand
  if exponent < 0 then some (scaleDown x exponent.natAbs)
  else if exponent ≤ 308 then
    let product := x.mulMagnitude (powerOfTen exponent.toNat)
    if product.isFinite then some product else none
  else if x.isZero then some x
  else none

/-- An exponent is read within the range of thirty-two bits. Beyond it the sign
    decides: the number is zero, or out of range. -/
def exponentLimit : Nat := Int32.maxValue.toNatClampNeg

/-- The magnitude of a numeral, as a binary64 number. -/
def Numeral.magnitude? (n : Numeral) : Option Binary64 :=
  let (whole, wholeLeft) := pushDigits 0 n.whole
  let (significand, fractionLeft) := pushDigits whole n.fraction
  let start : Int := (wholeLeft : Int) - (n.fraction.length - fractionLeft : Nat)
  match n.exponent with
  | none => Json.magnitude? significand start
  | some (negative, digits) =>
    let written := Nat.ofDigitChars 10 digits 0
    if exponentLimit < written then
      if significand ≠ 0 ∧ negative = false then none else some Binary64.zero
    else Json.magnitude? significand (if negative then start - written else start + written)

/-- The integer of a numeral that is written as one and fits in sixty-four bits. -/
def Numeral.integer? (n : Numeral) : Option Int :=
  if n.fraction = [] ∧ n.exponent = none then
    let value := Nat.ofDigitChars 10 n.whole 0
    if n.negative then
      if 0 < value ∧ value ≤ 1 <<< 63 then some (-(value : Int)) else none
    else if value ≤ significandLimit then some value
    else none
  else none

/-- The number of a numeral. -/
def Numeral.number? (n : Numeral) : Option Number :=
  match n.integer? with
  | some i => some (.int i)
  | none => n.magnitude?.map (fun x => .float (if n.negative then x.neg else x))

/-! ## Values -/

namespace Written

mutual

/-- The value of a written value in which at most `depth` containers nest. -/
def value? (depth : Nat) : Written → Option Json
  | .null => some .null
  | .bool b => some (.bool b)
  | .numeral n => n.number?.map .number
  | .string pieces => (text? pieces).map .string
  | .array items =>
    match depth with
    | 0 => none
    | depth + 1 => (values? depth items).map .array
  | .object members =>
    match depth with
    | 0 => none
    | depth + 1 => (members? depth members).map Json.ofMembers

def values? (depth : Nat) : List Written → Option (List Json)
  | [] => some []
  | item :: rest =>
    match item.value? depth with
    | none => none
    | some v => (values? depth rest).map (v :: ·)

def members? (depth : Nat) : List (List Piece × Written) → Option (List (String × Json))
  | [] => some []
  | (name, value) :: rest =>
    match text? name, value.value? depth with
    | some k, some v => (members? depth rest).map ((k, v) :: ·)
    | _, _ => none

end

end Written

/-- How deep the containers of a text may nest to be read. -/
def depthLimit : Nat := 127

/-- The value of a text within a depth limit. -/
def ofTextWithin? (depth : Nat) (text : String) : Option Json :=
  (Written.ofText? text).bind (Written.value? depth)

def ofText? (text : String) : Option Json := ofTextWithin? depthLimit text

end Json

end FeatureStore
