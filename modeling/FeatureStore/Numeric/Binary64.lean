-- SUMMARY: Binary64 floating-point numbers as bit patterns, and exact rounding of ratios of naturals to them.

/-!
# Binary64 numbers

A binary64 number is its 64 bits: one sign bit, eleven exponent bits, fifty-two
fraction bits. Two numbers are equal when their bits are equal, so `0.0` differs
from `-0.0` and a NaN equals itself. This is the equality that matters here:
coordinates are stored and given back, never compared as numbers.

The only arithmetic needed is that of reading decimal text. It works on
magnitudes: a finite magnitude is a ratio of two naturals, and `ofRatio` rounds
such a ratio to the nearest number, ties going to the even significand.
-/

namespace FeatureStore

/-- A binary64 number, given by its bits. -/
structure Binary64 where
  bits : UInt64
deriving DecidableEq, Repr, Inhabited

namespace Binary64

/-! ## Fields -/

/-- The number with the given bits. Bits above the sixty-fourth are dropped. -/
def ofBits (n : Nat) : Binary64 := ⟨UInt64.ofNat n⟩

/-- Whether the sign bit is set. -/
def isNegative (x : Binary64) : Bool := decide (1 <<< 63 ≤ x.bits.toNat)

/-- The eleven exponent bits. -/
def exponentField (x : Binary64) : Nat := x.bits.toNat >>> 52 % 1 <<< 11

/-- The fifty-two fraction bits. -/
def fractionField (x : Binary64) : Nat := x.bits.toNat % 1 <<< 52

/-- Neither an infinity nor a NaN: the exponent bits are not all set. -/
def isFinite (x : Binary64) : Bool := x.exponentField != 2047

/-- The integer `m` of the magnitude `m * 2 ^ q` of a finite number. -/
def significand (x : Binary64) : Nat :=
  if x.exponentField = 0 then x.fractionField else x.fractionField + 1 <<< 52

/-- The power `q` of the magnitude `m * 2 ^ q` of a finite number. -/
def exponent (x : Binary64) : Int :=
  if x.exponentField = 0 then -1074 else (x.exponentField : Int) - 1075

/-- Whether the number is `0.0` or `-0.0`. -/
def isZero (x : Binary64) : Bool := x.isFinite && x.significand == 0

/-- The number with the opposite sign bit. -/
def neg (x : Binary64) : Binary64 := ⟨x.bits ^^^ 0x8000000000000000⟩

def zero : Binary64 := ofBits 0

def infinity : Binary64 := ofBits (2047 <<< 52)

/-! ## Rounding -/

/-- `2 ^ e` for a positive `e`, otherwise one. -/
def powUp (e : Int) : Nat := 1 <<< e.toNat

/-- The quotient rounded to the nearest integer, a half going to the even neighbour. -/
def roundDiv (num den : Nat) : Nat :=
  let quotient := num / den
  let rest := num % den
  if 2 * rest < den then quotient
  else if den < 2 * rest then quotient + 1
  else quotient + quotient % 2

/-- The exponent `e` with `2 ^ e ≤ num / den < 2 ^ (e + 1)`, for positive `num` and `den`. -/
def ratioLog2 (num den : Nat) : Int :=
  let guess : Int := (num.log2 : Int) - den.log2
  if num * powUp (-guess) < den * powUp guess then guess - 1 else guess

/-- The non-negative number nearest to `num / den`. The significand has
    fifty-three bits, fewer where the exponent would fall below `-1074`. The bits
    of a number of significand `m` and exponent `q` are `(q + 1074) * 2 ^ 52 + m`,
    also when rounding has carried `m` to `2 ^ 53`. -/
def ofRatio (num den : Nat) : Binary64 :=
  if num = 0 then zero
  else
    let q := max (ratioLog2 num den - 52) (-1074)
    let m := roundDiv (num * powUp (-q)) (den * powUp q)
    let bits := (q + 1074).toNat <<< 52 + m
    if bits < 2047 <<< 52 then ofBits bits else infinity

/-- The non-negative number nearest to `n`. -/
def ofNat (n : Nat) : Binary64 := ofRatio n 1

/-- The number nearest to `i`. Zero is positive. -/
def ofInt (i : Int) : Binary64 :=
  if 0 ≤ i then ofNat i.natAbs else (ofNat i.natAbs).neg

/-! ## Arithmetic on magnitudes -/

/-- Numerator of the magnitude of a finite number. -/
def numerator (x : Binary64) : Nat := x.significand * powUp x.exponent

/-- Denominator of the magnitude of a finite number. -/
def denominator (x : Binary64) : Nat := powUp (-x.exponent)

/-- The rounded product of two finite magnitudes. -/
def mulMagnitude (x y : Binary64) : Binary64 :=
  ofRatio (x.numerator * y.numerator) (x.denominator * y.denominator)

/-- The rounded quotient of two finite magnitudes, the second not zero. -/
def divMagnitude (x y : Binary64) : Binary64 :=
  ofRatio (x.numerator * y.denominator) (x.denominator * y.numerator)

end Binary64

end FeatureStore
