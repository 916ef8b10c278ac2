-- SUMMARY: The shortest decimal that reads back as a given binary64 number.
import FeatureStore.Numeric.Binary64

/-!
# Shortest decimals

A finite binary64 number `m * 2 ^ q` stands for an interval of rationals: those
that round to it. The interval reaches half-way to the two neighbours, and its
ends belong to it when `m` is even, because ties go to the even significand.
The shortest decimal of the number is the one with the fewest digits in that
interval, and among those the nearest to the number; of two equally near ones
the even digit wins.

All quantities are naturals over one common denominator, so nothing is lost.
-/

namespace FeatureStore

/-- The rational `digits * 10 ^ exponent`. -/
structure Decimal where
  digits : Nat
  exponent : Int
deriving DecidableEq, Repr, Inhabited

namespace Decimal

/-- `10 ^ e` for a positive `e`, otherwise one. -/
def powUp (e : Int) : Nat := Nat.pow 10 e.toNat

/-- The number of decimal digits of `n`; zero has one. -/
def digitCount (n : Nat) : Nat := (Nat.toDigits 10 n).length

/-- The exponent `e` with `10 ^ e ≤ num / den < 10 ^ (e + 1)`, for positive `num` and `den`. -/
def ratioLog10 (num den : Nat) : Int :=
  if den ≤ num then (digitCount (num / den) : Int) - 1
  else -(digitCount ((den + num - 1) / num - 1) : Int)

/-- The rationals that round to one binary64 number, over a common denominator. -/
structure Interval where
  low : Nat
  value : Nat
  high : Nat
  denominator : Nat
  closed : Bool

/-- The interval of a finite number that is not zero. Below a power of two the
    spacing is half of that above it, so there the lower end is nearer. -/
def Interval.of (x : Binary64) : Interval :=
  let m := x.significand
  let q := x.exponent - 2
  let below := if m = 1 <<< 52 ∧ 1 < x.exponentField then 1 else 2
  let unit := Binary64.powUp q
  { low := (4 * m - below) * unit
    value := 4 * m * unit
    high := (4 * m + 2) * unit
    denominator := Binary64.powUp (-q)
    closed := m % 2 == 0 }

/-- Whether `n * 10 ^ e` lies in the interval. -/
def Interval.contains (i : Interval) (n : Nat) (e : Int) : Bool :=
  let point := n * powUp e * i.denominator
  let scale := powUp (-e)
  if i.closed then decide (i.low * scale ≤ point) && decide (point ≤ i.high * scale)
  else decide (i.low * scale < point) && decide (point < i.high * scale)

/-- The nearest to the value of the multiples of `10 ^ e` in the interval, if
    there is one. Only the two neighbours of the value can be. -/
def Interval.onGrid (i : Interval) (e : Int) : Option Nat :=
  let num := i.value * powUp (-e)
  let den := i.denominator * powUp e
  let below := num / den
  match i.contains below e, i.contains (below + 1) e with
  | true, true => some (Binary64.roundDiv num den)
  | true, false => some below
  | false, true => some (below + 1)
  | false, false => none

/-- The first grid with a point in the interval, from `count` more grids, each ten
    times finer than the one before. -/
def Interval.search (i : Interval) : (count : Nat) → (e : Int) → Decimal
  | 0, e => ⟨i.value * powUp (-e) / (i.denominator * powUp e), e⟩
  | count + 1, e =>
    match i.onGrid e with
    | some digits => ⟨digits, e⟩
    | none => i.search count (e - 1)

/-- The shortest decimal that reads back as the magnitude of a finite number.
    Seventeen digits always suffice. The first grid is that of one digit; only
    there can a point end in zero, when the value is rounded up to the next power
    of ten. -/
def shortest (x : Binary64) : Decimal :=
  if x.significand = 0 then ⟨0, 0⟩
  else
    let i := Interval.of x
    let found := i.search 17 (ratioLog10 i.value i.denominator)
    if found.digits = 10 then ⟨1, found.exponent + 1⟩ else found

end Decimal

end FeatureStore
