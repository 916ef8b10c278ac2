-- SUMMARY: The written form of JSON values, and their text.
import FeatureStore.Json.Value
import FeatureStore.Json.Written
import FeatureStore.Numeric.Decimal

/-!
# Printing JSON

`Json.written` gives a value its written form and `Json.print` its text: no
blanks, members in the order of their names, only the necessary escapes.

An integer is written by its digits. A binary64 number is written by its shortest
digits, with a point among them as long as the power of ten of the first digit
lies in `positionalRange`, and otherwise with an exponent that shows its sign. A
positional number always shows a fraction, so `1.0` is not taken for the integer
`1`.
-/

namespace FeatureStore

namespace Json

/-! ## Numbers -/

def Numeral.ofInt (i : Int) : Numeral :=
  { negative := decide (i < 0), whole := Nat.toDigits 10 i.natAbs }

/-- The powers of ten of the first digit for which a number is written without an
    exponent, from the first inclusive to the second exclusive. -/
def positionalRange : Int × Int := (-5, 16)

/-- Digits with the point after the first of them and an exponent. -/
def Numeral.scientific (digits : List Char) (lead : Int) : Numeral :=
  { whole := digits.take 1
    fraction := digits.drop 1
    exponent := some (decide (lead < 0), Nat.toDigits 10 lead.natAbs) }

/-- Digits with the point after the digit of the units, filled up with zeros. -/
def Numeral.positional (digits : List Char) (lead : Int) : Numeral :=
  if lead < 0 then
    { whole := ['0'], fraction := List.replicate (lead.natAbs - 1) '0' ++ digits }
  else
    let units := lead.toNat + 1
    let padded := digits ++ List.replicate (units - digits.length) '0'
    let fraction := padded.drop units
    { whole := padded.take units, fraction := if fraction = [] then ['0'] else fraction }

def Numeral.ofDecimal (d : Decimal) : Numeral :=
  let digits := Nat.toDigits 10 d.digits
  let lead := d.exponent + digits.length - 1
  if positionalRange.1 ≤ lead ∧ lead < positionalRange.2 then positional digits lead
  else scientific digits lead

def Numeral.ofBinary64 (x : Binary64) : Numeral :=
  { ofDecimal (Decimal.shortest x) with negative := x.isNegative }

/-! ## Values -/

/-- The pieces of a text: its characters. -/
def pieces (s : String) : List Piece := s.toList.map .char

/-- The written form of a number. One that is not finite has none but `null`. -/
def writtenNumber : Number → Written
  | .int i => .numeral (.ofInt i)
  | .float x => if x.isFinite then .numeral (.ofBinary64 x) else .null

mutual

def written : Json → Written
  | .null => .null
  | .bool b => .bool b
  | .number n => writtenNumber n
  | .string s => .string (pieces s)
  | .array items => .array (writtenItems items)
  | .object members => .object (writtenMembers members)

def writtenItems : List Json → List Written
  | [] => []
  | item :: rest => item.written :: writtenItems rest

def writtenMembers : List (String × Json) → List WrittenMember
  | [] => []
  | (name, value) :: rest => (pieces name, value.written) :: writtenMembers rest

end

/-- The text of a written value. -/
def Written.text (w : Written) : String := String.ofList w.render

def print (v : Json) : String := v.written.text

end Json

end FeatureStore
