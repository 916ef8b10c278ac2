-- SUMMARY: Byte strings as hexadecimal text.

/-!
# Hexadecimal text

A byte string is written as two lower-case hexadecimal digits for each byte. It is
read from digits of either case.
-/

namespace FeatureStore.Hexadecimal

/-- The value of a hexadecimal digit of either case. -/
def digitValue? (c : Char) : Option Nat :=
  if c.isDigit then some (c.toNat - '0'.toNat)
  else if 'a' ≤ c ∧ c ≤ 'f' then some (c.toNat - 'a'.toNat + 10)
  else if 'A' ≤ c ∧ c ≤ 'F' then some (c.toNat - 'A'.toNat + 10)
  else none

/-- The lower-case digits of `n`, at least `width` of them. -/
def digits (width n : Nat) : List Char :=
  let plain := Nat.toDigits 16 n
  List.replicate (width - plain.length) '0' ++ plain

def ofBytes (bytes : List UInt8) : List Char := bytes.flatMap (fun b => digits 2 b.toNat)

/-- The byte string that digits write. -/
def toBytes? : List Char → Option (List UInt8)
  | [] => some []
  | [_] => none
  | high :: low :: rest =>
    match digitValue? high, digitValue? low with
    | some h, some l => (toBytes? rest).map (UInt8.ofNat (h * 16 + l) :: ·)
    | _, _ => none

end FeatureStore.Hexadecimal
