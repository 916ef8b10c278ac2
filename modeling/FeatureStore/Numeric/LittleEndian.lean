-- SUMMARY: Naturals as little-endian words of a fixed number of bytes.

/-!
# Little-endian words

A word of `width` bytes holds a natural below `256 ^ width`, least significant
byte first. Writing a larger natural drops its high bytes.
-/

namespace FeatureStore.LittleEndian

/-- The `width` bytes of `n`. -/
def bytes : (width n : Nat) → List UInt8
  | 0, _ => []
  | width + 1, n => UInt8.ofNat n :: bytes width (n / 256)

/-- The natural with the given bytes. -/
def value : List UInt8 → Nat
  | [] => 0
  | b :: rest => b.toNat + 256 * value rest

@[simp] theorem length_bytes (width n : Nat) : (bytes width n).length = width := by
  induction width generalizing n with
  | zero => rfl
  | succ width ih => simp [bytes, ih]

theorem value_lt (bs : List UInt8) : value bs < Nat.pow 256 bs.length := by
  induction bs with
  | nil => simp [value]
  | cons b rest ih =>
    have hb : b.toNat < 256 := b.toNat_lt
    have hpow : Nat.pow 256 (rest.length + 1) = Nat.pow 256 rest.length * 256 := rfl
    rw [value, List.length_cons, hpow]
    omega

theorem value_bytes (width n : Nat) : value (bytes width n) = n % Nat.pow 256 width := by
  induction width generalizing n with
  | zero => exact (Nat.mod_one n).symm
  | succ width ih =>
    have hhead : (UInt8.ofNat n).toNat = n % 256 := UInt8.toNat_ofNat'
    have hpow : Nat.pow 256 (width + 1) = 256 * Nat.pow 256 width := Nat.mul_comm _ _
    rw [bytes, value, ih, hhead, hpow, Nat.mod_mul]

theorem value_bytes_of_lt {width n : Nat} (h : n < Nat.pow 256 width) : value (bytes width n) = n := by
  rw [value_bytes, Nat.mod_eq_of_lt h]

theorem bytes_value (bs : List UInt8) : bytes bs.length (value bs) = bs := by
  induction bs with
  | nil => rfl
  | cons b rest ih =>
    have hb : b.toNat < 256 := b.toNat_lt
    have hdiv : (b.toNat + 256 * value rest) / 256 = value rest := by omega
    have hhead : UInt8.ofNat (b.toNat + 256 * value rest) = b := by
      apply UInt8.toNat_inj.mp
      rw [UInt8.toNat_ofNat']
      omega
    rw [List.length_cons, value, bytes, hdiv, hhead, ih]

end FeatureStore.LittleEndian
