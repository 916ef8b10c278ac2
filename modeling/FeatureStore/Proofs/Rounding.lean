-- SUMMARY: The binary64 number nearest to an integer of sixty-four bits is finite.
import FeatureStore.Numeric.Binary64
import Mathlib.Algebra.Ring.Nat

/-!
# Rounding integers

An integer below `2 ^ 64` has its first bit at the sixty-fourth place or below. Rounded to
fifty-three bits it has an exponent far below the largest one, also when rounding carries
into one more bit, so the number nearest to it is finite.
-/

namespace FeatureStore.Binary64

/-! ## Finite numbers -/

theorem isFinite_ofBits {n : Nat} (h : n < 2047 <<< 52) : (ofBits n).isFinite = true := by
  have hlimit : 2047 <<< 52 = 2047 * 2 ^ 52 := rfl
  have hsize : UInt64.size = 2 ^ 64 := rfl
  have hbits : (UInt64.ofNat n).toNat = n := UInt64.toNat_ofNat_of_lt' (by omega)
  have hfield : n >>> 52 < 2047 := by
    rw [Nat.shiftRight_eq_div_pow]
    omega
  have hmod : n >>> 52 % 1 <<< 11 ≤ n >>> 52 := Nat.mod_le _ _
  simp only [isFinite, exponentField, ofBits, hbits, bne_iff_ne]
  exact Nat.ne_of_lt (Nat.lt_of_le_of_lt hmod hfield)

/-- The sign of a number is no part of its exponent. -/
@[simp] theorem exponentField_neg (x : Binary64) : x.neg.exponentField = x.exponentField := by
  have hsign : (0x8000000000000000 : UInt64).toNat >>> 52 % 2 ^ 11 = 0 := by decide
  have hwidth : 1 <<< 11 = 2 ^ 11 := rfl
  simp only [exponentField, neg, UInt64.toNat_xor, hwidth]
  rw [Nat.shiftRight_xor_distrib, Nat.xor_mod_two_pow, hsign, Nat.xor_zero]

@[simp] theorem isFinite_neg (x : Binary64) : x.neg.isFinite = x.isFinite := by
  rw [isFinite, isFinite, exponentField_neg]

/-! ## Integers -/

theorem roundDiv_le (num den : Nat) : roundDiv num den ≤ num / den + 1 := by
  unfold roundDiv
  simp only
  split
  · omega
  · split <;> omega

theorem powUp_of_nonpos {e : Int} (h : e ≤ 0) : powUp e = 1 := by
  rw [powUp, Int.toNat_eq_zero.mpr h]
  rfl

theorem powUp_natCast (k : Nat) : powUp k = 2 ^ k := Nat.one_shiftLeft k

theorem ratioLog2_one {n : Nat} (h : n ≠ 0) : ratioLog2 n 1 = n.log2 := by
  have hlow : 2 ^ n.log2 ≤ n := Nat.log2_self_le h
  have hguess : ((n.log2 : Int) - (Nat.log2 1 : Int)) = n.log2 := by
    have hone : Nat.log2 1 = 0 := by decide
    omega
  simp only [ratioLog2, hguess, powUp_natCast, powUp_of_nonpos (Int.neg_nonpos_of_nonneg
    (Int.natCast_nonneg n.log2))]
  rw [if_neg (by omega)]

/-- The significand of an integer has at most fifty-three bits, or is the next power of two. -/
theorem significand_le (n : Nat) :
    roundDiv (n * powUp (-((n.log2 : Int) - 52))) (1 * powUp ((n.log2 : Int) - 52)) ≤ 2 ^ 53 := by
  have hhigh : n < 2 ^ (n.log2 + 1) := Nat.lt_log2_self
  refine Nat.le_trans (roundDiv_le _ _) (Nat.succ_le_of_lt ?_)
  rw [Nat.one_mul]
  by_cases hlarge : 52 ≤ n.log2
  · obtain ⟨k, hk⟩ := Nat.exists_eq_add_of_le hlarge
    have hexponent : (n.log2 : Int) - 52 = k := by omega
    have hsplit : 2 ^ (n.log2 + 1) = 2 ^ 53 * 2 ^ k := by
      rw [hk, ← Nat.pow_add]
      congr 1
      omega
    rw [hexponent, powUp_natCast, powUp_of_nonpos (by omega), Nat.mul_one,
      Nat.div_lt_iff_lt_mul (Nat.two_pow_pos k), ← hsplit]
    exact hhigh
  · obtain ⟨k, hk⟩ := Nat.exists_eq_add_of_lt (Nat.lt_of_not_le hlarge)
    have hexponent : -((n.log2 : Int) - 52) = (k + 1 : Nat) := by omega
    have hsplit : 2 ^ 53 = 2 ^ (n.log2 + 1) * 2 ^ (k + 1) := by
      rw [← Nat.pow_add]
      congr 1
      omega
    rw [hexponent, powUp_natCast, powUp_of_nonpos (by omega), Nat.div_one, hsplit]
    exact Nat.mul_lt_mul_of_pos_right hhigh (Nat.two_pow_pos _)

theorem isFinite_ofNat {n : Nat} (h : n < 2 ^ 64) : (ofNat n).isFinite = true := by
  by_cases hzero : n = 0
  · rw [hzero]
    decide
  · have hlog : n.log2 < 64 := (Nat.log2_lt hzero).mpr h
    have hmax : max ((n.log2 : Int) - 52) (-1074) = (n.log2 : Int) - 52 := by omega
    have hsignificand := significand_le n
    simp only [ofNat, ofRatio, if_neg hzero, ratioLog2_one hzero, hmax]
    generalize roundDiv (n * powUp (-((n.log2 : Int) - 52))) (1 * powUp ((n.log2 : Int) - 52)) = m
      at hsignificand ⊢
    have hbits : ((n.log2 : Int) - 52 + 1074).toNat <<< 52 + m < 2047 <<< 52 := by
      rw [Nat.shiftLeft_eq, Nat.shiftLeft_eq]
      omega
    rw [if_pos hbits]
    exact isFinite_ofBits hbits

theorem isFinite_ofInt {i : Int} (h : i.natAbs < 2 ^ 64) : (ofInt i).isFinite = true := by
  unfold ofInt
  split
  · exact isFinite_ofNat h
  · rw [isFinite_neg]
    exact isFinite_ofNat h

end FeatureStore.Binary64
