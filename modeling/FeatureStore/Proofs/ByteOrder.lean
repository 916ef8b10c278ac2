-- SUMMARY: The order of texts is that of their UTF-8 bytes.
import FeatureStore.Keyed
import Mathlib.Order.Monotone.Basic

/-!
# Text and bytes

Texts are compared character by character, and characters by their numbers. The UTF-8 bytes of
texts compare the same way. A character is written as the digits of its number to the base of
sixty-four, the highest first, and its first byte is marked with how many bytes follow: the more
there are, the higher is the mark. So where two texts part their bytes part as well, and on the
same side.
-/

namespace FeatureStore

def utf8Bytes (s : String) : List UInt8 := s.toUTF8.data.toList

namespace Utf8

/-! ## Byte strings that part -/

/-- The byte strings have a common beginning, after which the first has the lower byte. -/
def PartsBelow (xs ys : List UInt8) : Prop :=
  ∃ common x xs' y ys', xs = common ++ x :: xs' ∧ ys = common ++ y :: ys' ∧ x < y

variable {xs ys : List UInt8} {n m : Nat}

theorem partsBelow_of_lt (h : n < m) (hm : m < UInt8.size) (common xs ys : List UInt8) :
    PartsBelow (common ++ UInt8.ofNat n :: xs) (common ++ UInt8.ofNat m :: ys) :=
  ⟨common, _, xs, _, ys, rfl, rfl, (UInt8.ofNat_lt_iff_lt (Nat.lt_trans h hm) hm).mpr h⟩

/-- What follows makes no difference. -/
theorem PartsBelow.append (h : PartsBelow xs ys) (after after' : List UInt8) :
    PartsBelow (xs ++ after) (ys ++ after') := by
  obtain ⟨common, x, xs', y, ys', rfl, rfl, hlt⟩ := h
  exact ⟨common, x, xs' ++ after, y, ys' ++ after', by simp, by simp, hlt⟩

theorem PartsBelow.lt (h : PartsBelow xs ys) : xs < ys := by
  obtain ⟨common, x, xs', y, ys', rfl, rfl, hlt⟩ := h
  exact List.append_left_lt (List.cons_lt_cons_iff.mpr (.inl hlt))

/-! ## Characters -/

/-- What is left of a number when its last digits to the base of sixty-four are dropped. -/
def high (n : Nat) : Nat → Nat
  | 0 => n
  | k + 1 => high (n / 64) k

/-- A number with its highest digits in a marked byte and its last digits in a byte each. -/
def unit (mark n : Nat) : Nat → List UInt8
  | 0 => [UInt8.ofNat (n + mark)]
  | k + 1 => unit mark (n / 64) k ++ [UInt8.ofNat (n % 64 + 0x80)]

theorem exists_unit_eq_cons (mark n k : Nat) :
    ∃ rest, unit mark n k = UInt8.ofNat (high n k + mark) :: rest := by
  induction k generalizing n with
  | zero => exact ⟨[], rfl⟩
  | succ k ih =>
    obtain ⟨rest, hrest⟩ := ih (n / 64)
    exact ⟨rest ++ [UInt8.ofNat (n % 64 + 0x80)], by rw [unit, hrest, high, List.cons_append]⟩

/-- Of two numbers in as many bytes the lower one has the lower bytes. -/
theorem partsBelow_unit (h : n < m) {mark k : Nat} (hm : high m k + mark < UInt8.size) :
    PartsBelow (unit mark n k) (unit mark m k) := by
  induction k generalizing n m with
  | zero => exact partsBelow_of_lt (Nat.add_lt_add_right h mark) hm [] [] []
  | succ k ih =>
    rcases Nat.lt_or_eq_of_le (Nat.div_le_div_right (c := 64) (Nat.le_of_lt h)) with hlt | heq
    · exact (ih hlt hm).append _ _
    · -- The digits before the last are the same.
      have hlast : n % 64 + 0x80 < m % 64 + 0x80 := by omega
      have hbyte : m % 64 + 0x80 < UInt8.size := by simp only [UInt8.size]; omega
      rw [unit, unit, heq]
      exact partsBelow_of_lt hlast hbyte (unit mark (m / 64) k) [] []

/-- How many bytes follow the first one of a character. -/
def trail (n : Nat) : Nat :=
  if n ≤ 0x7f then 0 else if n ≤ 0x7ff then 1 else if n ≤ 0xffff then 2 else 3

/-- What marks a first byte that a number of bytes follow. -/
def mark : Nat → Nat
  | 0 => 0
  | 1 => 0xc0
  | 2 => 0xe0
  | 3 => 0xf0
  | _ => 0xf8

theorem trail_cases (n : Nat) :
    (n ≤ 0x7f ∧ trail n = 0) ∨ (0x7f < n ∧ n ≤ 0x7ff ∧ trail n = 1) ∨
      (0x7ff < n ∧ n ≤ 0xffff ∧ trail n = 2) ∨ (0xffff < n ∧ trail n = 3) := by
  unfold trail
  split
  · omega
  split
  · omega
  split <;> omega

theorem trail_mono (h : n ≤ m) : trail n ≤ trail m := by
  rcases trail_cases n with hn | hn | hn | hn <;> rcases trail_cases m with hm | hm | hm | hm <;>
    omega

theorem mark_mono : Monotone mark :=
  monotone_nat_of_le_succ fun k =>
    match k with
    | 0 | 1 | 2 | 3 => by decide
    | _ + 4 => Nat.le_refl _

/-- A first byte lies below the next mark. -/
theorem first_lt_mark (hn : n < 0x110000) :
    high n (trail n) + mark (trail n) < mark (trail n + 1) := by
  rcases trail_cases n with ⟨h, htrail⟩ | ⟨-, h, htrail⟩ | ⟨-, h, htrail⟩ | ⟨-, htrail⟩ <;>
    simp only [htrail, high, mark] <;> omega

/-- The bytes of the character that has a number. -/
def encoding (n : Nat) : List UInt8 := unit (mark (trail n)) n (trail n)

theorem utf8EncodeChar_eq (c : Char) : String.utf8EncodeChar c = encoding c.toNat := by
  have hvalid : c.val.toNat < 0x110000 := by
    rcases c.valid with h | h <;> omega
  change String.utf8EncodeChar c = encoding c.val.toNat
  rw [String.utf8EncodeChar, encoding]
  generalize c.val.toNat = n at hvalid
  -- The masks of the first bytes take nothing away from numbers in their ranges.
  rcases trail_cases n with ⟨h, htrail⟩ | ⟨hlow, h, htrail⟩ | ⟨hlow, h, htrail⟩ | ⟨hlow, htrail⟩
  · simp [htrail, unit, mark, h]
  · have hone : ¬ n ≤ 0x7f := by omega
    have hmask : n / 64 % 0x20 = n / 64 := Nat.mod_eq_of_lt (by omega)
    simp [htrail, unit, mark, h, hone, hmask]
  · have hone : ¬ n ≤ 0x7f := by omega
    have htwo : ¬ n ≤ 0x7ff := by omega
    have hmask : n / 4096 % 0x10 = n / 4096 := Nat.mod_eq_of_lt (by omega)
    simp [htrail, unit, mark, h, hone, htwo, hmask, Nat.div_div_eq_div_mul]
  · have hone : ¬ n ≤ 0x7f := by omega
    have htwo : ¬ n ≤ 0x7ff := by omega
    have hthree : ¬ n ≤ 0xffff := by omega
    have hmask : n / 262144 % 0x08 = n / 262144 := Nat.mod_eq_of_lt (by omega)
    simp [htrail, unit, mark, hone, htwo, hthree, hmask, Nat.div_div_eq_div_mul]

/-- A lower character has the lower bytes. -/
theorem partsBelow_encoding (h : n < m) (hm : m < 0x110000) :
    PartsBelow (encoding n) (encoding m) := by
  have hfirst : high m (trail m) + mark (trail m) < UInt8.size := by
    have hnext := first_lt_mark hm
    have htop : mark (trail m + 1) ≤ mark 4 := mark_mono (by
      rcases trail_cases m with hk | hk | hk | hk <;> omega)
    exact Nat.lt_trans (Nat.lt_of_lt_of_le hnext htop) (by decide)
  rcases Nat.lt_or_eq_of_le (trail_mono (Nat.le_of_lt h)) with hlt | heq
  · have hbelow : high n (trail n) + mark (trail n) < high m (trail m) + mark (trail m) := by
      have hnext := first_lt_mark (Nat.lt_trans h hm)
      have hmark : mark (trail n + 1) ≤ mark (trail m) := mark_mono hlt
      omega
    obtain ⟨rest, hrest⟩ := exists_unit_eq_cons (mark (trail n)) n (trail n)
    obtain ⟨rest', hrest'⟩ := exists_unit_eq_cons (mark (trail m)) m (trail m)
    rw [encoding, encoding, hrest, hrest']
    exact partsBelow_of_lt hbelow hfirst [] rest rest'
  · rw [encoding, encoding, heq]
    exact partsBelow_unit h hfirst

theorem partsBelow_utf8EncodeChar {c d : Char} (h : c < d) :
    PartsBelow (String.utf8EncodeChar c) (String.utf8EncodeChar d) := by
  rw [utf8EncodeChar_eq, utf8EncodeChar_eq]
  refine partsBelow_encoding h ?_
  rcases d.valid with h | h <;> simp only [Char.toNat] <;> omega

/-! ## Texts -/

theorem flatMap_lt {cs ds : List Char} (h : cs < ds) :
    cs.flatMap String.utf8EncodeChar < ds.flatMap String.utf8EncodeChar := by
  induction cs generalizing ds with
  | nil =>
    cases ds with
    | nil => exact absurd h (List.lt_irrefl _)
    | cons d ds =>
      obtain ⟨rest, hrest⟩ := exists_unit_eq_cons (mark (trail d.toNat)) d.toNat (trail d.toNat)
      rw [List.flatMap_cons, utf8EncodeChar_eq, encoding, hrest]
      exact List.nil_lt_cons _ _
  | cons c cs ih =>
    cases ds with
    | nil => exact absurd h (List.not_lt_nil _)
    | cons d ds =>
      rw [List.flatMap_cons, List.flatMap_cons]
      rcases List.cons_lt_cons_iff.mp h with hlt | ⟨rfl, hrest⟩
      · exact ((partsBelow_utf8EncodeChar hlt).append _ _).lt
      · exact List.append_left_lt (ih hrest)

end Utf8

theorem utf8Bytes_eq (s : String) : utf8Bytes s = s.toList.flatMap String.utf8EncodeChar := by
  rw [utf8Bytes, String.toUTF8_eq_toByteArray, ← String.utf8Encode_toList, List.utf8Encode,
    List.toList_data_toByteArray]

/-- Texts compare as their UTF-8 bytes do. -/
theorem utf8Bytes_lt {s t : String} : utf8Bytes s < utf8Bytes t ↔ s < t := by
  have hforward : ∀ {a b : String}, a < b → utf8Bytes a < utf8Bytes b := by
    intro a b h
    rw [utf8Bytes_eq, utf8Bytes_eq]
    exact Utf8.flatMap_lt h
  refine ⟨fun h => ?_, hforward⟩
  by_contra hnot
  by_cases heq : t = s
  · subst heq
    exact List.lt_irrefl _ h
  · exact List.lt_asymm h (hforward (Keyed.lt_of_not_lt_of_ne hnot heq))

theorem utf8Bytes_le {s t : String} : utf8Bytes s ≤ utf8Bytes t ↔ s ≤ t :=
  not_congr utf8Bytes_lt

end FeatureStore
