import Mathlib.Data.Int.Log
import Mathlib.Tactic

/-!
# Rounding to a number of significant bits

Numbers with `p` bits behind the leading one, as a floating-point format has them, for exponents
without bounds: `roundBits` rounds to the nearest, and to the even one of two. It is monotone
(`roundBits_mono`) and leaves the numbers of the format alone (`roundBits_of_bits`).
-/

set_option autoImplicit false

namespace YetiPgExt.Library

variable {K : Type*} [Field K] [LinearOrder K] [IsStrictOrderedRing K] [FloorRing K]

/-! ## To an integer -/

/-- The nearest integer, the even one of two. -/
def roundEven (q : K) : ℤ :=
  if Int.fract q < 1 / 2 then ⌊q⌋
  else if 1 / 2 < Int.fract q then ⌊q⌋ + 1
  else if ⌊q⌋ % 2 = 0 then ⌊q⌋
  else ⌊q⌋ + 1

theorem roundEven_near (q : K) : q - 1 / 2 ≤ roundEven q ∧ (roundEven q : K) ≤ q + 1 / 2 := by
  have hsplit : (⌊q⌋ : K) = q - Int.fract q := eq_sub_of_add_eq (Int.floor_add_fract q)
  have hnonneg := Int.fract_nonneg q
  have hlt := Int.fract_lt_one q
  unfold roundEven
  split_ifs with hless hmore heven
  · exact ⟨by linarith, by linarith⟩
  · push_cast
    exact ⟨by linarith, by linarith⟩
  · exact ⟨by linarith, by linarith⟩
  · push_cast
    exact ⟨by linarith, by linarith⟩

theorem roundEven_intCast (n : ℤ) : roundEven (n : K) = n := by
  rw [roundEven, Int.fract_intCast, if_pos (by norm_num), Int.floor_intCast]

theorem roundEven_mono : Monotone (roundEven : K → ℤ) := by
  intro q q' hle
  by_contra hlt
  have hstep : (roundEven q' : K) + 1 ≤ roundEven q := by exact_mod_cast not_le.mp hlt
  have hlow := (roundEven_near q).2
  have hhigh := (roundEven_near q').1
  -- both are half way between the two integers, so they are one
  have heq : q = q' := le_antisymm hle (by linarith)
  rw [heq] at hlt
  exact hlt le_rfl

/-! ## To a grid -/

/-- The nearest multiple of `2 ^ e`. -/
def roundGrid (e : ℤ) (q : K) : K := roundEven (q / 2 ^ e) * 2 ^ e

theorem roundGrid_mono (e : ℤ) : Monotone (roundGrid e : K → K) := by
  intro q q' hle
  have hpos : (0 : K) < 2 ^ e := zpow_pos two_pos e
  have hdiv : q / 2 ^ e ≤ q' / 2 ^ e := div_le_div_of_nonneg_right hle hpos.le
  exact mul_le_mul_of_nonneg_right (by exact_mod_cast roundEven_mono hdiv) hpos.le

theorem roundGrid_of_multiple {e e' : ℤ} (h : e ≤ e') (n : ℤ) :
    roundGrid e (n * 2 ^ e' : K) = n * 2 ^ e' := by
  obtain ⟨d, rfl⟩ := Int.le.dest h
  have hne : (2 : K) ^ e ≠ 0 := zpow_ne_zero e two_ne_zero
  have hint : (n * 2 ^ (e + d) : K) / 2 ^ e = ((n * 2 ^ d : ℤ) : K) := by
    rw [zpow_add₀ two_ne_zero, zpow_natCast, div_eq_iff hne]
    push_cast
    ring
  rw [roundGrid, hint, roundEven_intCast, ← hint, div_mul_cancel₀ _ hne]

theorem roundGrid_zpow {e e' : ℤ} (h : e ≤ e') : roundGrid e (2 ^ e' : K) = 2 ^ e' := by
  simpa using roundGrid_of_multiple (K := K) h 1

theorem roundGrid_neg_zpow {e e' : ℤ} (h : e ≤ e') :
    roundGrid e (-(2 ^ e') : K) = -(2 ^ e') := by
  simpa using roundGrid_of_multiple (K := K) h (-1)

/-! ## To significant bits -/

/-- The nearest number with `p` bits behind the leading one. -/
def roundBits (p : ℕ) (q : K) : K := roundGrid (Int.log 2 |q| - p) q

variable {p : ℕ}

theorem roundBits_zero : roundBits p (0 : K) = 0 := by
  rw [roundBits, roundGrid, zero_div, ← Int.cast_zero, roundEven_intCast, Int.cast_zero, zero_mul]

/-- A number lies between two powers of two, and so does what it is rounded to. -/
theorem roundBits_of_pos {q : K} (hq : 0 < q) :
    2 ^ Int.log 2 q ≤ roundBits p q ∧ roundBits p q ≤ 2 ^ (Int.log 2 q + 1) := by
  have hlow : (2 : K) ^ Int.log 2 q ≤ q := by exact_mod_cast Int.zpow_log_le_self one_lt_two hq
  have hhigh : q < 2 ^ (Int.log 2 q + 1) := by
    exact_mod_cast Int.lt_zpow_succ_log_self one_lt_two q
  rw [roundBits, abs_of_pos hq]
  constructor
  · exact (roundGrid_zpow (by omega)).ge.trans (roundGrid_mono _ hlow)
  · exact (roundGrid_mono _ hhigh.le).trans (roundGrid_zpow (by omega)).le

theorem roundBits_of_neg {q : K} (hq : q < 0) :
    -(2 ^ (Int.log 2 (-q) + 1)) ≤ roundBits p q ∧ roundBits p q ≤ -(2 ^ Int.log 2 (-q)) := by
  have hlow : (2 : K) ^ Int.log 2 (-q) ≤ -q := by
    exact_mod_cast Int.zpow_log_le_self one_lt_two (neg_pos.mpr hq)
  have hhigh : -q < 2 ^ (Int.log 2 (-q) + 1) := by
    exact_mod_cast Int.lt_zpow_succ_log_self one_lt_two (-q)
  rw [roundBits, abs_of_neg hq]
  constructor
  · exact (roundGrid_neg_zpow (by omega)).ge.trans (roundGrid_mono _ (by linarith))
  · exact (roundGrid_mono _ (by linarith)).trans (roundGrid_neg_zpow (by omega)).le

theorem roundBits_mono : Monotone (roundBits p : K → K) := by
  intro x y hle
  have hpow : ∀ {a b : ℤ}, a ≤ b → (2 : K) ^ a ≤ 2 ^ b := fun h => zpow_le_zpow_right₀ one_le_two h
  rcases lt_trichotomy x 0 with hx | rfl | hx
  · have hnonpos : roundBits p x ≤ 0 :=
      (roundBits_of_neg hx).2.trans (neg_nonpos.mpr (zpow_pos two_pos _).le)
    rcases lt_or_ge y 0 with hy | hy
    · have hlog : Int.log 2 (-y) ≤ Int.log 2 (-x) :=
        Int.log_mono_right (neg_pos.mpr hy) (neg_le_neg hle)
      rcases hlog.eq_or_lt with heq | hlt
      · rw [roundBits, roundBits, abs_of_neg hx, abs_of_neg hy, heq]
        exact roundGrid_mono _ hle
      · -- a power of two lies between them
        exact ((roundBits_of_neg hx).2.trans (neg_le_neg (hpow hlt))).trans (roundBits_of_neg hy).1
    · refine hnonpos.trans ?_
      rcases hy.eq_or_lt with rfl | hy
      · exact roundBits_zero.ge
      · exact (zpow_pos two_pos _).le.trans (roundBits_of_pos hy).1
  · rw [roundBits_zero]
    rcases hle.eq_or_lt with rfl | hy
    · exact roundBits_zero.ge
    · exact (zpow_pos two_pos _).le.trans (roundBits_of_pos hy).1
  · have hy : 0 < y := hx.trans_le hle
    have hlog : Int.log 2 x ≤ Int.log 2 y := Int.log_mono_right hx hle
    rcases hlog.eq_or_lt with heq | hlt
    · rw [roundBits, roundBits, abs_of_pos hx, abs_of_pos hy, heq]
      exact roundGrid_mono _ hle
    · exact ((roundBits_of_pos hx).2.trans (hpow hlt)).trans (roundBits_of_pos hy).1

/-- A number of the format is left alone. -/
theorem roundBits_of_bits {n e : ℤ} (hn : |n| < 2 ^ (p + 1)) :
    roundBits p (n * 2 ^ e : K) = n * 2 ^ e := by
  rcases eq_or_ne n 0 with rfl | hne
  · rw [Int.cast_zero, zero_mul, roundBits_zero]
  · have hpos : (0 : K) < 2 ^ e := zpow_pos two_pos e
    have habs : |(n * 2 ^ e : K)| = |n| * 2 ^ e := by
      rw [abs_mul, abs_of_pos hpos, Int.cast_abs]
    have hcast : ((|n| : ℤ) : K) < 2 ^ (p + 1) := by exact_mod_cast hn
    have hlarge : |(n * 2 ^ e : K)| < ((2 : ℕ) : K) ^ ((p : ℤ) + 1 + e) := by
      rw [habs, Nat.cast_ofNat, zpow_add₀ two_ne_zero]
      exact mul_lt_mul_of_pos_right (by exact_mod_cast hcast) hpos
    have hlog : Int.log 2 |(n * 2 ^ e : K)| < p + 1 + e :=
      (Int.lt_zpow_iff_log_lt one_lt_two
        (abs_pos.mpr (mul_ne_zero (Int.cast_ne_zero.mpr hne) hpos.ne'))).mp hlarge
    exact roundGrid_of_multiple (by omega) n

theorem roundBits_intCast {n : ℤ} (hn : |n| < 2 ^ (p + 1)) : roundBits p (n : K) = n := by
  simpa using roundBits_of_bits (K := K) (e := 0) hn

end YetiPgExt.Library
