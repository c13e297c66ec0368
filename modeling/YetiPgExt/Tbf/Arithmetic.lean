import YetiPgExt.Library.Rounding
import Mathlib.Algebra.Order.Floor.Ring
import Mathlib.Data.Rat.Floor

/-!
# The arithmetic of the limiter

`tbf_rate_check` adds a number of tokens that is a `double` to a counter that is a `Size`. The
counter is converted to a `double`, the product and the sum are rounded, and the sum is converted
back (`Arithmetic.sum`). How results are rounded, what `INSTR_TIME_GET_DOUBLE` makes of a time and
the conversions that C leaves open are a parameter (`Arithmetic`). Its two instances are the
x86-64 compiled code (`x86`) and exact rationals (`SizeConversion.exact`).
-/

set_option autoImplicit false

namespace YetiPgExt.Tbf

open YetiPgExt.Library

/-! ## The conversion to `Size` -/

/-- The conversion of a real value to the unsigned 64-bit `Size`. C fixes it where the truncation
toward zero is a `Size`; elsewhere a nonnegative value is only known not to grow. -/
structure SizeConversion where
  toSize : ℚ → Nat
  toSize_eq : ∀ q, -1 < q → q < 2 ^ 64 → toSize q = ⌊q⌋₊
  toSize_le : ∀ q, 0 ≤ q → (toSize q : ℚ) ≤ q

/-- Truncation toward zero. -/
def truncate (q : ℚ) : ℤ := if 0 ≤ q then ⌊q⌋ else ⌈q⌉

/-- The instruction `cvttsd2si`: the truncation as a signed 64-bit integer, and the least one where
it does not fit. -/
def cvttsd2si (q : ℚ) : ℤ :=
  if -2 ^ 63 ≤ truncate q ∧ truncate q < 2 ^ 63 then truncate q else -2 ^ 63

/-- What the x86-64 compiled code computes: values from `2 ^ 63` on are lowered by that much first
and get the highest bit afterwards. -/
def x86ToSize (q : ℚ) : Nat :=
  ((if q < 2 ^ 63 then cvttsd2si q else cvttsd2si (q - 2 ^ 63) + 2 ^ 63) % 2 ^ 64).toNat

theorem truncate_of_nonneg {q : ℚ} (h : 0 ≤ q) : truncate q = ⌊q⌋ := if_pos h

theorem truncate_of_neg {q : ℚ} (hlow : -1 < q) (hhigh : q < 0) : truncate q = 0 := by
  rw [truncate, if_neg (not_le.mpr hhigh), Int.ceil_eq_iff]
  push_cast
  exact ⟨by linarith, hhigh.le⟩

theorem x86ToSize_of_lt {q : ℚ} (hlow : -1 < q) (hhigh : q < 2 ^ 64) : x86ToSize q = ⌊q⌋₊ := by
  rcases lt_or_ge q 0 with hneg | hnonneg
  · rw [x86ToSize, if_pos (hneg.trans (by norm_num)), cvttsd2si, truncate_of_neg hlow hneg,
      Nat.floor_of_nonpos hneg.le]
    rfl
  · have hfloor : 0 ≤ ⌊q⌋ := Int.floor_nonneg.mpr hnonneg
    have hlt : ⌊q⌋ < 2 ^ 64 := Int.floor_lt.mpr (by exact_mod_cast hhigh)
    have hsize : (⌊q⌋ % 2 ^ 64).toNat = ⌊q⌋₊ := by
      rw [Int.emod_eq_of_lt hfloor hlt, Int.floor_toNat]
    rw [x86ToSize, ← hsize]
    congr 2
    by_cases hsmall : q < 2 ^ 63
    · have hfits : ⌊q⌋ < 2 ^ 63 := Int.floor_lt.mpr (by exact_mod_cast hsmall)
      rw [if_pos hsmall, cvttsd2si, truncate_of_nonneg hnonneg, if_pos ⟨by omega, hfits⟩]
    · have hshift : ⌊q - 2 ^ 63⌋ = ⌊q⌋ - 2 ^ 63 := by
        have hsub := Int.floor_sub_natCast q (2 ^ 63)
        push_cast at hsub
        exact hsub
      have hge : 2 ^ 63 ≤ ⌊q⌋ := Int.le_floor.mpr (by exact_mod_cast not_lt.mp hsmall)
      rw [if_neg hsmall, cvttsd2si, truncate_of_nonneg (by linarith), hshift,
        if_pos ⟨by omega, by omega⟩]
      ring

theorem x86ToSize_le {q : ℚ} (hq : 0 ≤ q) : (x86ToSize q : ℚ) ≤ q := by
  rcases lt_or_ge q (2 ^ 64) with hlt | hge
  · rw [x86ToSize_of_lt (by linarith) hlt]
    exact Nat.floor_le hq
  · -- a larger value is converted to zero
    have hnot : ¬truncate (q - 2 ^ 63) < 2 ^ 63 := by
      rw [truncate_of_nonneg (by linarith), Int.floor_lt, not_lt]
      push_cast
      linarith
    have hzero : x86ToSize q = 0 := by
      rw [x86ToSize, if_neg (by linarith), cvttsd2si, if_neg (fun h => hnot h.2)]
      rfl
    rw [hzero, Nat.cast_zero]
    exact hq

/-- The conversion of the x86-64 compiled code. -/
def x86Size : SizeConversion where
  toSize := x86ToSize
  toSize_eq _ := x86ToSize_of_lt
  toSize_le _ := x86ToSize_le

/-! ## Floating point -/

/-- The arithmetic of the compiled code: how a result is rounded to a `double`, and what
`INSTR_TIME_GET_DOUBLE` makes of a difference of times. -/
structure Arithmetic extends SizeConversion where
  double : ℚ → ℚ
  double_mono : Monotone double
  double_zero : double 0 = 0
  double_one : double 1 = 1
  seconds : ℚ → ℚ
  seconds_mono : Monotone seconds
  seconds_zero : seconds 0 = 0

/-- Rates and times as exact rationals. -/
def SizeConversion.exact (C : SizeConversion) : Arithmetic where
  toSizeConversion := C
  double q := q
  double_mono := monotone_id
  double_zero := rfl
  double_one := rfl
  seconds q := q
  seconds_mono := monotone_id
  seconds_zero := rfl

/-- Rounding to a `double`. A rate is a `float4` and a time a number of nanoseconds, so that what
is computed from them is zero or has an exponent that a `double` has. -/
def binary64 : ℚ → ℚ := roundBits 52

/-- `INSTR_TIME_GET_DOUBLE` of PostgreSQL 16 and later: the nanoseconds as a `double`, divided by
their number in a second. -/
def instrTimeGetDouble (elapsed : ℚ) : ℚ := binary64 (binary64 (elapsed * 10 ^ 9) / 10 ^ 9)

theorem binary64_mono : Monotone binary64 := roundBits_mono

theorem binary64_zero : binary64 0 = 0 := roundBits_zero

/-- The x86-64 compiled code. -/
def x86 : Arithmetic where
  toSizeConversion := x86Size
  double := binary64
  double_mono := binary64_mono
  double_zero := binary64_zero
  double_one := by exact_mod_cast roundBits_intCast (K := ℚ) (p := 52) (n := 1) (by norm_num)
  seconds := instrTimeGetDouble
  seconds_mono a b h := by
    refine binary64_mono (div_le_div_of_nonneg_right (binary64_mono ?_) (by norm_num))
    exact mul_le_mul_of_nonneg_right h (by norm_num)
  seconds_zero := by rw [instrTimeGetDouble, zero_mul, binary64_zero, zero_div, binary64_zero]

namespace Arithmetic

variable (A : Arithmetic)

/-- The value that is converted to the new number of tokens:
`tokens + rate*INSTR_TIME_GET_DOUBLE(diff)`. -/
def sum (tokens : Nat) (rate elapsed : ℚ) : ℚ :=
  A.double (A.double tokens + A.double (rate * A.seconds elapsed))

variable {A} {tokens tokens' : Nat} {rate elapsed elapsed' : ℚ}

theorem sum_mono_tokens (h : tokens ≤ tokens') :
    A.sum tokens rate elapsed ≤ A.sum tokens' rate elapsed :=
  A.double_mono (add_le_add_left (A.double_mono (Nat.cast_le.mpr h)) _)

theorem sum_mono_elapsed (hrate : 0 ≤ rate) (h : elapsed ≤ elapsed') :
    A.sum tokens rate elapsed ≤ A.sum tokens rate elapsed' :=
  A.double_mono (add_le_add_right
    (A.double_mono (mul_le_mul_of_nonneg_left (A.seconds_mono h) hrate)) _)

theorem sum_anti_elapsed (hrate : rate ≤ 0) (h : elapsed ≤ elapsed') :
    A.sum tokens rate elapsed' ≤ A.sum tokens rate elapsed :=
  A.double_mono (add_le_add_right
    (A.double_mono (mul_le_mul_of_nonpos_left (A.seconds_mono h) hrate)) _)

/-- No time, no tokens. -/
theorem sum_zero_elapsed : A.sum tokens rate 0 = A.double (A.double tokens) := by
  rw [sum, A.seconds_zero, mul_zero, A.double_zero, add_zero]

end Arithmetic

end YetiPgExt.Tbf
