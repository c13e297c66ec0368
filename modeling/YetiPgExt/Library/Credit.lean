import YetiPgExt.Library.Runs
import Mathlib.Algebra.Order.Field.Basic

/-!
# Credit metering

The abstract content of a token bucket. A meter accepts or rejects stamped events; what it may
still accept is described by one number, its potential, the credit minus the credit that time has
added since stamp zero. An accepted event takes at least one from the potential, a rejected one
adds nothing, and right after an acceptance at stamp `t` the potential lies between
`-(rate * t)` (no credit) and `cap - 1 - rate * t` (a full meter less the event).

`Metered.accepted_le`: in every run the events accepted inside a window of stamps `[lo, hi]` are
at most `cap + rate * (hi - lo)`. The stamps need not be ordered.
-/

set_option autoImplicit false

namespace YetiPgExt.Library

universe u

variable {K : Type u} [Field K] [LinearOrder K]

/-- An event with its stamp and the meter's answer. -/
structure Metered (K : Type u) where
  stamp : K
  accepted : Bool

namespace Metered

/-- One metered event. The potential is `none` until the first acceptance. -/
inductive Step (rate cap : K) : Option K → Metered K → Option K → Prop
  | first {e : Metered K} {p : K} : e.accepted = true →
      -(rate * e.stamp) ≤ p → p ≤ cap - 1 - rate * e.stamp → Step rate cap none e (some p)
  | accept {e : Metered K} {p q : K} : e.accepted = true → q ≤ p - 1 →
      -(rate * e.stamp) ≤ q → q ≤ cap - 1 - rate * e.stamp → Step rate cap (some p) e (some q)
  | reject {e : Metered K} {p q : K} : e.accepted = false → q ≤ p →
      Step rate cap (some p) e (some q)

/-- The event was accepted and its stamp lies in `[lo, hi]`. -/
def inWindow (lo hi : K) (e : Metered K) : Bool :=
  e.accepted && decide (lo ≤ e.stamp) && decide (e.stamp ≤ hi)

variable [IsStrictOrderedRing K] {rate cap lo hi : K}

/-- From a potential `p`, at most `p + rate * hi` events stamped up to `hi` are accepted, if any
is. -/
theorem count_le_potential (hrate : 0 ≤ rate) {es : List (Metered K)} {p : K} {q : Option K}
    (h : Runs (Step rate cap) (some p) es q) (hpos : 0 < es.countP (inWindow lo hi)) :
    (es.countP (inWindow lo hi) : K) ≤ p + rate * hi := by
  generalize hs : some p = s at h
  induction h generalizing p with
  | nil => simp at hpos
  | @cons s t u e es hstep hrun ih =>
    subst hs
    by_cases hw : inWindow lo hi e = true
    · cases hstep with
      | reject hacc => simp [inWindow, hacc] at hw
      | @accept _ _ q hacc hq hlow _ =>
        have hstamp : e.stamp ≤ hi := by
          simp only [inWindow, Bool.and_eq_true, decide_eq_true_eq] at hw
          exact hw.2
        have hhi : rate * e.stamp ≤ rate * hi := mul_le_mul_of_nonneg_left hstamp hrate
        rw [List.countP_cons_of_pos hw, Nat.cast_succ]
        rcases Nat.eq_zero_or_pos (es.countP (inWindow lo hi)) with hzero | hrest
        · rw [hzero, Nat.cast_zero]
          linarith
        · have hle := ih hrest rfl
          linarith
    · rw [List.countP_cons_of_neg hw] at hpos ⊢
      cases hstep with
      | reject _ hq => linarith [ih hpos rfl]
      | accept _ hq _ _ => linarith [ih hpos rfl]

/-- The bound of a credit meter: in any window, `cap` events and `rate` per unit of time. -/
theorem accepted_le (hrate : 0 ≤ rate) (hcap : 0 ≤ cap) (hlohi : lo ≤ hi)
    {es : List (Metered K)} {p q : Option K} (h : Runs (Step rate cap) p es q) :
    (es.countP (inWindow lo hi) : K) ≤ cap + rate * (hi - lo) := by
  have hwidth : 0 ≤ rate * (hi - lo) := mul_nonneg hrate (sub_nonneg.mpr hlohi)
  induction h with
  | nil =>
    rw [List.countP_nil, Nat.cast_zero]
    linarith
  | @cons s t u e es hstep hrun ih =>
    by_cases hw : inWindow lo hi e = true
    · -- the first acceptance in the window: what follows is bounded by the potential it leaves
      have hstamp : lo ≤ e.stamp ∧ e.stamp ≤ hi ∧ e.accepted = true := by
        simp only [inWindow, Bool.and_eq_true, decide_eq_true_eq] at hw
        exact ⟨hw.1.2, hw.2, hw.1.1⟩
      have hlo : rate * lo ≤ rate * e.stamp := mul_le_mul_of_nonneg_left hstamp.1 hrate
      have hsplit : rate * (hi - lo) = rate * hi - rate * lo := mul_sub rate hi lo
      obtain ⟨p, rfl, hlow, hup⟩ : ∃ p, t = some p ∧ -(rate * e.stamp) ≤ p ∧
          p ≤ cap - 1 - rate * e.stamp := by
        cases hstep with
        | first _ hlow hup => exact ⟨_, rfl, hlow, hup⟩
        | accept _ _ hlow hup => exact ⟨_, rfl, hlow, hup⟩
        | reject hacc => simp [hacc] at hstamp
      rw [List.countP_cons_of_pos hw, Nat.cast_succ]
      rcases Nat.eq_zero_or_pos (es.countP (inWindow lo hi)) with hzero | hrest
      · rw [hzero, Nat.cast_zero]
        linarith
      · have hle := count_le_potential hrate hrun hrest
        linarith
    · rw [List.countP_cons_of_neg hw]
      exact ih

end Metered

end YetiPgExt.Library
