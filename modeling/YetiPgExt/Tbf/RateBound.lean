import YetiPgExt.Library.Credit
import YetiPgExt.Tbf.RateCheck

/-!
# The rate bound of one bucket

The entry of a key is a credit meter: its potential at a reference rate `r` is
`tokens - r * updated_at`. A call on the key is one metered event as long as the tokens it takes
from are covered by those of the entry and what `r` adds to them (`Covered`). Then the run of the
limiter on that key simulates a run of the meter, and the window bound of the meter is the bound of
the limiter.

In exact arithmetic that holds if the value converted to `Size` does not fall to `-1` or below and
the call's own rate refills no more than `r` would (`WithinRate`). Calls in the order of their
timestamps always are within the rate, so in every such run at most
`max(1, floor(2r)) + r * (e - s)` calls stamped inside `[s, e]` return true
(`accepted_in_window_le`).
-/

set_option autoImplicit false

namespace YetiPgExt.Tbf

open YetiPgExt.Library

/-- The bucket size at the rate `r`. -/
def capacity (r : ℚ) : ℚ := ((max 1 ⌊2 * r⌋ : ℤ) : ℚ)

/-- The potential of an entry at the reference rate `r`. -/
def potential (r : ℚ) (entry : Option HashEntry) : Option ℚ :=
  entry.map fun e => e.tokens - r * e.updatedAt

/-- What the meter of the key `k` sees of a call: its stamp and its answer. -/
def observe (k : KeyImage) (x : Call × Reply) : Option (Metered ℚ) :=
  if x.1.key? = some k then
    match x.2 with
    | .returned ret => some ⟨x.1.now, ret⟩
    | .raised => none
  else none

/-- The call is on the key `k`, returned true and is stamped inside `[lo, hi]`. -/
def acceptedIn (k : KeyImage) (lo hi : ℚ) (x : Call × Reply) : Bool :=
  decide (x.1.key? = some k) && decide (x.2 = .returned true) &&
    decide (lo ≤ x.1.now) && decide (x.1.now ≤ hi)

/-- What the call takes its token from is covered by the tokens of the entry and what the reference
rate `r` adds to them. -/
def Covered (A : Arithmetic) (r : ℚ) (l : Locals) (entry : Option HashEntry) : Prop :=
  ∀ e, entry = some e → 0 < refill A l e →
    ((min (refill A l e) l.bucketMaxSize : ℕ) : ℚ) ≤ e.tokens + r * (l.now - e.updatedAt)

/-- A refill at the rate `ρ` that the reference rate `r` bounds: the value converted to `Size`
stays above `-1`, and no more is added than `r` would add. -/
def Bounded (r ρ now : ℚ) (entry : Option HashEntry) : Prop :=
  ∀ e, entry = some e → -1 < (e.tokens : ℚ) + ρ * (now - e.updatedAt) ∧
    ρ * (now - e.updatedAt) ≤ r * (now - e.updatedAt)

/-- The call keeps the key `k` within the rate `r` when made on the table `t`. -/
def WithinRate (r : ℚ) (k : KeyImage) (t : Table) (c : Call) : Prop :=
  c.key? = some k → ∃ ρ, c.rate = some ρ ∧ 0 < ρ ∧ ρ ≤ r ∧ Bounded r ρ c.now (t k)

/-- The call is not stamped before the entry it finds, if it is on the key `k`. -/
def InOrder (k : KeyImage) (t : Table) (c : Call) : Prop :=
  c.key? = some k → ∀ e, t k = some e → e.updatedAt ≤ c.now

section Meter

variable {A : Arithmetic} {C : SizeConversion} {r : ℚ} {k : KeyImage}

theorem one_le_capacity (r : ℚ) : 1 ≤ capacity r := by
  have h : (1 : ℤ) ≤ max 1 ⌊2 * r⌋ := le_max_left _ _
  unfold capacity
  exact_mod_cast h

theorem one_le_bucketMaxSize (A : Arithmetic) (ρ : ℚ) : 1 ≤ bucketMaxSize A ρ := by
  unfold bucketMaxSize
  split <;> omega

theorem bucketMaxSize_le_capacity {ρ : ℚ} (hpos : 0 < ρ) (hle : ρ ≤ r) :
    (bucketMaxSize A ρ : ℚ) ≤ capacity r := by
  unfold bucketMaxSize
  split
  · exact_mod_cast one_le_capacity r
  · have hsize : (A.toSize (ρ * 2) : ℚ) ≤ 2 * r :=
      le_trans (A.toSize_le _ (by linarith)) (by linarith)
    have hfloor : (A.toSize (ρ * 2) : ℤ) ≤ ⌊2 * r⌋ := Int.le_floor.mpr (by exact_mod_cast hsize)
    have hmax : (A.toSize (ρ * 2) : ℤ) ≤ max 1 ⌊2 * r⌋ := le_trans hfloor (le_max_right _ _)
    unfold capacity
    exact_mod_cast hmax

/-- A conversion above `-1` that finds something yields at most the value. -/
theorem toSize_le_of_pos {q : ℚ} (hq : -1 < q) (hpos : 0 < A.toSize q) : (A.toSize q : ℚ) ≤ q := by
  by_cases hnonneg : 0 ≤ q
  · exact A.toSize_le q hnonneg
  · -- between `-1` and zero the conversion is defined, and gives zero
    have hlt : q < 2 ^ 64 := by
      have hpow : (0 : ℚ) < 2 ^ 64 := by norm_num
      linarith
    rw [A.toSize_eq q hq hlt, Nat.floor_of_nonpos (by linarith)] at hpos
    exact absurd hpos (lt_irrefl 0)

/-- In exact arithmetic a refill that the reference rate bounds is covered. -/
theorem covered_of_bounded {l : Locals} {t : Table} (h : Bounded r l.rate l.now (t k)) :
    Covered C.exact r l (t k) := by
  intro e he hpos
  obtain ⟨hlow, hrate⟩ := h e he
  have hle : (refill C.exact l e : ℚ) ≤ e.tokens + l.rate * (l.now - e.updatedAt) :=
    toSize_le_of_pos (A := C.exact) hlow hpos
  have hmin : ((min (refill C.exact l e) l.bucketMaxSize : ℕ) : ℚ) ≤ refill C.exact l e := by
    exact_mod_cast min_le_left _ _
  linarith

/-- Under the lock, a covered call on the key is a metered event. -/
theorem metered_of_tbfLocked {t t' : Table} {l : Locals} {ret : Bool}
    (hkey : l.key = k) (hmax : l.bucketMaxSize = bucketMaxSize A l.rate) (hpos : 0 < l.rate)
    (hle : l.rate ≤ r) (hcov : Covered A r l (t k))
    (h : tbfLocked A t l = (t', .returned ret)) :
    Metered.Step r (capacity r) (potential r (t k)) ⟨l.now, ret⟩ (potential r (t' k)) := by
  have hcap : (l.bucketMaxSize : ℚ) ≤ capacity r := by
    rw [hmax]
    exact bucketMaxSize_le_capacity hpos hle
  have hone : 1 ≤ l.bucketMaxSize := by
    rw [hmax]
    exact one_le_bucketMaxSize A l.rate
  subst hkey
  rcases tbfLocked_cases h with ⟨-, -, hreply⟩ | ⟨hnone, hreply, rfl⟩ |
    ⟨e, he, hrefill, hreply, rfl⟩ | ⟨e, he, -, hreply, rfl⟩
  · cases hreply
  · -- the entry is new: the bucket is full and this call takes one token
    cases hreply
    have hcast : ((l.bucketMaxSize - 1 : ℕ) : ℚ) = l.bucketMaxSize - 1 := by
      rw [Nat.cast_sub hone, Nat.cast_one]
    have hnn : (0 : ℚ) ≤ ((l.bucketMaxSize - 1 : ℕ) : ℚ) := Nat.cast_nonneg _
    rw [hnone, Function.update_self]
    refine .first rfl ?_ ?_
    · simp only
      linarith
    · simp only
      linarith
  · -- a token is taken after the refill and the cap
    cases hreply
    have hge : 1 ≤ min (refill A l e) l.bucketMaxSize := le_min hrefill hone
    have hcast : ((min (refill A l e) l.bucketMaxSize - 1 : ℕ) : ℚ) =
        ((min (refill A l e) l.bucketMaxSize : ℕ) : ℚ) - 1 := by
      rw [Nat.cast_sub hge, Nat.cast_one]
    have hnn : (0 : ℚ) ≤ ((min (refill A l e) l.bucketMaxSize - 1 : ℕ) : ℚ) := Nat.cast_nonneg _
    have hmin : ((min (refill A l e) l.bucketMaxSize : ℕ) : ℚ) ≤ l.bucketMaxSize := by
      exact_mod_cast min_le_right _ _
    have hgain := hcov e he hrefill
    rw [he, Function.update_self]
    refine .accept rfl ?_ ?_ ?_
    · simp only
      linarith
    · simp only
      linarith
    · simp only
      linarith
  · -- no token: what was left of the fraction is dropped, the stamp stays
    cases hreply
    have hnn : (0 : ℚ) ≤ e.tokens := Nat.cast_nonneg _
    rw [he, Function.update_self]
    refine .reject rfl ?_
    simp only [Nat.cast_zero]
    linarith

/-- A call on another key, or one that raises, leaves the entry of the key alone. -/
theorem entry_of_silent {t t' : Table} {x : Call × Reply} (hstep : CheckStep A t x t')
    (hobs : observe k x = none) : t' k = t k := by
  rcases checkStep_cases hstep with ⟨ret, -, -, rfl⟩ | ⟨l, hinr, hlocked⟩
  · rfl
  · obtain ⟨hkey, -⟩ := tbfPrologue_inr hinr
    by_cases hk : l.key = k
    · rw [observe, if_pos (by rw [hkey, hk])] at hobs
      cases hreply : x.2 with
      | returned ret => simp [hreply] at hobs
      | raised =>
        rw [hreply] at hlocked
        rw [tbfLocked_raised hlocked]
    · exact tbfLocked_frame hlocked (Ne.symm hk)

/-- A call on the key that keeps it within the rate is a metered event. -/
theorem metered_of_checkStep {t t' : Table} {x : Call × Reply} {e : Metered ℚ}
    (hstep : CheckStep C.exact t x t') (hwithin : WithinRate r k t x.1)
    (hobs : observe k x = some e) :
    Metered.Step r (capacity r) (potential r (t k)) e (potential r (t' k)) := by
  have hkey : x.1.key? = some k := by
    by_contra hne
    simp [observe, hne] at hobs
  obtain ⟨ρ, hρ, hpos, hle, hbound⟩ := hwithin hkey
  obtain ⟨l, hinr, hlk, hlr⟩ := tbfPrologue_of_key (A := C.exact) hkey hρ (ne_of_gt hpos)
  obtain ⟨-, -, hnow, hmax⟩ := tbfPrologue_inr hinr
  rcases checkStep_cases hstep with ⟨ret, hinl, -, -⟩ | ⟨l', hinr', hlocked⟩
  · rw [hinr] at hinl
    cases hinl
  · rw [hinr] at hinr'
    cases hinr'
    cases hreply : x.2 with
    | raised => simp [observe, hkey, hreply] at hobs
    | returned ret =>
      simp only [observe, if_pos hkey, hreply, Option.some.injEq] at hobs
      subst hobs
      rw [hreply] at hlocked
      rw [← hnow]
      refine metered_of_tbfLocked hlk hmax (hlr ▸ hpos) (hlr ▸ hle) ?_ hlocked
      refine covered_of_bounded ?_
      rw [hlr, hnow]
      exact hbound

/-- A run of calls that keep the key within the rate simulates the meter of the key. -/
theorem metered_run {t t' : Table} {log : List (Call × Reply)}
    (h : Runs (fun t x t' => CheckStep C.exact t x t' ∧ WithinRate r k t x.1) t log t') :
    ∃ p, Runs (Metered.Step r (capacity r)) (potential r (t k)) (log.filterMap (observe k)) p := by
  have hsilent : ∀ s x s' p, p = potential r (s k) →
      (CheckStep C.exact s x s' ∧ WithinRate r k s x.1) → observe k x = none →
      p = potential r (s' k) := by
    rintro s x s' p rfl ⟨hstep, -⟩ hobs
    rw [entry_of_silent hstep hobs]
  have hvisible : ∀ s x s' p e, p = potential r (s k) →
      (CheckStep C.exact s x s' ∧ WithinRate r k s x.1) → observe k x = some e →
      ∃ q, Metered.Step r (capacity r) p e q ∧ q = potential r (s' k) := by
    rintro s x s' p e rfl ⟨hstep, hwithin⟩ hobs
    exact ⟨_, metered_of_checkStep hstep hwithin hobs, rfl⟩
  obtain ⟨p, hrun, -⟩ := h.simulation hsilent hvisible rfl
  exact ⟨p, hrun⟩

theorem countP_observe (log : List (Call × Reply)) (lo hi : ℚ) :
    (log.filterMap (observe k)).countP (Metered.inWindow lo hi) =
      log.countP (acceptedIn k lo hi) := by
  rw [List.countP_filterMap]
  congr 1
  funext x
  by_cases hk : x.1.key? = some k
  · cases hr : x.2 with
    | returned ret =>
      cases ret <;> simp [observe, acceptedIn, Metered.inWindow, hk, hr]
    | raised => simp [observe, acceptedIn, hk, hr]
  · simp [observe, acceptedIn, hk]

/-- The bound for runs whose calls keep the key within the rate. -/
theorem accepted_le_of_withinRate (hr : 0 < r) {t t' : Table} {log : List (Call × Reply)}
    (h : Runs (fun t x t' => CheckStep C.exact t x t' ∧ WithinRate r k t x.1) t log t') {s e : ℚ}
    (hse : s ≤ e) : (log.countP (acceptedIn k s e) : ℚ) ≤ capacity r + r * (e - s) := by
  obtain ⟨p, hrun⟩ := metered_run h
  have hcap : 0 ≤ capacity r := le_trans zero_le_one (one_le_capacity r)
  rw [← countP_observe]
  exact Metered.accepted_le (le_of_lt hr) hcap hse hrun

/-! ## Calls in the order of their timestamps -/

/-- The stamp of an entry is the one it had, or the one of the call that wrote it. -/
theorem updatedAt_of_checkStep {t t' : Table} {x : Call × Reply} (h : CheckStep A t x t')
    {e' : HashEntry} (he' : t' k = some e') :
    (∃ e, t k = some e ∧ e'.updatedAt = e.updatedAt) ∨
      (x.1.key? = some k ∧ e'.updatedAt = x.1.now) := by
  rcases checkStep_cases h with ⟨ret, -, -, rfl⟩ | ⟨l, hinr, hlocked⟩
  · exact .inl ⟨e', he', rfl⟩
  · obtain ⟨hkey, -, hnow, -⟩ := tbfPrologue_inr hinr
    by_cases hk : k = l.key
    · subst hk
      rcases tbfLocked_cases hlocked with ⟨-, rfl, -⟩ | ⟨-, -, rfl⟩ | ⟨e, -, -, -, rfl⟩ |
        ⟨e, he, -, -, rfl⟩
      · exact .inl ⟨e', he', rfl⟩
      · rw [Function.update_self] at he'
        cases he'
        exact .inr ⟨hkey, hnow⟩
      · rw [Function.update_self] at he'
        cases he'
        exact .inr ⟨hkey, hnow⟩
      · rw [Function.update_self] at he'
        cases he'
        exact .inl ⟨e, he, rfl⟩
    · rw [tbfLocked_frame hlocked hk] at he'
      exact .inl ⟨e', he', rfl⟩

/-- A run whose calls on the key come in the order of their timestamps makes each of them no
earlier than the stamp of the entry it finds. -/
theorem inOrder_of_sorted {step : Table → Call × Reply → Table → Prop}
    (hstep : ∀ t x t', step t x t' → CheckStep A t x t') {t t' : Table}
    {log : List (Call × Reply)} (h : Runs step t log t')
    (hsorted : log.Pairwise fun x y => x.1.key? = some k → y.1.key? = some k →
      x.1.now ≤ y.1.now)
    (hpast : ∀ e, t k = some e → ∀ x ∈ log, x.1.key? = some k → e.updatedAt ≤ x.1.now) :
    Runs (fun t x t' => step t x t' ∧ InOrder k t x.1) t log t' := by
  -- on the calls: the stamp of the entry is never later than the calls still to come
  induction h with
  | nil => exact .nil _
  | @cons s t u x log hst _ ih =>
    obtain ⟨hhead, htail⟩ := List.pairwise_cons.mp hsorted
    refine .cons ⟨hst, fun hkey e he => hpast e he x List.mem_cons_self hkey⟩ (ih htail ?_)
    intro e' he' y hy hykey
    rcases updatedAt_of_checkStep (hstep _ _ _ hst) he' with ⟨e, he, hupd⟩ | ⟨hkey, hupd⟩
    · rw [hupd]
      exact hpast e he y (List.mem_cons_of_mem _ hy) hykey
    · rw [hupd]
      exact hhead y hy hkey hykey

/-- Calls in the order of their timestamps, at rates up to `r`, keep the key within the rate. -/
theorem withinRate_of_sorted {t t' : Table} {log : List (Call × Reply)}
    (h : CheckRun C.exact t log t')
    (hrates : ∀ x ∈ log, x.1.key? = some k → ∃ ρ, x.1.rate = some ρ ∧ 0 < ρ ∧ ρ ≤ r)
    (hsorted : log.Pairwise fun x y => x.1.key? = some k → y.1.key? = some k →
      x.1.now ≤ y.1.now)
    (hpast : ∀ e, t k = some e → ∀ x ∈ log, x.1.key? = some k → e.updatedAt ≤ x.1.now) :
    Runs (fun t x t' => CheckStep C.exact t x t' ∧ WithinRate r k t x.1) t log t' := by
  have hordered := inOrder_of_sorted (A := C.exact) (fun _ _ _ hst => hst) h hsorted hpast
  refine (hordered.and_label hrates).mono ?_
  rintro s x s' ⟨⟨hstep, htime⟩, hrate⟩
  refine ⟨hstep, fun hkey => ?_⟩
  obtain ⟨ρ, hρ, hpos, hle⟩ := hrate hkey
  refine ⟨ρ, hρ, hpos, hle, ?_⟩
  intro e he
  -- no negative time, so a lower rate refills no more than `r` would
  have helapsed : 0 ≤ x.1.now - e.updatedAt := sub_nonneg.mpr (htime hkey e he)
  have hrefill : 0 ≤ ρ * (x.1.now - e.updatedAt) := mul_nonneg (le_of_lt hpos) helapsed
  have htokens : (0 : ℚ) ≤ e.tokens := Nat.cast_nonneg _
  exact ⟨by linarith, mul_le_mul_of_nonneg_right hle helapsed⟩

end Meter

/-- The rate bound of a bucket, in exact arithmetic. In every run of the limiter in which the calls
on the key `k` start it, have rates in `(0, r]` and come in the order of their timestamps, at most
`max(1, floor(2r)) + r * (e - s)` of those stamped inside `[s, e]` return true. -/
theorem accepted_in_window_le (C : SizeConversion) (k : KeyImage) {r : ℚ} (hr : 0 < r)
    {t t' : Table} {log : List (Call × Reply)} (hrun : CheckRun C.exact t log t')
    (hnew : t k = none)
    (hrates : ∀ x ∈ log, x.1.key? = some k → ∃ ρ, x.1.rate = some ρ ∧ 0 < ρ ∧ ρ ≤ r)
    (hsorted : log.Pairwise fun x y => x.1.key? = some k → y.1.key? = some k →
      x.1.now ≤ y.1.now)
    {s e : ℚ} (hse : s ≤ e) :
    (log.countP (acceptedIn k s e) : ℚ) ≤ ((max 1 ⌊2 * r⌋ : ℤ) : ℚ) + r * (e - s) := by
  refine accepted_le_of_withinRate (C := C) hr (withinRate_of_sorted hrun hrates hsorted ?_) hse
  intro entry hentry
  rw [hnew] at hentry
  cases hentry

/-- Five calls of one key at one token per second: a burst of three, then two a second later. -/
def burst : List Call :=
  [0, 0, 0, 1, 1].map fun now =>
    { namespaceId := some 1, bucketId := some 7, rate := some 1, now := now, shmemFull := false
      stack := ⟨List.replicate 16 0, rfl⟩ }

theorem accepted_in_window_le_burst :
    (((runCalls x86Size.exact (fun _ => none) burst).1.countP
        (acceptedIn (KeyImage.ofCall ⟨List.replicate 16 0, rfl⟩ 1 7) 0 1) : ℕ) : ℚ) ≤
      ((max 1 ⌊2 * (1 : ℚ)⌋ : ℤ) : ℚ) + 1 * (1 - 0) := by
  have hcalls : ∀ x ∈ (runCalls x86Size.exact (fun _ => none) burst).1, x.1 ∈ burst := by
    intro x hx
    rw [← runCalls_calls x86Size.exact (fun _ => none) burst]
    exact List.mem_map_of_mem hx
  refine accepted_in_window_le x86Size _ one_pos (checkRun_runCalls x86Size.exact _ burst) rfl ?_ ?_
    (by norm_num)
  · intro x hx _
    obtain ⟨now, -, hnow⟩ := List.mem_map.mp (hcalls x hx)
    exact ⟨1, by rw [← hnow], one_pos, le_refl 1⟩
  · have hstamps : (burst.map fun c => c.now).Pairwise (· ≤ ·) := by
      simp [burst]
    rw [← runCalls_calls x86Size.exact (fun _ => none) burst, List.map_map,
      List.pairwise_map] at hstamps
    exact hstamps.imp fun h _ _ => h

end YetiPgExt.Tbf
