import YetiPgExt.Tbf.Isolation
import YetiPgExt.Tbf.TokenRange

/-!
# What a caller that keeps trying gets

A call that is turned away leaves no trace: without the calls that were not admitted, the others of
a run get the same replies and leave the same table (`rejected_erasable`). And the time since the
last admission was not worth a token (`rejected_recent`): where the time `w` is worth one, a caller
that tries at least every `δ` is admitted in every span of `w + δ` (`accepted_ge`), which bounds
from below what the rate bound bounds from above.
-/

set_option autoImplicit false

namespace YetiPgExt.Tbf

open YetiPgExt.Library

/-- The call is on the key `k` and returned true. -/
def admitted (k : KeyImage) (x : Call × Reply) : Prop :=
  x.1.key? = some k ∧ x.2 = .returned true

/-- The call returned true. -/
def passed (x : Call × Reply) : Bool := decide (x.2 = .returned true)

/-- The calls on the key `k` come in the order of their timestamps, have positive rates of `S` and
lie in a span `[a, a + T]` for which these rates are safe. -/
structure Steady (A : Arithmetic) (S : Set ℚ) (a T : ℚ) (k : KeyImage)
    (log : List (Call × Reply)) : Prop where
  safe : Admissible A S T
  rates : ∀ x ∈ log, x.1.key? = some k → ∃ ρ ∈ S, x.1.rate = some ρ ∧ 0 < ρ
  stamps : ∀ x ∈ log, x.1.key? = some k → a ≤ x.1.now ∧ x.1.now ≤ a + T
  sorted : log.Pairwise fun x y => x.1.key? = some k → y.1.key? = some k → x.1.now ≤ y.1.now

section Admission

variable {A : Arithmetic} {k : KeyImage} {S : Set ℚ} {a T : ℚ} {t t' : Table}
variable {log : List (Call × Reply)}

/-- A call finds its entry no later than its own stamp, and with the arithmetic in range. -/
def Regular (A : Arithmetic) (k : KeyImage) (t : Table) (x : Call × Reply) (t' : Table) :
    Prop :=
  ((CheckStep A t x t' ∧ InRange A k t x.1) ∧ InOrder k t x.1) ∧
    (x.1.key? = some k → ∃ ρ, x.1.rate = some ρ ∧ 0 < ρ)

theorem Steady.uses (h : Steady A S a T k log) : Uses S k log where
  rates x hx hk ρ hρ := by
    obtain ⟨ρ', hmem, hρ', -⟩ := h.rates x hx hk
    rw [hρ'] at hρ
    cases hρ
    exact hmem
  sorted := h.sorted

theorem Steady.regular (h : Steady A S a T k log) (hrun : CheckRun A t log t')
    (hnew : t k = none) : Runs (Regular A k) t log t' := by
  have hrange := h.safe.run hnew (soon_of_span hrun hnew h.stamps) h.uses
  have horder := inOrder_of_sorted (A := A) (fun _ _ _ hst => hst.1) hrange h.sorted
    (fun e he => by rw [hnew] at he; cases he)
  refine (horder.and_label h.rates).mono ?_
  rintro s x s' ⟨hstep, hrate⟩
  refine ⟨hstep, fun hk => ?_⟩
  obtain ⟨ρ, -, hρ, hpos⟩ := hrate hk
  exact ⟨ρ, hρ, hpos⟩

/-- What is added up to less than one had no token and not the credit of one. -/
theorem Arithmetic.of_sum_lt_one {tokens : Nat} {rate elapsed : ℚ} (hrate : 0 ≤ rate)
    (helapsed : 0 ≤ elapsed) (h : A.sum tokens rate elapsed < 1) :
    tokens = 0 ∧ rate * A.seconds elapsed < 1 := by
  have hseconds : 0 ≤ A.seconds elapsed := by
    rw [← A.seconds_zero]
    exact A.seconds_mono helapsed
  have hcredit : 0 ≤ A.double (rate * A.seconds elapsed) := by
    rw [← A.double_zero]
    exact A.double_mono (mul_nonneg hrate hseconds)
  have hheld : 0 ≤ A.double tokens := by
    rw [← A.double_zero]
    exact A.double_mono (Nat.cast_nonneg _)
  -- a sum of at least one is rounded to at least one
  have hparts : A.double tokens + A.double (rate * A.seconds elapsed) < 1 := by
    by_contra hge
    have hround := A.double_mono (not_lt.mp hge)
    rw [A.double_one] at hround
    exact absurd h (not_lt.mpr hround)
  constructor
  · by_contra hne
    have hone : (1 : ℚ) ≤ A.double tokens := by
      rw [← A.double_one]
      exact A.double_mono (Nat.one_le_cast.mpr (Nat.one_le_iff_ne_zero.mpr hne))
    linarith
  · by_contra hge
    have hone : (1 : ℚ) ≤ A.double (rate * A.seconds elapsed) := by
      rw [← A.double_one]
      exact A.double_mono (not_lt.mp hge)
    linarith

/-- A call that is not admitted, although it is on the key, found no whole token. -/
theorem Regular.rejected {x : Call × Reply} (h : Regular A k t x t') (hk : x.1.key? = some k)
    (hreply : x.2 = .returned false) :
    ∃ e ρ, t k = some e ∧ x.1.rate = some ρ ∧ 0 < ρ ∧ e.updatedAt ≤ x.1.now ∧ e.tokens = 0 ∧
      ρ * A.seconds (x.1.now - e.updatedAt) < 1 ∧ t' k = some e := by
  obtain ⟨⟨⟨hstep, hrange⟩, horder⟩, hrate⟩ := h
  obtain ⟨ρ, hρ, hpos⟩ := hrate hk
  rcases checkStep_key_cases hstep hk hρ (ne_of_gt hpos) with ⟨-, hraised, -⟩ | ⟨-, htrue, -⟩ |
    ⟨e, -, -, htrue, -⟩ | ⟨e, he, hzero, -, ht'⟩
  · rw [hreply] at hraised
    cases hraised
  · rw [hreply] at htrue
    cases htrue
  · rw [hreply] at htrue
    cases htrue
  · obtain ⟨-, hconverts⟩ := inRange_iff_converts.mp hrange hk ρ hρ (ne_of_gt hpos)
    obtain ⟨hlow, hhigh⟩ := truncatesToSize_iff.mp (hconverts e he)
    rw [A.toSize_eq _ hlow hhigh, Nat.floor_eq_zero] at hzero
    obtain ⟨hempty, hless⟩ :=
      Arithmetic.of_sum_lt_one hpos.le (sub_nonneg.mpr (horder hk e he)) hzero
    refine ⟨e, ρ, he, hρ, hpos, horder hk e he, hempty, hless, ?_⟩
    rw [ht', ← hempty]

/-- Only an admission stamps the entry. -/
theorem Regular.stamp {x : Call × Reply} (h : Regular A k t x t') :
    (admitted k x ∧ ∃ e', t' k = some e' ∧ e'.updatedAt = x.1.now) ∨
      (¬admitted k x ∧ t' k = t k) := by
  by_cases hk : x.1.key? = some k
  · cases hreply : x.2 with
    | raised =>
      refine .inr ⟨fun hadmitted => ?_, ?_⟩
      · rw [admitted, hreply] at hadmitted
        cases hadmitted.2
      · obtain ⟨⟨⟨hstep, -⟩, -⟩, hrate⟩ := h
        obtain ⟨ρ, hρ, hpos⟩ := hrate hk
        rcases checkStep_key_cases hstep hk hρ (ne_of_gt hpos) with ⟨hnone, -, ht'⟩ |
          ⟨-, htrue, -⟩ | ⟨e, -, -, htrue, -⟩ | ⟨e, -, -, hfalse, -⟩
        · rw [ht', hnone]
        · rw [hreply] at htrue
          cases htrue
        · rw [hreply] at htrue
          cases htrue
        · rw [hreply] at hfalse
          cases hfalse
    | returned ret =>
      cases ret with
      | false =>
        refine .inr ⟨fun hadmitted => ?_, ?_⟩
        · rw [admitted, hreply] at hadmitted
          cases hadmitted.2
        · obtain ⟨e, -, he, -, -, -, -, -, ht'⟩ := h.rejected hk hreply
          rw [ht', he]
      | true =>
        obtain ⟨⟨⟨hstep, -⟩, -⟩, hrate⟩ := h
        obtain ⟨ρ, hρ, hpos⟩ := hrate hk
        refine .inl ⟨⟨hk, hreply⟩, ?_⟩
        rcases checkStep_key_cases hstep hk hρ (ne_of_gt hpos) with ⟨-, hraised, -⟩ |
          ⟨-, -, ht'⟩ | ⟨e, -, -, -, ht'⟩ | ⟨e, -, -, hfalse, -⟩
        · rw [hreply] at hraised
          cases hraised
        · exact ⟨_, ht', rfl⟩
        · exact ⟨_, ht', rfl⟩
        · rw [hreply] at hfalse
          cases hfalse
  · exact .inr ⟨fun hadmitted => hk hadmitted.1, checkStep_frame h.1.1.1 hk⟩

/-- The stamp of an entry is that of the last admission. -/
theorem last_admitted (h : Runs (Regular A k) t log t') {e' : HashEntry} (he' : t' k = some e') :
    (t k = some e' ∧ ∀ x ∈ log, ¬admitted k x) ∨
      ∃ pre y post, log = pre ++ y :: post ∧ admitted k y ∧ e'.updatedAt = y.1.now ∧
        ∀ z ∈ post, ¬admitted k z := by
  -- on the calls; the first one is the last admission if the rest has none
  induction h with
  | nil t => exact .inl ⟨he', fun x hx => absurd hx List.not_mem_nil⟩
  | @cons t t₁ t' x log hstep _ ih =>
    rcases ih he' with ⟨he₁, hnone⟩ | ⟨pre, y, post, rfl, hy, hstamp, hpost⟩
    · rcases hstep.stamp with ⟨hx, e₁, ht₁, hnow⟩ | ⟨hx, ht₁⟩
      · obtain rfl : e₁ = e' := Option.some.inj (ht₁.symm.trans he₁)
        exact .inr ⟨[], x, log, rfl, hx, hnow, hnone⟩
      · refine .inl ⟨by rw [← ht₁, he₁], ?_⟩
        intro y hy
        rcases List.mem_cons.mp hy with rfl | hy
        · exact hx
        · exact hnone y hy
    · exact .inr ⟨x :: pre, y, post, rfl, hy, hstamp, hpost⟩

/-- A call that is turned away was made soon after an admission: at its own rate the time since
the last one is not worth a token. -/
theorem rejected_recent {before after : List (Call × Reply)} {c : Call}
    (hrun : CheckRun A t (before ++ (c, .returned false) :: after) t') (hnew : t k = none)
    (hsteady : Steady A S a T k (before ++ (c, .returned false) :: after))
    (hk : c.key? = some k) :
    ∃ pre y post ρ, before = pre ++ y :: post ∧ admitted k y ∧ (∀ z ∈ post, ¬admitted k z) ∧
      c.rate = some ρ ∧ 0 ≤ c.now - y.1.now ∧ ρ * A.seconds (c.now - y.1.now) < 1 := by
  obtain ⟨t₁, hbefore, hrest⟩ := (hsteady.regular hrun hnew).split
  cases hrest with
  | cons hstep _ =>
    obtain ⟨e, ρ, he, hρ, -, hold, -, hless, -⟩ := hstep.rejected hk rfl
    rcases last_admitted hbefore he with ⟨htable, -⟩ | ⟨pre, y, post, hsplit, hy, hnow, hpost⟩
    · rw [hnew] at htable
      cases htable
    · rw [hnow] at hless hold
      exact ⟨pre, y, post, ρ, hsplit, hy, hpost, hρ, sub_nonneg.mpr hold, hless⟩

/-! ## Calls without a trace -/

theorem Steady.onKey (h : Steady A S a T k log) : Steady A S a T k (onKey keyOf k log) where
  safe := h.safe
  rates x hx := h.rates x (List.mem_of_mem_filter hx)
  stamps x hx := h.stamps x (List.mem_of_mem_filter hx)
  sorted := h.sorted.filter _

/-- Only the admissions of a bucket change its entry. -/
theorem admissions_run (h : Runs (Regular A k) t log t') (hall : ∀ x ∈ log, x.1.key? = some k)
    {s : Table} (hs : s k = t k) :
    ∃ s', CheckRun A s (log.filter passed) s' ∧ s' k = t' k := by
  induction h generalizing s with
  | nil t => exact ⟨s, .nil s, hs⟩
  | @cons t t₁ t' x log hstep _ ih =>
    have hrest : ∀ y ∈ log, y.1.key? = some k := fun y hy => hall y (List.mem_cons_of_mem _ hy)
    have hx := hall x List.mem_cons_self
    cases hpassed : passed x with
    | true =>
      obtain ⟨s₁, hstep', hs₁⟩ := (checkStep_local A).entry hstep.1.1.1 hx hs
      obtain ⟨s', hrun, hs'⟩ := ih hrest hs₁
      rw [List.filter_cons_of_pos hpassed]
      exact ⟨s', .cons hstep' hrun, hs'⟩
    | false =>
      rw [List.filter_cons_of_neg (by rw [hpassed]; exact Bool.false_ne_true)]
      rcases hstep.stamp with ⟨hadmitted, -⟩ | ⟨-, ht₁⟩
      · exact absurd hadmitted.2 (of_decide_eq_false hpassed)
      · exact ih hrest (hs.trans ht₁.symm)

end Admission

/-! ### Calls on two slow buckets -/

/-- Calls at `0`, `1` and `3`, each on two keys, the last one only on the first of them; those at
`1` come too early. -/
def slowLog : List (Call × Reply) :=
  [(slowCall 0, .returned true), (otherCall 0, .returned true), (slowCall 1, .returned false),
    (otherCall 1, .returned false), (slowCall 3, .returned true)]

theorem run_slowLog : ∃ t, CheckRun x86 (fun _ => none) slowLog t := by
  have hlog : (runCalls x86 (fun _ => none) (slowLog.map Prod.fst)).1 = slowLog := by
    decide +kernel
  have hrun := checkRun_runCalls x86 (fun _ => none) (slowLog.map Prod.fst)
  rw [hlog] at hrun
  exact ⟨_, hrun⟩

theorem mem_slowLog {x : Call × Reply} (hx : x ∈ slowLog) :
    x.1.rate = some (1 / 2) ∧ 0 ≤ x.1.now ∧ x.1.now ≤ 3 := by
  simp only [slowLog, List.mem_cons, List.not_mem_nil, or_false] at hx
  rcases hx with rfl | rfl | rfl | rfl | rfl <;> exact ⟨rfl, by decide, by decide⟩

theorem admissible_slow : Admissible x86 {1 / 2} 3 where
  above r hr := by
    cases hr
    norm_num
  below r hr := by
    cases hr
    norm_num
  drains r hr hneg := by
    cases hr
    norm_num at hneg
  fills r hr _ r' hr' := by
    cases hr
    cases hr'
    decide +kernel

theorem steady_slowLog (k : KeyImage) : Steady x86 {1 / 2} 0 3 k slowLog where
  safe := admissible_slow
  rates x hx _ := ⟨1 / 2, rfl, (mem_slowLog hx).1, by norm_num⟩
  stamps x hx _ := by
    obtain ⟨-, hlow, hhigh⟩ := mem_slowLog hx
    exact ⟨hlow, by rwa [zero_add]⟩
  sorted := by
    have hstamps : (slowLog.map fun x => x.1.now).Pairwise (· ≤ ·) := by
      simp [slowLog, slowCall, otherCall]
    rw [List.pairwise_map] at hstamps
    exact hstamps.imp fun h _ _ => h

/-- A call that is not admitted leaves no trace. In a run from the empty table, in which the calls
on each key are in order, in a span of time and at positive rates that are safe for it, deleting the
calls that did not return true changes neither another reply nor the table at the end. -/
theorem rejected_erasable (A : Arithmetic) {t : Table} {log : List (Call × Reply)}
    (hrun : CheckRun A (fun _ => none) log t)
    (hsteady : ∀ k, ∃ S a T, Steady A S a T k log) :
    CheckRun A (fun _ => none) (log.filter passed) t := by
  obtain ⟨-, hkeys⟩ := (checkRun_iff A _ _ _).mp hrun
  refine (checkRun_iff A _ _ _).mpr ⟨?_, ?_⟩
  · intro x hx _
    exact of_decide_eq_true (List.mem_filter.mp hx).2
  · intro k
    obtain ⟨s, hown, hs⟩ := hkeys k
    obtain ⟨S, a, T, hkey⟩ := hsteady k
    have hall : ∀ x ∈ onKey keyOf k log, x.1.key? = some k := by
      intro x hx
      exact of_decide_eq_true (List.mem_filter.mp hx).2
    have hregular := hkey.onKey.regular hown rfl
    obtain ⟨s', hrun', hs'⟩ := admissions_run (s := fun _ => none) hregular hall rfl
    rw [onKey, List.filter_comm]
    exact ⟨s', hrun', hs'.trans hs⟩

theorem rejected_erasable_slowLog :
    ∃ t, CheckRun x86 (fun _ => none) [(slowCall 0, .returned true), (otherCall 0, .returned true),
      (slowCall 3, .returned true)] t := by
  obtain ⟨t, hrun⟩ := run_slowLog
  exact ⟨t, rejected_erasable x86 hrun fun k => ⟨{1 / 2}, 0, 3, steady_slowLog k⟩⟩

/-! ### A caller that tries again and again -/

theorem acceptedIn_iff {k : KeyImage} {lo hi : ℚ} {x : Call × Reply} :
    acceptedIn k lo hi x = true ↔ admitted k x ∧ lo ≤ x.1.now ∧ x.1.now ≤ hi := by
  rw [acceptedIn, admitted, Bool.and_eq_true, Bool.and_eq_true, Bool.and_eq_true,
    decide_eq_true_iff, decide_eq_true_iff, decide_eq_true_iff, decide_eq_true_iff, and_assoc]

theorem acceptedIn_mono {k : KeyImage} {lo hi hi' : ℚ} (h : hi ≤ hi') {x : Call × Reply}
    (hx : acceptedIn k lo hi x = true) : acceptedIn k lo hi' x = true := by
  obtain ⟨hadmitted, hlo, hhi⟩ := acceptedIn_iff.mp hx
  exact acceptedIn_iff.mpr ⟨hadmitted, hlo, hhi.trans h⟩

theorem countP_add_one_le {α : Type} {p q : α → Bool} {l : List α} (h : ∀ x, p x → q x) {x : α}
    (hx : x ∈ l) (hq : q x = true) (hp : p x = false) : l.countP p + 1 ≤ l.countP q := by
  obtain ⟨front, back, rfl⟩ := List.append_of_mem hx
  have hfront : front.countP p ≤ front.countP q := List.countP_mono_left fun x _ => h x
  have hback : back.countP p ≤ back.countP q := List.countP_mono_left fun x _ => h x
  rw [List.countP_append, List.countP_append, List.countP_cons_of_pos hq,
    List.countP_cons_of_neg (by rw [hp]; exact Bool.false_ne_true)]
  omega

/-- One admission in each span of `d`, counted. -/
theorem accepted_ge_of_spans {k : KeyImage} {log : List (Call × Reply)} {s e d : ℚ} (hd : 0 ≤ d)
    (hspan : ∀ w, s ≤ w → w + d ≤ e →
      ∃ y ∈ log, admitted k y ∧ w < y.1.now ∧ y.1.now ≤ w + d) {n : ℕ} (hn : n * d ≤ e - s) :
    n ≤ log.countP (acceptedIn k s (s + n * d)) := by
  -- on the spans; the admission of the last one lies behind those of the others
  induction n with
  | zero => exact Nat.zero_le _
  | succ n ih =>
    have hnext : s + ((n + 1 : ℕ) : ℚ) * d = s + n * d + d := by
      push_cast
      ring
    have hnonneg : 0 ≤ (n : ℚ) * d := mul_nonneg (Nat.cast_nonneg n) hd
    obtain ⟨y, hmem, hy, hlow, hhigh⟩ := hspan (s + n * d) (by linarith) (by linarith)
    have hold := ih (by linarith)
    rw [hnext]
    refine (Nat.add_le_add_right hold 1).trans (countP_add_one_le ?_ hmem ?_ ?_)
    · exact fun x => acceptedIn_mono (by linarith)
    · exact acceptedIn_iff.mpr ⟨hy, by linarith, hhigh⟩
    · rw [← Bool.not_eq_true, acceptedIn_iff]
      rintro ⟨-, -, hle⟩
      exact absurd hle (not_le.mpr hlow)

/-- A call that does not raise is admitted, or was made less than `w` after an admission, if `w` is
worth a token. -/
theorem admitted_near {A : Arithmetic} {S : Set ℚ} {a T r w : ℚ} {k : KeyImage} {t t' : Table}
    {log : List (Call × Reply)} (hr : 0 < r) (hw : 1 ≤ r * A.seconds w)
    (hrun : CheckRun A t log t') (hnew : t k = none) (hsteady : Steady A S a T k log)
    (hrates : ∀ x ∈ log, x.1.key? = some k → ∀ ρ, x.1.rate = some ρ → r ≤ ρ)
    {x : Call × Reply} (hx : x ∈ log) (hk : x.1.key? = some k) (hraised : x.2 ≠ .raised) :
    ∃ y ∈ log, admitted k y ∧ y.1.now ≤ x.1.now ∧ (x.1.now < y.1.now + w ∨ y = x) := by
  obtain ⟨c, reply⟩ := x
  cases reply with
  | raised => exact absurd rfl hraised
  | returned ret =>
    cases ret with
    | true => exact ⟨_, hx, ⟨hk, rfl⟩, le_rfl, .inr rfl⟩
    | false =>
      obtain ⟨before, after, rfl⟩ := List.append_of_mem hx
      obtain ⟨pre, y, post, ρ, rfl, hy, -, hρ, hlater, hless⟩ :=
        rejected_recent hrun hnew hsteady hk
      have hrate : r ≤ ρ := hrates _ hx hk ρ hρ
      refine ⟨y, by simp, hy, sub_nonneg.mp hlater, .inl ?_⟩
      -- after `w` the call would have had its token
      by_contra hlong
      have hseconds : 0 ≤ A.seconds (c.now - y.1.now) := by
        rw [← A.seconds_zero]
        exact A.seconds_mono hlater
      have hworth : (1 : ℚ) ≤ ρ * A.seconds (c.now - y.1.now) :=
        calc 1 ≤ r * A.seconds w := hw
          _ ≤ r * A.seconds (c.now - y.1.now) :=
              mul_le_mul_of_nonneg_left (A.seconds_mono (by linarith)) hr.le
          _ ≤ ρ * A.seconds (c.now - y.1.now) := mul_le_mul_of_nonneg_right hrate hseconds
      exact absurd hless (not_lt.mpr hworth)

/-- Who keeps trying gets through. On a key whose calls are in order, in a span of time and at
positive rates that are safe for it and at least `r`, if `w` is worth a token at `r` and between `s`
and `e` some call that does not raise is made in every span of `δ`, then at least `n` calls stamped
inside `[s, e]` return true for every `n` with `n * (w + δ) ≤ e - s`. -/
theorem accepted_ge (A : Arithmetic) (k : KeyImage) {S : Set ℚ} {a T r w δ s e : ℚ} (hr : 0 < r)
    (hw : 0 ≤ w) (hworth : 1 ≤ r * A.seconds w) (hδ : 0 ≤ δ) {t t' : Table}
    {log : List (Call × Reply)} (hrun : CheckRun A t log t') (hnew : t k = none)
    (hsteady : Steady A S a T k log)
    (hrates : ∀ x ∈ log, x.1.key? = some k → ∀ ρ, x.1.rate = some ρ → r ≤ ρ)
    (htries : ∀ u, s ≤ u → u + δ ≤ e →
      ∃ x ∈ log, x.1.key? = some k ∧ x.2 ≠ .raised ∧ u < x.1.now ∧ x.1.now ≤ u + δ)
    {n : ℕ} (hn : n * (w + δ) ≤ e - s) : n ≤ log.countP (acceptedIn k s e) := by
  have hspan : ∀ u, s ≤ u → u + (w + δ) ≤ e →
      ∃ y ∈ log, admitted k y ∧ u < y.1.now ∧ y.1.now ≤ u + (w + δ) := by
    intro u hu hue
    obtain ⟨x, hx, hk, hraised, hlow, hhigh⟩ := htries (u + w) (by linarith) (by linarith)
    obtain ⟨y, hmem, hy, hle, hnear | rfl⟩ :=
      admitted_near hr hworth hrun hnew hsteady hrates hx hk hraised
    · exact ⟨y, hmem, hy, by linarith, by linarith⟩
    · exact ⟨y, hmem, hy, by linarith, by linarith⟩
  refine (accepted_ge_of_spans (by linarith) hspan hn).trans (List.countP_mono_left fun x _ => ?_)
  exact acceptedIn_mono (by linarith)

theorem accepted_ge_slowLog : 1 ≤ slowLog.countP (acceptedIn slowKey 0 4) := by
  obtain ⟨t, hrun⟩ := run_slowLog
  have hrate : ∀ x ∈ slowLog, x.1.key? = some slowKey → ∀ ρ, x.1.rate = some ρ → 1 / 2 ≤ ρ := by
    intro x hx _ ρ hρ
    rw [(mem_slowLog hx).1] at hρ
    exact (Option.some.inj hρ).le
  refine accepted_ge x86 slowKey (w := 2) (δ := 2) (by norm_num) (by norm_num) (by decide +kernel)
    (by norm_num) hrun rfl (steady_slowLog slowKey) hrate ?_ (by norm_num)
  intro u hu hue
  -- a try at `1` or at `3` lies behind `u`
  by_cases hlow : u < 1
  · exact ⟨(slowCall 1, .returned false), by simp [slowLog], rfl, by simp, hlow,
      by simp only [slowCall]; linarith⟩
  · refine ⟨(slowCall 3, .returned true), by simp [slowLog], rfl, by simp, ?_, ?_⟩
    · simp only [slowCall]
      linarith
    · simp only [slowCall]
      linarith

end YetiPgExt.Tbf
