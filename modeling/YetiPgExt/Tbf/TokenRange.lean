import YetiPgExt.Tbf.RateBound

/-!
# The range of the token arithmetic

`tbf_rate_check` converts two real values to the unsigned 64-bit `Size`: `rate*2`, and the tokens
of an entry with the refill. The only check on the rate is against zero. `InRange` says that the
values a call converts truncate to a `Size` and that `bucket_max_size-1` and `tokens--` do not
wrap; the subtractions never do.

Which rates are safe depends on the time for which the key may go without an admission
(`Admissible`). A negative rate must not be worth a token in this time, and with a positive rate a
bucket that any of the rates has filled must not reach `2^64` in it. All runs with the rates `S` in
which a call comes at most `T` after the last admission stay in range exactly if this holds
(`inRange_iff`): what a bucket holds never exceeds one of its sizes less one, and two calls are
enough to reach it.
-/

set_option autoImplicit false

namespace YetiPgExt.Tbf

open YetiPgExt.Library

/-- The truncation of the value is a `Size`. -/
def TruncatesToSize (q : ℚ) : Prop := 0 ≤ truncate q ∧ truncate q < 2 ^ 64

/-- The arithmetic of a call on the key `k` stays in range. -/
def InRange (A : Arithmetic) (k : KeyImage) (t : Table) (c : Call) : Prop :=
  ∀ l, tbfPrologue A c = .inr l → l.key = k →
    TruncatesToSize (l.rate * 2) ∧ 1 ≤ l.bucketMaxSize ∧
    ∀ e, t k = some e → TruncatesToSize (A.sum e.tokens l.rate (l.now - e.updatedAt)) ∧
      (0 < refill A l e → 1 ≤ min (refill A l e) l.bucketMaxSize)

/-- A call on the key `k` comes at most `T` after the admission that stamped the entry. -/
def Soon (T : ℚ) (k : KeyImage) (t : Table) (c : Call) : Prop :=
  c.key? = some k → ∀ e, t k = some e → c.now - e.updatedAt ≤ T

/-- The calls on the key `k` have rates of `S` and come in the order of their timestamps. -/
structure Uses (S : Set ℚ) (k : KeyImage) (log : List (Call × Reply)) : Prop where
  rates : ∀ x ∈ log, x.1.key? = some k → ∀ ρ, x.1.rate = some ρ → ρ ∈ S
  sorted : log.Pairwise fun x y => x.1.key? = some k → y.1.key? = some k → x.1.now ≤ y.1.now

/-- The rates `S` are safe for a key that goes without an admission for at most `T`. A bucket of the
size `floor(2 * r')` has at most one token less when a call comes. -/
structure Admissible (A : Arithmetic) (S : Set ℚ) (T : ℚ) : Prop where
  above : ∀ r ∈ S, -(1 / 2) < r
  below : ∀ r ∈ S, r < 2 ^ 63
  drains : ∀ r ∈ S, r < 0 → -1 < A.sum 0 r T
  fills : ∀ r ∈ S, 0 < r → ∀ r' ∈ S, A.sum (⌊2 * r'⌋₊ - 1) r T < 2 ^ 64

section Range

variable {A : Arithmetic} {k : KeyImage}

/-- A call that asks for the lock has a nonzero rate. -/
theorem rate_ne_zero {c : Call} {l : Locals} (h : tbfPrologue A c = .inr l) : l.rate ≠ 0 := by
  unfold tbfPrologue at h
  split at h
  · split at h
    · cases h
    · rename_i hne
      cases h
      exact hne
  · cases h

theorem truncatesToSize_iff {q : ℚ} : TruncatesToSize q ↔ -1 < q ∧ q < 2 ^ 64 := by
  unfold TruncatesToSize truncate
  by_cases hq : 0 ≤ q
  · have hfloor : ⌊q⌋ < 2 ^ 64 ↔ q < 2 ^ 64 := by
      rw [Int.floor_lt]
      norm_cast
    rw [if_pos hq, hfloor]
    constructor
    · rintro ⟨-, h⟩
      exact ⟨by linarith, h⟩
    · rintro ⟨-, h⟩
      exact ⟨Int.floor_nonneg.mpr hq, h⟩
  · have hceil : 0 ≤ ⌈q⌉ ↔ -1 < q := by
      rw [← not_lt, ← Int.le_sub_one_iff, Int.ceil_le, not_le]
      norm_num
    have hneg : ⌈q⌉ ≤ 0 := Int.ceil_le.mpr (by push_cast; linarith)
    rw [if_neg hq, hceil]
    constructor
    · rintro ⟨h, -⟩
      exact ⟨h, by linarith⟩
    · rintro ⟨h, -⟩
      exact ⟨h, by omega⟩

/-- `bucket_max_size-1` and `tokens--` never wrap, so a call is in range if the values it converts
are. -/
theorem inRange_iff_converts {t : Table} {c : Call} :
    InRange A k t c ↔ (c.key? = some k → ∀ ρ, c.rate = some ρ → ρ ≠ 0 →
      TruncatesToSize (ρ * 2) ∧
      ∀ e, t k = some e → TruncatesToSize (A.sum e.tokens ρ (c.now - e.updatedAt))) := by
  constructor
  · intro h hk ρ hrate hne
    obtain ⟨l, hinr, hlk, rfl⟩ := tbfPrologue_of_key (A := A) hk hrate hne
    obtain ⟨-, -, hnow, -⟩ := tbfPrologue_inr hinr
    obtain ⟨hsize, -, hentry⟩ := h l hinr hlk
    refine ⟨hsize, fun e he => ?_⟩
    rw [← hnow]
    exact (hentry e he).1
  · rintro h l hinr rfl
    obtain ⟨hkey, hrate, hnow, hmax⟩ := tbfPrologue_inr hinr
    have hone : 1 ≤ l.bucketMaxSize := by
      rw [hmax]
      exact one_le_bucketMaxSize A l.rate
    obtain ⟨hsize, hentry⟩ := h hkey l.rate hrate (rate_ne_zero hinr)
    refine ⟨hsize, hone, fun e he => ⟨?_, fun hpos => le_min hpos hone⟩⟩
    rw [hnow]
    exact hentry e he

/-- A new bucket, less the token of the call that makes it. -/
theorem bucketMaxSize_sub_one {ρ : ℚ} (hlow : -(1 / 2) < ρ) (hhigh : ρ < 2 ^ 63) :
    bucketMaxSize A ρ - 1 = ⌊2 * ρ⌋₊ - 1 := by
  have hsize : A.toSize (ρ * 2) = ⌊2 * ρ⌋₊ := by
    rw [A.toSize_eq _ (by linarith) (by linarith), mul_comm]
  rw [bucketMaxSize, hsize]
  split <;> omega

/-! ## Safe rates -/

/-- The tokens of an entry are those of a bucket that one of the rates has filled, less one. -/
def Filled (S : Set ℚ) (entry : Option HashEntry) : Prop :=
  ∀ e, entry = some e → ∃ r ∈ S, e.tokens ≤ ⌊2 * r⌋₊ - 1

/-- A safe rate takes the tokens of a bucket neither below zero nor up to `2^64`. -/
theorem Admissible.truncates {S : Set ℚ} {T : ℚ} (h : Admissible A S T) {e : HashEntry} {r now : ℚ}
    (hr : r ∈ S) (hne : r ≠ 0) (hentry : Filled S (some e)) (horder : e.updatedAt ≤ now)
    (hsoon : now - e.updatedAt ≤ T) : TruncatesToSize (A.sum e.tokens r (now - e.updatedAt)) := by
  obtain ⟨r', hr', htokens⟩ := hentry e rfl
  have helapsed : 0 ≤ now - e.updatedAt := sub_nonneg.mpr horder
  have hzero : A.sum 0 r 0 = 0 := by
    rw [Arithmetic.sum_zero_elapsed, Nat.cast_zero, A.double_zero, A.double_zero]
  rw [truncatesToSize_iff]
  rcases lt_or_gt_of_ne hne with hneg | hpos
  · constructor
    · calc -1 < A.sum 0 r T := h.drains r hr hneg
        _ ≤ A.sum 0 r (now - e.updatedAt) := Arithmetic.sum_anti_elapsed hneg.le hsoon
        _ ≤ A.sum e.tokens r (now - e.updatedAt) := Arithmetic.sum_mono_tokens (Nat.zero_le _)
    · -- a negative rate adds nothing to a bucket that some rate of `S` has filled
      have hle : A.sum e.tokens r (now - e.updatedAt) ≤ A.sum (⌊2 * r'⌋₊ - 1) r' 0 :=
        calc A.sum e.tokens r (now - e.updatedAt) ≤ A.sum e.tokens r 0 :=
              Arithmetic.sum_anti_elapsed hneg.le helapsed
          _ = A.sum e.tokens r' 0 := by
              rw [Arithmetic.sum_zero_elapsed, Arithmetic.sum_zero_elapsed]
          _ ≤ A.sum (⌊2 * r'⌋₊ - 1) r' 0 := Arithmetic.sum_mono_tokens htokens
      rcases lt_or_ge 0 r' with hpos' | hnonpos
      · exact hle.trans_lt ((Arithmetic.sum_mono_elapsed hpos'.le (helapsed.trans hsoon)).trans_lt
          (h.fills r' hr' hpos' r' hr'))
      · have hempty : ⌊2 * r'⌋₊ - 1 = 0 := by
          rw [Nat.floor_of_nonpos (by linarith)]
        rw [hempty, Arithmetic.sum_zero_elapsed, Nat.cast_zero, A.double_zero, A.double_zero] at hle
        exact hle.trans_lt (by norm_num)
  · constructor
    · calc (-1 : ℚ) < A.sum 0 r 0 := by rw [hzero]; norm_num
        _ ≤ A.sum 0 r (now - e.updatedAt) := Arithmetic.sum_mono_elapsed hpos.le helapsed
        _ ≤ A.sum e.tokens r (now - e.updatedAt) := Arithmetic.sum_mono_tokens (Nat.zero_le _)
    · calc A.sum e.tokens r (now - e.updatedAt) ≤ A.sum e.tokens r T :=
            Arithmetic.sum_mono_elapsed hpos.le hsoon
        _ ≤ A.sum (⌊2 * r'⌋₊ - 1) r T := Arithmetic.sum_mono_tokens htokens
        _ < 2 ^ 64 := h.fills r hr hpos r' hr'

/-- A call at a safe rate is in range. -/
theorem Admissible.inRange {S : Set ℚ} {T : ℚ} (h : Admissible A S T) {t : Table} {c : Call}
    (hrate : c.key? = some k → ∀ ρ, c.rate = some ρ → ρ ∈ S) (hentry : Filled S (t k))
    (horder : InOrder k t c) (hsoon : Soon T k t c) : InRange A k t c := by
  refine inRange_iff_converts.mpr fun hk ρ hρ hne => ?_
  have hmem := hrate hk ρ hρ
  refine ⟨?_, fun e he => ?_⟩
  · have habove := h.above ρ hmem
    have hbelow := h.below ρ hmem
    exact truncatesToSize_iff.mpr ⟨by linarith, by linarith⟩
  · rw [he] at hentry
    exact h.truncates hmem hne hentry (horder hk e he) (hsoon hk e he)

theorem Admissible.filled_of_checkStep {S : Set ℚ} {T : ℚ} (h : Admissible A S T) {t t' : Table}
    {x : Call × Reply} (hstep : CheckStep A t x t')
    (hrate : x.1.key? = some k → ∀ ρ, x.1.rate = some ρ → ρ ∈ S) (hentry : Filled S (t k)) :
    Filled S (t' k) := by
  rcases checkStep_cases hstep with ⟨ret, -, -, rfl⟩ | ⟨l, hinr, hlocked⟩
  · exact hentry
  · by_cases hk : k = l.key
    · obtain ⟨hkey, hlrate, -, hmax⟩ := tbfPrologue_inr hinr
      subst hk
      have hmem := hrate hkey l.rate hlrate
      have hsize : l.bucketMaxSize - 1 = ⌊2 * l.rate⌋₊ - 1 := by
        rw [hmax, bucketMaxSize_sub_one (h.above _ hmem) (h.below _ hmem)]
      rcases tbfLocked_cases hlocked with ⟨-, rfl, -⟩ | ⟨-, -, rfl⟩ | ⟨e, -, -, -, rfl⟩ |
        ⟨e, -, -, -, rfl⟩
      · exact hentry
      · rw [Function.update_self]
        rintro e' ⟨⟩
        exact ⟨l.rate, hmem, hsize.le⟩
      · rw [Function.update_self]
        rintro e' ⟨⟩
        exact ⟨l.rate, hmem, (Nat.sub_le_sub_right (min_le_right _ _) 1).trans hsize.le⟩
      · rw [Function.update_self]
        rintro e' ⟨⟩
        exact ⟨l.rate, hmem, Nat.zero_le _⟩
    · rw [tbfLocked_frame hlocked hk]
      exact hentry

/-- A run with safe rates stays in range. -/
theorem Admissible.run {S : Set ℚ} {T : ℚ} (h : Admissible A S T) {t t' : Table}
    {log : List (Call × Reply)} (hnew : t k = none)
    (hrun : Runs (fun t x t' => CheckStep A t x t' ∧ Soon T k t x.1) t log t')
    (huses : Uses S k log) :
    Runs (fun t x t' => CheckStep A t x t' ∧ InRange A k t x.1) t log t' := by
  have hnone : ∀ e, t k ≠ some e := by
    intro e he
    rw [hnew] at he
    cases he
  have hordered := (inOrder_of_sorted (A := A) (fun _ _ _ hst => hst.1) hrun huses.sorted
    fun e he => absurd he (hnone e)).and_label huses.rates
  have hfilled : Filled S (t k) := fun e he => absurd he (hnone e)
  clear hnew hnone hrun huses
  -- on the calls: before each of them the entry has what one of the rates filled
  induction hordered with
  | nil => exact .nil _
  | @cons s u v x log hst _ ih =>
    obtain ⟨⟨⟨hstep, hsoon⟩, horder⟩, hrate⟩ := hst
    exact .cons ⟨hstep, h.inRange hrate hfilled horder hsoon⟩
      (ih (h.filled_of_checkStep hstep hrate hfilled))

/-- Calls with timestamps in a span of `T` come soon. -/
theorem soon_of_span {a T : ℚ} {t t' : Table} {log : List (Call × Reply)}
    (h : CheckRun A t log t') (hnew : t k = none)
    (hstamps : ∀ x ∈ log, x.1.key? = some k → a ≤ x.1.now ∧ x.1.now ≤ a + T) :
    Runs (fun t x t' => CheckStep A t x t' ∧ Soon T k t x.1) t log t' := by
  have hpast : ∀ e, t k = some e → a ≤ e.updatedAt := by
    intro e he
    rw [hnew] at he
    cases he
  clear hnew
  -- on the calls: the entry is not stamped before the span
  induction h with
  | nil => exact .nil _
  | @cons s u v x log hstep _ ih =>
    have hhead := hstamps x List.mem_cons_self
    have hsoon : Soon T k s x.1 := by
      intro hk e he
      have hlow := hpast e he
      have hhigh := (hhead hk).2
      linarith
    refine .cons ⟨hstep, hsoon⟩ (ih (fun y hy => hstamps y (List.mem_cons_of_mem _ hy)) ?_)
    intro e' he'
    rcases updatedAt_of_checkStep hstep he' with ⟨e, he, hupd⟩ | ⟨hk, hupd⟩
    · rw [hupd]
      exact hpast e he
    · rw [hupd]
      exact (hhead hk).1

/-! ## Unsafe rates -/

/-- A call on the key `k`. -/
def callOn (k : KeyImage) (rate now : ℚ) : Call where
  namespaceId := some k.namespaceId
  bucketId := some k.bucketId
  rate := some rate
  stack := k
  now := now
  shmemFull := false

theorem key?_callOn (rate now : ℚ) : (callOn k rate now).key? = some k :=
  congrArg some k.ofCall_self

/-- A new bucket, and a call on it after `T`. -/
theorem run_twoCalls {r r' T : ℚ} (hne' : r' ≠ 0) :
    ∃ t₁ reply t₂, CheckStep A (fun _ => none) (callOn k r' 0, .returned true) t₁ ∧
      t₁ k = some ⟨0, bucketMaxSize A r' - 1⟩ ∧ CheckStep A t₁ (callOn k r T, reply) t₂ := by
  obtain ⟨t₁, hfirst, hentry, -⟩ := checkStep_of_new (A := A) (t := fun _ => none)
    (key?_callOn (k := k) r' 0) rfl hne' rfl rfl
  obtain ⟨t₂, reply, hsecond⟩ := tbfRateCheck_some A t₁ (callOn k r T)
  exact ⟨t₁, reply, t₂, hfirst, hentry, hsecond⟩

/-- The values that two such calls convert are in range if all runs are. -/
theorem converts_of_runs {S : Set ℚ} {T : ℚ} (hT : 0 ≤ T)
    (hall : ∀ (t t' : Table) (log : List (Call × Reply)), t k = none →
      Runs (fun t x t' => CheckStep A t x t' ∧ Soon T k t x.1) t log t' → Uses S k log →
      Runs (fun t x t' => CheckStep A t x t' ∧ InRange A k t x.1) t log t')
    {r r' : ℚ} (hr : r ∈ S) (hr' : r' ∈ S) (hne : r ≠ 0) (hne' : r' ≠ 0) :
    TruncatesToSize (r' * 2) ∧ TruncatesToSize (A.sum (bucketMaxSize A r' - 1) r T) := by
  obtain ⟨t₁, reply, t₂, hfirst, hentry, hsecond⟩ := run_twoCalls (A := A) (k := k) (r := r)
    (T := T) hne'
  have huses : Uses S k [(callOn k r' 0, .returned true), (callOn k r T, reply)] := by
    constructor
    · intro x hx _ ρ hρ
      simp only [List.mem_cons, List.not_mem_nil, or_false] at hx
      rcases hx with rfl | rfl
      · cases hρ
        exact hr'
      · cases hρ
        exact hr
    · rw [List.pairwise_pair]
      exact fun _ _ => hT
  have hsoon : Soon T k t₁ (callOn k r T) := by
    intro _ e he
    rw [hentry] at he
    cases he
    exact (sub_zero T).le
  have hrun := hall _ t₂ _ rfl
    (.cons ⟨hfirst, fun _ e he => nomatch he⟩ (.single ⟨hsecond, hsoon⟩)) huses
  cases hrun with
  | @cons _ u _ _ _ hst₁ hrest =>
    cases hrest with
    | cons hst₂ _ =>
      have hsame : (some u, Reply.returned true) = (some t₁, Reply.returned true) :=
        hst₁.1.symm.trans hfirst
      obtain rfl : u = t₁ := by simpa using hsame
      have hsize := inRange_iff_converts.mp hst₁.2 (key?_callOn r' 0) r' rfl hne'
      have hsum := inRange_iff_converts.mp hst₂.2 (key?_callOn r T) r rfl hne
      have hvalue := hsum.2 _ hentry
      rw [show (callOn k r T).now - 0 = T from sub_zero T] at hvalue
      exact ⟨hsize.1, hvalue⟩

end Range

/-- The range of the token arithmetic. On a key that goes without an admission for at most `T`, the
runs with rates of `S` that make the entry and come in the order of their timestamps all do their
arithmetic in range exactly if the rates are safe for this time. -/
theorem inRange_iff (A : Arithmetic) (k : KeyImage) (S : Set ℚ) {T : ℚ} (hT : 0 ≤ T) :
    (∀ (t t' : Table) (log : List (Call × Reply)), t k = none →
      Runs (fun t x t' => CheckStep A t x t' ∧ Soon T k t x.1) t log t' → Uses S k log →
      Runs (fun t x t' => CheckStep A t x t' ∧ InRange A k t x.1) t log t') ↔
    Admissible A S T := by
  constructor
  · intro hall
    have hsize : ∀ r ∈ S, -(1 / 2) < r ∧ r < 2 ^ 63 := by
      intro r hr
      rcases eq_or_ne r 0 with rfl | hne
      · norm_num
      · obtain ⟨hlow, hhigh⟩ := truncatesToSize_iff.mp (converts_of_runs hT hall hr hr hne hne).1
        exact ⟨by linarith, by linarith⟩
    have hsum : ∀ r ∈ S, r ≠ 0 → ∀ r' ∈ S, r' ≠ 0 → -1 < A.sum (⌊2 * r'⌋₊ - 1) r T ∧
        A.sum (⌊2 * r'⌋₊ - 1) r T < 2 ^ 64 := by
      intro r hr hne r' hr' hne'
      have hvalue := truncatesToSize_iff.mp (converts_of_runs hT hall hr hr' hne hne').2
      rwa [bucketMaxSize_sub_one (hsize r' hr').1 (hsize r' hr').2] at hvalue
    refine ⟨fun r hr => (hsize r hr).1, fun r hr => (hsize r hr).2, ?_, ?_⟩
    · intro r hr hneg
      have hvalue := (hsum r hr hneg.ne r hr hneg.ne).1
      rwa [Nat.floor_of_nonpos (by linarith)] at hvalue
    · intro r hr hpos r' hr'
      rcases eq_or_ne r' 0 with rfl | hne'
      · -- a zero rate fills no bucket
        have hempty : ⌊2 * (0 : ℚ)⌋₊ - 1 = 0 := by norm_num
        rw [hempty]
        exact (Arithmetic.sum_mono_tokens (Nat.zero_le _)).trans_lt
          (hsum r hr hpos.ne' r hr hpos.ne').2
      · exact (hsum r hr hpos.ne' r' hr' hne').2
  · intro h t t' log hnew hrun huses
    exact h.run hnew hrun huses

section Example

/-- The key of the pair `(1, 7)` on a stack of zeros. -/
def rateKey : KeyImage := KeyImage.ofCall ⟨List.replicate 16 0, length_zeroStack⟩ 1 7

/-- Half a token per second and one in ten seconds are safe on a key that is admitted once a day. -/
theorem admissible_day : Admissible x86 {1 / 2, 1 / 10} 86400 where
  above r hr := by
    rcases hr with rfl | rfl <;> norm_num
  below r hr := by
    rcases hr with rfl | rfl <;> norm_num
  drains r hr hneg := by
    rcases hr with rfl | rfl <;> norm_num at hneg
  fills r hr _ r' hr' := by
    rcases hr with rfl | rfl <;> rcases hr' with rfl | rfl <;> decide +kernel

/-- Calls at both rates: one an hour after the first, and one too soon after that. -/
def dayCalls : List Call := [callOn rateKey (1 / 2) 0, callOn rateKey (1 / 10) 3600,
  callOn rateKey (1 / 2) 3601]

theorem inRange_iff_dayCalls :
    Runs (fun t x t' => CheckStep x86 t x t' ∧ InRange x86 rateKey t x.1) (fun _ => none)
      [(callOn rateKey (1 / 2) 0, .returned true), (callOn rateKey (1 / 10) 3600, .returned true),
        (callOn rateKey (1 / 2) 3601, .returned false)]
      (runCalls x86 (fun _ => none) dayCalls).2 := by
  have hlog : (runCalls x86 (fun _ => none) dayCalls).1 =
      [(callOn rateKey (1 / 2) 0, .returned true), (callOn rateKey (1 / 10) 3600, .returned true),
        (callOn rateKey (1 / 2) 3601, .returned false)] := by decide +kernel
  have hcalls : ∀ x ∈ (runCalls x86 (fun _ => none) dayCalls).1, x.1 ∈ dayCalls := by
    intro x hx
    rw [← runCalls_calls x86 (fun _ => none) dayCalls]
    exact List.mem_map_of_mem hx
  have hrun := checkRun_runCalls x86 (fun _ => none) dayCalls
  have hsoon := soon_of_span (k := rateKey) (a := 0) (T := 86400) hrun rfl (by
    intro x hx _
    have hmem := hcalls x hx
    simp only [dayCalls, List.mem_cons, List.not_mem_nil, or_false] at hmem
    rcases hmem with h | h | h <;> rw [h] <;> norm_num [callOn])
  rw [← hlog]
  refine (inRange_iff x86 rateKey {1 / 2, 1 / 10} (by norm_num)).mpr admissible_day _ _ _ rfl hsoon
    ⟨?_, ?_⟩
  · intro x hx _ ρ hρ
    have hmem := hcalls x hx
    simp only [dayCalls, List.mem_cons, List.not_mem_nil, or_false] at hmem
    rcases hmem with h | h | h <;> rw [h] at hρ <;> cases hρ <;> simp
  · have hstamps : (dayCalls.map fun c => c.now).Pairwise (· ≤ ·) := by
      norm_num [dayCalls, callOn]
    rw [← runCalls_calls x86 (fun _ => none) dayCalls, List.map_map, List.pairwise_map] at hstamps
    exact hstamps.imp fun h _ _ => h

/-- A negative rate passes the check against zero, and its double is no `Size`. -/
theorem not_inRange : ¬ ∀ (t : Table) (log : List (Call × Reply)),
    CheckRun x86 (fun _ => none) log t → (log.Pairwise fun x y => x.1.now ≤ y.1.now) →
    ∀ k, Runs (fun t x t' => CheckStep x86 t x t' ∧ InRange x86 k t x.1) (fun _ => none) log t := by
  intro h
  obtain ⟨t, reply, hstep⟩ := tbfRateCheck_some x86 (fun _ => none) (callOn rateKey (-1) 0)
  have hrun := h t [(callOn rateKey (-1) 0, reply)] (.single hstep) (List.pairwise_singleton _ _)
    rateKey
  cases hrun with
  | cons hst _ =>
    have hsize := inRange_iff_converts.mp hst.2 (key?_callOn (-1) 0) (-1) rfl (by norm_num)
    have hlow := (truncatesToSize_iff.mp hsize.1).1
    norm_num at hlow

end Example

end YetiPgExt.Tbf
