import YetiPgExt.Tbf.RateBound

/-!
# The limiter under concurrency

Any number of backends call `tbf_rate_check`. A call reads the clock first and takes the exclusive
lock afterwards, so other backends may run between the two, and the calls may get the lock in
another order than the one in which they read the clock. A state has the global clock, the
backends that wait for the lock with the locals of their call, and the shared table.

An elapsed time can then be negative, and with the x86-64 conversion a sum of `-1` or less becomes
a number close to `2 ^ 64`, which refills the bucket (`not_concurrent_bound`). The sum is rounded,
too, and may reach a whole number that it is not. In every interleaving in which no call meets one
of the two the bound of the limiter holds (`concurrent_accepted_le`), negative elapsed times
included.
-/

set_option autoImplicit false

namespace YetiPgExt.Tbf

open YetiPgExt.Library

universe u

variable {β : Type u}

/-- The backends' view of the limiter. -/
structure Shared (β : Type u) where
  clock : ℚ
  waiting : β → Option Locals
  table : Table

/-- What happens in an interleaving: the clock moves on; a backend begins a call; a waiting
backend gets the lock, does its part and leaves. -/
inductive Action (β : Type u) where
  | tick (now : ℚ)
  | read (b : β) (c : Call)
  | lock (b : β) (l : Locals) (reply : Reply)

/-- One step of an interleaving. -/
inductive ConcStep [DecidableEq β] (A : Arithmetic) : Shared β → Action β → Shared β → Prop
  | tick {s : Shared β} {now : ℚ} : s.clock ≤ now → ConcStep A s (.tick now) { s with clock := now }
  | answer {s : Shared β} {b : β} {c : Call} {ret : Bool} : s.waiting b = none →
      c.now = s.clock → tbfPrologue A c = .inl ret → ConcStep A s (.read b c) s
  | read {s : Shared β} {b : β} {c : Call} {l : Locals} : s.waiting b = none →
      c.now = s.clock → tbfPrologue A c = .inr l →
      ConcStep A s (.read b c) { s with waiting := Function.update s.waiting b (some l) }
  | lock {s : Shared β} {b : β} {l : Locals} {t : Table} {reply : Reply} :
      s.waiting b = some l → tbfLocked A s.table l = (t, reply) →
      ConcStep A s (.lock b l reply)
        { s with waiting := Function.update s.waiting b none, table := t }

/-- The call that gets the lock does not meet a sum of `-1` or less. -/
def NoWrap (A : Arithmetic) (k : KeyImage) (s : Shared β) : Action β → Prop
  | .lock _ l _ => l.key = k → ∀ e, s.table k = some e →
      -1 < A.sum e.tokens l.rate (l.now - e.updatedAt)
  | _ => True

/-- Rounding does not make up a token: every number of tokens, up to the bucket size, that the
rounded sum has is there without rounding. -/
def NoRoundedToken (A : Arithmetic) (k : KeyImage) (s : Shared β) : Action β → Prop
  | .lock _ l _ => l.key = k → ∀ e, s.table k = some e → ∀ n : ℕ, 1 ≤ n →
      n ≤ bucketMaxSize A l.rate → (n : ℚ) ≤ A.sum e.tokens l.rate (l.now - e.updatedAt) →
      (n : ℚ) ≤ e.tokens + l.rate * (l.now - e.updatedAt)
  | _ => True

/-- The two conditions on the action. -/
def Sound (A : Arithmetic) (k : KeyImage) (s : Shared β) (a : Action β) : Prop :=
  NoWrap A k s a ∧ NoRoundedToken A k s a

/-- The timestamps that the calls on the key `k` read. -/
def readStamps (k : KeyImage) (acts : List (Action β)) : Set ℚ :=
  { t | ∃ b c, Action.read b c ∈ acts ∧ c.key? = some k ∧ c.now = t }

/-- A call on the key `k` returns true. -/
def acceptedOn (k : KeyImage) : Action β → Bool
  | .lock _ l reply => decide (l.key = k) && decide (reply = .returned true)
  | _ => false

/-- What the meter of the key `k` sees of an interleaving. -/
def observeAction (k : KeyImage) : Action β → Option (Metered ℚ)
  | .lock _ l (.returned ret) => if l.key = k then some ⟨l.now, ret⟩ else none
  | _ => none

section Sound

variable {A : Arithmetic} {k : KeyImage}

/-- What a call takes its token from is covered if its sum neither wraps nor makes up a token. -/
theorem covered_of_sound {s : Shared β} {b : β} {l : Locals} {reply : Reply} (hk : l.key = k)
    (hmax : l.bucketMaxSize = bucketMaxSize A l.rate) (h : Sound A k s (.lock b l reply)) :
    Covered A l.rate l (s.table k) := by
  intro e he hpos
  have hsum : (refill A l e : ℚ) ≤ A.sum e.tokens l.rate (l.now - e.updatedAt) :=
    toSize_le_of_pos (h.1 hk e he) hpos
  have hone : 1 ≤ l.bucketMaxSize := by
    rw [hmax]
    exact one_le_bucketMaxSize A l.rate
  have hmin : ((min (refill A l e) l.bucketMaxSize : ℕ) : ℚ) ≤ refill A l e := by
    exact_mod_cast min_le_left _ _
  refine h.2 hk e he _ (le_min hpos hone) ?_ (hmin.trans hsum)
  rw [← hmax]
  exact min_le_right _ _

end Sound

section Interleaving

variable [DecidableEq β] {A : Arithmetic} {r : ℚ} {k : KeyImage}

/-- A call on the key `k` that waits for the lock has the common rate. -/
def WaitingAt (A : Arithmetic) (r : ℚ) (k : KeyImage) (s : Shared β) : Prop :=
  ∀ b l, s.waiting b = some l → l.key = k →
    l.rate = r ∧ l.bucketMaxSize = bucketMaxSize A l.rate

/-- The action does not begin a call on the key `k` at another rate. -/
def RateIs (r : ℚ) (k : KeyImage) : Action β → Prop
  | .read _ c => c.key? = some k → c.rate = some r
  | _ => True

theorem waitingAt_of_concStep {s s' : Shared β} {a : Action β} (h : ConcStep A s a s')
    (hrate : RateIs r k a) (hs : WaitingAt A r k s) : WaitingAt A r k s' := by
  intro b l hb hl
  cases h with
  | tick _ => exact hs b l hb hl
  | answer _ _ _ => exact hs b l hb hl
  | @read b' c l' _ _ hinr =>
    by_cases hbb : b = b'
    · subst hbb
      simp only [Function.update_self, Option.some.injEq] at hb
      subst hb
      obtain ⟨hkey, hcrate, -, hmax⟩ := tbfPrologue_inr hinr
      have hr := hrate (by rw [hkey, hl])
      rw [hcrate, Option.some.injEq] at hr
      exact ⟨hr, hmax⟩
    · simp only [Function.update_of_ne hbb] at hb
      exact hs b l hb hl
  | @lock b' l' _ _ _ _ =>
    by_cases hbb : b = b'
    · subst hbb
      simp only [Function.update_self] at hb
      cases hb
    · simp only [Function.update_of_ne hbb] at hb
      exact hs b l hb hl

/-- An interleaving of sound actions simulates the meter of the key. -/
theorem metered_interleaving (hr : 0 < r) {s s' : Shared β} {acts : List (Action β)}
    (h : Runs (fun s a s' => (ConcStep A s a s' ∧ Sound A k s a) ∧ RateIs r k a) s acts s')
    (hs : WaitingAt A r k s) :
    ∃ p, Runs (Metered.Step r (capacity r)) (potential r (s.table k))
      (acts.filterMap (observeAction k)) p := by
  have hsilent : ∀ (s : Shared β) a s' p, (p = potential r (s.table k) ∧ WaitingAt A r k s) →
      ((ConcStep A s a s' ∧ Sound A k s a) ∧ RateIs r k a) → observeAction k a = none →
      (p = potential r (s'.table k) ∧ WaitingAt A r k s') := by
    rintro s a s' p ⟨rfl, hw⟩ ⟨⟨hstep, -⟩, hrate⟩ hobs
    refine ⟨?_, waitingAt_of_concStep hstep hrate hw⟩
    cases hstep with
    | tick _ => rfl
    | answer _ _ _ => rfl
    | read _ _ _ => rfl
    | @lock b l t reply _ hlocked =>
      show potential r (s.table k) = potential r (t k)
      -- a silent lock is one that raised, or one on another key
      by_cases hk : l.key = k
      · cases reply with
        | returned ret => simp [observeAction, hk] at hobs
        | raised =>
          rw [tbfLocked_raised hlocked]
      · rw [tbfLocked_frame hlocked (Ne.symm hk)]
  have hvisible : ∀ (s : Shared β) a s' p e, (p = potential r (s.table k) ∧ WaitingAt A r k s) →
      ((ConcStep A s a s' ∧ Sound A k s a) ∧ RateIs r k a) → observeAction k a = some e →
      ∃ q, Metered.Step r (capacity r) p e q ∧
        (q = potential r (s'.table k) ∧ WaitingAt A r k s') := by
    rintro s a s' p e ⟨rfl, hw⟩ ⟨⟨hstep, hsound⟩, hrate⟩ hobs
    refine ⟨_, ?_, rfl, waitingAt_of_concStep hstep hrate hw⟩
    cases hstep with
    | tick _ => simp [observeAction] at hobs
    | answer _ _ _ => simp [observeAction] at hobs
    | read _ _ _ => simp [observeAction] at hobs
    | @lock b l t reply hb hlocked =>
      cases reply with
      | raised => simp [observeAction] at hobs
      | returned ret =>
        by_cases hk : l.key = k
        · simp only [observeAction, if_pos hk, Option.some.injEq] at hobs
          subst hobs
          obtain ⟨hlr, hmax⟩ := hw b l hb hk
          -- the elapsed time may be negative here: all calls have one rate, so they refill alike
          refine metered_of_tbfLocked hk hmax (hlr ▸ hr) (le_of_eq hlr) ?_ hlocked
          rw [← hlr]
          exact covered_of_sound hk hmax hsound
        · simp [observeAction, hk] at hobs
  obtain ⟨p, hrun, -⟩ := h.simulation hsilent hvisible ⟨rfl, hs⟩
  exact ⟨p, hrun⟩

/-- A call gets the lock with a timestamp that it read, or that it had from the start. -/
theorem stamp_of_lock {s s' : Shared β} {acts : List (Action β)} (h : Runs (ConcStep A) s acts s')
    {b : β} {l : Locals} {reply : Reply} (hlock : Action.lock b l reply ∈ acts)
    (hk : l.key = k) : (∃ b, s.waiting b = some l) ∨ l.now ∈ readStamps k acts := by
  induction h with
  | nil => cases hlock
  | @cons s t u a acts hstep _ ih =>
    -- a stamp that is waiting after the step was waiting before it, or the step read it
    have hback : (∃ b, t.waiting b = some l) →
        (∃ b, s.waiting b = some l) ∨ l.now ∈ readStamps k (a :: acts) := by
      rintro ⟨b', hb'⟩
      cases hstep with
      | tick _ => exact .inl ⟨b', hb'⟩
      | answer _ _ _ => exact .inl ⟨b', hb'⟩
      | @read b₀ c l₀ _ _ hinr =>
        by_cases hbb : b' = b₀
        · subst hbb
          simp only [Function.update_self, Option.some.injEq] at hb'
          subst hb'
          obtain ⟨hkey, -, hnow, -⟩ := tbfPrologue_inr hinr
          exact .inr ⟨b', c, List.mem_cons_self, by rw [hkey, hk], hnow.symm⟩
        · simp only [Function.update_of_ne hbb] at hb'
          exact .inl ⟨b', hb'⟩
      | @lock b₀ l₀ _ _ _ _ =>
        by_cases hbb : b' = b₀
        · subst hbb
          simp only [Function.update_self] at hb'
          cases hb'
        · simp only [Function.update_of_ne hbb] at hb'
          exact .inl ⟨b', hb'⟩
    rcases List.mem_cons.mp hlock with rfl | htail
    · cases hstep with
      | lock hb _ => exact .inl ⟨b, hb⟩
    · rcases ih htail with hwait | ⟨b', c, hmem, hkey, hnow⟩
      · exact hback hwait
      · exact .inr ⟨b', c, List.mem_cons_of_mem _ hmem, hkey, hnow⟩

end Interleaving

/-- The rate bound under concurrency, for every arithmetic, and so for that of the x86-64 code. In
every interleaving of calls on one key at one rate `r` in which no call meets a sum of `-1` or less
or one that is rounded up to a token, at most `max(1, floor(2r)) + r * (T_max - T_min)` calls return
true. -/
theorem concurrent_accepted_le [DecidableEq β] (A : Arithmetic) (k : KeyImage) {r : ℚ} (hr : 0 < r)
    {s s' : Shared β} {acts : List (Action β)}
    (hrun : Runs (fun s a s' => ConcStep A s a s' ∧ Sound A k s a) s acts s')
    (hidle : ∀ b, s.waiting b = none) (hnew : s.table k = none)
    (hrate : ∀ b c, Action.read b c ∈ acts → c.key? = some k → c.rate = some r)
    {tmin tmax : ℚ} (hmin : IsLeast (readStamps k acts) tmin)
    (hmax : IsGreatest (readStamps k acts) tmax) :
    (acts.countP (acceptedOn k) : ℚ) ≤ ((max 1 ⌊2 * r⌋ : ℤ) : ℚ) + r * (tmax - tmin) := by
  have hlabels : ∀ a ∈ acts, RateIs r k a := by
    intro a ha
    cases a with
    | tick _ => trivial
    | lock _ _ _ => trivial
    | read b c => exact hrate b c ha
  have hwaiting : WaitingAt A r k s := by
    intro b l hb
    rw [hidle b] at hb
    cases hb
  obtain ⟨p, hmeter⟩ := metered_interleaving hr (hrun.and_label hlabels) hwaiting
  -- no backend waits at the start, so every stamp was read in this interleaving
  have hstamps : ∀ b l reply, Action.lock b l reply ∈ acts → l.key = k →
      tmin ≤ l.now ∧ l.now ≤ tmax := by
    intro b l reply hlock hk
    rcases stamp_of_lock (hrun.mono fun _ _ _ h => h.1) hlock hk with ⟨b', hb'⟩ | hread
    · rw [hidle b'] at hb'
      cases hb'
    · exact ⟨hmin.2 hread, hmax.2 hread⟩
  have hcount : acts.countP (acceptedOn k) =
      (acts.filterMap (observeAction k)).countP (Metered.inWindow tmin tmax) := by
    rw [List.countP_filterMap]
    apply List.countP_congr
    intro a ha
    cases a with
    | tick _ => simp [acceptedOn, observeAction]
    | read _ _ => simp [acceptedOn, observeAction]
    | lock b l reply =>
      by_cases hk : l.key = k
      · obtain ⟨hlo, hhi⟩ := hstamps b l reply ha hk
        cases reply with
        | raised => simp [acceptedOn, observeAction]
        | returned ret =>
          cases ret <;> simp [acceptedOn, observeAction, Metered.inWindow, hk, hlo, hhi]
      · cases reply with
        | raised => simp [acceptedOn, observeAction]
        | returned ret => simp [acceptedOn, observeAction, hk]
  have hcap : 0 ≤ capacity r := le_trans zero_le_one (one_le_capacity r)
  rw [hcount]
  rw [hnew] at hmeter
  exact Metered.accepted_le (le_of_lt hr) hcap (hmin.2 hmax.1) hmeter

/-- Rounding makes up a token: 3.099702551 seconds at this rate are less than one. -/
example : (10825049 / 2 ^ 25 : ℚ) * (3099702551 / 10 ^ 9) < 1 ∧
    1 ≤ x86.sum 0 (10825049 / 2 ^ 25) (3099702551 / 10 ^ 9) := by decide +kernel

section Example

/-- A call of the pair `(1, 7)` at one token in two seconds. -/
def slowCall (now : ℚ) : Call where
  namespaceId := some 1
  bucketId := some 7
  rate := some (1 / 2)
  stack := ⟨List.replicate 16 0, length_zeroStack⟩
  now := now
  shmemFull := false

/-- The key of `slowCall`. -/
def slowKey : KeyImage := KeyImage.ofCall ⟨List.replicate 16 0, length_zeroStack⟩ 1 7

/-- What `slowCall` asks for the lock with. -/
def slowLocals (now : ℚ) : Locals where
  key := slowKey
  rate := 1 / 2
  now := now
  bucketMaxSize := 1
  shmemFull := false

theorem tbfPrologue_slowCall (now : ℚ) :
    tbfPrologue x86 (slowCall now) = .inr (slowLocals now) := by
  have hne : ¬ ((1 : ℚ) / 2 = 0) := by norm_num
  have hmax : bucketMaxSize x86 (1 / 2) = 1 := by decide +kernel
  simp only [tbfPrologue, slowCall, if_neg hne, hmax]
  rfl

/-- A call that makes its entry takes the only token of a bucket of one. -/
theorem tbfLocked_slow_new {t : Table} (now : ℚ) (hnew : t slowKey = none) :
    tbfLocked x86 t (slowLocals now) =
      (Function.update t slowKey (some ⟨now, 0⟩), .returned true) := by
  have hkey : t (slowLocals now).key = none := hnew
  simp only [tbfLocked, hkey]
  rfl

/-- So does a call that finds its entry and refills it. -/
theorem tbfLocked_slow {t : Table} (now : ℚ) {e : HashEntry} (he : t slowKey = some e)
    (hpos : 0 < refill x86 (slowLocals now) e) :
    tbfLocked x86 t (slowLocals now) =
      (Function.update t slowKey (some ⟨now, 0⟩), .returned true) := by
  have hkey : t (slowLocals now).key = some e := he
  have hcap : (if refill x86 (slowLocals now) e > 1 then 1
      else refill x86 (slowLocals now) e) - 1 = 0 := by
    split <;> omega
  simp only [tbfLocked, hkey, gt_iff_lt, if_pos hpos]
  exact congrArg (fun n => (Function.update t slowKey (some ⟨now, n⟩), Reply.returned true)) hcap

/-- And a call that finds no token leaves none. -/
theorem tbfLocked_slow_empty {t : Table} (now : ℚ) {e : HashEntry} (he : t slowKey = some e)
    (hzero : refill x86 (slowLocals now) e = 0) :
    tbfLocked x86 t (slowLocals now) =
      (Function.update t slowKey (some ⟨e.updatedAt, 0⟩), .returned false) := by
  have hkey : t (slowLocals now).key = some e := he
  simp only [tbfLocked, hkey, hzero, gt_iff_lt, lt_irrefl, if_false]
  rfl

/-- A call of the pair `(1, 8)` at the same rate. -/
def otherCall (now : ℚ) : Call := { slowCall now with bucketId := some 8 }

/-- What `otherCall` asks for the lock with. -/
def otherLocals (now : ℚ) : Locals :=
  { slowLocals now with key := KeyImage.ofCall ⟨List.replicate 16 0, length_zeroStack⟩ 1 8 }

theorem tbfPrologue_otherCall (now : ℚ) :
    tbfPrologue x86 (otherCall now) = .inr (otherLocals now) := by
  have hne : ¬ ((1 : ℚ) / 2 = 0) := by norm_num
  have hmax : bucketMaxSize x86 (1 / 2) = 1 := by decide +kernel
  simp only [tbfPrologue, otherCall, slowCall, if_neg hne, hmax]
  rfl

theorem otherLocals_key_ne (now : ℚ) : (otherLocals now).key ≠ slowKey := by
  show KeyImage.ofCall _ 1 8 ≠ KeyImage.ofCall _ 1 7
  decide

/-- Backend 1 reads the clock at `0`, backends 0 and 2 at `1` and backend 3 at `3`, backend 2 for
another bucket; backend 0 gets the lock before backend 1. -/
def crossedLocks : List (Action ℕ) :=
  [.read 1 (slowCall 0), .tick 1, .read 0 (slowCall 1), .read 2 (otherCall 1),
    .lock 0 (slowLocals 1) (.returned true), .lock 1 (slowLocals 0) (.returned false),
    .lock 2 (otherLocals 1) (.returned true), .tick 3, .read 3 (slowCall 3),
    .lock 3 (slowLocals 3) (.returned true)]

theorem sound_of_new {s : Shared ℕ} {b : ℕ} {l : Locals} {reply : Reply}
    (hnew : s.table slowKey = none) : Sound x86 slowKey s (.lock b l reply) := by
  constructor
  · intro _ e he
    rw [hnew] at he
    cases he
  · intro _ e he
    rw [hnew] at he
    cases he

theorem sound_of_other {s : Shared ℕ} {b : ℕ} {l : Locals} {reply : Reply}
    (hkey : l.key ≠ slowKey) : Sound x86 slowKey s (.lock b l reply) :=
  ⟨fun hk => absurd hk hkey, fun hk => absurd hk hkey⟩

/-- The bucket has room for one token, so this is the only number that rounding could make up. -/
theorem sound_of_entry {s : Shared ℕ} {b : ℕ} {now : ℚ} {reply : Reply} {e : HashEntry}
    (he : s.table slowKey = some e)
    (hwrap : -1 < x86.sum e.tokens (1 / 2) (now - e.updatedAt))
    (hround : 1 ≤ x86.sum e.tokens (1 / 2) (now - e.updatedAt) →
      1 ≤ (e.tokens : ℚ) + 1 / 2 * (now - e.updatedAt)) :
    Sound x86 slowKey s (.lock b (slowLocals now) reply) := by
  have hmax : bucketMaxSize x86 (1 / 2) = 1 := by decide +kernel
  constructor
  · intro _ e' he'
    rw [he, Option.some.injEq] at he'
    subst he'
    exact hwrap
  · intro _ e' he' n hpos hle hsum
    rw [he, Option.some.injEq] at he'
    subst he'
    obtain rfl : n = 1 := le_antisymm (hle.trans_eq hmax) hpos
    rw [Nat.cast_one] at hsum ⊢
    exact hround hsum

theorem runs_crossedLocks : ∃ s', Runs (fun s a s' => ConcStep x86 s a s' ∧ Sound x86 slowKey s a)
    (⟨0, fun _ => none, fun _ => none⟩ : Shared ℕ) crossedLocks s' :=
  ⟨_, .cons ⟨.read rfl rfl (tbfPrologue_slowCall 0), trivial, trivial⟩ <|
    .cons ⟨.tick (by norm_num), trivial, trivial⟩ <|
    .cons ⟨.read rfl rfl (tbfPrologue_slowCall 1), trivial, trivial⟩ <|
    .cons ⟨.read rfl rfl (tbfPrologue_otherCall 1), trivial, trivial⟩ <|
    .cons ⟨.lock rfl (tbfLocked_slow_new 1 rfl), sound_of_new rfl⟩ <|
    .cons ⟨.lock rfl (tbfLocked_slow_empty 0 (e := ⟨1, 0⟩) rfl (by decide +kernel)),
      sound_of_entry (e := ⟨1, 0⟩) rfl (by decide +kernel) (by decide +kernel)⟩ <|
    .cons ⟨.lock rfl rfl, sound_of_other (otherLocals_key_ne 1)⟩ <|
    .cons ⟨.tick (by norm_num), trivial, trivial⟩ <|
    .cons ⟨.read rfl rfl (tbfPrologue_slowCall 3), trivial, trivial⟩ <|
    .single ⟨.lock rfl (tbfLocked_slow 3 (e := ⟨1, 0⟩) rfl (by decide +kernel)),
      sound_of_entry (e := ⟨1, 0⟩) rfl (by decide +kernel) (by decide +kernel)⟩⟩

/-- Two of the three calls on the bucket return true; the one that is stamped before the entry finds
half a token less than none. -/
theorem concurrent_accepted_le_crossedLocks :
    (crossedLocks.countP (acceptedOn slowKey) : ℚ) ≤
      ((max 1 ⌊2 * ((1 : ℚ) / 2)⌋ : ℤ) : ℚ) + 1 / 2 * (3 - 0) := by
  have hread : ∀ b c, Action.read b c ∈ crossedLocks →
      c = slowCall 0 ∨ c = slowCall 1 ∨ c = otherCall 1 ∨ c = slowCall 3 := by
    intro b c hmem
    simp only [crossedLocks, List.mem_cons, Action.read.injEq, List.not_mem_nil, or_false,
      reduceCtorEq, false_or] at hmem
    tauto
  have hstamp : ∀ t ∈ readStamps slowKey crossedLocks, t = 0 ∨ t = 1 ∨ t = 3 := by
    rintro t ⟨b, c, hmem, -, rfl⟩
    rcases hread b c hmem with rfl | rfl | rfl | rfl
    · exact .inl rfl
    · exact .inr (.inl rfl)
    · exact .inr (.inl rfl)
    · exact .inr (.inr rfl)
  obtain ⟨s', hrun⟩ := runs_crossedLocks
  refine concurrent_accepted_le x86 slowKey (by norm_num) hrun (fun _ => rfl) rfl ?_ ?_ ?_
  · intro b c hmem _
    rcases hread b c hmem with rfl | rfl | rfl | rfl <;> rfl
  · refine ⟨⟨1, slowCall 0, by simp [crossedLocks], rfl, rfl⟩, ?_⟩
    intro t ht
    rcases hstamp t ht with rfl | rfl | rfl <;> norm_num
  · refine ⟨⟨3, slowCall 3, by simp [crossedLocks], rfl, rfl⟩, ?_⟩
    intro t ht
    rcases hstamp t ht with rfl | rfl | rfl <;> norm_num

/-- Backends 1 and 3 read the clock at `0`, backends 0 and 2 at `4`; the lock goes to 0, 1, 2, 3. -/
def lateLocks : List (Action ℕ) :=
  [.read 1 (slowCall 0), .read 3 (slowCall 0), .tick 4, .read 0 (slowCall 4),
    .read 2 (slowCall 4), .lock 0 (slowLocals 4) (.returned true),
    .lock 1 (slowLocals 0) (.returned true), .lock 2 (slowLocals 4) (.returned true),
    .lock 3 (slowLocals 0) (.returned true)]

theorem runs_lateLocks : ∃ s', Runs (ConcStep x86)
    (⟨0, fun _ => none, fun _ => none⟩ : Shared ℕ) lateLocks s' :=
  ⟨_, .cons (.read rfl rfl (tbfPrologue_slowCall 0)) <|
    .cons (.read rfl rfl (tbfPrologue_slowCall 0)) <|
    .cons (.tick (by norm_num)) <|
    .cons (.read rfl rfl (tbfPrologue_slowCall 4)) <|
    .cons (.read rfl rfl (tbfPrologue_slowCall 4)) <|
    .cons (.lock rfl (tbfLocked_slow_new 4 rfl)) <|
    .cons (.lock rfl (tbfLocked_slow 0 (e := ⟨4, 0⟩) rfl (by decide +kernel))) <|
    .cons (.lock rfl (tbfLocked_slow 4 (e := ⟨0, 0⟩) rfl (by decide +kernel))) <|
    .single (.lock rfl (tbfLocked_slow 0 (e := ⟨4, 0⟩) rfl (by decide +kernel)))⟩

/-- The calls of `lateLocks` share a bucket of one token and a rate of half a token per second.
All four return true, where the bound is three. -/
theorem not_concurrent_bound : ¬ ∀ (k : KeyImage) (r : ℚ), 0 < r → ∀ (s s' : Shared ℕ)
    (acts : List (Action ℕ)), Runs (ConcStep x86) s acts s' →
    (∀ b, s.waiting b = none) → s.table k = none →
    (∀ b c, Action.read b c ∈ acts → c.key? = some k ∧ c.rate = some r) →
    ∀ tmin tmax, IsLeast (readStamps k acts) tmin → IsGreatest (readStamps k acts) tmax →
      (acts.countP (acceptedOn k) : ℚ) ≤ ((max 1 ⌊2 * r⌋ : ℤ) : ℚ) + r * (tmax - tmin) := by
  intro h
  have hread : ∀ b c, Action.read b c ∈ lateLocks → c = slowCall 0 ∨ c = slowCall 4 := by
    intro b c hmem
    simp only [lateLocks, List.mem_cons, Action.read.injEq, List.not_mem_nil, or_false,
      reduceCtorEq, false_or] at hmem
    tauto
  have hstamp : ∀ t ∈ readStamps slowKey lateLocks, t = 0 ∨ t = 4 := by
    rintro t ⟨b, c, hmem, -, rfl⟩
    rcases hread b c hmem with rfl | rfl
    · exact .inl rfl
    · exact .inr rfl
  have hmin : IsLeast (readStamps slowKey lateLocks) 0 := by
    refine ⟨⟨1, slowCall 0, by simp [lateLocks], rfl, rfl⟩, ?_⟩
    intro t ht
    rcases hstamp t ht with rfl | rfl <;> norm_num
  have hmax : IsGreatest (readStamps slowKey lateLocks) 4 := by
    refine ⟨⟨0, slowCall 4, by simp [lateLocks], rfl, rfl⟩, ?_⟩
    intro t ht
    rcases hstamp t ht with rfl | rfl <;> norm_num
  obtain ⟨s', hrun⟩ := runs_lateLocks
  have hbound := h slowKey (1 / 2) (by norm_num) _ s' lateLocks hrun (fun _ => rfl) rfl
    (fun b c hmem => by rcases hread b c hmem with rfl | rfl <;> exact ⟨rfl, rfl⟩)
    0 4 hmin hmax
  have hcount : lateLocks.countP (acceptedOn slowKey) = 4 := by
    simp [lateLocks, acceptedOn, slowLocals]
  rw [hcount] at hbound
  norm_num at hbound

end Example

end YetiPgExt.Tbf
