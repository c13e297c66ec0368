import YetiPgExt.Library.Independent
import YetiPgExt.Tbf.Concurrent

/-!
# Buckets do not disturb each other

The limiter is the product of its buckets: a log of calls on the shared table is a run exactly if,
for each key, the calls on this key are one (`checkRun_iff`). So what a bucket answers depends on
its own calls only, however they are mixed with calls on other keys.

`interleaving_project` says the same of backends that wait for the lock. In every interleaving the
actions about one key are an interleaving of their own.

What the buckets share is the room for new entries. Whether a call finds room is one of its inputs
(`Call.shmemFull`), so calls on other keys may change that, and nothing else.
-/

set_option autoImplicit false

namespace YetiPgExt.Tbf

open YetiPgExt.Library

universe u

section Isolation

variable {A : Arithmetic}

/-! ## Sequential calls -/

/-- Under the lock a call depends on its own entry only. -/
theorem tbfLocked_congr {s t : Table} {l : Locals} (h : s l.key = t l.key) :
    (tbfLocked A s l).2 = (tbfLocked A t l).2 ∧
      (tbfLocked A s l).1 l.key = (tbfLocked A t l).1 l.key := by
  unfold tbfLocked
  rw [h]
  cases ht : t l.key with
  | none =>
    by_cases hfull : l.shmemFull = true
    · simp only [if_pos hfull]
      exact ⟨trivial, h⟩
    · simp only [if_neg hfull, Function.update_self]
      exact ⟨trivial, trivial⟩
  | some e =>
    by_cases hpos : refill A l e > 0
    · simp only [if_pos hpos, Function.update_self]
      exact ⟨trivial, trivial⟩
    · simp only [if_neg hpos, Function.update_self]
      exact ⟨trivial, trivial⟩

theorem checkStep_of_inl {c : Call} {ret : Bool} (h : tbfPrologue A c = .inl ret) (t : Table) :
    CheckStep A t (c, .returned ret) t := by
  rw [CheckStep, tbfRateCheck]
  simp only [h]

theorem checkStep_of_inr {c : Call} {l : Locals} (h : tbfPrologue A c = .inr l) {t t' : Table}
    {reply : Reply} (hlocked : tbfLocked A t l = (t', reply)) : CheckStep A t (c, reply) t' := by
  rw [CheckStep, tbfRateCheck]
  simp only [h, hlocked]

/-- A call without a key is answered at once. -/
theorem tbfPrologue_of_keyless {c : Call} (h : c.key? = none) : tbfPrologue A c = .inl true := by
  unfold Call.key? at h
  unfold tbfPrologue
  split at h
  · cases h
  · rename_i hpair
    split
    · rename_i ns b _ hns hb _
      exact absurd hb (hpair ns b hns)
    · rfl

/-- The key that a call of a log is about. -/
def keyOf (x : Call × Reply) : Option KeyImage := x.1.key?

theorem checkStep_local (A : Arithmetic) : Local (CheckStep A) keyOf where
  frame := checkStep_frame
  entry := by
    intro s t t' x k hstep hk hs
    obtain ⟨c, reply⟩ := x
    rcases checkStep_cases hstep with ⟨ret, hinl, hreply, rfl⟩ | ⟨l, hinr, hlocked⟩
    · subst hreply
      exact ⟨s, checkStep_of_inl hinl s, hs⟩
    · obtain ⟨hkey, -⟩ := tbfPrologue_inr hinr
      obtain rfl : l.key = k := Option.some.inj (hkey.symm.trans hk)
      obtain ⟨hsame, hentry⟩ := tbfLocked_congr (A := A) hs
      rw [hlocked] at hsame hentry
      exact ⟨_, checkStep_of_inr hinr (Prod.ext rfl hsame), hentry⟩
  keyless := by
    intro s t t' x hstep hk
    obtain ⟨c, reply⟩ := x
    have hinl := tbfPrologue_of_keyless (A := A) hk
    rcases checkStep_cases hstep with ⟨ret, hinl', hreply, -⟩ | ⟨l, hinr, -⟩
    · rw [hinl, Sum.inl.injEq] at hinl'
      subst hinl'
      subst hreply
      exact ⟨s, checkStep_of_inl hinl s⟩
    · rw [hinl] at hinr
      cases hinr

/-- The limiter is the product of its buckets. A log of calls, each with whether it would find room
for a new entry, is a run from `t` to `t'` exactly if for each key the calls on it, alone and in
their order, are a run that leaves the same entry, and every call without a key returns true. -/
theorem checkRun_iff (A : Arithmetic) (t t' : Table) (log : List (Call × Reply)) :
    CheckRun A t log t' ↔
      (∀ x ∈ log, x.1.key? = none → x.2 = .returned true) ∧
        ∀ k, ∃ s, CheckRun A t (onKey keyOf k log) s ∧ s k = t' k := by
  rw [CheckRun, (checkStep_local A).runs_iff]
  refine and_congr_left' (forall₂_congr fun x hx => ?_)
  obtain ⟨c, reply⟩ := x
  constructor
  · rintro h hk
    obtain ⟨s, s', hstep⟩ := h hk
    have hinl := tbfPrologue_of_keyless (A := A) hk
    rcases checkStep_cases hstep with ⟨ret, hinl', hreply, -⟩ | ⟨l, hinr, -⟩
    · rw [hinl, Sum.inl.injEq] at hinl'
      rw [hreply, hinl']
    · rw [hinl] at hinr
      cases hinr
  · intro h hk
    obtain rfl : reply = .returned true := h hk
    exact ⟨t, t, checkStep_of_inl (tbfPrologue_of_keyless hk) t⟩

/-! ## Interleavings -/

variable {β : Type u}

/-- The part of a state that belongs to the key `k`. -/
def Shared.only (k : KeyImage) (s : Shared β) : Shared β where
  clock := s.clock
  waiting b := (s.waiting b).filter fun l => decide (l.key = k)
  table j := if j = k then s.table j else none

/-- The clock, and the calls on the key `k`. -/
def concerns (k : KeyImage) : Action β → Bool
  | .tick _ => true
  | .read _ c => decide (c.key? = some k)
  | .lock _ l _ => decide (l.key = k)

section Project

variable [DecidableEq β] {k : KeyImage} {s s' : Shared β} {a : Action β}

theorem only_waiting_update (s : Shared β) (b : β) (w : Option Locals) :
    (fun b' => (Function.update s.waiting b w b').filter fun l => decide (l.key = k)) =
      Function.update (s.only k).waiting b (w.filter fun l => decide (l.key = k)) := by
  funext b'
  by_cases hb : b' = b
  · subst hb
    rw [Function.update_self, Function.update_self]
  · rw [Function.update_of_ne hb, Function.update_of_ne hb]
    rfl

/-- A backend that does not wait, or waits with a call on another key. -/
theorem only_waiting_of_none {b : β} {w : Option Locals}
    (hb : (s.waiting b).filter (fun l => decide (l.key = k)) = none)
    (hw : w.filter (fun l => decide (l.key = k)) = none) :
    (fun b' => (Function.update s.waiting b w b').filter fun l => decide (l.key = k)) =
      (s.only k).waiting := by
  rw [only_waiting_update, hw]
  exact Function.update_eq_self_iff.mpr hb.symm

/-- An action about the key is one of its own part, and every other action leaves this part
alone. -/
theorem ConcStep.project (h : ConcStep A s a s') (k : KeyImage) :
    (concerns k a = true → ConcStep A (s.only k) a (s'.only k)) ∧
      (concerns k a = false → s'.only k = s.only k) := by
  cases h with
  | tick hle => exact ⟨fun _ => .tick hle, fun hnot => nomatch hnot⟩
  | @answer b c ret hb hnow hinl =>
    refine ⟨fun _ => .answer ?_ hnow hinl, fun _ => rfl⟩
    show (s.waiting b).filter _ = none
    rw [hb]
    rfl
  | @read b c l hb hnow hinr =>
    obtain ⟨hkey, -⟩ := tbfPrologue_inr hinr
    have hidle : (s.waiting b).filter (fun l => decide (l.key = k)) = none := by
      rw [hb]
      rfl
    constructor
    · intro hconcerns
      have hl : l.key = k := by
        rw [concerns, decide_eq_true_iff, hkey, Option.some.injEq] at hconcerns
        exact hconcerns
      have hstep : ConcStep A (s.only k) (.read b c)
          { s.only k with waiting := Function.update (s.only k).waiting b (some l) } :=
        .read hidle hnow hinr
      have hwaiting : (some l).filter (fun l => decide (l.key = k)) = some l := by
        rw [Option.filter_some, if_pos (decide_eq_true hl)]
      rw [← hwaiting, ← only_waiting_update] at hstep
      exact hstep
    · intro hconcerns
      have hl : (some l).filter (fun l => decide (l.key = k)) = none := by
        rw [concerns, decide_eq_false_iff_not, hkey, Option.some.injEq] at hconcerns
        rw [Option.filter_some, if_neg (by rwa [decide_eq_true_iff])]
      rw [Shared.only, only_waiting_of_none hidle hl]
      rfl
  | @lock b l t reply hb hlocked =>
    constructor
    · intro hconcerns
      have hl : l.key = k := of_decide_eq_true hconcerns
      have hwaits : (s.only k).waiting b = some l := by
        show (s.waiting b).filter _ = some l
        rw [hb, Option.filter_some, if_pos (decide_eq_true hl)]
      have htable : (s.only k).table l.key = s.table l.key := if_pos hl
      obtain ⟨hreply, hentry⟩ := tbfLocked_congr (A := A) htable
      rw [hl, hlocked] at hentry
      have hlocked' : tbfLocked A (s.only k).table l =
          ((fun j => if j = k then t j else none), reply) := by
        refine Prod.ext (funext fun j => ?_) (by rw [hreply, hlocked])
        show (tbfLocked A (s.only k).table l).1 j = if j = k then t j else none
        by_cases hj : j = k
        · rw [if_pos hj, hj, hentry]
        · have hframe := tbfLocked_frame (A := A) (t := (s.only k).table) (l := l)
            Prod.mk.eta.symm (hl.symm ▸ hj)
          rw [if_neg hj, hframe]
          exact if_neg hj
      have hstep := ConcStep.lock hwaits hlocked'
      have hnone : (none : Option Locals).filter (fun l => decide (l.key = k)) = none := rfl
      rw [← hnone, ← only_waiting_update] at hstep
      exact hstep
    · intro hconcerns
      have hl : ¬l.key = k := of_decide_eq_false hconcerns
      have hother : (s.waiting b).filter (fun l => decide (l.key = k)) = none := by
        rw [hb, Option.filter_some, if_neg (by rwa [decide_eq_true_iff])]
      have htable : (fun j => if j = k then t j else none) = (s.only k).table := by
        funext j
        by_cases hj : j = k
        · subst hj
          rw [if_pos rfl, tbfLocked_frame hlocked (Ne.symm hl)]
          exact (if_pos rfl).symm
        · rw [if_neg hj]
          exact (if_neg hj).symm
      rw [Shared.only, only_waiting_of_none hother rfl]
      show Shared.mk _ _ (fun j => if j = k then t j else none) = _
      rw [htable]
      rfl

/-- In every interleaving of any number of backends the clock and the calls on the key `k` are an
interleaving of their own: given for each call whether it would find room for a new entry, no call
on another key changes a reply or the bucket of `k`. -/
theorem interleaving_project (A : Arithmetic) (k : KeyImage) {s s' : Shared β}
    {acts : List (Action β)} (hrun : Runs (ConcStep A) s acts s') :
    Runs (ConcStep A) (s.only k) (acts.filter (concerns k)) (s'.only k) := by
  induction hrun with
  | nil s => exact .nil _
  | @cons s s₁ s' a acts hstep _ ih =>
    obtain ⟨habout, hother⟩ := hstep.project k
    cases hconcerns : concerns k a with
    | true =>
      rw [List.filter_cons_of_pos hconcerns]
      exact .cons (habout hconcerns) ih
    | false =>
      rw [List.filter_cons_of_neg (by rw [hconcerns]; exact Bool.false_ne_true),
        ← hother hconcerns]
      exact ih

end Project

end Isolation

/-- The call of backend 2 on the other bucket is gone. -/
theorem interleaving_project_crossedLocks :
    ∃ s', Runs (ConcStep x86) ((⟨0, fun _ => none, fun _ => none⟩ : Shared ℕ).only slowKey)
      [.read 1 (slowCall 0), .tick 1, .read 0 (slowCall 1), .lock 0 (slowLocals 1) (.returned true),
        .lock 1 (slowLocals 0) (.returned false), .tick 3, .read 3 (slowCall 3),
        .lock 3 (slowLocals 3) (.returned true)] s' := by
  obtain ⟨s', hrun⟩ := runs_crossedLocks
  exact ⟨_, interleaving_project x86 slowKey (hrun.mono fun _ _ _ h => h.1)⟩

end YetiPgExt.Tbf
