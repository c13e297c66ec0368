import YetiPgExt.Library.Runs
import YetiPgExt.Tbf.Arithmetic
import YetiPgExt.Tbf.Key

/-!
# `tbf_rate_check`

The rate limiter as `f_tbf_rate_check.c` computes it. A call checks its arguments, builds its key
and reads the clock (`tbfPrologue`); then, holding the exclusive lock, it looks up its entry and
updates it (`tbfLocked`). Rates and times are rationals, and what is computed from them is rounded
and converted by an `Arithmetic`. Whether dynahash has room for a new element is an input of each
call.

`tbfLocked_cases` says what a call can do under the lock. Everything proved about runs of the
limiter goes through it.
-/

set_option autoImplicit false

namespace YetiPgExt.Tbf

open YetiPgExt.Library

/-- `tbfHashEntry` without its key, which the table is indexed by. -/
structure HashEntry where
  updatedAt : ℚ
  tokens : Nat
  deriving DecidableEq

/-- The shared hash table: `HASH_BLOBS` finds an entry by the raw bytes of its key. -/
abbrev Table := KeyImage → Option HashEntry

/-- One call: its arguments, `none` for a NULL; what the stack memory of `key` holds; the time
that `INSTR_TIME_SET_CURRENT` reads. Whether dynahash has room for another element depends on the
entries of all keys and on the rest of shared memory, and is an input too: `shmemFull` is the answer
that `HASH_ENTER` would get in this call. -/
structure Call where
  namespaceId : Option UInt32
  bucketId : Option UInt64
  rate : Option ℚ
  stack : KeyImage
  now : ℚ
  shmemFull : Bool
  deriving DecidableEq

/-- How a call ends: with a boolean, or with the error that `hash_search` raises. -/
inductive Reply where
  | returned (ret : Bool)
  | raised
  deriving DecidableEq

/-- The key of a call whose key arguments are not NULL. -/
def Call.key? (c : Call) : Option KeyImage :=
  match c.namespaceId, c.bucketId with
  | some ns, some b => some (KeyImage.ofCall c.stack ns b)
  | _, _ => none

/-- The locals a call has when it asks for the lock. -/
structure Locals where
  key : KeyImage
  rate : ℚ
  now : ℚ
  bucketMaxSize : Nat
  shmemFull : Bool

section Model

variable (A : Arithmetic)

/-- `bucket_max_size`: twice the rate, at least one. Twice a `float4` is one. -/
def bucketMaxSize (rate : ℚ) : Nat :=
  if A.toSize (rate * 2) < 1 then 1 else A.toSize (rate * 2)

/-- The part of `tbf_rate_check` before the lock: an immediate answer, or the locals. -/
def tbfPrologue (c : Call) : Bool ⊕ Locals :=
  match c.namespaceId, c.bucketId, c.rate with
  | some ns, some b, some rate =>
    -- a zero rate never passes, and takes no lock
    if rate = 0 then .inl false
    else .inr
      { key := KeyImage.ofCall c.stack ns b
        rate := rate
        now := c.now
        bucketMaxSize := bucketMaxSize A rate
        shmemFull := c.shmemFull }
  | _, _, _ => .inl true

/-- `entry->tokens += rate * INSTR_TIME_GET_DOUBLE(diff)`. -/
def refill (l : Locals) (e : HashEntry) : Nat :=
  A.toSize (A.sum e.tokens l.rate (l.now - e.updatedAt))

/-- The part of `tbf_rate_check` under the lock. -/
def tbfLocked (t : Table) (l : Locals) : Table × Reply :=
  match t l.key with
  | none =>
    if l.shmemFull then (t, .raised)
    else
      -- a new bucket is full, and this call takes its first token
      (Function.update t l.key (some { updatedAt := l.now, tokens := l.bucketMaxSize - 1 }),
        .returned true)
  | some e =>
    let tokens := refill A l e
    if tokens > 0 then
      let tokens := if tokens > l.bucketMaxSize then l.bucketMaxSize else tokens
      (Function.update t l.key (some { updatedAt := l.now, tokens := tokens - 1 }),
        .returned true)
    else
      -- `updated_at` stays: the time since then is credited to a later call
      (Function.update t l.key (some { e with tokens := tokens }), .returned false)

/-- `tbf_rate_check`; the table is `none` when the extension was not preloaded. -/
def tbfRateCheck (tbf : Option Table) (c : Call) : Option Table × Reply :=
  match tbf with
  | none => (none, .returned true)
  | some t =>
    match tbfPrologue A c with
    | .inl ret => (some t, .returned ret)
    | .inr l => ((tbfLocked A t l).1, (tbfLocked A t l).2)

/-- One call on the shared table, labelled with its reply. -/
def CheckStep (t : Table) (x : Call × Reply) (t' : Table) : Prop :=
  tbfRateCheck A (some t) x.1 = (some t', x.2)

/-- A run of calls, in the order in which they take the lock. -/
abbrev CheckRun (t : Table) (log : List (Call × Reply)) (t' : Table) : Prop :=
  Runs (CheckStep A) t log t'

/-- The replies to a sequence of calls on the shared table, and the table they leave. -/
def runCalls (t : Table) : List Call → List (Call × Reply) × Table
  | [] => ([], t)
  | c :: cs =>
    match tbfRateCheck A (some t) c with
    | (some t', reply) => ((c, reply) :: (runCalls t' cs).1, (runCalls t' cs).2)
    | (none, _) => ([], t)

variable {A}

/-- What a call can do under the lock: fail for want of shared memory, create its entry, take a
token from it, or find it without a token. -/
theorem tbfLocked_cases {t t' : Table} {l : Locals} {reply : Reply}
    (h : tbfLocked A t l = (t', reply)) :
    (t l.key = none ∧ t' = t ∧ reply = .raised) ∨
    (t l.key = none ∧ reply = .returned true ∧
      t' = Function.update t l.key (some ⟨l.now, l.bucketMaxSize - 1⟩)) ∨
    (∃ e, t l.key = some e ∧ 0 < refill A l e ∧ reply = .returned true ∧
      t' = Function.update t l.key (some ⟨l.now, min (refill A l e) l.bucketMaxSize - 1⟩)) ∨
    (∃ e, t l.key = some e ∧ refill A l e = 0 ∧ reply = .returned false ∧
      t' = Function.update t l.key (some ⟨e.updatedAt, 0⟩)) := by
  unfold tbfLocked at h
  cases he : t l.key with
  | none =>
    rw [he] at h
    simp only at h
    cases hfull : l.shmemFull with
    | true =>
      simp only [hfull, if_true, Prod.mk.injEq] at h
      exact .inl ⟨rfl, h.1.symm, h.2.symm⟩
    | false =>
      simp only [hfull, Bool.false_eq_true, if_false, Prod.mk.injEq] at h
      exact .inr (.inl ⟨rfl, h.2.symm, h.1.symm⟩)
  | some e =>
    rw [he] at h
    simp only at h
    by_cases hpos : refill A l e > 0
    · -- a token is there; the bucket overflows at its size
      have hmin : (if refill A l e > l.bucketMaxSize then l.bucketMaxSize else refill A l e) =
          min (refill A l e) l.bucketMaxSize := by
        rw [min_def]
        split <;> split <;> omega
      simp only [if_pos hpos, hmin, Prod.mk.injEq] at h
      exact .inr (.inr (.inl ⟨e, rfl, hpos, h.2.symm, h.1.symm⟩))
    · have hzero : refill A l e = 0 := by omega
      rw [if_neg hpos, hzero, Prod.mk.injEq] at h
      exact .inr (.inr (.inr ⟨e, rfl, hzero, h.2.symm, h.1.symm⟩))

/-- Under the lock only the entry of the call's own key changes. -/
theorem tbfLocked_frame {t t' : Table} {l : Locals} {reply : Reply}
    (h : tbfLocked A t l = (t', reply)) {k : KeyImage} (hk : k ≠ l.key) : t' k = t k := by
  rcases tbfLocked_cases h with ⟨-, rfl, -⟩ | ⟨-, -, rfl⟩ | ⟨e, -, -, -, rfl⟩ | ⟨e, -, -, -, rfl⟩
  · rfl
  · exact Function.update_of_ne hk _ _
  · exact Function.update_of_ne hk _ _
  · exact Function.update_of_ne hk _ _

/-- A call that raises leaves the table alone. -/
theorem tbfLocked_raised {t t' : Table} {l : Locals} (h : tbfLocked A t l = (t', .raised)) :
    t' = t := by
  rcases tbfLocked_cases h with ⟨-, ht, -⟩ | ⟨-, hr, -⟩ | ⟨e, -, -, hr, -⟩ | ⟨e, -, -, hr, -⟩
  · exact ht
  · cases hr
  · cases hr
  · cases hr

/-- A call that asks for the lock has the key and the rate of its arguments. -/
theorem tbfPrologue_inr {c : Call} {l : Locals} (h : tbfPrologue A c = .inr l) :
    c.key? = some l.key ∧ c.rate = some l.rate ∧ l.now = c.now ∧
      l.bucketMaxSize = bucketMaxSize A l.rate := by
  unfold tbfPrologue at h
  split at h
  · rename_i ns b rate hns hb hrate
    by_cases hz : rate = 0
    · simp [hz] at h
    · rw [if_neg hz] at h
      cases h
      exact ⟨by rw [Call.key?, hns, hb], hrate, rfl, rfl⟩
  · cases h

theorem tbfPrologue_shmemFull {c : Call} {l : Locals} (h : tbfPrologue A c = .inr l) :
    l.shmemFull = c.shmemFull := by
  unfold tbfPrologue at h
  split at h
  · split at h
    · cases h
    · cases h
      rfl
  · cases h

/-- A call with a key and a nonzero rate asks for the lock. -/
theorem tbfPrologue_of_key {c : Call} {k : KeyImage} {rate : ℚ} (hk : c.key? = some k)
    (hrate : c.rate = some rate) (hne : rate ≠ 0) :
    ∃ l, tbfPrologue A c = .inr l ∧ l.key = k ∧ l.rate = rate := by
  unfold Call.key? at hk
  split at hk
  · rename_i ns b hns hb
    cases hk
    refine ⟨_, by rw [tbfPrologue, hns, hb, hrate]; exact if_neg hne, rfl, rfl⟩
  · cases hk

/-- A call on the shared table answers at once or does its part under the lock. -/
theorem checkStep_cases {t t' : Table} {x : Call × Reply} (h : CheckStep A t x t') :
    (∃ ret, tbfPrologue A x.1 = .inl ret ∧ x.2 = .returned ret ∧ t' = t) ∨
    (∃ l, tbfPrologue A x.1 = .inr l ∧ tbfLocked A t l = (t', x.2)) := by
  unfold CheckStep tbfRateCheck at h
  cases hp : tbfPrologue A x.1 with
  | inl ret =>
    simp only [hp, Prod.mk.injEq, Option.some.injEq] at h
    exact .inl ⟨ret, rfl, h.2.symm, h.1.symm⟩
  | inr l =>
    simp only [hp, Prod.mk.injEq, Option.some.injEq] at h
    exact .inr ⟨l, rfl, Prod.ext h.1 h.2⟩

/-- What a call does about its own key: fail for want of shared memory, create the entry, take a
token from it, or find it without a token. -/
theorem checkStep_key_cases {t t' : Table} {x : Call × Reply} {k : KeyImage} {rate : ℚ}
    (h : CheckStep A t x t') (hk : x.1.key? = some k) (hrate : x.1.rate = some rate)
    (hne : rate ≠ 0) :
    (t k = none ∧ x.2 = .raised ∧ t' k = none) ∨
    (t k = none ∧ x.2 = .returned true ∧ t' k = some ⟨x.1.now, bucketMaxSize A rate - 1⟩) ∨
    (∃ e, t k = some e ∧ 0 < A.toSize (A.sum e.tokens rate (x.1.now - e.updatedAt)) ∧
      x.2 = .returned true ∧
      t' k = some ⟨x.1.now, min (A.toSize (A.sum e.tokens rate (x.1.now - e.updatedAt)))
        (bucketMaxSize A rate) - 1⟩) ∨
    (∃ e, t k = some e ∧ A.toSize (A.sum e.tokens rate (x.1.now - e.updatedAt)) = 0 ∧
      x.2 = .returned false ∧ t' k = some ⟨e.updatedAt, 0⟩) := by
  obtain ⟨l, hinr, rfl, rfl⟩ := tbfPrologue_of_key (A := A) hk hrate hne
  obtain ⟨-, -, hnow, hmax⟩ := tbfPrologue_inr hinr
  rcases checkStep_cases h with ⟨ret, hinl, -, -⟩ | ⟨l', hinr', hlocked⟩
  · rw [hinr] at hinl
    cases hinl
  · rw [hinr] at hinr'
    cases hinr'
    rw [← hnow, ← hmax]
    rcases tbfLocked_cases hlocked with ⟨hnone, rfl, hreply⟩ | ⟨hnone, hreply, rfl⟩ |
      ⟨e, he, hrefill, hreply, rfl⟩ | ⟨e, he, hrefill, hreply, rfl⟩
    · exact .inl ⟨hnone, hreply, hnone⟩
    · exact .inr (.inl ⟨hnone, hreply, Function.update_self _ _ _⟩)
    · exact .inr (.inr (.inl ⟨e, he, hrefill, hreply, Function.update_self _ _ _⟩))
    · exact .inr (.inr (.inr ⟨e, he, hrefill, hreply, Function.update_self _ _ _⟩))

/-- A call on another key leaves the entry alone. -/
theorem checkStep_frame {t t' : Table} {x : Call × Reply} {k : KeyImage} (h : CheckStep A t x t')
    (hk : x.1.key? ≠ some k) : t' k = t k := by
  rcases checkStep_cases h with ⟨ret, -, -, rfl⟩ | ⟨l, hinr, hlocked⟩
  · rfl
  · obtain ⟨hkey, -⟩ := tbfPrologue_inr hinr
    refine tbfLocked_frame hlocked ?_
    rintro rfl
    exact hk hkey

/-- A call on a key without an entry returns true, if there is room for the entry. -/
theorem checkStep_of_new {t : Table} {c : Call} {k : KeyImage} {rate : ℚ} (hk : c.key? = some k)
    (hrate : c.rate = some rate) (hne : rate ≠ 0) (hfull : c.shmemFull = false)
    (hnew : t k = none) :
    ∃ t', CheckStep A t (c, .returned true) t' ∧
      t' k = some ⟨c.now, bucketMaxSize A rate - 1⟩ ∧ ∀ k' ≠ k, t' k' = t k' := by
  obtain ⟨l, hinr, rfl, rfl⟩ := tbfPrologue_of_key (A := A) hk hrate hne
  obtain ⟨-, -, hnow, hmax⟩ := tbfPrologue_inr hinr
  have hroom : l.shmemFull = false := by
    rw [← hfull, tbfPrologue_shmemFull hinr]
  have hlocked : tbfLocked A t l =
      (Function.update t l.key (some ⟨l.now, l.bucketMaxSize - 1⟩), .returned true) := by
    simp [tbfLocked, hnew, hroom]
  refine ⟨Function.update t l.key (some ⟨l.now, l.bucketMaxSize - 1⟩), ?_, ?_, ?_⟩
  · rw [CheckStep, tbfRateCheck]
    simp only [hinr, hlocked]
  · rw [Function.update_self, hnow, hmax]
  · intro k' hk'
    exact Function.update_of_ne hk' _ _

/-- The shared table stays. -/
theorem tbfRateCheck_some (A : Arithmetic) (t : Table) (c : Call) :
    ∃ t' reply, tbfRateCheck A (some t) c = (some t', reply) := by
  unfold tbfRateCheck
  cases tbfPrologue A c with
  | inl ret => exact ⟨t, _, rfl⟩
  | inr l => exact ⟨_, _, rfl⟩

theorem checkRun_runCalls (A : Arithmetic) (t : Table) (cs : List Call) :
    CheckRun A t (runCalls A t cs).1 (runCalls A t cs).2 := by
  induction cs generalizing t with
  | nil => exact .nil t
  | cons c cs ih =>
    obtain ⟨t', reply, h⟩ := tbfRateCheck_some A t c
    simp only [runCalls, h]
    exact .cons h (ih t')

theorem runCalls_calls (A : Arithmetic) (t : Table) (cs : List Call) :
    (runCalls A t cs).1.map Prod.fst = cs := by
  induction cs generalizing t with
  | nil => rfl
  | cons c cs ih =>
    obtain ⟨t', reply, h⟩ := tbfRateCheck_some A t c
    simp only [runCalls, h, List.map_cons, ih]

end Model

end YetiPgExt.Tbf
