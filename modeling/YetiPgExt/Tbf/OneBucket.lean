import YetiPgExt.Tbf.RateCheck

/-!
# One bucket per key

The limiter is meant to keep one bucket per `(namespace_id, bucket_id)`. Its table is indexed by
the whole key image, and `tbf_rate_check` does not clear the padding of the key it builds on the
stack. `oneBucket_iff`: a run keeps one bucket per pair exactly when calls with the same pair
find the same bytes in the padding of their key.
-/

set_option autoImplicit false

namespace YetiPgExt.Tbf

open YetiPgExt.Library

/-- The pair a call is about. -/
def Call.pair (c : Call) : Option UInt32 × Option UInt64 := (c.namespaceId, c.bucketId)

/-- The key of the entry that a call used: none if it was answered without the table, or if the
table had no room for its entry. -/
def usedKey (A : Arithmetic) (x : Call × Reply) : Option KeyImage :=
  match tbfPrologue A x.1, x.2 with
  | .inr l, .returned _ => some l.key
  | _, _ => none

/-- One bucket per pair: two calls use the same entry exactly when they are about the same pair,
and the table has at most one entry per pair. -/
structure OneBucketPerPair (A : Arithmetic) (log : List (Call × Reply)) (t : Table) : Prop where
  same_iff : ∀ x ∈ log, ∀ y ∈ log, ∀ k k', usedKey A x = some k → usedKey A y = some k' →
    (k = k' ↔ x.1.pair = y.1.pair)
  entry_unique : ∀ k k', t k ≠ none → t k' ≠ none → k.namespaceId = k'.namespaceId →
    k.bucketId = k'.bucketId → k = k'

/-- Calls that use an entry and are about the same pair find the same bytes in the padding. -/
def SamePadding (A : Arithmetic) (log : List (Call × Reply)) : Prop :=
  ∀ x ∈ log, ∀ y ∈ log, usedKey A x ≠ none → usedKey A y ≠ none → x.1.pair = y.1.pair →
    x.1.stack.padding = y.1.stack.padding

section OneBucket

variable {A : Arithmetic}

theorem usedKey_eq_some {x : Call × Reply} {k : KeyImage} (h : usedKey A x = some k) :
    ∃ ns b, x.1.pair = (some ns, some b) ∧ k = KeyImage.ofCall x.1.stack ns b := by
  unfold usedKey at h
  split at h
  · rename_i l ret hinr hret
    cases h
    obtain ⟨hkey, -⟩ := tbfPrologue_inr hinr
    unfold Call.key? at hkey
    split at hkey
    · rename_i ns b hns hb
      simp only [Option.some.injEq] at hkey
      exact ⟨ns, b, by rw [Call.pair, hns, hb], hkey.symm⟩
    · cases hkey
  · cases h

theorem usedKey_of_returned {c : Call} {k : KeyImage} {rate : ℚ} (hk : c.key? = some k)
    (hrate : c.rate = some rate) (hne : rate ≠ 0) (ret : Bool) :
    usedKey A (c, .returned ret) = some k := by
  obtain ⟨l, hinr, rfl, -⟩ := tbfPrologue_of_key (A := A) hk hrate hne
  rw [usedKey, hinr]

/-- An entry of the table was there before the call, or the call used it. -/
theorem entry_of_checkStep {t t' : Table} {x : Call × Reply} (h : CheckStep A t x t')
    {k : KeyImage} (hk : t' k ≠ none) : t k ≠ none ∨ usedKey A x = some k := by
  rcases checkStep_cases h with ⟨ret, -, -, rfl⟩ | ⟨l, hinr, hlocked⟩
  · exact .inl hk
  · by_cases hkey : k = l.key
    · subst hkey
      cases hreply : x.2 with
      | returned ret => exact .inr (by rw [usedKey, hinr, hreply])
      | raised =>
        rw [hreply] at hlocked
        rw [tbfLocked_raised hlocked] at hk
        exact .inl hk
    · rw [tbfLocked_frame hlocked hkey] at hk
      exact .inl hk

theorem entry_of_checkRun {t t' : Table} {log : List (Call × Reply)} (h : CheckRun A t log t')
    {k : KeyImage} (hk : t' k ≠ none) : t k ≠ none ∨ ∃ x ∈ log, usedKey A x = some k := by
  induction h with
  | nil => exact .inl hk
  | @cons s t u x log hstep _ ih =>
    rcases ih hk with ht | ⟨y, hy, hused⟩
    · rcases entry_of_checkStep hstep ht with hs | hused
      · exact .inl hs
      · exact .inr ⟨x, List.mem_cons_self, hused⟩
    · exact .inr ⟨y, List.mem_cons_of_mem _ hy, hused⟩

/-- With equal padding for equal pairs, an entry is used by exactly the calls of its pair. -/
theorem same_iff_of_samePadding {log : List (Call × Reply)} (h : SamePadding A log)
    {x y : Call × Reply} (hx : x ∈ log) (hy : y ∈ log) {k k' : KeyImage}
    (hk : usedKey A x = some k) (hk' : usedKey A y = some k') :
    k = k' ↔ x.1.pair = y.1.pair := by
  obtain ⟨ns, b, hpair, rfl⟩ := usedKey_eq_some hk
  obtain ⟨ns', b', hpair', rfl⟩ := usedKey_eq_some hk'
  constructor
  · intro heq
    obtain ⟨rfl, rfl, -⟩ := KeyImage.ofCall_eq_iff.mp heq
    rw [hpair, hpair']
  · intro heq
    have hpad := h x hx y hy (by simp [hk]) (by simp [hk']) heq
    rw [hpair, hpair'] at heq
    simp only [Prod.mk.injEq, Option.some.injEq] at heq
    exact KeyImage.ofCall_eq_iff.mpr ⟨heq.1, heq.2, hpad⟩

end OneBucket

/-- A run from the empty table keeps one bucket per pair if and only if its calls about the same
pair find the same padding bytes. -/
theorem oneBucket_iff (A : Arithmetic) {t : Table} {log : List (Call × Reply)}
    (hrun : CheckRun A (fun _ => none) log t) :
    OneBucketPerPair A log t ↔ SamePadding A log := by
  constructor
  · intro h x hx y hy hk hk' hpair
    -- the same entry, so the same image, so the same padding
    obtain ⟨k, hk⟩ := Option.ne_none_iff_exists'.mp hk
    obtain ⟨k', hk'⟩ := Option.ne_none_iff_exists'.mp hk'
    have heq := (h.same_iff x hx y hy k k' hk hk').mpr hpair
    obtain ⟨ns, b, -, rfl⟩ := usedKey_eq_some hk
    obtain ⟨ns', b', -, rfl⟩ := usedKey_eq_some hk'
    exact (KeyImage.ofCall_eq_iff.mp heq).2.2
  · intro h
    constructor
    · intro x hx y hy k k' hk hk'
      exact same_iff_of_samePadding h hx hy hk hk'
    · intro k k' hk hk' hns hb
      -- the table was empty, so each entry belongs to a call
      rcases entry_of_checkRun hrun hk with hempty | ⟨x, hx, hused⟩
      · exact absurd rfl hempty
      rcases entry_of_checkRun hrun hk' with hempty | ⟨y, hy, hused'⟩
      · exact absurd rfl hempty
      apply (same_iff_of_samePadding h hx hy hused hused').mpr
      obtain ⟨ns, b, hpair, rfl⟩ := usedKey_eq_some hused
      obtain ⟨ns', b', hpair', rfl⟩ := usedKey_eq_some hused'
      rw [KeyImage.namespaceId_ofCall, KeyImage.namespaceId_ofCall] at hns
      rw [KeyImage.bucketId_ofCall, KeyImage.bucketId_ofCall] at hb
      rw [hpair, hpair', hns, hb]

/-- A call about the pair `(1, 7)` with the byte `pad` all over its stack memory. -/
def callOnStack (pad : UInt8) : Call where
  namespaceId := some 1
  bucketId := some 7
  rate := some 1
  stack := ⟨List.replicate 16 pad, List.length_replicate⟩
  now := 0
  shmemFull := false

theorem oneBucket_iff_callOnStack :
    OneBucketPerPair x86 (runCalls x86 (fun _ => none) [callOnStack 0, callOnStack 0]).1
        (runCalls x86 (fun _ => none) [callOnStack 0, callOnStack 0]).2 ↔
      SamePadding x86 (runCalls x86 (fun _ => none) [callOnStack 0, callOnStack 0]).1 :=
  oneBucket_iff x86 (checkRun_runCalls x86 _ _)

/-- Two calls about one pair whose stacks held different bytes get a bucket each. -/
theorem not_oneBucket_of_stack : ¬ ∀ (log : List (Call × Reply)) (t : Table),
    CheckRun x86 (fun _ => none) log t → OneBucketPerPair x86 log t := by
  intro h
  have hne : KeyImage.ofCall (callOnStack 1).stack 1 7 ≠
      KeyImage.ofCall (callOnStack 0).stack 1 7 := by
    intro heq
    have hpad := (KeyImage.ofCall_eq_iff.mp heq).2.2
    simp [KeyImage.padding, callOnStack, slice] at hpad
  obtain ⟨t₁, hstep₁, -, hframe⟩ := checkStep_of_new (A := x86) (t := fun _ => none)
    (c := callOnStack 0) rfl rfl one_ne_zero rfl rfl
  obtain ⟨t₂, hstep₂, -, -⟩ := checkStep_of_new (A := x86) (t := t₁)
    (c := callOnStack 1) rfl rfl one_ne_zero rfl (hframe _ hne)
  have hone := h _ t₂ (.cons hstep₁ (.single hstep₂))
  have hsame := hone.same_iff (callOnStack 1, .returned true) (by simp)
    (callOnStack 0, .returned true) (by simp) _ _
    (usedKey_of_returned rfl rfl one_ne_zero true) (usedKey_of_returned rfl rfl one_ne_zero true)
  exact hne (hsame.mpr rfl)

end YetiPgExt.Tbf
