import YetiPgExt.Tbf.OneBucket
import YetiPgExt.Tbf.RateBound
import Mathlib.Algebra.Order.Floor.Ring

/-!
# What truncation costs a bucket

`entry->tokens` counts whole tokens. A call that finds a token sets `updated_at` to its own stamp
and drops the fraction of a token that the refill had beyond the whole ones; a call that finds
none keeps the stamp, and with it the fraction. `fractionDropped` is what one call drops, read off
the entry it finds, and `dropped` is the sum along a run.

On calls at one rate `r`, in the order of their timestamps, without an overflow of the bucket and
in exact arithmetic, nothing else is lost: the accepted calls, the tokens left and the dropped
fractions add up to the bucket size and `r` per unit of time (`balance_of_start`). So the bucket has
lost at most one token exactly as long as the dropped fractions sum to at most one
(`loses_at_most_one_iff`), and three calls are enough to lose more (`not_loses_at_most_one`).
-/

set_option autoImplicit false

namespace YetiPgExt.Tbf

open YetiPgExt.Library

/-- The call is on the key `k` and returned true. -/
def passedOn (k : KeyImage) (x : Call × Reply) : Bool :=
  decide (x.1.key? = some k) && decide (x.2 = .returned true)

/-- The stamp of the first call on the key that returned true. -/
def startStamp (k : KeyImage) (log : List (Call × Reply)) : Option ℚ :=
  (log.find? (passedOn k)).map fun x => x.1.now

/-- The refill of a call on the key `k` at the rate `r` is at most the bucket size. -/
def RefillFits (r : ℚ) (k : KeyImage) (t : Table) (c : Call) : Prop :=
  c.key? = some k → ∀ e, t k = some e →
    ⌊(e.tokens : ℚ) + r * (c.now - e.updatedAt)⌋ ≤ max 1 ⌊2 * r⌋

/-- The fraction of a token that a call drops: the part of the refill below a whole token, when
the entry it finds has a whole token with the refill. -/
def fractionDropped (r : ℚ) (k : KeyImage) (t : Table) (c : Call) : ℚ :=
  if c.key? = some k then
    match t k with
    | none => 0
    | some e =>
      if 1 ≤ (e.tokens : ℚ) + r * (c.now - e.updatedAt) then
        Int.fract (r * (c.now - e.updatedAt))
      else 0
  else 0

/-- The fractions that the calls of a run drop. -/
def dropped (C : SizeConversion) (r : ℚ) (k : KeyImage) (t : Table) : List Call → ℚ
  | [] => 0
  | c :: cs =>
    match tbfRateCheck C.exact (some t) c with
    | (some t', _) => fractionDropped r k t c + dropped C r k t' cs
    | (none, _) => 0

/-- At most one token is lost between the stamp `t₀` and the state that the entry records: the calls
that returned true and the tokens left make up the bucket size and `r` per unit of time, less
one. -/
def LosesAtMostOne (r : ℚ) (k : KeyImage) (t₀ : ℚ) (log : List (Call × Reply))
    (e : HashEntry) : Prop :=
  ((max 1 ⌊2 * r⌋ : ℤ) : ℚ) + r * (e.updatedAt - t₀) - 1 ≤ log.countP (passedOn k) + e.tokens

section Loss

variable {C : SizeConversion} {r : ℚ} {k : KeyImage}

theorem dropped_cons {t t' : Table} {x : Call × Reply} (h : CheckStep C.exact t x t')
    (cs : List Call) :
    dropped C r k t (x.1 :: cs) = fractionDropped r k t x.1 + dropped C r k t' cs := by
  unfold CheckStep at h
  simp only [dropped, h]

theorem fractionDropped_of_none {t : Table} (h : t k = none) (c : Call) :
    fractionDropped r k t c = 0 := by
  unfold fractionDropped
  rw [h]
  split <;> rfl

theorem fractionDropped_of_other {t : Table} {c : Call} (h : c.key? ≠ some k) :
    fractionDropped r k t c = 0 := by
  rw [fractionDropped, if_neg h]

theorem fractionDropped_of_entry {t : Table} {c : Call} {e : HashEntry} (hk : c.key? = some k)
    (he : t k = some e) :
    fractionDropped r k t c =
      if 1 ≤ (e.tokens : ℚ) + r * (c.now - e.updatedAt) then
        Int.fract (r * (c.now - e.updatedAt))
      else 0 := by
  rw [fractionDropped, if_pos hk, he]

/-- Where the conversion of `rate * 2` is defined, the bucket size is `max(1, floor(2r))`. -/
theorem bucketMaxSize_cast (C : SizeConversion) (hr : 0 < r) (hsize : 2 * r < 2 ^ 64) :
    ((bucketMaxSize C.exact r : ℕ) : ℤ) = max 1 ⌊2 * r⌋ := by
  have htwo : r * 2 = 2 * r := mul_comm r 2
  have hconv : C.exact.toSize (r * 2) = ⌊2 * r⌋₊ := by
    rw [htwo]
    exact C.toSize_eq _ (by linarith) hsize
  have hfloor : ((⌊2 * r⌋₊ : ℕ) : ℤ) = ⌊2 * r⌋ := by
    rw [← Int.floor_toNat]
    exact Int.toNat_of_nonneg (Int.floor_nonneg.mpr (by linarith))
  unfold bucketMaxSize
  rw [hconv]
  split <;> omega

section Refill

variable {tokens : ℕ} {elapsed : ℚ}

/-- A refill that fits the bucket is in the range of the conversion. -/
theorem refill_range (hr : 0 < r) (hsize : 2 * r < 2 ^ 64) (helapsed : 0 ≤ elapsed)
    (hfits : ⌊(tokens : ℚ) + r * elapsed⌋ ≤ max 1 ⌊2 * r⌋) :
    0 ≤ (tokens : ℚ) + r * elapsed ∧ (tokens : ℚ) + r * elapsed < 2 ^ 64 := by
  have hadd : 0 ≤ r * elapsed := mul_nonneg (le_of_lt hr) helapsed
  have htokens : (0 : ℚ) ≤ tokens := Nat.cast_nonneg _
  have hcap : max 1 ⌊2 * r⌋ < (2 : ℤ) ^ 64 := by
    refine max_lt (by norm_num) ?_
    exact Int.floor_lt.mpr (by exact_mod_cast hsize)
  have hlt := Int.floor_lt.mp (lt_of_le_of_lt hfits hcap)
  exact ⟨by linarith, by exact_mod_cast hlt⟩

/-- It is converted to its floor. -/
theorem toSize_refill (C : SizeConversion) (hr : 0 < r) (hsize : 2 * r < 2 ^ 64)
    (helapsed : 0 ≤ elapsed) (hfits : ⌊(tokens : ℚ) + r * elapsed⌋ ≤ max 1 ⌊2 * r⌋) :
    ((C.toSize ((tokens : ℚ) + r * elapsed) : ℕ) : ℤ) = tokens + ⌊r * elapsed⌋ := by
  obtain ⟨hnonneg, hlt⟩ := refill_range hr hsize helapsed hfits
  rw [C.toSize_eq _ (by linarith) hlt, ← Int.floor_toNat,
    Int.toNat_of_nonneg (Int.floor_nonneg.mpr hnonneg), Int.floor_natCast_add]

/-- So a token is found exactly if the refill makes a whole one. -/
theorem toSize_refill_pos_iff (C : SizeConversion) (hr : 0 < r) (hsize : 2 * r < 2 ^ 64)
    (helapsed : 0 ≤ elapsed) (hfits : ⌊(tokens : ℚ) + r * elapsed⌋ ≤ max 1 ⌊2 * r⌋) :
    0 < C.toSize ((tokens : ℚ) + r * elapsed) ↔ 1 ≤ (tokens : ℚ) + r * elapsed := by
  obtain ⟨hnonneg, hlt⟩ := refill_range hr hsize helapsed hfits
  rw [C.toSize_eq _ (by linarith) hlt, Nat.floor_pos]

/-- The bucket size does not cut such a refill off: one token goes, the rest is left. -/
theorem tokens_left (C : SizeConversion) (hr : 0 < r) (hsize : 2 * r < 2 ^ 64)
    (helapsed : 0 ≤ elapsed) (hfits : ⌊(tokens : ℚ) + r * elapsed⌋ ≤ max 1 ⌊2 * r⌋)
    (hpos : 0 < C.toSize ((tokens : ℚ) + r * elapsed)) :
    ((min (C.toSize ((tokens : ℚ) + r * elapsed)) (bucketMaxSize C.exact r) - 1 : ℕ) : ℚ) =
      tokens + ⌊r * elapsed⌋ - 1 := by
  have hconv := toSize_refill C hr hsize helapsed hfits
  have hmax := bucketMaxSize_cast C hr hsize
  rw [Int.floor_natCast_add] at hfits
  have hleft : ((min (C.toSize ((tokens : ℚ) + r * elapsed)) (bucketMaxSize C.exact r) - 1 :
      ℕ) : ℤ) = tokens + ⌊r * elapsed⌋ - 1 := by omega
  exact_mod_cast hleft

end Refill

/-- What a call does about its own key when its tokens are added up exactly. -/
theorem checkStep_exact_cases {t t' : Table} {x : Call × Reply} {rate : ℚ}
    (h : CheckStep C.exact t x t') (hk : x.1.key? = some k) (hrate : x.1.rate = some rate)
    (hne : rate ≠ 0) :
    (t k = none ∧ x.2 = .raised ∧ t' k = none) ∨
    (t k = none ∧ x.2 = .returned true ∧
      t' k = some ⟨x.1.now, bucketMaxSize C.exact rate - 1⟩) ∨
    (∃ e, t k = some e ∧ 0 < C.toSize (e.tokens + rate * (x.1.now - e.updatedAt)) ∧
      x.2 = .returned true ∧
      t' k = some ⟨x.1.now, min (C.toSize (e.tokens + rate * (x.1.now - e.updatedAt)))
        (bucketMaxSize C.exact rate) - 1⟩) ∨
    (∃ e, t k = some e ∧ C.toSize (e.tokens + rate * (x.1.now - e.updatedAt)) = 0 ∧
      x.2 = .returned false ∧ t' k = some ⟨e.updatedAt, 0⟩) :=
  checkStep_key_cases h hk hrate hne

/-- A call that finds the entry of the key: what was left, the credit of the time that passed and
nothing else is in what is left, the token taken and the fraction dropped. -/
theorem balance_of_checkStep (hr : 0 < r) (hsize : 2 * r < 2 ^ 64) {t t' : Table}
    {x : Call × Reply} (hstep : CheckStep C.exact t x t')
    (hrate : x.1.key? = some k → x.1.rate = some r) (hfits : RefillFits r k t x.1)
    (horder : InOrder k t x.1) {a : HashEntry} (ha : t k = some a) :
    ∃ b, t' k = some b ∧
      ((if passedOn k x then 1 else 0 : ℕ) : ℚ) + b.tokens + fractionDropped r k t x.1 =
        a.tokens + r * (b.updatedAt - a.updatedAt) := by
  by_cases hk : x.1.key? = some k
  · have helapsed : 0 ≤ x.1.now - a.updatedAt := sub_nonneg.mpr (horder hk a ha)
    have hfit := hfits hk a ha
    have hwhole := toSize_refill_pos_iff C hr hsize helapsed hfit
    rcases checkStep_exact_cases hstep hk (hrate hk) (ne_of_gt hr) with ⟨hnone, -, -⟩ |
      ⟨hnone, -, -⟩ | ⟨e, he, hpos, hreply, ht'⟩ | ⟨e, he, hzero, hreply, ht'⟩
    · rw [ha] at hnone
      cases hnone
    · rw [ha] at hnone
      cases hnone
    · -- a token is taken: the stamp moves to the call, the fraction is gone
      rw [ha] at he
      cases he
      refine ⟨_, ht', ?_⟩
      have hsplit := Int.floor_add_fract (r * (x.1.now - a.updatedAt))
      rw [fractionDropped_of_entry hk ha, if_pos (hwhole.mp hpos),
        if_pos (by simp [passedOn, hk, hreply])]
      simp only [tokens_left C hr hsize helapsed hfit hpos, Nat.cast_one]
      linarith
    · -- no token: the stamp stays, and with it the credit of the time since
      rw [ha] at he
      cases he
      refine ⟨_, ht', ?_⟩
      have hbelow : ¬ 1 ≤ (a.tokens : ℚ) + r * (x.1.now - a.updatedAt) := by
        rw [← hwhole]
        omega
      have htokens : a.tokens = 0 := by
        have hconv := toSize_refill C hr hsize helapsed hfit
        have hnonneg : 0 ≤ ⌊r * (x.1.now - a.updatedAt)⌋ :=
          Int.floor_nonneg.mpr (mul_nonneg (le_of_lt hr) helapsed)
        omega
      rw [fractionDropped_of_entry hk ha, if_neg hbelow,
        if_neg (by simp [passedOn, hreply]), htokens]
      simp
  · refine ⟨a, by rw [checkStep_frame hstep hk, ha], ?_⟩
    rw [fractionDropped_of_other hk, if_neg (by simp [passedOn, hk])]
    simp

/-- A step of a run at the rate `r` in which every call is in order and fits the bucket. -/
def SteadyStep (C : SizeConversion) (r : ℚ) (k : KeyImage) (t : Table) (x : Call × Reply)
    (t' : Table) : Prop :=
  ((CheckStep C.exact t x t' ∧ RefillFits r k t x.1) ∧ InOrder k t x.1) ∧
    (x.1.key? = some k → x.1.rate = some r)

/-- The balance of a run that starts with an entry. -/
theorem balance_of_run (hr : 0 < r) (hsize : 2 * r < 2 ^ 64) {t t' : Table}
    {log : List (Call × Reply)} (h : Runs (SteadyStep C r k) t log t') {a : HashEntry}
    (ha : t k = some a) :
    ∃ b, t' k = some b ∧
      (log.countP (passedOn k) : ℚ) + b.tokens + dropped C r k t (log.map Prod.fst) =
        a.tokens + r * (b.updatedAt - a.updatedAt) := by
  induction h generalizing a with
  | nil => exact ⟨a, ha, by simp [dropped]⟩
  | @cons s u v x log hst _ ih =>
    obtain ⟨⟨⟨hstep, hfits⟩, horder⟩, hrate⟩ := hst
    obtain ⟨b, hb, hhead⟩ := balance_of_checkStep hr hsize hstep hrate hfits horder ha
    obtain ⟨c, hc, htail⟩ := ih hb
    refine ⟨c, hc, ?_⟩
    rw [List.map_cons, dropped_cons hstep, List.countP_cons, Nat.cast_add]
    have htelescope : r * (c.updatedAt - a.updatedAt) =
        r * (b.updatedAt - a.updatedAt) + r * (c.updatedAt - b.updatedAt) := by ring
    linarith

/-- A call that finds a token returns true. -/
theorem checkStep_of_entry {t : Table} {c : Call} {rate : ℚ} (hk : c.key? = some k)
    (hrate : c.rate = some rate) (hne : rate ≠ 0) {e : HashEntry} (he : t k = some e)
    (hpos : 0 < C.toSize (e.tokens + rate * (c.now - e.updatedAt))) :
    ∃ t', CheckStep C.exact t (c, .returned true) t' ∧
      t' k = some ⟨c.now, min (C.toSize (e.tokens + rate * (c.now - e.updatedAt)))
        (bucketMaxSize C.exact rate) - 1⟩ := by
  obtain ⟨t', reply, h⟩ := tbfRateCheck_some C.exact t c
  have hstep : CheckStep C.exact t (c, reply) t' := h
  rcases checkStep_exact_cases hstep hk hrate hne with ⟨hnone, -, -⟩ | ⟨hnone, -, -⟩ |
    ⟨e', he', -, hreply, ht'⟩ | ⟨e', he', hzero, -, -⟩
  · rw [he] at hnone
    cases hnone
  · rw [he] at hnone
    cases hnone
  · rw [he] at he'
    cases he'
    simp only at hreply
    subst hreply
    exact ⟨t', hstep, ht'⟩
  · rw [he] at he'
    cases he'
    simp only at hzero
    omega

/-- A call that finds no entry of the key leaves none, or is the first to return true. -/
theorem start_of_checkStep (hr : 0 < r) {t t' : Table} {x : Call × Reply}
    (hstep : CheckStep C.exact t x t') (hrate : x.1.key? = some k → x.1.rate = some r)
    (hnone : t k = none) :
    (t' k = none ∧ passedOn k x = false) ∨
      (t' k = some ⟨x.1.now, bucketMaxSize C.exact r - 1⟩ ∧ passedOn k x = true) := by
  by_cases hk : x.1.key? = some k
  · rcases checkStep_exact_cases hstep hk (hrate hk) (ne_of_gt hr) with ⟨-, hreply, ht'⟩ |
      ⟨-, hreply, ht'⟩ | ⟨e, he, -⟩ | ⟨e, he, -⟩
    · exact .inl ⟨ht', by simp [passedOn, hreply]⟩
    · exact .inr ⟨ht', by simp [passedOn, hk, hreply]⟩
    · rw [hnone] at he
      cases he
    · rw [hnone] at he
      cases he
  · exact .inl ⟨by rw [checkStep_frame hstep hk, hnone], by simp [passedOn, hk]⟩

/-- The balance of a run that makes the entry: the bucket starts full. -/
theorem balance_of_start (hr : 0 < r) (hsize : 2 * r < 2 ^ 64) {t t' : Table}
    {log : List (Call × Reply)} (h : Runs (SteadyStep C r k) t log t') (hnone : t k = none)
    {e : HashEntry} (he : t' k = some e) :
    ∃ t₀, startStamp k log = some t₀ ∧
      (log.countP (passedOn k) : ℚ) + e.tokens + dropped C r k t (log.map Prod.fst) =
        capacity r + r * (e.updatedAt - t₀) := by
  induction h with
  | nil =>
    rw [hnone] at he
    cases he
  | @cons s u v x log hst hrun ih =>
    obtain ⟨⟨⟨hstep, -⟩, -⟩, hrate⟩ := hst
    rw [List.map_cons, dropped_cons hstep, fractionDropped_of_none hnone, zero_add,
      List.countP_cons]
    rcases start_of_checkStep hr hstep hrate hnone with ⟨hu, hpass⟩ | ⟨hu, hpass⟩
    · obtain ⟨t₀, hstart, hbalance⟩ := ih hu he
      refine ⟨t₀, ?_, ?_⟩
      · rw [startStamp, List.find?_cons_of_neg (by simp [hpass])]
        exact hstart
      · rw [hpass]
        simpa using hbalance
    · obtain ⟨b, hb, hbalance⟩ := balance_of_run hr hsize hrun hu
      rw [he] at hb
      cases hb
      refine ⟨x.1.now, ?_, ?_⟩
      · rw [startStamp, List.find?_cons_of_pos hpass]
        rfl
      · have hone : 1 ≤ bucketMaxSize C.exact r := one_le_bucketMaxSize C.exact r
        have hmax : ((bucketMaxSize C.exact r : ℕ) : ℚ) = capacity r := by
          unfold capacity
          rw [← bucketMaxSize_cast C hr hsize]
          norm_cast
        rw [hpass, if_pos rfl]
        simp only [Nat.cast_sub hone, Nat.cast_one, Nat.cast_add] at hbalance ⊢
        linarith

end Loss

/-- The loss of a bucket, in exact arithmetic. In every run at the rate `r` in the order of the
timestamps that makes the entry of the key and never refills it beyond the bucket size, at most one
token is lost exactly if the fractions that the calls drop sum to at most one. A prefix of a run is
a run, so this speaks of the state after each of its calls. -/
theorem loses_at_most_one_iff (C : SizeConversion) (k : KeyImage) {r : ℚ} (hr : 0 < r)
    (hsize : 2 * r < 2 ^ 64) {t t' : Table} {log : List (Call × Reply)}
    (hrun : Runs (fun t x t' => CheckStep C.exact t x t' ∧ RefillFits r k t x.1) t log t')
    (hnew : t k = none) (hrates : ∀ x ∈ log, x.1.key? = some k → x.1.rate = some r)
    (hsorted : log.Pairwise fun x y => x.1.key? = some k → y.1.key? = some k →
      x.1.now ≤ y.1.now)
    {e : HashEntry} (he : t' k = some e) {t₀ : ℚ} (hstart : startStamp k log = some t₀) :
    LosesAtMostOne r k t₀ log e ↔ dropped C r k t (log.map Prod.fst) ≤ 1 := by
  have hpast : ∀ e, t k = some e → ∀ x ∈ log, x.1.key? = some k → e.updatedAt ≤ x.1.now := by
    intro entry hentry
    rw [hnew] at hentry
    cases hentry
  have hordered := inOrder_of_sorted (A := C.exact) (fun _ _ _ h => h.1) hrun hsorted hpast
  obtain ⟨t₁, hstart₁, hbalance⟩ :=
    balance_of_start hr hsize (hordered.and_label hrates) hnew he
  rw [hstart] at hstart₁
  cases hstart₁
  unfold LosesAtMostOne
  unfold capacity at hbalance
  constructor <;> intro h <;> linarith

section Example

/-- A call of the pair `(1, 7)` at one token per second. -/
def secondCall (now : ℚ) : Call where
  namespaceId := some 1
  bucketId := some 7
  rate := some 1
  stack := ⟨List.replicate 16 0, length_zeroStack⟩
  now := now
  shmemFull := false

/-- The key of `secondCall`. -/
def secondKey : KeyImage := KeyImage.ofCall ⟨List.replicate 16 0, length_zeroStack⟩ 1 7

/-- Three calls whose refills each lose nine tenths of a token. -/
def lossyCalls : List (Call × Reply) :=
  [(secondCall 0, .returned true), (secondCall (9 / 10), .returned true),
    (secondCall (28 / 10), .returned true)]

theorem passedOn_secondCall (now : ℚ) :
    passedOn secondKey (secondCall now, .returned true) = true := by
  rfl

/-- A call of `lossyCalls` that finds one token with its refill takes it. -/
theorem second_pass {t : Table} (now : ℚ) {e : HashEntry} (he : t secondKey = some e)
    (hone : x86Size.toSize (e.tokens + 1 * (now - e.updatedAt)) = 1) :
    ∃ t', CheckStep x86Size.exact t (secondCall now, .returned true) t' ∧
      t' secondKey = some ⟨now, 0⟩ := by
  obtain ⟨t', hstep, ht'⟩ := @checkStep_of_entry x86Size secondKey t (secondCall now) 1
    rfl rfl one_ne_zero e he (by rw [show (secondCall now).now = now from rfl, hone]; exact one_pos)
  have hmax : bucketMaxSize x86Size.exact 1 = 2 := by decide +kernel
  rw [show (secondCall now).now = now from rfl, hone, hmax] at ht'
  exact ⟨t', hstep, ht'⟩

theorem runs_lossyCalls : ∃ t, t secondKey = some ⟨28 / 10, 0⟩ ∧
    Runs (fun t x t' => CheckStep x86Size.exact t x t' ∧ RefillFits 1 secondKey t x.1)
      (fun _ => none) lossyCalls t := by
  have hmax : bucketMaxSize x86Size.exact 1 = 2 := by decide +kernel
  obtain ⟨t₁, hstep₁, he₁, -⟩ := checkStep_of_new (A := x86Size.exact) (t := fun _ => none)
    (c := secondCall 0) (k := secondKey) rfl rfl one_ne_zero rfl rfl
  rw [hmax] at he₁
  obtain ⟨t₂, hstep₂, he₂⟩ := second_pass (9 / 10) he₁ (by decide +kernel)
  obtain ⟨t₃, hstep₃, he₃⟩ := second_pass (28 / 10) he₂ (by decide +kernel)
  refine ⟨t₃, he₃, .cons ⟨hstep₁, ?_⟩ (.cons ⟨hstep₂, ?_⟩ (.single ⟨hstep₃, ?_⟩))⟩
  · rintro - e he
    cases he
  · rintro - e he
    rw [he₁] at he
    cases he
    decide +kernel
  · rintro - e he
    rw [he₂] at he
    cases he
    decide +kernel

theorem mem_lossyCalls {x : Call × Reply} (h : x ∈ lossyCalls) : x.1.rate = some 1 := by
  simp only [lossyCalls, List.mem_cons, List.not_mem_nil, or_false] at h
  rcases h with rfl | rfl | rfl <;> rfl

theorem sorted_lossyCalls : lossyCalls.Pairwise fun x y => x.1.now ≤ y.1.now := by
  norm_num [lossyCalls, secondCall]

theorem loses_at_most_one_iff_lossyCalls :
    LosesAtMostOne 1 secondKey 0 lossyCalls ⟨28 / 10, 0⟩ ↔
      dropped x86Size 1 secondKey (fun _ => none) (lossyCalls.map Prod.fst) ≤ 1 := by
  obtain ⟨t, he, hrun⟩ := runs_lossyCalls
  exact loses_at_most_one_iff x86Size secondKey one_pos (by norm_num) hrun rfl
    (fun x hx _ => mem_lossyCalls hx) (sorted_lossyCalls.imp fun h _ _ => h) he rfl

/-- The three calls of `lossyCalls` all return true and leave no token, where the bucket of two
and the 2.8 seconds at one token per second less one are 3.8. -/
theorem not_loses_at_most_one : ¬ ∀ (C : SizeConversion) (k : KeyImage) (r : ℚ), 0 < r →
    2 * r < 2 ^ 64 → ∀ (t t' : Table) (log : List (Call × Reply)),
    Runs (fun t x t' => CheckStep C.exact t x t' ∧ RefillFits r k t x.1) t log t' →
    t k = none → (∀ x ∈ log, x.1.key? = some k ∧ x.1.rate = some r) →
    (log.Pairwise fun x y => x.1.now ≤ y.1.now) →
    ∀ e t₀, t' k = some e → startStamp k log = some t₀ → LosesAtMostOne r k t₀ log e := by
  intro h
  obtain ⟨t, he, hrun⟩ := runs_lossyCalls
  have hkeys : ∀ x ∈ lossyCalls, x.1.key? = some secondKey ∧ x.1.rate = some 1 := by
    intro x hx
    refine ⟨?_, mem_lossyCalls hx⟩
    simp only [lossyCalls, List.mem_cons, List.not_mem_nil, or_false] at hx
    rcases hx with rfl | rfl | rfl <;> rfl
  have hloss := h x86Size secondKey 1 one_pos (by norm_num) _ t lossyCalls hrun rfl hkeys
    sorted_lossyCalls _ 0 he rfl
  have hcount : lossyCalls.countP (passedOn secondKey) = 3 := by
    simp [lossyCalls, passedOn_secondCall]
  have hfloor : ⌊2 * (1 : ℚ)⌋ = 2 := by decide +kernel
  rw [LosesAtMostOne, hcount, hfloor] at hloss
  norm_num at hloss

end Example

end YetiPgExt.Tbf
