import YetiPgExt.Library.Runs
import YetiPgExt.Lnp.ResolveSteps

/-!
# Distinct request ids

`gen_request_id` counts modulo `2^32`. When the counter wraps, zero is an id once, and `rand` gives
the next one: a value below `2^31`. A window of `2^30` calls ends below `2^31 + 2^30` then, and the
ids in front of the wrap are above that. So two calls of a window have the same id only if `rand`
returned zero in it (`idCalls_distinct`).
-/

set_option autoImplicit false

namespace YetiPgExt.Lnp

open YetiPgExt.Library

/-- A call of `gen_request_id`: the id that it returns, and what `rand` returned if it was
called. -/
structure IdCall where
  id : UInt32
  drawn : Option UInt32
  deriving DecidableEq

/-- `rand` returns values up to `RAND_MAX`, which is `2^31 - 1`. -/
def RandInRange {ω : Type} (net : Net ω) : Prop := ∀ world, (net.rand world).1.toNat < 2 ^ 31

/-- A call of `gen_request_id` on the counter and the world. -/
def IdStep {ω : Type} (net : Net ω) (s : UInt32 × ω) (call : IdCall) (s' : UInt32 × ω) : Prop :=
  genRequestId net s.1 s.2 = s' ∧
    call = ⟨s'.1, if s.1 = 0 then some (net.rand s.2).1 else none⟩

section Ids

variable {ω : Type} {net : Net ω} {s s' : UInt32 × ω} {call : IdCall} {log window : List IdCall}

/-- A call on zero draws its id; every other one counts. -/
theorem IdStep.cases (h : IdStep net s call s') :
    s'.1 = call.id ∧
      ((s.1 = 0 ∧ call.id = (net.rand s.2).1 ∧ call.drawn = some call.id) ∨
        (s.1 ≠ 0 ∧ call.id = s.1 + 1)) := by
  obtain ⟨rfl, rfl⟩ := h
  refine ⟨rfl, ?_⟩
  by_cases hzero : s.1 = 0
  · have hgen : genRequestId net s.1 s.2 = net.rand s.2 := if_pos hzero
    rw [hgen, if_pos hzero]
    exact .inl ⟨hzero, rfl, rfl⟩
  · have hgen : genRequestId net s.1 s.2 = (s.1 + 1, s.2) := if_neg hzero
    rw [hgen]
    exact .inr ⟨hzero, rfl⟩

/-- The counter goes up until it wraps. -/
theorem toNat_count (c : UInt32) :
    ((c + 1).toNat = c.toNat + 1 ∧ c.toNat + 1 < 2 ^ 32) ∨
      ((c + 1).toNat = 0 ∧ c.toNat + 1 = 2 ^ 32) := by
  have hlt := c.toNat_lt
  have hone : (1 : UInt32).toNat = 1 := rfl
  rw [UInt32.toNat_add, hone]
  omega

theorem toNat_pos_iff {c : UInt32} : 0 < c.toNat ↔ c ≠ 0 := by
  rw [Nat.pos_iff_ne_zero, ne_eq, ne_eq, ← UInt32.toNat_inj]
  rfl

/-- Calls that do not reach the wrap count up. -/
theorem ids_ascend (h : Runs (IdStep net) s log s') (hpos : 0 < s.1.toNat)
    (hfit : s.1.toNat + log.length < 2 ^ 32) :
    ∀ call ∈ log, s.1.toNat < call.id.toNat ∧ call.id.toNat ≤ s.1.toNat + log.length := by
  induction h with
  | nil => simp
  | @cons s t u call log hst _ ih =>
    rw [List.length_cons] at hfit ⊢
    obtain ⟨hid, ⟨hzero, -⟩ | ⟨-, hnext⟩⟩ := hst.cases
    · exact absurd hzero (toNat_pos_iff.mp hpos)
    · have hcount : call.id.toNat = s.1.toNat + 1 := by
        rw [hnext]
        rcases toNat_count s.1 with ⟨heq, -⟩ | ⟨-, hwrap⟩
        · exact heq
        · omega
      rw [hid] at ih
      intro call' hmem
      rcases List.mem_cons.mp hmem with rfl | hmem
      · omega
      · have hrest := ih (by omega) (by omega) call' hmem
        omega

/-- Calls from zero on, with an id drawn that is not zero, stay in front of the wrap. -/
theorem ids_of_zero (hrand : RandInRange net) (h : Runs (IdStep net) s log s') (hzero : s.1 = 0)
    (hlen : log.length ≤ 2 ^ 31) (hdrawn : ∀ call ∈ log, call.drawn ≠ some 0) :
    ∀ call ∈ log, 0 < call.id.toNat ∧ call.id.toNat < 2 ^ 31 + log.length := by
  cases h with
  | nil => simp
  | @cons _ t _ call log hst hrest =>
    rw [List.length_cons] at hlen ⊢
    obtain ⟨hid, ⟨-, hdraw, hsome⟩ | ⟨hne, -⟩⟩ := hst.cases
    · have hpos : 0 < call.id.toNat := by
        rw [toNat_pos_iff]
        intro heq
        apply hdrawn call List.mem_cons_self
        rw [hsome, heq]
      have hlt : call.id.toNat < 2 ^ 31 := by
        rw [hdraw]
        exact hrand s.2
      have hascend := ids_ascend hrest
      rw [hid] at hascend
      intro call' hmem
      rcases List.mem_cons.mp hmem with rfl | hmem
      · omega
      · have hbounds := hascend hpos (by omega) call' hmem
        omega
    · exact absurd hzero hne

/-- Calls from anywhere: in front of the wrap the ids are above the counter, from it on they are
small. -/
theorem ids_of_pos (hrand : RandInRange net) (h : Runs (IdStep net) s log s') (hpos : 0 < s.1.toNat)
    (hlen : log.length ≤ 2 ^ 31) (hdrawn : ∀ call ∈ log, call.drawn ≠ some 0) :
    ∀ call ∈ log, s.1.toNat < call.id.toNat ∨
      (call.id.toNat < 2 ^ 31 + log.length ∧ 2 ^ 32 ≤ s.1.toNat + log.length) := by
  induction h with
  | nil => simp
  | @cons s t u call log hst hrest ih =>
    rw [List.length_cons] at hlen ⊢
    have hlater := (List.forall_mem_cons.mp hdrawn).2
    obtain ⟨hid, ⟨hzero, -⟩ | ⟨-, hnext⟩⟩ := hst.cases
    · exact absurd hzero (toNat_pos_iff.mp hpos)
    · intro call' hmem
      rcases toNat_count s.1 with ⟨hcount, hfit⟩ | ⟨hwrap, hlast⟩
      · rw [← hnext] at hcount
        rcases List.mem_cons.mp hmem with rfl | hmem
        · omega
        · rw [hid] at ih
          have hbounds := ih (by omega) (by omega) hlater call' hmem
          omega
      · -- this call returns zero, and the next one draws
        rw [← hnext] at hwrap
        rcases List.mem_cons.mp hmem with rfl | hmem
        · omega
        · have hzero : t.1 = 0 := by
            rw [hid, ← UInt32.toNat_inj, hwrap]
            rfl
          have hbounds := ids_of_zero hrand hrest hzero (by omega) hlater call' hmem
          omega

/-- The calls of a window do not come back to the id in front of it. -/
theorem id_ne_start (hrand : RandInRange net) (h : Runs (IdStep net) s log s')
    (hlen : log.length ≤ 2 ^ 30) (hdrawn : ∀ call ∈ log, call.drawn ≠ some 0) :
    ∀ call ∈ log, call.id ≠ s.1 := by
  intro call hmem heq
  by_cases hzero : s.1 = 0
  · have hbounds := ids_of_zero hrand h hzero (by omega) hdrawn call hmem
    exact toNat_pos_iff.mp hbounds.1 (heq.trans hzero)
  · have hbounds := ids_of_pos hrand h (toNat_pos_iff.mpr hzero) (by omega) hdrawn call hmem
    rw [heq] at hbounds
    -- a small id is below `2^31 + 2^30`, the counter that wrapped is not
    omega

/-- Up to `2^30` calls in a row have different ids, if `rand` does not return zero. -/
theorem ids_nodup (hrand : RandInRange net) (h : Runs (IdStep net) s log s')
    (hlen : log.length ≤ 2 ^ 30) (hdrawn : ∀ call ∈ log, call.drawn ≠ some 0) :
    (log.map IdCall.id).Nodup := by
  induction h with
  | nil => exact List.nodup_nil
  | @cons s t u call log hst hrest ih =>
    rw [List.length_cons] at hlen
    have hlater := (List.forall_mem_cons.mp hdrawn).2
    rw [List.map_cons, List.nodup_cons]
    refine ⟨?_, ih (by omega) hlater⟩
    rw [List.mem_map]
    rintro ⟨call', hmem, heq⟩
    have hne := id_ne_start hrand hrest (by omega) hlater call' hmem
    rw [hst.cases.1] at hne
    exact hne heq

end Ids

/-- In every run of `gen_request_id`, two of at most `2^30` consecutive calls return the same id
only if `rand` returned zero in one of these calls. -/
theorem idCalls_distinct {ω : Type} (net : Net ω) (hrand : RandInRange net) {s s' : UInt32 × ω}
    {log window : List IdCall} (hrun : Runs (IdStep net) s log s') (hwindow : window <:+: log)
    (hlen : window.length ≤ 2 ^ 30) (hsame : ¬ (window.map IdCall.id).Nodup) :
    ∃ call ∈ window, call.drawn = some 0 := by
  obtain ⟨t, t', hcalls⟩ := hrun.of_infix hwindow
  by_contra hnone
  apply hsame
  apply ids_nodup hrand hcalls hlen
  intro call hmem hzero
  exact hnone ⟨call, hmem, hzero⟩

/-- A world in which `rand` returns zero. -/
def zeroNet : Net Unit where
  rand _ := (0, ())
  sendto _ _ buf := (.ok buf.length, ())
  poll _ := (.ok 0, ())
  recvfrom _ _ := (.fail 0, ())

theorem randInRange_zeroNet : RandInRange zeroNet := by
  intro world
  exact Nat.two_pow_pos 31

/-- The counter wraps to zero, and `rand` returns zero again. -/
theorem idCalls_distinct_zeroNet :
    ∃ call ∈ [(⟨0, none⟩ : IdCall), ⟨0, some 0⟩], call.drawn = some 0 :=
  idCalls_distinct zeroNet randInRange_zeroNet
    (.cons (s := (4294967295, ())) (t := (0, ())) ⟨by decide, by decide⟩
      (.single (t := (0, ())) ⟨by decide, by decide⟩))
    (List.infix_refl _) (by decide) (by decide)

end YetiPgExt.Lnp
