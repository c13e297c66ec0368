import YetiPgExt.Lnp.Ownership

/-!
# Round robin

`resolve` asks the endpoints in cyclic order from the current one, each at most once, and stops at
the first whose poll becomes ready; the current index stays there for the next call, or is back at
its start when no endpoint becomes ready (`resolve_roundRobin`). The index survives across calls
and reconfigurations, so the statement is about every reachable state.

The induction is on the number of attempts left (`attempts_asked`): an attempt that is not ready
moves the index on by one, and the rest of the loop asks the endpoints from there.
-/

set_option autoImplicit false

namespace YetiPgExt.Lnp

open YetiPgExt.Library

/-- The endpoints that a call sends to, in order. -/
def sentTo (log : List Event) : List Endpoint :=
  log.filterMap fun
    | .sent endp _ _ => some endp
    | _ => none

/-- What the polls of a call report, in order. -/
def pollResults (log : List Event) : List (SysResult Nat) :=
  log.filterMap fun
    | .polled result => some result
    | _ => none

/-- A message that is sent, is sent whole. -/
def Event.sentWhole : Event → Bool
  | .sent _ buf result => decide (result = .ok buf.length)
  | _ => true

/-- Every send of a call succeeds. -/
def AllSent (log : List Event) : Prop := ∀ e ∈ log, e.sentWhole = true

/-- The slot `i` places behind the current one, around the list. -/
def cyclicSlot (st : ResolverState) (i : Nat) : Option Endpoint :=
  getEndpointAtIndex st ((st.currEndpointIndex + i) % st.endpointsCount)

/-- How the loop over the endpoints ends: at an endpoint that becomes ready and stays current, or
after `left` endpoints that do not. -/
inductive LoopEnd (left : Nat) (st st' : ResolverState) (o : Outcome) :
    List (SysResult Nat) → Prop
  | ready {failed : List (SysResult Nat)} {result : SysResult Nat} :
      (∀ p ∈ failed, p.isReady = false) → result.isReady = true → failed.length < left →
      st'.currEndpointIndex = (st.currEndpointIndex + failed.length) % st.endpointsCount →
      LoopEnd left st st' o (failed ++ [result])
  | exhausted {failed : List (SysResult Nat)} :
      (∀ p ∈ failed, p.isReady = false) → failed.length = left → o = .returned (-1) →
      st'.currEndpointIndex = (st.currEndpointIndex + left) % st.endpointsCount →
      LoopEnd left st st' o failed

/-- The attempts of a call with the log `log`. -/
structure Asked (left : Nat) (st st' : ResolverState) (o : Outcome) (log : List Event) : Prop where
  slots : (sentTo log).map some = (List.range (sentTo log).length).map (cyclicSlot st)
  polls : (pollResults log).length = (sentTo log).length
  loopEnd : LoopEnd left st st' o (pollResults log)

theorem LoopEnd.length_le {left : Nat} {st st' : ResolverState} {o : Outcome}
    {results : List (SysResult Nat)} (h : LoopEnd left st st' o results) :
    results.length ≤ left := by
  cases h with
  | ready _ _ hlt _ =>
    rw [List.length_append]
    exact hlt
  | exhausted _ hlen _ _ => exact hlen.le

/-! ## Cyclic order -/

theorem cyclicIndex_succ {st st' : ResolverState} (hsame : SameList st st')
    (hindex : st'.currEndpointIndex = nextIndex st) (i : Nat) :
    (st'.currEndpointIndex + i) % st'.endpointsCount =
      (st.currEndpointIndex + (i + 1 : Nat)) % st.endpointsCount := by
  rw [hsame.count_eq, hindex, nextIndex, Int.emod_add_emod]
  congr 1
  push_cast
  ring

theorem cyclicSlot_succ {st st' : ResolverState} (hsame : SameList st st')
    (hindex : st'.currEndpointIndex = nextIndex st) (i : Nat) :
    cyclicSlot st' i = cyclicSlot st (i + 1) := by
  rw [cyclicSlot, cyclicSlot, hsame.getEndpointAtIndex_eq, cyclicIndex_succ hsame hindex]

theorem cyclicSlot_zero {st : ResolverState} (hst : WellFormed st) (hpos : 0 < st.endpointsCount) :
    cyclicSlot st 0 = getEndpointAtIndex st st.currEndpointIndex := by
  rw [cyclicSlot, Nat.cast_zero, add_zero,
    Int.emod_eq_of_lt hst.index_nonneg (hst.index_lt hpos)]

theorem exists_cyclicSlot {st : ResolverState} (hpos : 0 < st.endpointsCount) (i : Nat) :
    ∃ endp, cyclicSlot st i = some endp := by
  have hcount : (0 : Int) < st.endpointsCount := by exact_mod_cast hpos
  exact getEndpointAtIndex_of_range ⟨Int.emod_nonneg _ hcount.ne', Int.emod_lt_of_pos _ hcount⟩

/-- Fewer than `endpoints_count` steps around the list meet no slot twice. -/
theorem cyclicSlot_injOn {st : ResolverState} (hst : WellFormed st) {i j : Nat}
    (hi : i < st.endpointsCount) (hj : j < st.endpointsCount)
    (h : cyclicSlot st i = cyclicSlot st j) : i = j := by
  have hpos : 0 < st.endpointsCount := by omega
  obtain ⟨endp, hendp⟩ := exists_cyclicSlot hpos i
  have hid := hst.id_eq hendp
  rw [h] at hendp
  have hid' := hst.id_eq hendp
  -- the id tells the index, and the index the number of steps
  have hmod : (st.currEndpointIndex + i) % st.endpointsCount =
      (st.currEndpointIndex + j) % st.endpointsCount := hid.symm.trans hid'
  have hcancel : (i : Int) % st.endpointsCount = j % st.endpointsCount :=
    Int.ModEq.add_left_cancel' _ hmod
  rw [Int.emod_eq_of_lt (by omega) (by omega), Int.emod_eq_of_lt (by omega) (by omega)] at hcancel
  exact_mod_cast hcancel

theorem nodup_of_slots {st : ResolverState} (hst : WellFormed st) {asked : List Endpoint}
    (hslots : asked.map some = (List.range asked.length).map (cyclicSlot st))
    (hle : asked.length ≤ st.endpointsCount) : asked.Nodup := by
  apply List.Nodup.of_map some
  rw [hslots]
  apply List.Nodup.map_on
  · -- the list has at most one full turn
    intro i hi j hj heq
    have hi' := List.mem_range.mp hi
    have hj' := List.mem_range.mp hj
    exact cyclicSlot_injOn hst (by omega) (by omega) heq
  · exact List.nodup_range

/-! ## The loop -/

section Runs

variable {ω : Type} {net : Net ω} {c : Ctx ω}

theorem sentTo_of_isReceive {events : List Event} (h : ∀ e ∈ events, e.isReceive = true) :
    sentTo events = [] := by
  rw [sentTo, List.filterMap_eq_nil_iff]
  intro e he
  have := h e he
  cases e with
  | sent _ _ _ => cases this
  | polled _ => rfl
  | received _ => rfl
  | recvFailed _ => rfl
  | terminated _ => rfl

theorem pollResults_of_isReceive {events : List Event} (h : ∀ e ∈ events, e.isReceive = true) :
    pollResults events = [] := by
  rw [pollResults, List.filterMap_eq_nil_iff]
  intro e he
  have := h e he
  cases e with
  | sent _ _ _ => rfl
  | polled _ => cases this
  | received _ => rfl
  | recvFailed _ => rfl
  | terminated _ => rfl

/-- The rest of the loop after an attempt that was not ready. -/
theorem Asked.cons {left : Nat} {st st₁ st' : ResolverState} {o : Outcome} {log : List Event}
    {endp : Endpoint} {buf : Bytes} {sent result : SysResult Nat} (hsame : SameList st st₁)
    (hindex : st₁.currEndpointIndex = nextIndex st) (hendp : cyclicSlot st 0 = some endp)
    (hready : result.isReady = false) (h : Asked left st₁ st' o log) :
    Asked (left + 1) st st' o (.sent endp buf sent :: .polled result :: log) := by
  obtain ⟨hslots, hpolls, hend⟩ := h
  have hsent : sentTo (.sent endp buf sent :: .polled result :: log) = endp :: sentTo log := rfl
  have hpolled : pollResults (.sent endp buf sent :: .polled result :: log) =
    result :: pollResults log := rfl
  refine ⟨?_, by rw [hsent, hpolled, List.length_cons, List.length_cons, hpolls], ?_⟩
  · rw [hsent, List.map_cons, hslots, List.length_cons, List.range_succ_eq_map, List.map_cons,
      hendp, List.map_map]
    congr 1
    apply List.map_congr_left
    intro i _
    exact cyclicSlot_succ hsame hindex i
  · rw [hpolled]
    -- either end of the rest has one more failed poll in front now
    have hcons : ∀ failed : List (SysResult Nat), (∀ p ∈ failed, p.isReady = false) →
        ∀ p ∈ result :: failed, p.isReady = false := by
      intro failed hfailed p hp
      rcases List.mem_cons.mp hp with rfl | hp
      · exact hready
      · exact hfailed p hp
    generalize pollResults log = results at hend
    cases hend with
    | @ready failed result' hfailed hready' hlt hcurr =>
      rw [← List.cons_append]
      exact .ready (hcons _ hfailed) hready' (Nat.succ_lt_succ hlt) (hcurr.trans
        (cyclicIndex_succ hsame hindex _))
    | exhausted hfailed hlen ho hcurr =>
      exact .exhausted (hcons _ hfailed) (congrArg Nat.succ hlen) ho (hcurr.trans
        (cyclicIndex_succ hsame hindex _))

/-- An attempt whose poll becomes ready leaves the index alone. -/
theorem AttemptStep.of_ready {endp : Endpoint} {c₁ : Ctx ω}
    (h : AttemptStep net endp c .ready c₁) :
    ∃ buf sent result, c₁.trace = c.trace ++ [.sent endp buf sent, .polled result] ∧
      result.isReady = true ∧ c₁.st.currEndpointIndex = c.st.currEndpointIndex := by
  cases h with
  | ready _ _ _ hready => exact ⟨_, _, _, rfl, hready, rfl⟩

/-- An attempt that is not ready moves the index on by one. -/
theorem AttemptStep.of_next {endp : Endpoint} {endp' : Option Endpoint} {c₁ : Ctx ω}
    (h : AttemptStep net endp c (.next endp') c₁) :
    ∃ buf sent result, c₁.trace = c.trace ++ [.sent endp buf sent, .polled result] ∧
      result.isReady = false ∧ c₁.st.currEndpointIndex = nextIndex c.st ∧
      endp' = cyclicSlot c.st 1 ∧ Sendable c₁.req := by
  cases h with
  | notReady hsendable _ _ hready =>
    exact ⟨_, _, _, rfl, hready, rfl, rfl, hsendable.withId _⟩

/-- The loop ends with an attempt that becomes ready. -/
theorem Asked.of_ready {left : Nat} {st st' : ResolverState} {o : Outcome} {events : List Event}
    {endp : Endpoint} {buf : Bytes} {sent result : SysResult Nat}
    (hindex : st'.currEndpointIndex = (st.currEndpointIndex + (0 : Nat)) % st.endpointsCount)
    (hendp : cyclicSlot st 0 = some endp) (hready : result.isReady = true)
    (hevents : ∀ e ∈ events, e.isReceive = true) :
    Asked (left + 1) st st' o ([.sent endp buf sent, .polled result] ++ events) := by
  have hsent : sentTo ([.sent endp buf sent, .polled result] ++ events) = [endp] := by
    rw [sentTo, List.filterMap_append, ← sentTo, ← sentTo, sentTo_of_isReceive hevents]
    rfl
  have hpolled : pollResults ([.sent endp buf sent, .polled result] ++ events) = [result] := by
    rw [pollResults, List.filterMap_append, ← pollResults, ← pollResults,
      pollResults_of_isReceive hevents]
    rfl
  refine ⟨?_, by rw [hsent, hpolled]; rfl, ?_⟩
  · rw [hsent]
    show [some endp] = [cyclicSlot st 0]
    rw [hendp]
  · rw [hpolled]
    show LoopEnd _ _ _ _ ([] ++ [result])
    exact .ready (fun p hp => absurd hp List.not_mem_nil) hready
      (Nat.succ_pos left) hindex

/-- The loop asks the endpoints from the current one on. -/
theorem attempts_asked (net : Net ω) (fuel left : Nat) (hst : WellFormed c.st)
    (hpos : 0 < c.st.endpointsCount) (hsendable : Sendable c.req) :
    ∃ log,
      (attempts net fuel left (cyclicSlot c.st 0) c).2.trace = c.trace ++ log ∧
      (AllSent log → Asked left c.st (attempts net fuel left (cyclicSlot c.st 0) c).2.st
        (attempts net fuel left (cyclicSlot c.st 0) c).1 log) := by
  induction left generalizing c with
  | zero =>
    refine ⟨[], (List.append_nil _).symm, ?_⟩
    intro _
    refine ⟨rfl, rfl, ?_⟩
    -- no attempt is left: the index has moved by as many steps as none
    apply LoopEnd.exhausted (fun p hp => absurd hp List.not_mem_nil) rfl rfl
    show c.st.currEndpointIndex = (c.st.currEndpointIndex + (0 : Nat)) % c.st.endpointsCount
    have hlt := hst.index_lt hpos
    rw [Nat.cast_zero, add_zero, Int.emod_eq_of_lt hst.index_nonneg hlt]
  | succ left ih =>
    obtain ⟨endp, hslot⟩ := exists_cyclicSlot hpos 0
    rw [hslot, attempts]
    rcases hattempt : attempt net endp c with ⟨e, c₁⟩
    obtain ⟨hstep, hwf, hsame, hcount₁⟩ := attempt_spec hst hpos hattempt
    cases e with
    | stop o =>
      cases hstep with
      -- neither happens here: the request is accepted, and a failed send is not `AllSent`
      | refused hrefused => exact absurd hsendable hrefused
      | sendFailed _ _ hresult =>
        refine ⟨_, rfl, ?_⟩
        intro hall
        have hwhole := of_decide_eq_true (hall _ List.mem_cons_self)
        exact absurd hwhole hresult
    | ready =>
      have hframe := recvLoop_frame net fuel (hwf.socket hcount₁)
      obtain ⟨events, htrace, hevents⟩ := hframe.log
      obtain ⟨buf, sent, result, htrace₁, hready, hindex₁⟩ := hstep.of_ready
      refine ⟨[.sent endp buf sent, .polled result] ++ events, ?_, ?_⟩
      · show (recvLoop net fuel c₁).2.trace = _
        rw [htrace, htrace₁, List.append_assoc]
      · intro _
        apply Asked.of_ready _ hslot hready hevents
        rw [hframe.index_eq, hindex₁, Nat.cast_zero, add_zero,
          Int.emod_eq_of_lt hst.index_nonneg (hst.index_lt hpos)]
    | next endp' =>
      -- the rest asks the slots one place further, by the induction hypothesis
      obtain ⟨buf, sent, result, htrace₁, hready, hindex₁, rfl, hsendable₁⟩ := hstep.of_next
      obtain ⟨log, htrace, hasked⟩ := ih hwf hcount₁ hsendable₁
      rw [cyclicSlot_succ hsame hindex₁] at htrace hasked
      refine ⟨.sent endp buf sent :: .polled result :: log, ?_, ?_⟩
      · show (attempts net fuel left (cyclicSlot c.st 1) c₁).2.trace = _
        rw [htrace, htrace₁, List.append_assoc]
        rfl
      · intro hall
        apply Asked.cons hsame hindex₁ hslot hready
        apply hasked
        intro e he
        exact hall e (List.mem_cons_of_mem _ (List.mem_cons_of_mem _ he))

end Runs

/-- The attempts of a call of `resolve` with the log `log`, from `st` to `st'`. -/
structure RoundRobin (st st' : ResolverState) (o : Outcome) (log : List Event) : Prop where
  /-- The endpoints are asked in cyclic order from the current one. -/
  slots : (sentTo log).map some = (List.range (sentTo log).length).map (cyclicSlot st)
  /-- Each endpoint is asked at most once. -/
  nodup : (sentTo log).Nodup
  count_le : (sentTo log).length ≤ st.endpointsCount
  polls : (pollResults log).length = (sentTo log).length
  /-- The call stops at the first endpoint that becomes ready and stays at it; if there is none,
  it has asked every endpoint, fails, and the index is back at its start. -/
  outcome :
    (∃ failed result, pollResults log = failed ++ [result] ∧
      (∀ p ∈ failed, p.isReady = false) ∧ result.isReady = true ∧
      st'.currEndpointIndex = (st.currEndpointIndex + failed.length) % st.endpointsCount) ∨
    ((∀ p ∈ pollResults log, p.isReady = false) ∧ (sentTo log).length = st.endpointsCount ∧
      o = .returned (-1) ∧ st'.currEndpointIndex = st.currEndpointIndex)

theorem Asked.roundRobin {st st' : ResolverState} {o : Outcome} {log : List Event}
    (hst : WellFormed st) (hpos : 0 < st.endpointsCount)
    (h : Asked st.endpointsCount st st' o log) : RoundRobin st st' o log := by
  obtain ⟨hslots, hpolls, hend⟩ := h
  have hle : (sentTo log).length ≤ st.endpointsCount := hpolls ▸ hend.length_le
  refine ⟨hslots, nodup_of_slots hst hslots hle, hle, hpolls, ?_⟩
  generalize hresults : pollResults log = results at hend hpolls
  cases hend with
  | ready hfailed hready _ hcurr => exact .inl ⟨_, _, rfl, hfailed, hready, hcurr⟩
  | exhausted hfailed hlen ho hcurr =>
    refine .inr ⟨hfailed, hpolls.symm.trans hlen, ho, ?_⟩
    -- a full turn comes back to the start
    rw [hcurr, Int.add_emod_right, Int.emod_eq_of_lt hst.index_nonneg (hst.index_lt hpos)]

/-- In every reachable state the index is in range as soon as there is an endpoint, and no call
divides by zero. A call whose request is accepted and whose messages are all sent goes around the
list as `RoundRobin` says. -/
theorem resolve_roundRobin {ω : Type} (net : Net ω) (fuel : Nat) (c : Ctx ω)
    (hst : Reachable c.st) :
    (resolve net fuel c).1 ≠ .crashed ∧
    (0 < c.st.endpointsCount →
      (0 ≤ c.st.currEndpointIndex ∧ c.st.currEndpointIndex < c.st.endpointsCount) ∧
      ((prepareMsg c.req c.st c.error).1 = 0 →
        ∃ log, (resolve net fuel c).2.trace = c.trace ++ log ∧
          (AllSent log →
            RoundRobin c.st (resolve net fuel c).2.st (resolve net fuel c).1 log))) := by
  have hwf := hst.wellFormed
  refine ⟨(resolve_wellFormed net fuel hwf).1, ?_⟩
  intro hpos
  refine ⟨⟨hwf.index_nonneg, hwf.index_lt hpos⟩, ?_⟩
  intro hprep
  have hsendable : Sendable c.req := (prepareMsg_ret rfl).mp hprep
  rw [resolve_eq_attempts net fuel hwf hpos, ← cyclicSlot_zero hwf hpos]
  obtain ⟨log, htrace, hasked⟩ := attempts_asked net fuel c.st.endpointsCount hwf hpos
    hsendable
  refine ⟨log, htrace, ?_⟩
  intro hall
  exact (hasked hall).roundRobin hwf hpos

/-- A network without servers. -/
def silentNet : Net Unit where
  rand _ := (7, ())
  sendto _ _ buf := (.ok buf.length, ())
  poll _ := (.ok 0, ())
  recvfrom _ _ := (.fail 11, ())

theorem resolve_roundRobin_silentNet :
    ∃ log, (resolve silentNet 1 sampleCall).2.trace = sampleCall.trace ++ log ∧
      RoundRobin sampleCall.st (resolve silentNet 1 sampleCall).2.st
        (resolve silentNet 1 sampleCall).1 log := by
  obtain ⟨-, hcall⟩ := resolve_roundRobin silentNet 1 sampleCall reachable_sampleCall
  obtain ⟨log, htrace, hasked⟩ := (hcall (by decide +kernel)).2 (by decide +kernel)
  have hall : ∀ e ∈ (resolve silentNet 1 sampleCall).2.trace, e.sentWhole = true := by
    decide +kernel
  refine ⟨log, htrace, hasked ?_⟩
  intro e he
  apply hall e
  rw [htrace]
  exact List.mem_append_right _ he

end YetiPgExt.Lnp
