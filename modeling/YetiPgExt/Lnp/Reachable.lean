import YetiPgExt.Lnp.ResolveSteps

/-!
# Reachable resolver states

A backend calls `lnp_endpoints_set` and `resolve` in any order, with any arguments and in any
environment. `Reachable.wellFormed` says that the state between two calls is well formed: in
particular the current index is in range as soon as there is an endpoint, so `get_next_endpoint`
never divides by zero (`resolve_wellFormed`).

A step of `resolve` changes neither the endpoints nor the socket (`SameList`), and the receive
loop leaves the request and the index alone as well.
-/

set_option autoImplicit false

namespace YetiPgExt.Lnp

open YetiPgExt.Library

/-- The same endpoints and the same socket. -/
structure SameList (st st' : ResolverState) : Prop where
  endpoints_eq : st'.endpoints = st.endpoints
  count_eq : st'.endpointsCount = st.endpointsCount
  socket_eq : st'.socketFd = st.socketFd

theorem SameList.refl (st : ResolverState) : SameList st st := ⟨rfl, rfl, rfl⟩

theorem SameList.trans {st₁ st₂ st₃ : ResolverState} (h : SameList st₁ st₂)
    (h' : SameList st₂ st₃) : SameList st₁ st₃ :=
  ⟨h'.endpoints_eq.trans h.endpoints_eq, h'.count_eq.trans h.count_eq,
    h'.socket_eq.trans h.socket_eq⟩

theorem SameList.getEndpointAtIndex_eq {st st' : ResolverState} (h : SameList st st')
    (index : Int) : getEndpointAtIndex st' index = getEndpointAtIndex st index := by
  obtain ⟨hendpoints, hcount, -⟩ := h
  cases st
  cases st'
  subst hendpoints
  subst hcount
  rfl

/-- Well-formedness is about the list, the socket and the index. -/
theorem WellFormed.of_sameList {st st' : ResolverState} (hst : WellFormed st)
    (h : SameList st st')
    (hindex : 0 ≤ st'.currEndpointIndex ∧
      (0 < st.endpointsCount → st'.currEndpointIndex < st.endpointsCount)) : WellFormed st' where
  index_nonneg := hindex.1
  index_lt hpos := by
    rw [h.count_eq] at hpos ⊢
    exact hindex.2 hpos
  socket hpos := by
    rw [h.count_eq] at hpos
    rw [h.socket_eq]
    exact hst.socket hpos
  ids i hi := by
    rw [h.count_eq] at hi
    rw [h.endpoints_eq]
    exact hst.ids i hi

theorem nextIndex_range {st : ResolverState} (hpos : 0 < st.endpointsCount) :
    0 ≤ nextIndex st ∧ nextIndex st < st.endpointsCount := by
  have hcount : (0 : Int) < st.endpointsCount := by exact_mod_cast hpos
  exact ⟨Int.emod_nonneg _ hcount.ne', Int.emod_lt_of_pos _ hcount⟩

section Steps

variable {ω : Type} {net : Net ω} {c c' : Ctx ω}

theorem AttemptStep.sameList {endp : Endpoint} {e : AttemptEnd}
    (h : AttemptStep net endp c e c') : SameList c.st c'.st := by
  cases h with
  | refused _ => exact ⟨rfl, rfl, rfl⟩
  | sendFailed _ _ _ => exact ⟨rfl, rfl, rfl⟩
  | notReady _ _ _ _ => exact ⟨rfl, rfl, rfl⟩
  | ready _ _ _ _ => exact ⟨rfl, rfl, rfl⟩

theorem AttemptStep.wellFormed {endp : Endpoint} {e : AttemptEnd}
    (h : AttemptStep net endp c e c') (hst : WellFormed c.st) (hpos : 0 < c.st.endpointsCount) :
    WellFormed c'.st := by
  apply hst.of_sameList h.sameList
  cases h with
  | refused _ => exact ⟨hst.index_nonneg, hst.index_lt⟩
  | sendFailed _ _ _ => exact ⟨hst.index_nonneg, hst.index_lt⟩
  -- the only step that moves the index
  | notReady _ _ _ _ => exact ⟨(nextIndex_range hpos).1, fun _ => (nextIndex_range hpos).2⟩
  | ready _ _ _ _ => exact ⟨hst.index_nonneg, hst.index_lt⟩

/-- The step that an attempt makes, and the state that it leaves to the rest of the loop. -/
theorem attempt_spec {endp : Endpoint} {e : AttemptEnd} (hst : WellFormed c.st)
    (hpos : 0 < c.st.endpointsCount) (hattempt : attempt net endp c = (e, c')) :
    AttemptStep net endp c e c' ∧ WellFormed c'.st ∧ SameList c.st c'.st ∧
      0 < c'.st.endpointsCount := by
  have hstep := attempt_step net endp hst hpos
  rw [hattempt] at hstep
  refine ⟨hstep, hstep.wellFormed hst hpos, hstep.sameList, ?_⟩
  rw [hstep.sameList.count_eq]
  exact hpos

theorem AttemptStep.type_eq {endp : Endpoint} {e : AttemptEnd}
    (h : AttemptStep net endp c e c') : c'.req.type = c.req.type := by
  cases h with
  | refused _ => rfl
  | sendFailed _ _ _ => rfl
  | notReady _ _ _ _ => rfl
  | ready _ _ _ _ => rfl

/-- An event of the receive loop. -/
def Event.isReceive : Event → Bool
  | .received _ | .recvFailed _ | .terminated _ => true
  | .sent _ _ _ | .polled _ => false

/-- What the receive loop leaves alone, and that all it logs are receives. -/
structure ReceiveFrame (c c' : Ctx ω) : Prop where
  req_eq : c'.req = c.req
  sameList : SameList c.st c'.st
  index_eq : c'.st.currEndpointIndex = c.st.currEndpointIndex
  log : ∃ events, c'.trace = c.trace ++ events ∧ ∀ e ∈ events, e.isReceive = true

theorem ReceiveFrame.refl (c : Ctx ω) : ReceiveFrame c c where
  req_eq := rfl
  sameList := .refl _
  index_eq := rfl
  log := ⟨[], (List.append_nil _).symm, fun _ h => absurd h List.not_mem_nil⟩

theorem ReceiveFrame.trans {c₁ c₂ c₃ : Ctx ω} (h : ReceiveFrame c₁ c₂)
    (h' : ReceiveFrame c₂ c₃) : ReceiveFrame c₁ c₃ where
  req_eq := h'.req_eq.trans h.req_eq
  sameList := h.sameList.trans h'.sameList
  index_eq := h'.index_eq.trans h.index_eq
  log := by
    obtain ⟨events, htrace, hevents⟩ := h.log
    obtain ⟨events', htrace', hevents'⟩ := h'.log
    refine ⟨events ++ events', by rw [htrace', htrace, List.append_assoc], ?_⟩
    intro e he
    rcases List.mem_append.mp he with he | he
    · exact hevents e he
    · exact hevents' e he

theorem RecvStep.frame {o : Option Outcome} (h : RecvStep net c o c') : ReceiveFrame c c' := by
  cases h with
  | failed _ => exact ⟨rfl, ⟨rfl, rfl, rfl⟩, rfl, _, rfl, by simp [Event.isReceive]⟩
  | rejected _ _ => exact ⟨rfl, ⟨rfl, rfl, rfl⟩, rfl, _, rfl, by simp [Event.isReceive]⟩
  | passedOver _ _ => exact ⟨rfl, ⟨rfl, rfl, rfl⟩, rfl, _, rfl, by simp [Event.isReceive]⟩
  | answered _ _ _ => exact ⟨rfl, ⟨rfl, rfl, rfl⟩, rfl, _, rfl, by simp [Event.isReceive]⟩

theorem recvLoop_frame (net : Net ω) (fuel : Nat) (hfd : 0 ≤ c.st.socketFd) :
    ReceiveFrame c (recvLoop net fuel c).2 := by
  induction fuel generalizing c with
  | zero => exact .refl c
  | succ fuel ih =>
    have hstep := (recvStep_step net hfd).frame
    rw [recvLoop]
    rcases hrecv : recvStep net c with ⟨o, c₁⟩
    rw [hrecv] at hstep
    cases o with
    | some o => exact hstep
    -- the loop goes on from a context with the same socket
    | none =>
      apply hstep.trans
      apply ih
      rw [hstep.sameList.socket_eq]
      exact hfd

/-- The receive loop does not divide. -/
theorem recvLoop_ne_crashed (fuel : Nat) (hfd : 0 ≤ c.st.socketFd) :
    (recvLoop net fuel c).1 ≠ .crashed := by
  induction fuel generalizing c with
  | zero => simp [recvLoop]
  | succ fuel ih =>
    have hstep := recvStep_step net hfd
    rw [recvLoop]
    rcases hrecv : recvStep net c with ⟨o, c₁⟩
    rw [hrecv] at hstep
    cases hstep with
    | failed _ => simp
    | rejected _ _ => simp
    -- the only step after which the loop goes on
    | passedOver _ _ => exact ih hfd
    | answered _ _ _ => simp

/-- The loop over the endpoints keeps the state well formed and does not divide by zero. -/
theorem attempts_wellFormed (fuel left : Nat) (endp : Option Endpoint) (hst : WellFormed c.st)
    (hpos : 0 < c.st.endpointsCount) :
    (attempts net fuel left endp c).1 ≠ .crashed ∧
      WellFormed (attempts net fuel left endp c).2.st := by
  -- on the attempts left; a failover hands the invariant to the next attempt
  induction left generalizing c endp with
  | zero => exact ⟨by simp [attempts, giveUp], hst⟩
  | succ left ih =>
    cases endp with
    | none => exact ⟨by simp [attempts, giveUp], hst⟩
    | some endp =>
      rw [attempts]
      rcases hattempt : attempt net endp c with ⟨e, c₁⟩
      obtain ⟨hstep, hwf, -, hcount⟩ := attempt_spec hst hpos hattempt
      cases e with
      | stop o =>
        refine ⟨?_, hwf⟩
        cases hstep with
        | refused _ => simp
        | sendFailed _ _ _ => simp
      | next endp' => exact ih endp' hwf hcount
      | ready =>
        have hfd := hwf.socket hcount
        have hframe := recvLoop_frame net fuel hfd
        -- the receive loop is the last thing the call does, and it keeps the index
        refine ⟨recvLoop_ne_crashed fuel hfd, hwf.of_sameList hframe.sameList ?_⟩
        rw [hframe.index_eq]
        exact ⟨hwf.index_nonneg, hwf.index_lt⟩

/-- On a well-formed state with endpoints `resolve` is the loop, started at the current one. -/
theorem resolve_eq_attempts (net : Net ω) (fuel : Nat) (hst : WellFormed c.st)
    (hpos : 0 < c.st.endpointsCount) :
    resolve net fuel c =
      attempts net fuel c.st.endpointsCount
        (getEndpointAtIndex c.st c.st.currEndpointIndex) c := by
  rw [resolve, if_neg (Nat.ne_of_gt hpos), getCurrentEndpoint_of_wellFormed hst hpos]

theorem resolve_wellFormed (net : Net ω) (fuel : Nat) (hst : WellFormed c.st) :
    (resolve net fuel c).1 ≠ .crashed ∧ WellFormed (resolve net fuel c).2.st := by
  rcases Nat.eq_zero_or_pos c.st.endpointsCount with hzero | hpos
  · rw [resolve, if_pos hzero]
    exact ⟨by simp, hst⟩
  · rw [resolve_eq_attempts net fuel hst hpos]
    exact attempts_wellFormed fuel _ _ hst hpos

/-! ## What a call logs -/

/-- A property of logs that every step keeps, with what it needs to know of the request. -/
structure LogRule (net : Net ω) (I : Request → Prop) (P : List Event → Prop) : Prop where
  nil : P []
  append : ∀ {log log' : List Event}, P log → P log' → P (log ++ log')
  attempt : ∀ {c c' : Ctx ω} {endp : Endpoint} {e : AttemptEnd}, I c.req →
    AttemptStep net endp c e c' → I c'.req ∧ ∃ log, c'.trace = c.trace ++ log ∧ P log
  recv : ∀ {c c' : Ctx ω} {o : Option Outcome}, RecvStep net c o c' →
    ∃ log, c'.trace = c.trace ++ log ∧ P log

variable {I : Request → Prop} {P : List Event → Prop}

theorem LogRule.recvLoop (h : LogRule net I P) (fuel : Nat) (hfd : 0 ≤ c.st.socketFd) :
    ∃ log, (recvLoop net fuel c).2.trace = c.trace ++ log ∧ P log := by
  -- on the fuel, one receive at a time
  induction fuel generalizing c with
  | zero => exact ⟨[], (List.append_nil _).symm, h.nil⟩
  | succ fuel ih =>
    have hstep := recvStep_step net hfd
    rw [Lnp.recvLoop]
    rcases hrecv : recvStep net c with ⟨o, c₁⟩
    rw [hrecv] at hstep
    obtain ⟨log, htrace, hlog⟩ := h.recv hstep
    simp only at htrace
    cases o with
    | some o => exact ⟨log, htrace, hlog⟩
    | none =>
      have hfd₁ : 0 ≤ c₁.st.socketFd := by
        rw [hstep.frame.sameList.socket_eq]
        exact hfd
      obtain ⟨log', htrace', hlog'⟩ := ih hfd₁
      refine ⟨log ++ log', ?_, h.append hlog hlog'⟩
      simp only [htrace', htrace, List.append_assoc]

theorem LogRule.attempts (h : LogRule net I P) (fuel left : Nat) (endp : Option Endpoint)
    (hst : WellFormed c.st) (hpos : 0 < c.st.endpointsCount) (hI : I c.req) :
    ∃ log, (attempts net fuel left endp c).2.trace = c.trace ++ log ∧ P log := by
  -- on the attempts left
  induction left generalizing c endp with
  | zero => exact ⟨[], (List.append_nil _).symm, h.nil⟩
  | succ left ih =>
    cases endp with
    | none => exact ⟨[], (List.append_nil _).symm, h.nil⟩
    | some endp =>
      rw [Lnp.attempts]
      rcases hattempt : Lnp.attempt net endp c with ⟨e, c₁⟩
      obtain ⟨hstep, hwf, -, hcount⟩ := attempt_spec hst hpos hattempt
      obtain ⟨hI₁, log, htrace, hlog⟩ := h.attempt hI hstep
      cases e with
      | stop o => exact ⟨log, htrace, hlog⟩
      | next endp' =>
        obtain ⟨log', htrace', hlog'⟩ := ih endp' hwf hcount hI₁
        refine ⟨log ++ log', ?_, h.append hlog hlog'⟩
        simp only [htrace', htrace, List.append_assoc]
      | ready =>
        obtain ⟨log', htrace', hlog'⟩ := h.recvLoop fuel (hwf.socket hcount)
        refine ⟨log ++ log', ?_, h.append hlog hlog'⟩
        simp only [htrace', htrace, List.append_assoc]

/-- What a call of `resolve` logs has every property that its steps keep. -/
theorem LogRule.resolve (h : LogRule net I P) (fuel : Nat) (hst : WellFormed c.st)
    (hI : I c.req) :
    ∃ log, (resolve net fuel c).2.trace = c.trace ++ log ∧ P log := by
  rcases Nat.eq_zero_or_pos c.st.endpointsCount with hzero | hpos
  · rw [Lnp.resolve, if_pos hzero]
    exact ⟨[], (List.append_nil _).symm, h.nil⟩
  · rw [resolve_eq_attempts net fuel hst hpos]
    exact h.attempts fuel _ _ hst hpos hI

end Steps

/-- The states between the calls of a backend. A call that runs for ever is not followed by
another one. -/
inductive Reachable : ResolverState → Prop
  | init : Reachable .init
  | endpointsSet {inetAton : Bytes → Option UInt32} {newFd : Int} {st st' : ResolverState}
      {uris : List (Option Bytes)} {r : SetResult} : Reachable st →
      lnpEndpointsSet inetAton newFd st uris = some (r, st') → Reachable st'
  | resolve {ω : Type} {net : Net ω} {fuel : Nat} {c c' : Ctx ω} {o : Outcome} :
      Reachable c.st → resolve net fuel c = (o, c') → o ≠ .running → Reachable c'.st

theorem Reachable.wellFormed {st : ResolverState} (h : Reachable st) : WellFormed st := by
  -- on the calls of the backend
  induction h with
  | init => exact .init
  | endpointsSet _ hset ih => exact ih.lnpEndpointsSet hset
  | @resolve ω net fuel c c' o _ hresolve _ ih =>
    have hwf := (resolve_wellFormed net fuel ih).2
    rwa [hresolve] at hwf

theorem Reachable.get {inetAton : Bytes → Option UInt32} {newFd : Int} {st : ResolverState}
    {uris : List (Option Bytes)} (hst : Reachable st)
    (h : (lnpEndpointsSet inetAton newFd st uris).isSome = true) :
    Reachable ((lnpEndpointsSet inetAton newFd st uris).get h).2 := by
  obtain ⟨⟨r, st'⟩, hset⟩ := Option.isSome_iff_exists.mp h
  simp only [hset, Option.get_some]
  exact .endpointsSet hst hset

/-! ## A configured backend -/

/-- `inet_aton` on two addresses. -/
def sampleInetAton (host : Bytes) : Option UInt32 :=
  if host = ascii "10.0.0.1" then some 0x0A000001
  else if host = ascii "10.0.0.2" then some 0x0A000002
  else none

/-- The argument of `lnp_endpoints_set(ARRAY['10.0.0.1:5060', NULL, '10.0.0.2:5061'])`. -/
def sampleUris : List (Option Bytes) :=
  [some (ascii "10.0.0.1:5060"), none, some (ascii "10.0.0.2:5061")]

theorem sampleSet_isSome :
    (lnpEndpointsSet sampleInetAton 3 .init sampleUris).isSome = true := by decide +kernel

/-- The state that the call leaves in a new backend, with two endpoints. -/
def sampleState : ResolverState :=
  ((lnpEndpointsSet sampleInetAton 3 .init sampleUris).get sampleSet_isSome).2

theorem reachable_sampleState : Reachable sampleState := by
  unfold sampleState
  exact Reachable.init.get sampleSet_isSome

end YetiPgExt.Lnp
