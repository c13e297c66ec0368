import YetiPgExt.Lnp.RoundRobin

/-!
# Failover

Every endpoint has an outcome of its own: the send to it fails, the poll after the send times out
or fails, or it answers with the id of the request. A call should return the answer of the first
endpoint that answers, in cyclic order from the current one. A poll that times out or fails moves
on to the next endpoint; a send that fails goes through the macro `err`, and `elog` leaves
`resolve` before the `get_next_endpoint` behind it. `failover_iff` says that the call returns the
answer exactly if no send fails before it.
-/

set_option autoImplicit false

namespace YetiPgExt.Lnp

open YetiPgExt.Library

/-! ## Endpoints with outcomes -/

/-- An answer to requests of a type: the bytes behind the id, which make up a reply that fits the
buffer whatever the id is, and what the reply says. -/
structure Answer (type : UInt8) where
  body : Bytes
  resp : Response
  fits : 4 + body.length ≤ msgSz
  reply : ∀ id : UInt32, SuccessReply type (encodeLE 4 id.toNat ++ body) { resp with id := id }

/-- What becomes of a request to an endpoint. -/
inductive EndpointOutcome (type : UInt8) where
  | sendFails (errno : Int)
  | pollTimesOut
  | pollFails (errno : Int)
  | answers (a : Answer type)

/-- What `poll` reports after the send. -/
def EndpointOutcome.pollResult {type : UInt8} : EndpointOutcome type → SysResult Nat
  | .sendFails _ | .pollTimesOut => .ok 0
  | .pollFails errno => .fail errno
  | .answers _ => .ok 1

/-- The values that `rand` gave so far, and the endpoint that was asked last, with the message. -/
structure PatternWorld where
  draws : Nat
  asked : Option (Nat × Bytes)

/-- The network in which the endpoint in slot `i` has the outcome `pattern i`. -/
def patternNet {type : UInt8} (rand : Nat → UInt32) (pattern : Nat → EndpointOutcome type) :
    Net PatternWorld where
  rand w := (rand w.draws, { w with draws := w.draws + 1 })
  sendto w endp buf :=
    match pattern endp.id with
    | .sendFails errno => (.fail errno, w)
    | _ => (.ok buf.length, { w with asked := some (endp.id, buf) })
  poll w :=
    match w.asked with
    | none => (.ok 0, w)
    | some (i, _) => ((pattern i).pollResult, w)
  recvfrom w _ :=
    match w.asked with
    | none => (.fail 11, w)
    | some (i, buf) =>
      match pattern i with
      | .answers a => (.ok (buf.take 4 ++ a.body), w)
      | _ => (.fail 11, w)

section Steps

variable {type : UInt8} {rand : Nat → UInt32} {pattern : Nat → EndpointOutcome type}
variable {c c₁ : Ctx PatternWorld} {endp : Endpoint} {e : AttemptEnd}

theorem patternNet_sendto (w : PatternWorld) (buf : Bytes)
    (h : ∀ errno, pattern endp.id ≠ .sendFails errno) :
    (patternNet rand pattern).sendto w endp buf =
      (.ok buf.length, { w with asked := some (endp.id, buf) }) := by
  cases hpat : pattern endp.id with
  | sendFails errno => exact absurd hpat (h errno)
  | pollTimesOut => simp only [patternNet, hpat]
  | pollFails errno => simp only [patternNet, hpat]
  | answers a => simp only [patternNet, hpat]

theorem patternNet_poll {w : PatternWorld} {i : Nat} {buf : Bytes} (h : w.asked = some (i, buf)) :
    (patternNet rand pattern).poll w = ((pattern i).pollResult, w) := by
  simp only [patternNet, h]

theorem patternNet_recvfrom {w : PatternWorld} {i : Nat} {buf : Bytes} {a : Answer type}
    (h : w.asked = some (i, buf)) (hpat : pattern i = .answers a) (len : Nat) :
    (patternNet rand pattern).recvfrom w len = (.ok (buf.take 4 ++ a.body), w) := by
  simp only [patternNet, h, hpat]

theorem patternNet_sendto_fail (w : PatternWorld) (buf : Bytes) {errno : Int}
    (h : pattern endp.id = .sendFails errno) :
    (patternNet rand pattern).sendto w endp buf = (.fail errno, w) := by
  simp only [patternNet, h]

/-- A send that fails leaves `resolve`. -/
theorem AttemptStep.of_sendFails (h : AttemptStep (patternNet rand pattern) endp c e c₁)
    {errno : Int} (hpat : pattern endp.id = .sendFails errno) :
    ∃ o, e = .stop o ∧ o ≠ .returned 0 := by
  cases h with
  | refused _ => exact ⟨_, rfl, by simp⟩
  | sendFailed _ _ _ => exact ⟨_, rfl, by simp⟩
  | notReady _ hsend _ _ =>
    rw [patternNet_sendto_fail _ _ hpat, Prod.mk.injEq] at hsend
    cases hsend.1
  | ready _ hsend _ _ =>
    rw [patternNet_sendto_fail _ _ hpat, Prod.mk.injEq] at hsend
    cases hsend.1

/-- An endpoint that is sent to is polled, and the attempt ends as the poll says. -/
theorem AttemptStep.of_sent (h : AttemptStep (patternNet rand pattern) endp c e c₁)
    (hsendable : Sendable c.req) (hsend : ∀ errno, pattern endp.id ≠ .sendFails errno) :
    ((∃ endp', e = .next endp') ∧ (pattern endp.id).pollResult.isReady = false) ∨
    (e = .ready ∧ (pattern endp.id).pollResult.isReady = true ∧
      c₁.world.asked = some (endp.id, requestImage c₁.req) ∧
      c₁.req.type = c.req.type ∧ c₁.st.currEndpointIndex = c.st.currEndpointIndex) := by
  cases h with
  | refused hrefused => exact absurd hsendable hrefused
  | sendFailed _ hsent hresult =>
    rw [patternNet_sendto _ _ hsend, Prod.mk.injEq] at hsent
    exact absurd hsent.1.symm hresult
  | notReady _ hsent hpoll hready =>
    rw [patternNet_sendto _ _ hsend, Prod.mk.injEq] at hsent
    rw [← hsent.2, patternNet_poll rfl, Prod.mk.injEq] at hpoll
    rw [← hpoll.1] at hready
    exact Or.inl ⟨⟨_, rfl⟩, hready⟩
  | ready _ hsent hpoll hready =>
    rw [patternNet_sendto _ _ hsend, Prod.mk.injEq] at hsent
    rw [← hsent.2, patternNet_poll rfl, Prod.mk.injEq] at hpoll
    rw [← hpoll.1] at hready
    exact Or.inr ⟨rfl, hready, congrArg PatternWorld.asked hpoll.2.symm, rfl, rfl⟩

/-- An endpoint that is sent to and does not answer is left for the next one. -/
theorem AttemptStep.of_silent (h : AttemptStep (patternNet rand pattern) endp c e c₁)
    (hsendable : Sendable c.req) (hsend : ∀ errno, pattern endp.id ≠ .sendFails errno)
    (hsilent : ∀ a, pattern endp.id ≠ .answers a) : ∃ endp', e = .next endp' := by
  rcases h.of_sent hsendable hsend with ⟨hnext, -⟩ | ⟨-, hready, -⟩
  · exact hnext
  · -- the poll is not ready, whichever of the two outcomes is left
    cases hpat : pattern endp.id with
    | sendFails errno => exact absurd hpat (hsend errno)
    | answers a => exact absurd hpat (hsilent a)
    | pollTimesOut =>
      rw [hpat] at hready
      cases hready
    | pollFails errno =>
      rw [hpat] at hready
      cases hready

/-- An endpoint that answers is waited for. -/
theorem AttemptStep.of_answers (h : AttemptStep (patternNet rand pattern) endp c e c₁)
    (hsendable : Sendable c.req) {a : Answer type} (hpat : pattern endp.id = .answers a) :
    e = .ready ∧ c₁.world.asked = some (endp.id, requestImage c₁.req) ∧
      c₁.req.type = c.req.type ∧ c₁.st.currEndpointIndex = c.st.currEndpointIndex := by
  have hsend : ∀ errno, pattern endp.id ≠ .sendFails errno := by
    intro errno hfail
    rw [hpat] at hfail
    cases hfail
  rcases h.of_sent hsendable hsend with ⟨-, hready⟩ | ⟨he, -, hasked⟩
  · rw [hpat] at hready
    cases hready
  · exact ⟨he, hasked⟩

/-- The receive loop returns the answer. -/
theorem recvLoop_answer (rand : Nat → UInt32) (fuel : Nat) (hfd : 0 ≤ c.st.socketFd)
    (htype : c.req.type = type) {a : Answer type} (hpat : pattern endp.id = .answers a)
    (hasked : c.world.asked = some (endp.id, requestImage c.req)) :
    (recvLoop (patternNet rand pattern) (fuel + 1) c).1 = .returned 0 ∧
      (recvLoop (patternNet rand pattern) (fuel + 1) c).2.resp =
        { a.resp with id := c.req.id } := by
  have hreply := a.reply c.req.id
  have hid : leadingId (encodeLE 4 c.req.id.toNat ++ a.body) = c.req.id := leadingId_append _ _
  have hrecv : (patternNet rand pattern).recvfrom c.world msgSz =
      (.ok (encodeLE 4 c.req.id.toNat ++ a.body), c.world) := by
    rw [patternNet_recvfrom hasked hpat, take_four_requestImage]
  have hlen : (encodeLE 4 c.req.id.toNat ++ a.body).length ≤ msgSz := by
    rw [List.length_append, length_encodeLE]
    exact a.fits
  have htake := List.take_of_length_le hlen
  have hstep := recvStep_step (patternNet rand pattern) hfd
  rw [recvLoop]
  rcases hres : recvStep (patternNet rand pattern) c with ⟨o, c₁⟩
  rw [hres] at hstep
  cases hstep with
  | failed h =>
    rw [hrecv, Prod.mk.injEq] at h
    cases h.1
  -- the datagram is a reply of the request's type with its id, so neither of the next two
  | rejected h hacc =>
    rw [hrecv, Prod.mk.injEq, SysResult.ok.injEq] at h
    rw [← h.1, htake, htype] at hacc
    exact absurd (.inr ⟨_, hreply⟩) hacc
  | passedOver h hpass =>
    rw [hrecv, Prod.mk.injEq, SysResult.ok.injEq] at h
    rw [← h.1, htake] at hpass
    rcases hpass with hfour | ⟨_, _, hne⟩
    · have := hreply.length_gt
      omega
    · exact absurd hid hne
  | answered h hreply' _ =>
    rw [hrecv, Prod.mk.injEq, SysResult.ok.injEq] at h
    rw [← h.1, htake, htype] at hreply'
    exact ⟨rfl, hreply'.unique hreply⟩

end Steps

/-! ## The first answer -/

section Pattern

variable {type : UInt8}

/-- The outcome of the endpoint `i` places behind the current one. -/
def OutcomeAt (pattern : Nat → EndpointOutcome type) (st : ResolverState) (i : Nat)
    (o : EndpointOutcome type) : Prop :=
  ∃ endp, cyclicSlot st i = some endp ∧ pattern endp.id = o

/-- The first endpoint that answers is `k` places behind the current one and answers `a`. -/
structure FirstAnswer (pattern : Nat → EndpointOutcome type) (st : ResolverState) (left k : Nat)
    (a : Answer type) : Prop where
  lt : k < left
  answers : OutcomeAt pattern st k (.answers a)
  first : ∀ i < k, ∀ a', ¬ OutcomeAt pattern st i (.answers a')

/-- The call returns 0 with the answer `a` of the endpoint `k` places behind the current one, which
stays current. -/
structure ReturnsAnswer (st : ResolverState) (k : Nat) (a : Answer type)
    (result : Outcome × Ctx PatternWorld) : Prop where
  returned : result.1 = .returned 0
  resp : result.2.resp = { a.resp with id := result.2.req.id }
  stays : result.2.st.currEndpointIndex = (st.currEndpointIndex + k) % st.endpointsCount

/-- No send fails before the endpoint `k` places behind the current one is asked. -/
def NoSendFails (pattern : Nat → EndpointOutcome type) (st : ResolverState) (k : Nat) : Prop :=
  ∀ i < k, ∀ errno, ¬ OutcomeAt pattern st i (.sendFails errno)

variable {rand : Nat → UInt32} {pattern : Nat → EndpointOutcome type}
variable {st st₁ : ResolverState}

theorem outcomeAt_succ (hsame : SameList st st₁) (hindex : st₁.currEndpointIndex = nextIndex st)
    (i : Nat) (o : EndpointOutcome type) :
    OutcomeAt pattern st₁ i o ↔ OutcomeAt pattern st (i + 1) o := by
  rw [OutcomeAt, OutcomeAt, cyclicSlot_succ hsame hindex]

theorem FirstAnswer.tail {left k : Nat} {a : Answer type}
    (h : FirstAnswer pattern st (left + 1) (k + 1) a) (hsame : SameList st st₁)
    (hindex : st₁.currEndpointIndex = nextIndex st) : FirstAnswer pattern st₁ left k a where
  lt := Nat.lt_of_succ_lt_succ h.lt
  answers := (outcomeAt_succ hsame hindex k _).mpr h.answers
  first i hi a' hat := h.first (i + 1) (Nat.succ_lt_succ hi) a'
    ((outcomeAt_succ hsame hindex i _).mp hat)

theorem noSendFails_succ (hsame : SameList st st₁)
    (hindex : st₁.currEndpointIndex = nextIndex st) (k : Nat)
    (hzero : ∀ errno, ¬ OutcomeAt pattern st 0 (.sendFails errno)) :
    NoSendFails pattern st₁ k ↔ NoSendFails pattern st (k + 1) := by
  constructor
  · intro h i hi errno hat
    cases i with
    | zero => exact hzero errno hat
    | succ i =>
      exact h i (Nat.lt_of_succ_lt_succ hi) errno ((outcomeAt_succ hsame hindex i _).mpr hat)
  · intro h i hi errno hat
    exact h (i + 1) (Nat.succ_lt_succ hi) errno ((outcomeAt_succ hsame hindex i _).mp hat)

theorem returnsAnswer_succ (hsame : SameList st st₁)
    (hindex : st₁.currEndpointIndex = nextIndex st) {k : Nat} {a : Answer type}
    {result : Outcome × Ctx PatternWorld} :
    ReturnsAnswer st₁ k a result ↔ ReturnsAnswer st (k + 1) a result := by
  have hmove : (st₁.currEndpointIndex + k) % st₁.endpointsCount =
      (st.currEndpointIndex + (k + 1 : Nat)) % st.endpointsCount :=
    cyclicIndex_succ hsame hindex k
  constructor
  · rintro ⟨hret, hresp, hstays⟩
    exact ⟨hret, hresp, hstays.trans hmove⟩
  · rintro ⟨hret, hresp, hstays⟩
    exact ⟨hret, hresp, hstays.trans hmove.symm⟩

/-- The loop returns the first answer exactly if no send fails before it. -/
theorem attempts_answer_iff (fuel : Nat) {left k : Nat} {a : Answer type} {c : Ctx PatternWorld}
    (hst : WellFormed c.st) (hpos : 0 < c.st.endpointsCount) (hsendable : Sendable c.req)
    (htype : c.req.type = type) (h : FirstAnswer pattern c.st left k a) :
    ReturnsAnswer c.st k a
        (attempts (patternNet rand pattern) (fuel + 1) left (cyclicSlot c.st 0) c) ↔
      NoSendFails pattern c.st k := by
  induction left generalizing c k with
  | zero => exact absurd h.lt (Nat.not_lt_zero _)
  | succ left ih =>
    obtain ⟨endp, hslot⟩ := exists_cyclicSlot hpos 0
    rw [hslot, attempts]
    rcases hattempt : attempt (patternNet rand pattern) endp c with ⟨e, c₁⟩
    obtain ⟨hstep, hwf, hsame, hcount₁⟩ := attempt_spec hst hpos hattempt
    cases k with
    | zero =>
      -- the endpoint that is asked answers
      obtain ⟨endp', hslot', hpat⟩ := h.answers
      obtain rfl : endp = endp' := Option.some.inj (hslot.symm.trans hslot')
      obtain ⟨rfl, hasked, htype₁, hindex⟩ := hstep.of_answers hsendable hpat
      have hframe := recvLoop_frame (patternNet rand pattern) (fuel + 1)
        (hwf.socket hcount₁)
      obtain ⟨hret, hresp⟩ := recvLoop_answer rand fuel (hwf.socket hcount₁)
        (htype₁.trans htype) hpat hasked
      constructor
      · intro _ i hi
        exact absurd hi (Nat.not_lt_zero _)
      · intro _
        refine ⟨hret, ?_, ?_⟩
        · rw [hresp, hframe.req_eq]
        · show (recvLoop _ _ c₁).2.st.currEndpointIndex = _
          rw [hframe.index_eq, hindex, Nat.cast_zero, add_zero,
            Int.emod_eq_of_lt hst.index_nonneg (hst.index_lt hpos)]
    | succ k =>
      have hsilent : ∀ a', pattern endp.id ≠ .answers a' := by
        intro a' hpat
        exact h.first 0 (Nat.succ_pos k) a' ⟨endp, hslot, hpat⟩
      -- the endpoint before it is silent; either its send fails, or the loop moves on
      by_cases hsend : ∃ errno, pattern endp.id = .sendFails errno
      · obtain ⟨errno, hpat⟩ := hsend
        obtain ⟨o, rfl, hne⟩ := hstep.of_sendFails hpat
        -- `resolve` is left: both sides are false
        constructor
        · intro hret
          exact absurd hret.returned hne
        · intro hno
          exact absurd ⟨endp, hslot, hpat⟩ (hno 0 (Nat.succ_pos k) errno)
      · have hsend' : ∀ errno, pattern endp.id ≠ .sendFails errno := by
          intro errno hpat
          exact hsend ⟨errno, hpat⟩
        obtain ⟨endp', rfl⟩ := hstep.of_silent hsendable hsend' hsilent
        obtain ⟨_, _, _, _, _, hindex, rfl, hsendable₁⟩ := hstep.of_next
        have hzero : ∀ errno, ¬ OutcomeAt pattern c.st 0 (.sendFails errno) := by
          rintro errno ⟨endp', hslot', hpat⟩
          obtain rfl : endp = endp' := Option.some.inj (hslot.symm.trans hslot')
          exact hsend' errno hpat
        -- seen from the next endpoint the answer is one place nearer
        have htail := ih hwf hcount₁ hsendable₁ (hstep.type_eq.trans htype)
          (h.tail hsame hindex)
        rw [cyclicSlot_succ hsame hindex, returnsAnswer_succ hsame hindex,
          noSendFails_succ hsame hindex k hzero] at htail
        exact htail

/-- `resolve` returns 0 with the answer of the first endpoint that answers, in cyclic order from
the current one, exactly if no send to an endpoint before it fails. -/
theorem failover_iff (rand : Nat → UInt32) (pattern : Nat → EndpointOutcome type) (fuel : Nat)
    (c : Ctx PatternWorld) (hst : WellFormed c.st) (hpos : 0 < c.st.endpointsCount)
    (hsendable : Sendable c.req) (htype : c.req.type = type) (k : Nat) (a : Answer type)
    (h : FirstAnswer pattern c.st c.st.endpointsCount k a) :
    ReturnsAnswer c.st k a (resolve (patternNet rand pattern) (fuel + 1) c) ↔
      NoSendFails pattern c.st k := by
  rw [resolve_eq_attempts _ _ hst hpos, ← cyclicSlot_zero hst hpos]
  exact attempts_answer_iff fuel hst hpos hsendable htype h

end Pattern

/-! ## Two endpoints -/

/-- The routing number `1`. -/
def sampleAnswer : Answer taggedReqVersion where
  body := [0, 1, 1, 49]
  resp := { Response.zero with val1 := some [49] }
  fits := by decide
  reply id := by simpa [Response.zero] using SuccessReply.tagged id [49] [] [] (by decide)

/-- The first endpoint has the outcome `o`, the second one answers. -/
def secondAnswers (o : EndpointOutcome taggedReqVersion) :
    Nat → EndpointOutcome taggedReqVersion
  | 0 => o
  | _ + 1 => .answers sampleAnswer

/-- A tagged request in a configured backend. -/
def patternCall : Ctx PatternWorld where
  st := sampleState
  req := { id := 0, type := taggedReqVersion, dbId := 4, data := ascii "380" }
  resp := .zero
  error := none
  world := { draws := 0, asked := none }
  trace := []

theorem patternCall_slots : (cyclicSlot patternCall.st 0).map Endpoint.id = some 0 ∧
    (cyclicSlot patternCall.st 1).map Endpoint.id = some 1 := by
  decide +kernel

theorem wellFormed_patternCall : WellFormed patternCall.st := by
  have hst : patternCall.st = sampleState := by simp only [patternCall]
  rw [hst]
  exact reachable_sampleState.wellFormed

theorem count_patternCall : patternCall.st.endpointsCount = 2 := by decide +kernel

theorem firstAnswer_second {o : EndpointOutcome taggedReqVersion} (ho : ∀ a, o ≠ .answers a) :
    FirstAnswer (secondAnswers o) patternCall.st patternCall.st.endpointsCount 1 sampleAnswer := by
  obtain ⟨hzero, hone⟩ := patternCall_slots
  obtain ⟨endp₀, hslot₀, hid₀⟩ := Option.map_eq_some_iff.mp hzero
  obtain ⟨endp₁, hslot₁, hid₁⟩ := Option.map_eq_some_iff.mp hone
  refine ⟨by rw [count_patternCall]; decide, ⟨endp₁, hslot₁, by rw [hid₁]; rfl⟩, ?_⟩
  rintro i hi a ⟨endp, hslot, hpat⟩
  obtain rfl : i = 0 := Nat.lt_one_iff.mp hi
  obtain rfl : endp₀ = endp := Option.some.inj (hslot₀.symm.trans hslot)
  rw [hid₀] at hpat
  exact ho a hpat

/-- After a poll that times out the second endpoint's answer is returned. -/
theorem failover_iff_timeout :
    ReturnsAnswer patternCall.st 1 sampleAnswer
        (resolve (patternNet (fun _ => 7) (secondAnswers .pollTimesOut)) 1 patternCall) ↔
      NoSendFails (secondAnswers .pollTimesOut) patternCall.st 1 :=
  failover_iff (fun _ => 7) (secondAnswers .pollTimesOut) 0 patternCall wellFormed_patternCall
    (by rw [count_patternCall]; decide) (by decide) rfl 1 sampleAnswer
    (firstAnswer_second fun _ h => by cases h)

/-- After a send that fails it is not. -/
theorem not_failover :
    FirstAnswer (secondAnswers (.sendFails 113)) patternCall.st patternCall.st.endpointsCount 1
        sampleAnswer ∧
      ¬ ReturnsAnswer patternCall.st 1 sampleAnswer
        (resolve (patternNet (fun _ => 7) (secondAnswers (.sendFails 113))) 1 patternCall) := by
  constructor
  · apply firstAnswer_second
    intro _ h
    cases h
  · intro hret
    have hne : (resolve (patternNet (fun _ => 7) (secondAnswers (.sendFails 113))) 1
        patternCall).1 ≠ .returned 0 := by decide +kernel
    exact hne hret.returned

end YetiPgExt.Lnp
