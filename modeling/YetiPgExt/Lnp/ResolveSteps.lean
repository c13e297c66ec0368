import YetiPgExt.Lnp.ParseReply
import YetiPgExt.Lnp.Resolve

/-!
# What the resolver can do

The two loops of `resolve` make steps: an attempt at an endpoint and a receive. `AttemptStep` and
`RecvStep` list every way a step can end, with all it leaves behind, in terms of the layouts and
not of the code. `attempt_step` and `recvStep_step` prove that the lists are complete; what is
proved about `resolve` goes through them.
-/

set_option autoImplicit false

namespace YetiPgExt.Lnp

open YetiPgExt.Library

variable {ω : Type}

/-- `poll` reports the socket as readable. -/
def SysResult.isReady : SysResult Nat → Bool
  | .ok (_ + 1) => true
  | _ => false

/-- The request as the next attempt sends it. -/
def nextRequest (net : Net ω) (c : Ctx ω) : Request :=
  { c.req with id := (genRequestId net c.st.reqId c.world).1 }

/-- The world after the next attempt has its id. -/
def nextWorld (net : Net ω) (c : Ctx ω) : ω := (genRequestId net c.st.reqId c.world).2

/-- The context with the message of the next attempt in the buffer. -/
def prepared (net : Net ω) (c : Ctx ω) (msg : Bytes) : Ctx ω :=
  { c with
    st := { c.st with
      reqId := (nextRequest net c).id
      msg := msg
      msgLen := (requestImage (nextRequest net c)).length }
    req := nextRequest net c
    world := nextWorld net c }

/-- The index behind the current one, around the list. -/
def nextIndex (st : ResolverState) : Int := (st.currEndpointIndex + 1) % st.endpointsCount

/-- How an attempt from a well-formed state can end. -/
inductive AttemptStep (net : Net ω) (endp : Endpoint) (c : Ctx ω) : AttemptEnd → Ctx ω → Prop
  | refused {msgLen : Nat} {error : Option ResolveError} : ¬ Sendable c.req →
      AttemptStep net endp c (.stop (.returned (-1)))
        { c with
          st := { c.st with reqId := (nextRequest net c).id, msgLen := msgLen }
          req := nextRequest net c
          world := nextWorld net c
          error := error }
  | sendFailed {msg : Bytes} {result : SysResult Nat} {world : ω} {error : Option ResolveError} :
      Sendable c.req →
      net.sendto (nextWorld net c) endp (requestImage (nextRequest net c)) = (result, world) →
      result ≠ .ok (requestImage (nextRequest net c)).length →
      AttemptStep net endp c (.stop (.raised (nextRequest net c).id error))
        { prepared net c msg with
          error := error
          world := world
          trace := c.trace ++ [.sent endp (requestImage (nextRequest net c)) result] }
  | notReady {msg : Bytes} {world world' : ω} {result : SysResult Nat} {error : ResolveError} :
      Sendable c.req →
      net.sendto (nextWorld net c) endp (requestImage (nextRequest net c)) =
        (.ok (requestImage (nextRequest net c)).length, world) →
      net.poll world = (result, world') → result.isReady = false →
      AttemptStep net endp c (.next (getEndpointAtIndex c.st (nextIndex c.st)))
        { prepared net c msg with
          st := { (prepared net c msg).st with currEndpointIndex := nextIndex c.st }
          error := some error
          world := world'
          trace := c.trace ++ [.sent endp (requestImage (nextRequest net c))
            (.ok (requestImage (nextRequest net c)).length), .polled result] }
  | ready {msg : Bytes} {world world' : ω} {result : SysResult Nat} :
      Sendable c.req →
      net.sendto (nextWorld net c) endp (requestImage (nextRequest net c)) =
        (.ok (requestImage (nextRequest net c)).length, world) →
      net.poll world = (result, world') → result.isReady = true →
      AttemptStep net endp c .ready
        { prepared net c msg with
          error := none
          world := world'
          trace := c.trace ++ [.sent endp (requestImage (nextRequest net c))
            (.ok (requestImage (nextRequest net c)).length), .polled result] }

section Attempt

variable {net : Net ω} {c : Ctx ω} {endp : Endpoint} {msg : Bytes}

/-- A message is sent from the buffer it was prepared in. -/
theorem sendData_of_ok (hfd : 0 ≤ c.st.socketFd)
    (hmsg : msg.take (requestImage (nextRequest net c)).length = requestImage (nextRequest net c))
    {n : Nat} {world : ω}
    (hsend : net.sendto (nextWorld net c) endp (requestImage (nextRequest net c)) =
      (.ok n, world)) :
    sendData net endp (prepared net c msg) =
      ((n : Int), { prepared net c msg with
        world := world
        trace := c.trace ++ [.sent endp (requestImage (nextRequest net c)) (.ok n)] }) := by
  have hbuf : (prepared net c msg).st.msg.take (prepared net c msg).st.msgLen =
      requestImage (nextRequest net c) := hmsg
  have hopen : ¬ (prepared net c msg).st.socketFd < 0 := not_lt.mpr hfd
  have hsend' : net.sendto (prepared net c msg).world endp (requestImage (nextRequest net c)) =
    (.ok n, world) := hsend
  rw [sendData, if_neg hopen, hbuf]
  simp only [hsend']
  rfl

theorem sendData_of_fail (hfd : 0 ≤ c.st.socketFd)
    (hmsg : msg.take (requestImage (nextRequest net c)).length = requestImage (nextRequest net c))
    {errno : Int} {world : ω}
    (hsend : net.sendto (nextWorld net c) endp (requestImage (nextRequest net c)) =
      (.fail errno, world)) :
    ∃ error, sendData net endp (prepared net c msg) =
      (-1, { prepared net c msg with
        error := error
        world := world
        trace := c.trace ++ [.sent endp (requestImage (nextRequest net c)) (.fail errno)] }) := by
  have hbuf : (prepared net c msg).st.msg.take (prepared net c msg).st.msgLen =
      requestImage (nextRequest net c) := hmsg
  have hopen : ¬ (prepared net c msg).st.socketFd < 0 := not_lt.mpr hfd
  have hsend' : net.sendto (prepared net c msg).world endp (requestImage (nextRequest net c)) =
    (.fail errno, world) := hsend
  rw [sendData, if_neg hopen, hbuf]
  simp only [hsend']
  -- without an `errno` the old error string stays
  by_cases hzero : errno = 0
  · rw [if_pos hzero]
    exact ⟨_, rfl⟩
  · rw [if_neg hzero]
    exact ⟨_, rfl⟩

theorem failover_of_wellFormed (hst : WellFormed c.st) (hpos : 0 < c.st.endpointsCount) :
    failover c =
      (.next (getEndpointAtIndex c.st (nextIndex c.st)),
        { c with st := { c.st with currEndpointIndex := nextIndex c.st } }) := by
  rw [failover, getNextEndpoint_of_wellFormed hst hpos]
  rfl

theorem waitReply_of_ready {result : SysResult Nat} {world : ω}
    (hpoll : net.poll c.world = (result, world)) (hready : result.isReady = true) :
    waitReply net c =
      (.ready, { c with
        error := none, world := world, trace := c.trace ++ [Event.polled result] }) := by
  rw [waitReply, hpoll]
  match result, hready with
  | .ok (_ + 1), _ => rfl

theorem waitReply_of_not_ready (net : Net ω) (hst : WellFormed c.st)
    (hpos : 0 < c.st.endpointsCount) {result : SysResult Nat} {world : ω}
    (hpoll : net.poll c.world = (result, world)) (hready : result.isReady = false) :
    ∃ error, waitReply net c =
      (.next (getEndpointAtIndex c.st (nextIndex c.st)),
        { c with
          st := { c.st with currEndpointIndex := nextIndex c.st }
          error := some error
          world := world
          trace := c.trace ++ [Event.polled result] }) := by
  rw [waitReply, hpoll]
  -- a timeout and a failed poll set different errors and fail over alike
  match result, hready with
  | .ok 0, _ =>
    refine ⟨.rttExpired c.req.id, ?_⟩
    exact failover_of_wellFormed (c := { c with
      error := some (.rttExpired c.req.id), world := world,
      trace := c.trace ++ [.polled (.ok 0)] }) hst hpos
  | .fail errno, _ =>
    refine ⟨.rttPollFailed errno c.req.id, ?_⟩
    exact failover_of_wellFormed (c := { c with
      error := some (.rttPollFailed errno c.req.id), world := world,
      trace := c.trace ++ [.polled (.fail errno)] }) hst hpos

/-- What an attempt does once its message is prepared. -/
theorem attempt_of_sendable (net : Net ω) (endp : Endpoint) (hsendable : Sendable c.req) :
    ∃ msg, msg.take (requestImage (nextRequest net c)).length =
        requestImage (nextRequest net c) ∧
      attempt net endp c =
        let (n, c') := sendData net endp (prepared net c msg)
        if n < 0 ∨ n ≠ c'.st.msgLen then (.stop (.raised c'.req.id c'.error), c')
        else waitReply net c' := by
  obtain ⟨msg, hprep, hmsg⟩ := prepareMsg_of_sendable
    (hsendable.withId (genRequestId net c.st.reqId c.world).1)
    { c.st with reqId := (genRequestId net c.st.reqId c.world).1 } c.error
  refine ⟨msg, hmsg, ?_⟩
  unfold attempt
  simp only [hprep]
  rfl

/-- An attempt with a request that does not fit ends at once. -/
theorem attempt_of_not_sendable (net : Net ω) (endp : Endpoint) (hsendable : ¬ Sendable c.req) :
    ∃ msgLen error, attempt net endp c = (.stop (.returned (-1)),
      { c with
        st := { c.st with reqId := (nextRequest net c).id, msgLen := msgLen }
        req := nextRequest net c
        world := nextWorld net c
        error := error }) := by
  have hnot : ¬ Sendable { c.req with id := (genRequestId net c.st.reqId c.world).1 } := by
    intro h
    exact hsendable (h.withId c.req.id)
  obtain ⟨msgLen, error, hprep⟩ := prepareMsg_of_not_sendable hnot
    { c.st with reqId := (genRequestId net c.st.reqId c.world).1 } c.error
  refine ⟨msgLen, error, ?_⟩
  unfold attempt
  simp only [hprep]
  rfl

/-- An attempt makes one of the listed steps. -/
theorem attempt_step (net : Net ω) (endp : Endpoint) (hst : WellFormed c.st)
    (hpos : 0 < c.st.endpointsCount) :
    AttemptStep net endp c (attempt net endp c).1 (attempt net endp c).2 := by
  have hfd := hst.socket hpos
  by_cases hsendable : Sendable c.req
  · obtain ⟨msg, hmsg, hattempt⟩ := attempt_of_sendable net endp hsendable
    rw [hattempt]
    rcases hsend : net.sendto (nextWorld net c) endp (requestImage (nextRequest net c)) with
      ⟨result, world⟩
    cases result with
    | fail errno =>
      obtain ⟨error, hdata⟩ := sendData_of_fail hfd hmsg hsend
      have hneg : (-1 : Int) < 0 := by decide
      simp only [hdata]
      -- `err` raises
      rw [if_pos (.inl hneg)]
      exact .sendFailed hsendable hsend (by simp)
    | ok n =>
      simp only [sendData_of_ok hfd hmsg hsend]
      by_cases hn : n = (requestImage (nextRequest net c)).length
      · subst hn
        have hall : ¬ (((requestImage (nextRequest net c)).length : Int) < 0 ∨
            ((requestImage (nextRequest net c)).length : Int) ≠
              (prepared net c msg).st.msgLen) := by
          rintro (hneg | hne)
          · omega
          · exact hne rfl
        rw [if_neg hall]
        rcases hpoll : net.poll world with ⟨result, world'⟩
        cases hready : result.isReady with
        | true =>
          rw [waitReply_of_ready hpoll hready]
          -- the log has the send and the poll as two appends, the step as one
          simpa only [List.append_assoc, List.singleton_append] using
            @AttemptStep.ready ω net endp c msg _ _ _ hsendable hsend hpoll hready
        | false =>
          -- preparing the message leaves the endpoint list alone
          have hindex : nextIndex (prepared net c msg).st = nextIndex c.st := rfl
          have hslot : getEndpointAtIndex (prepared net c msg).st (nextIndex c.st) =
            getEndpointAtIndex c.st (nextIndex c.st) := rfl
          obtain ⟨error, hwait⟩ := waitReply_of_not_ready net
            (c := { prepared net c msg with
              world := world
              trace := c.trace ++ [.sent endp (requestImage (nextRequest net c))
                (.ok (requestImage (nextRequest net c)).length)] })
            ⟨hst.index_nonneg, hst.index_lt, hst.socket, hst.ids⟩ hpos hpoll hready
          rw [hwait]
          simpa only [hindex, hslot, List.append_assoc, List.singleton_append] using
            @AttemptStep.notReady ω net endp c msg _ _ _ error hsendable hsend hpoll hready
      · -- fewer bytes were sent than the message has
        have hshort : (n : Int) ≠ (prepared net c msg).st.msgLen := by
          intro heq
          exact hn (Int.ofNat_inj.mp heq)
        rw [if_pos (.inr hshort)]
        exact .sendFailed hsendable hsend (by simpa using hn)
  · obtain ⟨msgLen, error, hattempt⟩ :=
      attempt_of_not_sendable net endp hsendable
    rw [hattempt]
    exact .refused hsendable

end Attempt

/-! ## Receiving -/

/-- The context after a datagram is received and parsed. -/
def loaded (c : Ctx ω) (d : Bytes) (world : ω) (resp : Response) (error : Option ResolveError) :
    Ctx ω :=
  { c with
    st := { c.st with msg := loadMsg d, msgLen := d.length }
    resp := resp
    error := error
    world := world
    trace := c.trace ++ [.received d, .terminated d.length] }

/-- A datagram that the receive loop reads and passes over: a confirmation, or a reply to another
request. -/
def PassedOver (req : Request) (d : Bytes) : Prop :=
  d.length = 4 ∨ ∃ resp, SuccessReply req.type d resp ∧ leadingId d ≠ req.id

/-- How a receive on an open socket can end. -/
inductive RecvStep (net : Net ω) (c : Ctx ω) : Option Outcome → Ctx ω → Prop
  | failed {errno : Int} {world : ω} {error : ResolveError} :
      net.recvfrom c.world msgSz = (.fail errno, world) →
      RecvStep net c (some (.returned (-1)))
        { c with
          st := { c.st with msg := zeros msgSz }
          error := some error
          world := world
          trace := c.trace ++ [.recvFailed errno] }
  | rejected {d : Bytes} {world : ω} {resp : Response} {error : Option ResolveError} :
      net.recvfrom c.world msgSz = (.ok d, world) → ¬ Acceptable c.req.type (d.take msgSz) →
      RecvStep net c (some (.returned (-1))) (loaded c (d.take msgSz) world resp error)
  | passedOver {d : Bytes} {world : ω} {resp : Response} :
      net.recvfrom c.world msgSz = (.ok d, world) → PassedOver c.req (d.take msgSz) →
      RecvStep net c none (loaded c (d.take msgSz) world resp c.error)
  | answered {d : Bytes} {world : ω} {resp : Response} :
      net.recvfrom c.world msgSz = (.ok d, world) →
      SuccessReply c.req.type (d.take msgSz) resp → leadingId (d.take msgSz) = c.req.id →
      RecvStep net c (some (.returned 0)) (loaded c (d.take msgSz) world resp c.error)

/-- A receive makes one of the listed steps. -/
theorem recvStep_step (net : Net ω) {c : Ctx ω} (hfd : 0 ≤ c.st.socketFd) :
    RecvStep net c (recvStep net c).1 (recvStep net c).2 := by
  have hopen : ¬ c.st.socketFd < 0 := not_lt.mpr hfd
  rcases hrecv : net.recvfrom c.world msgSz with ⟨result, world⟩
  cases result with
  | fail errno =>
    have hstep : ∃ error, recvStep net c = (some (.returned (-1)),
        { c with
          st := { c.st with msg := zeros msgSz }
          error := some error
          world := world
          trace := c.trace ++ [.recvFailed errno] }) := by
      have hneg : (-1 : Int) < 0 := by decide
      -- the error is that of the transport if there is one, else the old one, else a new one
      simp only [recvStep, recvData, if_neg hopen, hrecv, if_pos hneg]
      by_cases hzero : errno = 0
      · simp only [if_pos hzero]
        cases c.error with
        | none => exact ⟨_, rfl⟩
        | some error => exact ⟨error, rfl⟩
      · simp only [if_neg hzero]
        exact ⟨.recvErrno errno, rfl⟩
    obtain ⟨error, hstep⟩ := hstep
    rw [hstep]
    exact .failed hrecv
  | ok d =>
    have hparse := parseMsg_loadMsg c.req (d.take msgSz) .zero c.error
    -- parsing the buffer is parsing the datagram
    have hstep : recvStep net c =
        let parsed := parseMsg c.req (d.take msgSz) (d.take msgSz).length .zero c.error
        let c' := loaded c (d.take msgSz) world parsed.resp parsed.error
        if parsed.ret ≠ 0 then (some (.returned (-1)), c')
        else if parsed.resp.isConfrm then (none, c')
        else if parsed.resp.id ≠ c.req.id then (none, c')
        else (some (.returned 0), c') := by
      have hlen : ¬ ((d.take msgSz).length : Int) < 0 := not_lt.mpr (Int.natCast_nonneg _)
      rw [← hparse]
      simp only [recvStep, recvData, if_neg hopen, hrecv, if_neg hlen, Int.toNat_natCast,
        List.append_assoc, List.singleton_append]
      rfl
    rw [hstep]
    simp only
    by_cases hret : (parseMsg c.req (d.take msgSz) (d.take msgSz).length .zero c.error).ret = 0
    · rw [if_neg (not_not.mpr hret)]
      -- what the parser accepts is a confirmation or a reply of the request's type
      rcases parseMsg_ret_eq_zero_iff.mp hret with hfour | ⟨resp, hreply⟩
      · rw [parseMsg_of_four hfour]
        exact .passedOver hrecv (.inl hfour)
      · rw [parseMsg_complete hreply]
        simp only [hreply.isConfrm_eq, hreply.id_eq, Bool.false_eq_true, if_false]
        by_cases hid : leadingId (d.take msgSz) = c.req.id
        · rw [if_neg (not_not.mpr hid)]
          exact .answered hrecv hreply hid
        · rw [if_pos hid]
          exact .passedOver hrecv (.inr ⟨resp, hreply, hid⟩)
    · rw [if_pos hret]
      exact .rejected hrecv fun hacc => hret (parseMsg_ret_eq_zero_iff.mpr hacc)

end YetiPgExt.Lnp
