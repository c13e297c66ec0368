import YetiPgExt.Lnp.RoundRobin

/-!
# `resolve` on a schedule of arrivals

The socket is driven by a schedule: datagrams that arrive one after another, stretches of silence
between them, each long enough or not to end a poll and a receive, and errors of the socket. The
schedule does not depend on what `resolve` does; real time is not modelled beyond it. Each silence
ends a call or does not by itself: `SO_RCVTIMEO` starts again at every receive, and the silences on
both sides of a datagram that is deleted stay two and do not add up.

Seen from the schedule a call of `resolve` is a small machine (`Phase`): it polls for the reply to
an attempt, or it is in its receive loop, or it is decided. `resolve_conclude` proves that the
call ends as the machine does after the whole schedule.
-/

set_option autoImplicit false

namespace YetiPgExt.Lnp

open YetiPgExt.Library

/-! ## The environment -/

/-- What happens at the socket next. -/
inductive Arrival where
  | datagram (d : Bytes)
  | silence (endsPoll endsRecv : Bool)
  | fault (errno : Int)
  deriving DecidableEq

/-- `poll` leaves a datagram in the socket. When nothing is left to arrive it times out. -/
def pollOn : List Arrival → SysResult Nat × List Arrival
  | [] => (.ok 0, [])
  | .datagram d :: s => (.ok 1, .datagram d :: s)
  | .silence true _ :: s => (.ok 0, s)
  | .silence false _ :: s => pollOn s
  | .fault errno :: s => (.fail errno, s)

/-- `recvfrom` takes the datagram; its own timeout is reported as `EAGAIN`. -/
def recvOn : List Arrival → SysResult Bytes × List Arrival
  | [] => (.fail 11, [])
  | .datagram d :: s => (.ok d, s)
  | .silence _ true :: s => (.fail 11, s)
  | .silence _ false :: s => recvOn s
  | .fault errno :: s => (.fail errno, s)

/-- The values that `rand` gave so far, and what is still to happen. -/
structure ScheduleWorld where
  draws : Nat
  schedule : List Arrival

/-- The network with a given `rand`, given results of the sends, and a schedule. -/
def scheduleNet (rand : Nat → UInt32) (send : Endpoint → Bytes → SysResult Nat) :
    Net ScheduleWorld where
  rand w := (rand w.draws, { w with draws := w.draws + 1 })
  sendto w endp buf := (send endp buf, w)
  poll w := ((pollOn w.schedule).1, { w with schedule := (pollOn w.schedule).2 })
  recvfrom w _ := ((recvOn w.schedule).1, { w with schedule := (recvOn w.schedule).2 })

/-! ## The machine -/

/-- What a caller sees of a call: its return value, and the response if it is 0. -/
inductive Verdict where
  | answered (resp : Response)
  | returned (ret : Int)
  | raised
  | stuck
  deriving DecidableEq

def verdict {ω : Type} : Outcome × Ctx ω → Verdict
  | (.returned ret, c) => if ret = 0 then .answered c.resp else .returned ret
  | (.raised _ _, _) => .raised
  | (.crashed, _) => .stuck
  | (.running, _) => .stuck

/-- Where a call is: it polls for the reply to the attempt with the id `id`, with `left` attempts
behind it; it is in its receive loop; it is decided. -/
inductive Phase where
  | polling (left : Nat) (id : UInt32) (draws : Nat) (index : Int)
  | receiving (id : UInt32)
  | done (v : Verdict)

section Machine

variable (rand : Nat → UInt32) (send : Endpoint → Bytes → SysResult Nat)
variable (st : ResolverState) (req : Request)

/-- The next request id, and the number of values taken from `rand`. -/
def nextId (reqId : UInt32) (draws : Nat) : UInt32 × Nat :=
  if reqId = 0 then (rand draws, draws + 1) else (reqId + 1, draws)

/-- Begin an attempt at the endpoint with the given index, with `left` attempts left. -/
def startAttempt (left : Nat) (reqId : UInt32) (draws : Nat) (index : Int) : Phase :=
  match left, getEndpointAtIndex st index with
  | 0, _ => .done (.returned (-1))
  | _ + 1, none => .done (.returned (-1))
  | left + 1, some endp =>
    let (id, draws) := nextId rand reqId draws
    let image := requestImage { req with id := id }
    if ¬ Sendable req then .done (.returned (-1))
    else if send endp image ≠ .ok image.length then .done .raised
    else .polling left id draws index

/-- The attempt after one that got no reply. -/
def moveOn (left : Nat) (id : UInt32) (draws : Nat) (index : Int) : Phase :=
  startAttempt rand send st req left id draws ((index + 1) % st.endpointsCount)

open Classical in
/-- What the receive loop makes of a datagram. -/
noncomputable def receive (type : UInt8) (id : UInt32) (d : Bytes) : Phase :=
  if h : ∃ resp, SuccessReply type d resp ∧ resp.id = id then .done (.answered h.choose)
  else if Acceptable type d then .receiving id
  else .done (.returned (-1))

/-- One step of the machine. -/
noncomputable def Phase.step : Phase → Arrival → Phase
  -- the poll is ready and the receive loop gets the datagram that made it so
  | .polling _ id _ _, .datagram d => receive req.type id (d.take msgSz)
  | .polling left id draws index, .silence true _ => moveOn rand send st req left id draws index
  | .polling left id draws index, .silence false _ => .polling left id draws index
  | .polling left id draws index, .fault _ => moveOn rand send st req left id draws index
  | .receiving id, .datagram d => receive req.type id (d.take msgSz)
  | .receiving _, .silence _ true => .done (.returned (-1))
  | .receiving id, .silence _ false => .receiving id
  | .receiving _, .fault _ => .done (.returned (-1))
  -- what arrives later is of no account
  | .done v, _ => .done v

/-- The end of a poll, with `left` attempts behind it, in lasting silence. -/
def finishPolling : Nat → UInt32 → Nat → Int → Verdict
  | 0, _, _, _ => .returned (-1)
  -- every poll times out, so at most `left + 1` more attempts follow
  | left + 1, id, draws, index =>
    match moveOn rand send st req (left + 1) id draws index with
    | .polling _ id draws index => finishPolling left id draws index
    | .receiving _ => .returned (-1)
    | .done v => v

/-- How a call ends in lasting silence. -/
def Phase.finish : Phase → Verdict
  | .polling left id draws index => finishPolling rand send st req left id draws index
  | .receiving _ => .returned (-1)
  | .done v => v

/-- How a call ends on a schedule. -/
noncomputable def conclude (p : Phase) (s : List Arrival) : Verdict :=
  (s.foldl (Phase.step rand send st req) p).finish rand send st req

variable {rand send st req}

/-! ### Its steps -/

variable (rand send st req) in
theorem startAttempt_cases (left : Nat) (reqId : UInt32) (draws : Nat) (index : Int) :
    (startAttempt rand send st req left reqId draws index = .done (.returned (-1))) ∨
    (startAttempt rand send st req left reqId draws index = .done .raised) ∨
    (∃ left', left = left' + 1 ∧ Sendable req ∧
      startAttempt rand send st req left reqId draws index =
        .polling left' (nextId rand reqId draws).1 (nextId rand reqId draws).2 index) := by
  unfold startAttempt
  cases left with
  | zero => exact .inl rfl
  | succ left =>
    cases getEndpointAtIndex st index with
    | none => exact .inl rfl
    | some endp =>
      simp only
      by_cases hsendable : Sendable req
      · rw [if_neg (not_not.mpr hsendable)]
        split
        · exact .inr (.inl rfl)
        · exact .inr (.inr ⟨left, rfl, hsendable, rfl⟩)
      · rw [if_pos hsendable]
        exact .inl rfl

theorem receive_of_answer {type : UInt8} {id : UInt32} {d : Bytes} {resp : Response}
    (h : SuccessReply type d resp) (hid : leadingId d = id) :
    receive type id d = .done (.answered resp) := by
  have hex : ∃ resp, SuccessReply type d resp ∧ resp.id = id := ⟨resp, h, h.id_eq.trans hid⟩
  rw [receive, dif_pos hex, hex.choose_spec.1.unique h]

theorem receive_of_not_acceptable {type : UInt8} {id : UInt32} {d : Bytes}
    (h : ¬ Acceptable type d) : receive type id d = .done (.returned (-1)) := by
  rw [receive, dif_neg, if_neg h]
  rintro ⟨resp, hreply, -⟩
  exact h (.inr ⟨resp, hreply⟩)

/-- A datagram that is accepted and not the answer leaves the call in its receive loop. -/
theorem receive_of_acceptable {type : UInt8} {id : UInt32} {d : Bytes} (h : Acceptable type d)
    (hno : ∀ resp, SuccessReply type d resp → leadingId d ≠ id) :
    receive type id d = .receiving id := by
  rw [receive, dif_neg, if_pos h]
  rintro ⟨resp, hreply, hid⟩
  exact hno resp hreply (hreply.id_eq.symm.trans hid)

theorem receive_of_passedOver {d : Bytes} (h : PassedOver req d) :
    receive req.type req.id d = .receiving req.id := by
  rcases h with hfour | ⟨resp, hreply, hne⟩
  · apply receive_of_acceptable (.inl hfour)
    intro resp hreply
    have := hreply.length_gt
    omega
  · exact receive_of_acceptable (.inr ⟨resp, hreply⟩) fun _ _ => hne

theorem foldl_done (v : Verdict) (s : List Arrival) :
    s.foldl (Phase.step rand send st req) (.done v) = .done v := by
  induction s with
  | nil => rfl
  | cons a s ih => exact ih

theorem conclude_done (v : Verdict) (s : List Arrival) :
    conclude rand send st req (.done v) s = v := by
  rw [conclude, foldl_done]
  rfl

theorem conclude_cons (p : Phase) (a : Arrival) (s : List Arrival) :
    conclude rand send st req p (a :: s) =
      conclude rand send st req (p.step rand send st req a) s := rfl

/-- In lasting silence a poll ends, and the call moves on. -/
theorem conclude_polling_nil (left : Nat) (id : UInt32) (draws : Nat) (index : Int) :
    conclude rand send st req (.polling left id draws index) [] =
      conclude rand send st req (moveOn rand send st req left id draws index) [] := by
  show finishPolling rand send st req left id draws index =
    (moveOn rand send st req left id draws index).finish rand send st req
  cases left with
  | zero => rfl
  | succ left =>
    -- the attempt that follows ends the call, or it polls with one attempt less behind it
    rw [finishPolling]
    rcases startAttempt_cases rand send st req (left + 1) id draws
      ((index + 1) % st.endpointsCount) with h | h | ⟨left', hleft, -, h⟩
    · simp only [moveOn, h, Phase.finish]
    · simp only [moveOn, h, Phase.finish]
    · obtain rfl : left = left' := Nat.succ.inj hleft
      simp only [moveOn, h, Phase.finish]

/-- A poll that is not ready makes the machine move on. -/
theorem conclude_of_not_ready {s : List Arrival} (h : (pollOn s).1.isReady = false) (left : Nat)
    (id : UInt32) (draws : Nat) (index : Int) :
    conclude rand send st req (.polling left id draws index) s =
      conclude rand send st req (moveOn rand send st req left id draws index) (pollOn s).2 := by
  -- on the schedule: a silence that does not end the poll is passed, anything else decides it
  induction s with
  | nil => exact conclude_polling_nil left id draws index
  | cons a s ih =>
    cases a with
    | datagram d => cases h
    | fault errno => rfl
    | silence endsPoll endsRecv =>
      cases endsPoll with
      | true => rfl
      | false => exact ih h

/-- A poll that is ready waits for a datagram, which the receive loop then gets. -/
theorem conclude_of_ready {s : List Arrival} (h : (pollOn s).1.isReady = true) (left : Nat)
    (id : UInt32) (draws : Nat) (index : Int) :
    conclude rand send st req (.polling left id draws index) s =
      conclude rand send st req (.receiving id) (pollOn s).2 := by
  induction s with
  | nil => cases h
  | cons a s ih =>
    cases a with
    | datagram d => rfl
    | fault errno => cases h
    | silence endsPoll endsRecv =>
      cases endsPoll with
      | true => cases h
      | false => exact ih h

theorem conclude_of_recv_fail {s : List Arrival} {errno : Int} (h : (recvOn s).1 = .fail errno)
    (id : UInt32) : conclude rand send st req (.receiving id) s = .returned (-1) := by
  induction s with
  | nil => rfl
  | cons a s ih =>
    cases a with
    | datagram d => cases h
    | fault errno => exact conclude_done _ _
    | silence endsPoll endsRecv =>
      cases endsRecv with
      | true => exact conclude_done _ _
      | false => exact ih h

variable (rand send st req) in
theorem conclude_of_recv_ok {s : List Arrival} {d : Bytes} (h : (recvOn s).1 = .ok d)
    (id : UInt32) :
    (recvOn s).2.length < s.length ∧
      conclude rand send st req (.receiving id) s =
        conclude rand send st req (receive req.type id (d.take msgSz)) (recvOn s).2 := by
  induction s with
  | nil => cases h
  | cons a s ih =>
    cases a with
    | datagram d' =>
      cases h
      exact ⟨Nat.lt_succ_self _, rfl⟩
    | fault errno => cases h
    | silence endsPoll endsRecv =>
      cases endsRecv with
      | true => cases h
      | false =>
        obtain ⟨hlen, heq⟩ := ih h
        exact ⟨Nat.lt_succ_of_lt hlen, heq⟩

theorem length_pollOn_le (s : List Arrival) : (pollOn s).2.length ≤ s.length := by
  induction s with
  | nil => exact le_rfl
  | cons a s ih =>
    cases a with
    | datagram d => exact le_rfl
    | fault errno => exact Nat.le_succ _
    | silence endsPoll endsRecv =>
      cases endsPoll with
      | true => exact Nat.le_succ _
      | false => exact Nat.le_succ_of_le ih

/-! ## The code is the machine -/

variable (rand send) in
theorem genRequestId_scheduleNet (reqId : UInt32) (w : ScheduleWorld) :
    genRequestId (scheduleNet rand send) reqId w =
      ((nextId rand reqId w.draws).1, { w with draws := (nextId rand reqId w.draws).2 }) := by
  unfold genRequestId nextId
  by_cases hzero : reqId = 0
  · rw [if_pos hzero, if_pos hzero]
    rfl
  · rw [if_neg hzero, if_neg hzero]

variable (rand send) in
/-- The attempt makes the same request as the machine, and leaves the rest of the world alone. -/
theorem nextRequest_scheduleNet {c : Ctx ScheduleWorld} {id : UInt32} {draws : Nat}
    (hreq : c.req = { req with id := c.req.id })
    (hnext : nextId rand c.st.reqId c.world.draws = (id, draws)) :
    nextRequest (scheduleNet rand send) c = { req with id := id } ∧
      nextWorld (scheduleNet rand send) c = { c.world with draws := draws } := by
  have hgen := genRequestId_scheduleNet rand send c.st.reqId c.world
  rw [hnext] at hgen
  constructor
  · rw [nextRequest, hgen, hreq]
  · rw [nextWorld, hgen]

/-- Whether a request fits does not depend on its id. -/
theorem sendable_iff_of_req {c : Ctx ScheduleWorld} (hreq : c.req = { req with id := c.req.id }) :
    Sendable c.req ↔ Sendable req := by
  rw [hreq]
  constructor
  · intro h
    exact h.withId req.id
  · intro h
    exact h.withId c.req.id

/-- A message that is sent and the poll behind it. -/
theorem scheduleNet_poll {w world world' : ScheduleWorld} {endp : Endpoint} {buf : Bytes}
    {sent result : SysResult Nat}
    (hsent : (scheduleNet rand send).sendto w endp buf = (sent, world))
    (hpoll : (scheduleNet rand send).poll world = (result, world')) :
    send endp buf = sent ∧ (pollOn w.schedule).1 = result ∧
      world' = { w with schedule := (pollOn w.schedule).2 } := by
  have hworld : w = world := congrArg Prod.snd hsent
  subst hworld
  exact ⟨congrArg Prod.fst hsent, congrArg Prod.fst hpoll, (congrArg Prod.snd hpoll).symm⟩

theorem startAttempt_succ {index : Int} {endp : Endpoint}
    (hslot : getEndpointAtIndex st index = some endp) (left : Nat) (reqId : UInt32)
    (draws : Nat) :
    startAttempt rand send st req (left + 1) reqId draws index =
      let (id, draws) := nextId rand reqId draws
      let image := requestImage { req with id := id }
      if ¬ Sendable req then .done (.returned (-1))
      else if send endp image ≠ .ok image.length then .done .raised
      else .polling left id draws index := by
  unfold startAttempt
  rw [hslot]

variable (rand send st) in
/-- The receive loop, with more fuel than there are arrivals. -/
theorem recvLoop_conclude (fuel : Nat) {c : Ctx ScheduleWorld} (hfd : 0 ≤ c.st.socketFd)
    (htype : c.req.type = req.type) (hfuel : c.world.schedule.length < fuel) :
    verdict (recvLoop (scheduleNet rand send) fuel c) =
      conclude rand send st req (.receiving c.req.id) c.world.schedule := by
  induction fuel generalizing c with
  | zero => exact absurd hfuel (Nat.not_lt_zero _)
  | succ fuel ih =>
    have hstep := recvStep_step (scheduleNet rand send) hfd
    rw [recvLoop]
    rcases hrecv : recvStep (scheduleNet rand send) c with ⟨o, c₁⟩
    rw [hrecv] at hstep
    cases hstep with
    | failed h => exact (conclude_of_recv_fail (congrArg Prod.fst h) _).symm
    | rejected h hacc =>
      rw [(conclude_of_recv_ok rand send st req (congrArg Prod.fst h) _).2, ← htype,
        receive_of_not_acceptable hacc, conclude_done]
      rfl
    -- the datagram is used up, so the fuel still covers the arrivals
    | @passedOver d world resp h hpass =>
      obtain ⟨hlen, heq⟩ := conclude_of_recv_ok rand send st req
        (congrArg Prod.fst h) c.req.id
      have hworld : (recvOn c.world.schedule).2 = world.schedule :=
        congrArg (fun r => r.2.schedule) h
      rw [hworld] at hlen
      rw [heq, ← htype, receive_of_passedOver hpass, hworld]
      apply ih (c := loaded c (d.take msgSz) world resp c.error) hfd htype
      show world.schedule.length < fuel
      omega
    | answered h hreply hid =>
      rw [(conclude_of_recv_ok rand send st req (congrArg Prod.fst h) _).2, ← htype,
        receive_of_answer hreply hid, conclude_done]
      rfl

/-- The loop over the endpoints. -/
theorem attempts_conclude (fuel left : Nat) {c : Ctx ScheduleWorld} (hst : WellFormed c.st)
    (hpos : 0 < c.st.endpointsCount) (hsame : SameList st c.st)
    (hreq : c.req = { req with id := c.req.id }) (hfuel : c.world.schedule.length < fuel) :
    verdict (attempts (scheduleNet rand send) fuel left
        (getEndpointAtIndex c.st c.st.currEndpointIndex) c) =
      conclude rand send st req
        (startAttempt rand send st req left c.st.reqId c.world.draws c.st.currEndpointIndex)
        c.world.schedule := by
  induction left generalizing c with
  | zero =>
    have hstart : startAttempt rand send st req 0 c.st.reqId c.world.draws
        c.st.currEndpointIndex = .done (.returned (-1)) := by
      unfold startAttempt
      rfl
    rw [hstart, conclude_done]
    rfl
  | succ left ih =>
    obtain ⟨endp, hslot⟩ := getEndpointAtIndex_of_range ⟨hst.index_nonneg, hst.index_lt hpos⟩
    have hslot' : getEndpointAtIndex st c.st.currEndpointIndex = some endp := by
      rw [← hsame.getEndpointAtIndex_eq, hslot]
    rw [hslot, attempts, startAttempt_succ hslot']
    rcases hnext : nextId rand c.st.reqId c.world.draws with ⟨id, draws⟩
    obtain ⟨hid, hworld⟩ := nextRequest_scheduleNet rand send hreq hnext
    have hsendable := sendable_iff_of_req hreq
    rcases hattempt : attempt (scheduleNet rand send) endp c with ⟨e, c₁⟩
    obtain ⟨hstep, hwf, hsame₁, hcount₁⟩ := attempt_spec hst hpos hattempt
    have htype₁ : c₁.req.type = req.type := by rw [hstep.type_eq, hreq]
    simp only
    cases hstep with
    | refused hrefused =>
      rw [if_pos fun h => hrefused (hsendable.mpr h), conclude_done]
      rfl
    -- the machine compares the same result of the send
    | sendFailed hok hsent hresult =>
      rw [hid, hworld] at hsent
      rw [hid] at hresult
      have hsend : send endp (requestImage { req with id := id }) ≠
          .ok (requestImage { req with id := id }).length := by
        rw [show send endp (requestImage { req with id := id }) = _ from congrArg Prod.fst hsent]
        exact hresult
      rw [if_neg (not_not.mpr (hsendable.mp hok)), if_pos hsend, conclude_done]
      rfl
    | @notReady msg world world' result error hok hsent hpoll hready =>
      rw [hid, hworld] at hsent
      obtain ⟨hsend, hresult, rfl⟩ := scheduleNet_poll hsent hpoll
      rw [if_neg (not_not.mpr (hsendable.mp hok)), if_neg (not_not.mpr hsend),
        conclude_of_not_ready (hresult ▸ hready)]
      -- the next attempt starts where the machine moves on to
      have hnextId : (nextRequest (scheduleNet rand send) c).id = id := by rw [hid]
      have hindex : nextIndex c.st = (c.st.currEndpointIndex + 1) % st.endpointsCount := by
        rw [nextIndex, hsame.count_eq]
      have hlen := length_pollOn_le c.world.schedule
      have hrest := ih hwf hcount₁ (hsame.trans hsame₁) (by
        show nextRequest (scheduleNet rand send) c =
          { req with id := (nextRequest (scheduleNet rand send) c).id }
        rw [hid]) (lt_of_le_of_lt hlen hfuel)
      rw [moveOn, ← hindex, ← hnextId]
      exact hrest
    | @ready msg world world' result hok hsent hpoll hready =>
      rw [hid, hworld] at hsent
      obtain ⟨hsend, hresult, rfl⟩ := scheduleNet_poll hsent hpoll
      rw [if_neg (not_not.mpr (hsendable.mp hok)), if_neg (not_not.mpr hsend),
        conclude_of_ready (hresult ▸ hready)]
      have hnextId : (nextRequest (scheduleNet rand send) c).id = id := by rw [hid]
      have hlen := length_pollOn_le c.world.schedule
      have hrest := recvLoop_conclude rand send st fuel
        (hwf.socket hcount₁) htype₁ (lt_of_le_of_lt hlen hfuel)
      rw [← hnextId]
      exact hrest

end Machine

/-- What a caller sees of a call of `resolve` from the context `c` on a schedule. -/
def observed (rand : Nat → UInt32) (send : Endpoint → Bytes → SysResult Nat)
    (c : Ctx ScheduleWorld) (s : List Arrival) : Verdict :=
  verdict (resolve (scheduleNet rand send) (s.length + 1)
    { c with world := ⟨c.world.draws, s⟩ })

/-- Where the call is before anything arrives. -/
def start (rand : Nat → UInt32) (send : Endpoint → Bytes → SysResult Nat)
    (c : Ctx ScheduleWorld) : Phase :=
  startAttempt rand send c.st c.req c.st.endpointsCount c.st.reqId c.world.draws
    c.st.currEndpointIndex

/-- A call of `resolve` ends as the machine does. -/
theorem resolve_conclude (rand : Nat → UInt32) (send : Endpoint → Bytes → SysResult Nat)
    {c : Ctx ScheduleWorld} (hst : WellFormed c.st) (s : List Arrival) :
    observed rand send c s = conclude rand send c.st c.req (start rand send c) s := by
  rcases Nat.eq_zero_or_pos c.st.endpointsCount with hzero | hpos
  · have hstart : start rand send c = .done (.returned (-1)) := by
      rw [start, hzero]
      unfold startAttempt
      rfl
    rw [hstart, conclude_done, observed, resolve, if_pos hzero]
    rfl
  · have hresolve := resolve_eq_attempts (c := { c with world := ⟨c.world.draws, s⟩ })
      (scheduleNet rand send) (s.length + 1) hst hpos
    rw [observed, hresolve]
    exact attempts_conclude (c := { c with world := ⟨c.world.draws, s⟩ }) (s.length + 1)
      c.st.endpointsCount hst hpos (.refl _) rfl (Nat.lt_succ_self _)

end YetiPgExt.Lnp
