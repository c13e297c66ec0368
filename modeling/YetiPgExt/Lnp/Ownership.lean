import YetiPgExt.Lnp.Reachable

/-!
# A successful call belongs to its request

The message buffer, the request id and the response are rewritten by every attempt and every
receive. `resolve_owned` says what ties them together when `resolve` returns 0: the response is
what one datagram says under the layout of the request's type, that datagram was received after
the last request was sent, and it begins with the id in that request.
-/

set_option autoImplicit false

namespace YetiPgExt.Lnp

open YetiPgExt.Library

/-- A call that logs `trace` behind `before` has its response from the datagram it received last,
which answers the request it sent last. -/
def Owned (type : UInt8) (before trace : List Event) (resp : Response) : Prop :=
  ∃ pre endp buf result post d,
    trace = before ++ pre ++ [.sent endp buf result] ++ post ++
      [.received d, .terminated d.length] ∧
    (∀ endp buf result, .sent endp buf result ∉ post) ∧
    4 < d.length ∧ d.take 4 = buf.take 4 ∧ SuccessReply type d resp

/-- More events in front of the request do not matter. -/
theorem Owned.prepend {type : UInt8} {before events trace : List Event} {resp : Response}
    (h : Owned type (before ++ events) trace resp) : Owned type before trace resp := by
  obtain ⟨pre, endp, buf, result, post, d, htrace, hpost, hd⟩ := h
  refine ⟨events ++ pre, endp, buf, result, post, d, ?_, hpost, hd⟩
  rw [htrace]
  simp only [List.append_assoc]

section Runs

variable {ω : Type} {net : Net ω} {c : Ctx ω}

/-- The receive loop succeeds with the datagram it receives last. -/
theorem recvLoop_answered (fuel : Nat) (hfd : 0 ≤ c.st.socketFd)
    (h : (recvLoop net fuel c).1 = .returned 0) :
    ∃ events d,
      (recvLoop net fuel c).2.trace =
        c.trace ++ events ++ [.received d, .terminated d.length] ∧
      (∀ e ∈ events, e.isReceive = true) ∧
      SuccessReply c.req.type d (recvLoop net fuel c).2.resp ∧ leadingId d = c.req.id := by
  induction fuel generalizing c with
  | zero => simp [recvLoop] at h
  | succ fuel ih =>
    have hstep := recvStep_step net hfd
    rw [recvLoop] at h ⊢
    rcases hrecv : recvStep net c with ⟨o, c₁⟩
    rw [hrecv] at hstep h
    cases hstep with
    | failed _ => simp at h
    | rejected _ _ => simp at h
    | @passedOver d world resp _ _ =>
      -- the datagram passed over goes in front of what the rest of the loop logs
      obtain ⟨events, d', htrace, hevents, hreply, hid⟩ :=
        ih (c := loaded c (d.take msgSz) world resp c.error) hfd h
      refine ⟨[.received (d.take msgSz), .terminated (d.take msgSz).length] ++ events, d',
        ?_, ?_, hreply, hid⟩
      · show (recvLoop net fuel (loaded c (d.take msgSz) world resp c.error)).2.trace = _
        rw [htrace]
        simp only [loaded, List.append_assoc]
      · intro e he
        rcases List.mem_append.mp he with he | he
        · simp only [List.mem_cons, List.not_mem_nil, or_false] at he
          rcases he with rfl | rfl <;> rfl
        · exact hevents e he
    | @answered d world resp _ hreply hid =>
      -- the last datagram: nothing was received between it and this point of the loop
      refine ⟨[], d.take msgSz, ?_, fun e he => absurd he List.not_mem_nil, hreply, hid⟩
      simp only [List.append_nil]

/-- The datagram answers the request that the attempt sent. -/
theorem owned_of_ready (fuel : Nat) {endp : Endpoint} {c₁ : Ctx ω} (hfd : 0 ≤ c₁.st.socketFd)
    (hstep : AttemptStep net endp c .ready c₁) (h : (recvLoop net fuel c₁).1 = .returned 0) :
    Owned c.req.type c.trace (recvLoop net fuel c₁).2.trace (recvLoop net fuel c₁).2.resp := by
  obtain ⟨events, d, htrace, hevents, hreply, hid⟩ := recvLoop_answered fuel hfd h
  cases hstep with
  | @ready msg world world' result _ _ _ _ =>
    -- between the send and the answer the log has the poll and the datagrams passed over
    refine ⟨[], endp, requestImage (nextRequest net c),
      .ok (requestImage (nextRequest net c)).length, .polled result :: events, d, ?_, ?_,
      hreply.length_gt, ?_, hreply⟩
    · rw [htrace]
      simp only [List.append_assoc, List.cons_append, List.nil_append]
    · intro endp' buf' result' hmem
      rcases List.mem_cons.mp hmem with heq | hmem
      · cases heq
      · cases hevents _ hmem
    · -- both begin with the id of the request
      rw [take_four_requestImage, ← encodeLE_leadingId (Nat.le_of_lt hreply.length_gt), hid]
      rfl

theorem attempts_owned (fuel left : Nat) (endp : Option Endpoint) (hst : WellFormed c.st)
    (hpos : 0 < c.st.endpointsCount) (h : (attempts net fuel left endp c).1 = .returned 0) :
    Owned c.req.type c.trace (attempts net fuel left endp c).2.trace
      (attempts net fuel left endp c).2.resp := by
  -- on the attempts left: only the attempt whose poll is ready can end in success
  induction left generalizing c endp with
  | zero => simp [attempts, giveUp] at h
  | succ left ih =>
    cases endp with
    | none => simp [attempts, giveUp] at h
    | some endp =>
      rw [attempts] at h ⊢
      rcases hattempt : attempt net endp c with ⟨e, c₁⟩
      obtain ⟨hstep, hwf, -, hcount⟩ := attempt_spec hst hpos hattempt
      rw [hattempt] at h
      cases e with
      | stop o =>
        cases hstep with
        | refused _ => simp at h
        | sendFailed _ _ _ => simp at h
      | ready => exact owned_of_ready fuel (hwf.socket hcount) hstep h
      | next endp' =>
        have howned := ih endp' hwf hcount h
        cases hstep with
        | notReady _ _ _ _ => exact howned.prepend

end Runs

/-- If `resolve` returns 0, the response is exactly what one datagram says that was received after
the last request was sent and carries the id of that request. -/
theorem resolve_owned {ω : Type} (net : Net ω) (fuel : Nat) (c : Ctx ω) (hst : Reachable c.st)
    (h : (resolve net fuel c).1 = .returned 0) :
    Owned c.req.type c.trace (resolve net fuel c).2.trace (resolve net fuel c).2.resp := by
  have hwf := hst.wellFormed
  rcases Nat.eq_zero_or_pos c.st.endpointsCount with hzero | hpos
  · rw [resolve, if_pos hzero] at h
    simp at h
  · rw [resolve_eq_attempts net fuel hwf hpos] at h ⊢
    exact attempts_owned fuel _ _ hwf hpos h

/-- A server that answers the request with the id 7 with the routing number `1`. -/
def promptNet : Net Unit where
  rand _ := (7, ())
  sendto _ _ buf := (.ok buf.length, ())
  poll _ := (.ok 1, ())
  recvfrom _ _ := (.ok [7, 0, 0, 0, 0, 1, 1, 49], ())

/-- A tagged request in a configured backend. -/
def sampleCall : Ctx Unit where
  st := sampleState
  req := { id := 0, type := taggedReqVersion, dbId := 4, data := ascii "380" }
  resp := .zero
  error := none
  world := ()
  trace := []

theorem resolve_sampleCall : (resolve promptNet 1 sampleCall).1 = .returned 0 := by
  decide +kernel

theorem reachable_sampleCall : Reachable sampleCall.st := by
  have hst : sampleCall.st = sampleState := by simp only [sampleCall]
  rw [hst]
  exact reachable_sampleState

theorem resolve_owned_sampleCall :
    Owned sampleCall.req.type sampleCall.trace (resolve promptNet 1 sampleCall).2.trace
      (resolve promptNet 1 sampleCall).2.resp :=
  resolve_owned promptNet 1 sampleCall reachable_sampleCall resolve_sampleCall

end YetiPgExt.Lnp
