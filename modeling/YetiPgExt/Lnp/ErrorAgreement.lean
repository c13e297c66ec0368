import YetiPgExt.Lnp.Resolve

/-!
# The return value and the error string

The error string is set and cleared in the transport, in the parsers and in both loops of `resolve`.
`resolve_agreement` says that they agree with the return value whenever `resolve` returns: there is
no error string exactly if it returns 0, and then the response has what its type promises. This
holds in any state of the globals, for any network and whatever the error string was before.

A parser or a step of a loop either succeeds and leaves the error string alone, or fails and sets
it (`parseMsg_cases`, `recvStep_agreement`, `attempt_agreement`); the loops are then inductions.
-/

set_option autoImplicit false

namespace YetiPgExt.Lnp

open YetiPgExt.Library

/-- The response to a request of the given type has its value. -/
structure Response.Answers (type : UInt8) (resp : Response) : Prop where
  lrn : type = taggedReqVersion → resp.val1 ≠ none
  json : type = cnamReqVersion → resp.val ≠ none

/-! ## The parsers -/

/-- A parser that succeeds with a response, or fails with an error string. -/
inductive Parsed.Settled (P : Response → Prop) (error : Option ResolveError) : Parsed → Prop
  | accepted {resp : Response} : P resp → Settled P error ⟨0, resp, error⟩
  | refused {ret : Int} {resp : Response} (e : ResolveError) : ret ≠ 0 →
      Settled P error ⟨ret, resp, some e⟩

theorem Parsed.Settled.mono {P Q : Response → Prop} {error : Option ResolveError} {p : Parsed}
    (h : p.Settled P error) (hPQ : ∀ resp, P resp → Q resp) : p.Settled Q error := by
  cases h with
  | accepted hresp => exact .accepted (hPQ _ hresp)
  | refused e hret => exact .refused e hret

section Parsers

variable (msg : Bytes) (msgLen : Nat) (resp : Response) (error : Option ResolveError)

theorem parseTaggedMsg_settled :
    (parseTaggedMsg msg msgLen resp error).Settled (fun r => r.val1 ≠ none) error := by
  have hneg : (-1 : Int) ≠ 0 := by decide
  have hone : (1 : Int) ≠ 0 := by decide
  unfold parseTaggedMsg
  split
  · exact .refused _ hneg
  · dsimp only
    split
    -- a refusal returns 1, with the code in the error string
    · split
      · exact .refused _ hneg
      · split
        · exact .refused _ hone
        · exact .refused _ hone
    · split
      · exact .refused _ hneg
      · split
        · exact .refused _ hneg
        · apply Parsed.Settled.accepted
          exact Option.some_ne_none _

theorem parseJsonMsg_settled :
    (parseJsonMsg msg msgLen resp error).Settled (fun r => r.val ≠ none) error := by
  have hneg : (-1 : Int) ≠ 0 := by decide
  unfold parseJsonMsg
  split
  · exact .refused _ hneg
  · dsimp only
    split
    · exact .refused _ hneg
    · split
      · exact .refused _ hneg
      · apply Parsed.Settled.accepted
        exact Option.some_ne_none _

theorem parseConfrmRespMsg_settled :
    (parseConfrmRespMsg msg msgLen resp none).Settled (fun r => r.isConfrm = true) none ∨
      parseConfrmRespMsg msg msgLen resp none = ⟨-1, resp, none⟩ := by
  unfold parseConfrmRespMsg
  split
  -- too long for a confirmation: the only failure without an error string
  · exact .inr rfl
  · apply Or.inl
    split
    · exact .refused _ (by decide)
    · exact .accepted rfl

/-- A message that is too short for a confirmation is too short for both types. -/
theorem parseConfrmRespMsg_error {resp resp' : Response} {ret : Int} {e : ResolveError}
    (h : parseConfrmRespMsg msg msgLen resp none = ⟨ret, resp', some e⟩) :
    msgLen < cnfrmResponseHdrSize := by
  unfold parseConfrmRespMsg at h
  split at h
  · cases h
  · split at h
    · assumption
    · cases h

/-- `parse_msg` for a request of either type. -/
theorem parseMsg_settled {req : Request} (htype : IsVersion req.type) :
    (parseMsg req msg msgLen resp none).Settled
      (fun r => r.isConfrm = true ∨ r.Answers req.type) none := by
  have hneg : (-1 : Int) ≠ 0 := by decide
  rw [parseMsg]
  rcases parseConfrmRespMsg_settled msg msgLen resp with hsettled | hlong
  · generalize hconfrm : parseConfrmRespMsg msg msgLen resp none = confrm at hsettled
    cases hsettled with
    | accepted hisConfrm =>
      dsimp only
      rw [if_pos rfl]
      exact .accepted (.inl hisConfrm)
    | refused e hret =>
      have hlt := parseConfrmRespMsg_error msg msgLen hconfrm
      have htagged : msgLen < taggedHdrSize := lt_trans hlt (by decide)
      have hjson : msgLen < cnamResponseHdrSize := lt_trans hlt (by decide)
      dsimp only
      rw [if_neg hret, parseTaggedMsg, if_pos htagged, parseJsonMsg, if_pos hjson]
      rcases htype with htype | htype
      · rw [if_pos htype]
        exact .refused _ hneg
      · rw [if_neg (by rw [htype]; decide), if_pos htype]
        exact .refused _ hneg
  · rw [hlong]
    dsimp only
    rw [if_neg hneg]
    rcases htype with htype | htype
    · rw [if_pos htype]
      apply (parseTaggedMsg_settled msg msgLen resp none).mono
      intro r hlrn
      refine .inr ⟨fun _ => hlrn, ?_⟩
      intro hcnam
      exact absurd (htype.symm.trans hcnam) (by decide)
    · rw [if_neg (by rw [htype]; decide), if_pos htype]
      apply (parseJsonMsg_settled msg msgLen resp none).mono
      intro r hval
      refine .inr ⟨?_, fun _ => hval⟩
      intro htagged
      exact absurd (htype.symm.trans htagged) (by decide)

end Parsers

/-! ## The encoder -/

/-- A request that is refused is one whose message is too long. -/
theorem prepareMsg_error {req : Request} (htype : IsVersion req.type) {st st' : ResolverState}
    {error error' : Option ResolveError} {ret : Int}
    (h : prepareMsg req st error = (ret, st', error')) (hret : ret ≠ 0) :
    error' = some .tooLong := by
  rw [prepareMsg_of_isVersion htype, prepareWith] at h
  split at h
  · cases h
    rfl
  · cases h
    exact absurd rfl hret

/-! ## The steps -/

variable {ω : Type} {net : Net ω} {c c' : Ctx ω}

/-- A return value that agrees with the context it leaves. -/
structure Agreement (ret : Int) (c : Ctx ω) : Prop where
  error_iff : ret = 0 ↔ c.error = none
  answers : ret = 0 → c.resp.Answers c.req.type

theorem Agreement.failed {ret : Int} (hret : ret ≠ 0) (herror : c.error ≠ none) :
    Agreement ret c where
  error_iff := iff_of_false hret herror
  answers := fun h => absurd h hret

/-- What the end of a receive says about the context that it leaves: agreement when the loop ends,
and no error string when it goes on. -/
def ReceiveAgrees (c : Ctx ω) : Option Outcome → Prop
  | some (.returned ret) => Agreement ret c
  | some _ => True
  | none => c.error = none

/-- What the end of an attempt says about the context that it leaves: the receive loop is entered
without an error string. -/
def AttemptAgrees (c : Ctx ω) : AttemptEnd → Prop
  | .stop (.returned ret) => Agreement ret c
  | .stop _ => True
  | .ready => c.error = none
  | .next _ => True

theorem recvData_frame {n : Int} (h : recvData net c = (n, c')) :
    c'.req = c.req ∧ (0 ≤ n → c'.error = c.error) := by
  have hneg : ¬ (0 : Int) ≤ -1 := by decide
  rw [recvData] at h
  split at h
  · cases h
    exact ⟨rfl, fun hn => absurd hn hneg⟩
  · dsimp only at h
    split at h
    · cases h
      exact ⟨rfl, fun _ => rfl⟩
    · cases h
      exact ⟨rfl, fun hn => absurd hn hneg⟩

theorem recvStep_agreement (htype : IsVersion c.req.type) (herror : c.error = none)
    {o : Option Outcome} (h : recvStep net c = (o, c')) :
    c'.req = c.req ∧ ReceiveAgrees c' o := by
  rw [recvStep] at h
  dsimp only at h
  generalize hrecv : recvData net { c with st := { c.st with msg := zeros msgSz } } = r at h
  obtain ⟨n, c₁⟩ := r
  obtain ⟨hreq, hkept⟩ := recvData_frame hrecv
  dsimp only at h hreq hkept
  by_cases hn : n < 0
  · rw [if_pos hn] at h
    cases h
    refine ⟨hreq, Agreement.failed (by decide) ?_⟩
    -- the error string of the transport, or a new one
    dsimp only
    split
    · exact Option.some_ne_none _
    · assumption
  · rw [if_neg hn, hkept (not_lt.mp hn), herror, hreq] at h
    have hsettled := parseMsg_settled (c₁.st.msg.set n.toNat 0) n.toNat .zero htype
    generalize parseMsg c.req (c₁.st.msg.set n.toNat 0) n.toNat .zero none = parsed at h hsettled
    cases hsettled with
    | refused e hret =>
      rw [if_pos hret] at h
      cases h
      exact ⟨rfl, Agreement.failed (by decide) (Option.some_ne_none _)⟩
    | @accepted resp hresp =>
      rw [if_neg (not_not.mpr rfl)] at h
      by_cases hconfrm : resp.isConfrm = true
      · rw [if_pos hconfrm] at h
        cases h
        exact ⟨rfl, rfl⟩
      · rw [if_neg hconfrm] at h
        by_cases hid : resp.id ≠ c.req.id
        · rw [if_pos hid] at h
          cases h
          exact ⟨rfl, rfl⟩
        · rw [if_neg hid] at h
          cases h
          refine ⟨rfl, iff_of_true rfl rfl, ?_⟩
          intro _
          exact hresp.resolve_left hconfrm

/-- The receive loop, entered without an error string. -/
theorem recvLoop_agreement (fuel : Nat) (htype : IsVersion c.req.type) (herror : c.error = none)
    {ret : Int} (h : recvLoop net fuel c = (.returned ret, c')) :
    Agreement ret c' ∧ c'.req = c.req := by
  -- on the iterations; the ones that go on keep the request and set no error string
  induction fuel generalizing c with
  | zero =>
    rw [recvLoop] at h
    cases h
  | succ fuel ih =>
    rw [recvLoop] at h
    rcases hstep : recvStep net c with ⟨o, c₁⟩
    obtain ⟨hreq, hend⟩ := recvStep_agreement htype herror hstep
    rw [hstep] at h
    cases o with
    | some o =>
      cases h
      exact ⟨hend, hreq⟩
    | none =>
      obtain ⟨hagree, hreq'⟩ := ih (hreq ▸ htype) hend h
      exact ⟨hagree, hreq'.trans hreq⟩

theorem sendData_req {endp : Endpoint} {n : Int} (h : sendData net endp c = (n, c')) :
    c'.req = c.req := by
  rw [sendData] at h
  split at h
  · cases h
    rfl
  · dsimp only at h
    split at h
    · cases h
      rfl
    · split at h
      · cases h
        rfl
      · cases h
        rfl

theorem failover_end {e : AttemptEnd} (h : failover c = (e, c')) :
    c'.req = c.req ∧ (e = .stop .crashed ∨ ∃ endp, e = .next endp) := by
  rw [failover] at h
  split at h
  · cases h
    exact ⟨rfl, .inl rfl⟩
  · cases h
    exact ⟨rfl, .inr ⟨_, rfl⟩⟩

/-- A wait ends with the error string cleared, or it does not leave `resolve` with a result. -/
theorem waitReply_end {e : AttemptEnd} (h : waitReply net c = (e, c')) :
    c'.req = c.req ∧
      (e = .ready ∧ c'.error = none ∨ e = .stop .crashed ∨ ∃ endp, e = .next endp) := by
  rw [waitReply] at h
  dsimp only at h
  split at h
  · obtain ⟨hreq, hend⟩ := failover_end h
    exact ⟨hreq, .inr hend⟩
  · obtain ⟨hreq, hend⟩ := failover_end h
    exact ⟨hreq, .inr hend⟩
  · cases h
    exact ⟨rfl, .inl ⟨rfl, rfl⟩⟩

theorem attempt_agreement {endp : Endpoint} (htype : IsVersion c.req.type) {e : AttemptEnd}
    (h : attempt net endp c = (e, c')) :
    c'.req.type = c.req.type ∧ AttemptAgrees c' e := by
  rw [attempt] at h
  dsimp only at h
  generalize hreq₀ : ({ c.req with id := (genRequestId net c.st.reqId c.world).1 } : Request) =
    req at h
  -- the new id leaves the type alone
  have htype₀ : req.type = c.req.type := by
    rw [← hreq₀]
  generalize hprep : prepareMsg req
    { c.st with reqId := (genRequestId net c.st.reqId c.world).1 } c.error = p at h
  obtain ⟨ret, st, error⟩ := p
  dsimp only at h
  by_cases hret : ret ≠ 0
  · rw [if_pos hret] at h
    cases h
    refine ⟨htype₀, Agreement.failed (by decide) ?_⟩
    rw [prepareMsg_error (htype₀ ▸ htype) hprep hret]
    exact Option.some_ne_none _
  · rw [if_neg hret] at h
    generalize hsend : sendData net endp _ = s at h
    obtain ⟨n, c₁⟩ := s
    have hreq := sendData_req hsend
    have htype₁ : c₁.req.type = c.req.type := (congrArg Request.type hreq).trans htype₀
    dsimp only at h
    split at h
    · -- the report of a failed send raises
      have hraises : errLevel.raises = true := rfl
      rw [if_pos hraises] at h
      cases h
      exact ⟨htype₁, trivial⟩
    · obtain ⟨hreq', hend⟩ := waitReply_end h
      refine ⟨(congrArg Request.type hreq').trans htype₁, ?_⟩
      rcases hend with ⟨rfl, hclear⟩ | rfl | ⟨_, rfl⟩
      · exact hclear
      · trivial
      · trivial

theorem giveUp_agreement {ret : Int} (h : giveUp c = (.returned ret, c')) :
    Agreement ret c' ∧ c'.req = c.req := by
  rw [giveUp] at h
  cases h
  refine ⟨Agreement.failed (by decide) ?_, rfl⟩
  dsimp only
  split
  · exact Option.some_ne_none _
  · assumption

/-- The loop over the endpoints, entered with any error string. -/
theorem attempts_agreement (fuel left : Nat) (endp : Option Endpoint) (htype : IsVersion c.req.type)
    {ret : Int} (h : attempts net fuel left endp c = (.returned ret, c')) :
    Agreement ret c' ∧ c'.req.type = c.req.type := by
  -- on the attempts left; a failover keeps the type and may leave an error string
  induction left generalizing c endp with
  | zero =>
    rw [attempts] at h
    obtain ⟨hagree, hreq⟩ := giveUp_agreement h
    exact ⟨hagree, congrArg Request.type hreq⟩
  | succ left ih =>
    cases endp with
    | none =>
      rw [attempts] at h
      obtain ⟨hagree, hreq⟩ := giveUp_agreement h
      exact ⟨hagree, congrArg Request.type hreq⟩
    | some endp =>
      rw [attempts] at h
      rcases hattempt : attempt net endp c with ⟨e, c₁⟩
      obtain ⟨htype₁, hend⟩ := attempt_agreement htype hattempt
      rw [hattempt] at h
      cases e with
      | stop o =>
        cases h
        exact ⟨hend, htype₁⟩
      | ready =>
        obtain ⟨hagree, hreq⟩ := recvLoop_agreement fuel (htype₁ ▸ htype) hend h
        exact ⟨hagree, (congrArg Request.type hreq).trans htype₁⟩
      | next endp' =>
        obtain ⟨hagree, htype'⟩ := ih endp' (htype₁ ▸ htype) h
        exact ⟨hagree, htype'.trans htype₁⟩

/-- If `resolve` returns, its return value, the error string and the response agree. -/
theorem resolve_agreement (net : Net ω) (fuel : Nat) (c : Ctx ω) (htype : IsVersion c.req.type)
    {c' : Ctx ω} {ret : Int} (h : resolve net fuel c = (.returned ret, c')) :
    Agreement ret c' ∧ c'.req.type = c.req.type := by
  rw [resolve] at h
  split at h
  · cases h
    exact ⟨Agreement.failed (by decide) (Option.some_ne_none _), rfl⟩
  · cases hcurr : getCurrentEndpoint c.st with
    | none =>
      rw [hcurr] at h
      cases h
    | some p =>
      rw [hcurr] at h
      obtain ⟨endp, st⟩ := p
      exact attempts_agreement (c := { c with st := st }) fuel _ endp htype h

end YetiPgExt.Lnp
