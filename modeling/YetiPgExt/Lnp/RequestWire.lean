import YetiPgExt.Lnp.ResolveSteps

/-!
# The round trip of a request

A request that `prepare_msg` accepts should be what a server decodes from the message
(`RequestRoundTrip`). The encoder tests that the message fits the buffer and not that the length
of the data fits its length field, which is one byte wide in a tagged request.
`requestRoundTrip_iff` says for which requests the round trip holds.
-/

set_option autoImplicit false

namespace YetiPgExt.Lnp

open YetiPgExt.Library

/-- A decoded request has the fields of the original one. -/
structure WireRequest.Describes (w : WireRequest) (req : Request) : Prop where
  id_eq : w.id = req.id
  dbId_eq : (w.dbId.toNat : Int) = req.dbId.toInt
  version_eq : w.version = req.type
  data_eq : w.data = req.data

/-- If `prepare_msg` accepts the request, the message decodes to it; if it refuses the request,
`resolve` does nothing to the socket. -/
def RequestRoundTrip (req : Request) : Prop :=
  (∀ st error ret st' error', prepareMsg req st error = (ret, st', error') → ret = 0 →
    ∃ w, decodeRequest (st'.msg.take st'.msgLen) = some w ∧ w.Describes req) ∧
  (∀ st error ret st' error', prepareMsg req st error = (ret, st', error') → ret ≠ 0 →
    ∀ (ω : Type) (net : Net ω) (fuel : Nat) (c : Ctx ω), c.req = req →
      (resolve net fuel c).2.trace = c.trace)

/-! ## Decoding a request -/

theorem slice_requestImage (req : Request) :
    slice (requestImage req) 6 (lengthWidth req.type) =
      encodeLE (lengthWidth req.type) req.data.length := by
  have hslice := slice_append
    (encodeLE 4 req.id.toNat ++ [UInt8.ofInt req.dbId.toInt] ++ [req.type])
    (encodeLE (lengthWidth req.type) req.data.length) req.data
  simp only [List.length_append, length_encodeLE, List.length_singleton] at hslice
  exact hslice

theorem drop_requestImage (req : Request) :
    (requestImage req).drop (6 + lengthWidth req.type) = req.data := by
  apply List.drop_left'
  simp only [List.length_append, length_encodeLE, List.length_singleton]

/-- The message decodes exactly if the length field can express the length of the data. -/
theorem decodeRequest_requestImage {req : Request} (h : IsVersion req.type) :
    decodeRequest (requestImage req) =
      if req.data.length < 256 ^ lengthWidth req.type then
        some ⟨req.id, UInt8.ofInt req.dbId.toInt, req.type, req.data⟩
      else none := by
  have hversion : (requestImage req).getD 5 0 = req.type := rfl
  have hdb : (requestImage req).getD 4 0 = UInt8.ofInt req.dbId.toInt := rfl
  have hid : UInt32.ofNat (decodeLE ((requestImage req).take 4)) = req.id := by
    rw [take_four_requestImage, decodeLE_encodeLE_of_lt req.id.toNat_lt]
    exact UInt32.ofNat_toNat
  have hlen := length_requestImage req
  rw [decodeRequest]
  simp only [hversion, hdb, hid, slice_requestImage, drop_requestImage, decodeLE_encodeLE]
  by_cases hlt : req.data.length < 256 ^ lengthWidth req.type
  · rw [if_pos hlt, if_pos ⟨by omega, h, by rw [Nat.mod_eq_of_lt hlt]; omega⟩]
  · rw [if_neg hlt, if_neg]
    rintro ⟨-, -, heq⟩
    -- a length field that is off by a multiple of its range does not reach to the end
    have hmod : req.data.length % 256 ^ lengthWidth req.type < 256 ^ lengthWidth req.type :=
      Nat.mod_lt _ (by positivity)
    omega

theorem ofInt_dbId {req : Request} (h : 0 ≤ req.dbId.toInt ∧ req.dbId.toInt ≤ 255) :
    ((UInt8.ofInt req.dbId.toInt).toNat : Int) = req.dbId.toInt := by
  obtain ⟨hnonneg, hle⟩ := h
  have hmod : req.dbId.toInt % 2 ^ 8 = req.dbId.toInt := Int.emod_eq_of_lt hnonneg (by omega)
  rw [UInt8.ofInt, hmod, UInt8.toNat_ofNat_of_lt']
  · exact Int.toNat_of_nonneg hnonneg
  · show req.dbId.toInt.toNat < 256
    omega

/-! ## Sending it -/

/-- A request that does not fit is not sent. -/
theorem resolve_trace_of_not_sendable {ω : Type} (net : Net ω) (fuel : Nat) (c : Ctx ω)
    (h : ¬ Sendable c.req) : (resolve net fuel c).2.trace = c.trace := by
  by_cases hcount : c.st.endpointsCount = 0
  · rw [resolve, if_pos hcount]
  · rw [resolve, if_neg hcount]
    cases getCurrentEndpoint c.st with
    | none => rfl
    | some current =>
      obtain ⟨endp, st⟩ := current
      -- the first iteration ends the loop, whatever the endpoint is
      obtain ⟨n, hn⟩ := Nat.exists_eq_succ_of_ne_zero hcount
      rw [hn]
      cases endp with
      | none => rfl
      | some endp =>
        obtain ⟨msgLen, error, hattempt⟩ :=
          attempt_of_not_sendable net endp (c := { c with st := st }) h
        simp only [attempts, hattempt]

/-- For a request that fits, the round trip is a matter of the length field. -/
theorem requestRoundTrip_of_sendable {req : Request} (hsendable : Sendable req)
    (hdb : 0 ≤ req.dbId.toInt ∧ req.dbId.toInt ≤ 255) :
    RequestRoundTrip req ↔ req.data.length < 256 ^ lengthWidth req.type := by
  constructor
  · rintro ⟨haccepted, -⟩
    obtain ⟨msg, hprep, hmsg⟩ := prepareMsg_of_sendable hsendable .init none
    obtain ⟨w, hdecode, -⟩ := haccepted _ _ _ _ _ hprep rfl
    simp only [hmsg, decodeRequest_requestImage hsendable.1] at hdecode
    -- any buffer will do: the message it gets does not decode
    by_contra hlong
    rw [if_neg hlong] at hdecode
    cases hdecode
  · intro hlt
    refine ⟨?_, ?_⟩
    · intro st error ret st' error' h _
      obtain ⟨msg, hprep, hmsg⟩ := prepareMsg_of_sendable hsendable st error
      rw [hprep] at h
      cases h
      refine ⟨⟨req.id, UInt8.ofInt req.dbId.toInt, req.type, req.data⟩, ?_, rfl, ofInt_dbId hdb,
        rfl, rfl⟩
      simp only [hmsg, decodeRequest_requestImage hsendable.1, if_pos hlt]
    · intro st error ret st' error' h hret
      exact absurd ((prepareMsg_ret h).mpr hsendable) hret

/-- A request that does not fit is refused and not sent. -/
theorem requestRoundTrip_of_not_sendable {req : Request} (hsendable : ¬ Sendable req) :
    RequestRoundTrip req := by
  refine ⟨?_, ?_⟩
  · intro st error ret st' error' h hret
    exact absurd ((prepareMsg_ret h).mp hret) hsendable
  · rintro st error ret st' error' h hret ω net fuel c rfl
    exact resolve_trace_of_not_sendable net fuel c hsendable

/-- The round trip holds for every CNAM request, and for a tagged request whose data has at most
255 bytes or does not fit the buffer. -/
theorem requestRoundTrip_iff (req : Request) (hversion : IsVersion req.type)
    (hdb : 0 ≤ req.dbId.toInt ∧ req.dbId.toInt ≤ 255) :
    RequestRoundTrip req ↔
      req.type = cnamReqVersion ∨ req.data.length ≤ 255 ∨
        msgSz < req.data.length + taggedHdrSize := by
  have htaggedHdr : taggedHdrSize = 7 := rfl
  have hmsgSz : msgSz = 2048 := rfl
  by_cases hsendable : Sendable req
  · rw [requestRoundTrip_of_sendable hsendable hdb]
    have hfits := hsendable.2
    -- a length that fits the buffer fits four bytes, but not always one
    by_cases hcnam : req.type = cnamReqVersion
    · rw [lengthWidth, if_pos hcnam] at hfits ⊢
      simp only [hcnam, true_or, iff_true]
      omega
    · rw [lengthWidth, if_neg hcnam] at hfits ⊢
      simp only [hcnam, false_or, pow_one]
      omega
  · simp only [requestRoundTrip_of_not_sendable hsendable, true_iff]
    by_cases hcnam : req.type = cnamReqVersion
    · exact .inl hcnam
    · right
      right
      apply lt_of_not_ge
      intro hfits
      apply hsendable
      refine ⟨hversion, ?_⟩
      rw [lengthWidth, if_neg hcnam]
      omega

/-- A tagged request with `n` data bytes. -/
def taggedRequest (n : Nat) : Request where
  id := 1
  type := taggedReqVersion
  dbId := 4
  data := List.replicate n 49

theorem requestRoundTrip_iff_taggedRequest :
    IsVersion (taggedRequest 255).type ∧
      (RequestRoundTrip (taggedRequest 255) ↔
        (taggedRequest 255).type = cnamReqVersion ∨ (taggedRequest 255).data.length ≤ 255 ∨
          msgSz < (taggedRequest 255).data.length + taggedHdrSize) :=
  ⟨.inl rfl, requestRoundTrip_iff (taggedRequest 255) (.inl rfl) (by decide)⟩

/-- A tagged request with 256 data bytes is sent with the length zero. -/
theorem not_requestRoundTrip : ¬ RequestRoundTrip (taggedRequest 256) := by
  have hlen : (taggedRequest 256).data.length = 256 := List.length_replicate
  have hsendable : Sendable (taggedRequest 256) := by
    refine ⟨.inl rfl, ?_⟩
    rw [hlen]
    decide
  rw [requestRoundTrip_of_sendable hsendable (by decide), hlen]
  decide

end YetiPgExt.Lnp
