import YetiPgExt.Lnp.Message

/-!
# The layouts

What the bytes of a message mean, from the comments of `resolver.c` and not from its code. A
request is an id, a database id, a version, a length field of a width that depends on the version,
and that many bytes of data (`decodeRequest`). A reply that answers a request is laid out as
`SuccessReply` says; the four bytes of an id alone are a confirmation.

The encoder is then tied to the layout: `prepareMsg_of_sendable` gives the bytes that `prepare_msg`
leaves for a request that fits, and `prepareMsg_of_not_sendable` says that it refuses every other.
The parsers are in `YetiPgExt.Lnp.ParseReply`.
-/

set_option autoImplicit false

namespace YetiPgExt.Lnp

open YetiPgExt.Library

/-- The two request versions. -/
def IsVersion (version : UInt8) : Prop := version = taggedReqVersion ∨ version = cnamReqVersion

instance (version : UInt8) : Decidable (IsVersion version) := inferInstanceAs (Decidable (_ ∨ _))

/-! ## Requests -/

/-- The width of the data length field of a request. -/
def lengthWidth (version : UInt8) : Nat := if version = cnamReqVersion then 4 else 1

/-- A decoded request. -/
structure WireRequest where
  id : UInt32
  dbId : UInt8
  version : UInt8
  data : Bytes
  deriving DecidableEq

/-- Decode a request: the data must reach to the end of the message. -/
def decodeRequest (m : Bytes) : Option WireRequest :=
  let version := m.getD 5 0
  let width := lengthWidth version
  if 6 + width ≤ m.length ∧ IsVersion version ∧
      6 + width + decodeLE (slice m 6 width) = m.length then
    some
      { id := UInt32.ofNat (decodeLE (m.take 4))
        dbId := m.getD 4 0
        version := version
        data := m.drop (6 + width) }
  else none

/-- The bytes of a request. -/
def requestImage (req : Request) : Bytes :=
  encodeLE 4 req.id.toNat ++ [UInt8.ofInt req.dbId.toInt] ++ [req.type] ++
    encodeLE (lengthWidth req.type) req.data.length ++ req.data

theorem length_requestImage (req : Request) :
    (requestImage req).length = req.data.length + (6 + lengthWidth req.type) := by
  simp only [requestImage, List.length_append, length_encodeLE, List.length_singleton]
  omega

/-- A request whose message fits the buffer. -/
def Sendable (req : Request) : Prop :=
  IsVersion req.type ∧ req.data.length + (6 + lengthWidth req.type) ≤ msgSz

instance (req : Request) : Decidable (Sendable req) := inferInstanceAs (Decidable (_ ∧ _))

theorem Sendable.withId {req : Request} (h : Sendable req) (id : UInt32) :
    Sendable { req with id := id } := h

/-- The encoder of a version is the common one at the width of its length field. -/
theorem prepareMsg_of_isVersion {req : Request} (h : IsVersion req.type) (st : ResolverState)
    (error : Option ResolveError) :
    prepareMsg req st error =
      prepareWith (6 + lengthWidth req.type) (lengthWidth req.type) req st error := by
  rcases h with htype | htype
  · rw [prepareMsg, htype, if_pos rfl, lengthWidth, if_neg (by decide)]
    rfl
  · rw [prepareMsg, htype, if_neg (by decide), if_pos rfl, lengthWidth, if_pos rfl]
    rfl

/-- `prepare_msg` accepts a request that fits and fills the buffer with its bytes. -/
theorem prepareMsg_of_sendable {req : Request} (h : Sendable req) (st : ResolverState)
    (error : Option ResolveError) :
    ∃ msg, prepareMsg req st error =
        (0, { st with msg := msg, msgLen := (requestImage req).length }, error) ∧
      msg.take (requestImage req).length = requestImage req := by
  obtain ⟨hversion, hfits⟩ := h
  rw [prepareMsg_of_isVersion hversion, prepareWith, if_neg (not_lt.mpr hfits),
    length_requestImage]
  refine ⟨_, rfl, ?_⟩
  -- the fields fill the buffer from the left
  generalize hw : lengthWidth req.type = w at hfits ⊢
  have hempty : Filled (zeros msgSz) msgSz [] := ⟨length_zeros _, rfl⟩
  have hid := hempty.store 0 (encodeLE 4 req.id.toNat) rfl
    (by simp only [length_encodeLE]; omega)
  have hdb := hid.store 4 [UInt8.ofInt req.dbId.toInt]
    (by simp only [List.nil_append, length_encodeLE])
    (by simp only [List.length_singleton]; omega)
  have htype := hdb.store 5 [req.type]
    (by simp only [List.nil_append, List.length_append, length_encodeLE, List.length_singleton])
    (by simp only [List.length_singleton]; omega)
  have hsize := htype.store 6 (encodeLE w req.data.length)
    (by simp only [List.nil_append, List.length_append, length_encodeLE, List.length_singleton])
    (by simp only [length_encodeLE]; omega)
  have hdata := hsize.store (6 + w) req.data
    (by simp only [List.nil_append, List.length_append, length_encodeLE, List.length_singleton])
    (by omega)
  have htake := hdata.take_eq
  simp only [List.nil_append, List.length_append, length_encodeLE, List.length_singleton] at htake
  rw [requestImage, hw, ← htake, Nat.add_comm req.data.length]

/-- `prepare_msg` refuses every other request and writes no message. -/
theorem prepareMsg_of_not_sendable {req : Request} (h : ¬ Sendable req) (st : ResolverState)
    (error : Option ResolveError) :
    ∃ msgLen error', prepareMsg req st error = (-1, { st with msgLen := msgLen }, error') := by
  by_cases hversion : IsVersion req.type
  · have hlong : msgSz < req.data.length + (6 + lengthWidth req.type) := by
      apply lt_of_not_ge
      intro hfits
      exact h ⟨hversion, hfits⟩
    rw [prepareMsg_of_isVersion hversion, prepareWith, if_pos hlong]
    exact ⟨_, _, rfl⟩
  · have htagged : req.type ≠ taggedReqVersion := fun htype => hversion (.inl htype)
    have hcnam : req.type ≠ cnamReqVersion := fun htype => hversion (.inr htype)
    rw [prepareMsg, if_neg htagged, if_neg hcnam]
    exact ⟨st.msgLen, error, rfl⟩

theorem prepareMsg_ret {req : Request} {st st' : ResolverState} {ret : Int}
    {error error' : Option ResolveError} (h : prepareMsg req st error = (ret, st', error')) :
    ret = 0 ↔ Sendable req := by
  by_cases hsendable : Sendable req
  · obtain ⟨msg, hprep, -⟩ := prepareMsg_of_sendable hsendable st error
    rw [hprep, Prod.mk.injEq] at h
    simp only [← h.1, hsendable]
  · obtain ⟨msgLen, error₁, hprep⟩ := prepareMsg_of_not_sendable hsendable st error
    rw [hprep, Prod.mk.injEq] at h
    simp only [← h.1, hsendable]
    decide

theorem take_four_requestImage (req : Request) :
    (requestImage req).take 4 = encodeLE 4 req.id.toNat := by
  simp only [requestImage, List.append_assoc]
  exact List.take_left' (length_encodeLE _ _)

/-! ## Replies -/

/-- The id in front of a datagram. -/
def leadingId (d : Bytes) : UInt32 := UInt32.ofNat (decodeLE (d.take 4))

/-- A datagram that answers a request of the given type, and what it says. Bytes behind the part
that the lengths cover are ignored. -/
inductive SuccessReply : UInt8 → Bytes → Response → Prop
  | tagged (id : UInt32) (lrn tag rest : Bytes) : lrn.length + tag.length ≤ 255 →
      SuccessReply taggedReqVersion
        (encodeLE 4 id.toNat ++ [0, UInt8.ofNat (lrn.length + tag.length),
          UInt8.ofNat lrn.length] ++ lrn ++ tag ++ rest)
        { id := id, isConfrm := false, val := none, val1 := some lrn,
          val2 := if tag = [] then none else some tag }
  | cnam (id : UInt32) (json rest : Bytes) : 0 < json.length → json.length < 2 ^ 32 →
      SuccessReply cnamReqVersion
        (encodeLE 4 id.toNat ++ encodeLE 4 json.length ++ json ++ rest)
        { id := id, isConfrm := false, val := some json, val1 := none, val2 := none }

/-- The response that a confirmation fills in. -/
def confirmation (d : Bytes) : Response :=
  { Response.zero with id := leadingId d, isConfrm := true }

theorem leadingId_append (id : UInt32) (rest : Bytes) :
    leadingId (encodeLE 4 id.toNat ++ rest) = id := by
  rw [leadingId, List.take_left' (length_encodeLE _ _), decodeLE_encodeLE_of_lt id.toNat_lt]
  exact UInt32.ofNat_toNat

theorem encodeLE_readU32 {d : Bytes} {off : Nat} (h : off + 4 ≤ d.length) :
    encodeLE 4 (readU32 d off).toNat = slice d off 4 := by
  rw [readU32, UInt32.toNat_ofNat_of_lt' (decodeLE_slice_lt h), encodeLE_slice h]

/-- The id in front of a datagram, read back as bytes. -/
theorem encodeLE_leadingId {d : Bytes} (h : 4 ≤ d.length) :
    encodeLE 4 (leadingId d).toNat = d.take 4 := by
  show encodeLE 4 (readU32 d 0).toNat = slice d 0 4
  exact encodeLE_readU32 (by omega)

theorem SuccessReply.length_gt {type : UInt8} {d : Bytes} {resp : Response}
    (h : SuccessReply type d resp) : 4 < d.length := by
  cases h with
  | tagged id lrn tag rest _ =>
    simp only [List.length_append, length_encodeLE, List.length_cons]
    omega
  | cnam id json rest _ _ =>
    simp only [List.length_append, length_encodeLE]
    omega

theorem SuccessReply.id_eq {type : UInt8} {d : Bytes} {resp : Response}
    (h : SuccessReply type d resp) : resp.id = leadingId d := by
  cases h with
  | tagged id lrn tag rest _ =>
    simp only [List.append_assoc]
    exact (leadingId_append _ _).symm
  | cnam id json rest _ _ =>
    simp only [List.append_assoc]
    exact (leadingId_append _ _).symm

theorem SuccessReply.isConfrm_eq {type : UInt8} {d : Bytes} {resp : Response}
    (h : SuccessReply type d resp) : resp.isConfrm = false := by
  cases h with
  | tagged => rfl
  | cnam => rfl

end YetiPgExt.Lnp
