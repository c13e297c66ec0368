import YetiPgExt.Lnp.ParseReply

/-!
# The reads of the reply parsers

The parsers once more with every access to the message checked: a read of a byte at or behind
`msg_len`, and a subtraction of sizes that wraps, have no result. `checkedParseMsg_eq` says that
neither happens. `parseMsg_exact` then says which datagrams are accepted, in terms of their bytes,
and that the parsers undo the encoding of a reply.
-/

set_option autoImplicit false

namespace YetiPgExt.Lnp

open YetiPgExt.Library

/-- `a - b` on `size_t`. -/
def checkedSub (a b : Nat) : Option Nat := if b ≤ a then some (a - b) else none

section

variable (msg : Bytes) (msgLen : Nat)

/-- `len` bytes of the message from `off` on. -/
def checkedSlice (off len : Nat) : Option Bytes :=
  if off + len ≤ msgLen then some (slice msg off len) else none

/-- `*(uint8_t *)(msg+off)` -/
def checkedU8 (off : Nat) : Option UInt8 := if off + 1 ≤ msgLen then some (readU8 msg off) else none

/-- `*(uint32_t *)(msg+off)` -/
def checkedU32 (off : Nat) : Option UInt32 :=
  if off + 4 ≤ msgLen then some (readU32 msg off) else none

/-- `parse_confrm_resp_msg` -/
def checkedParseConfrmRespMsg (resp : Response) (error : Option ResolveError) : Option Parsed :=
  if msgLen > cnfrmResponseHdrSize then some ⟨-1, resp, error⟩
  else if msgLen < cnfrmResponseHdrSize then some ⟨-1, resp, some .tooSmall⟩
  else do
    let id ← checkedU32 msg msgLen 0
    return ⟨0, { resp with id := id, isConfrm := true }, error⟩

/-- `parse_json_msg` -/
def checkedParseJsonMsg (resp : Response) (error : Option ResolveError) : Option Parsed :=
  if msgLen < cnamResponseHdrSize then some ⟨-1, resp, some .tooSmall⟩
  else do
    let id ← checkedU32 msg msgLen 0
    let resp := { resp with id := id }
    let dataSize ← checkedU32 msg msgLen 4
    if dataSize = 0 then return ⟨-1, resp, some .emptyReply⟩
    let tail ← checkedSub msgLen cnamResponseHdrSize
    if dataSize.toNat > tail then return ⟨-1, resp, some (.jsonTail dataSize tail)⟩
    let val ← checkedSlice msg msgLen cnamResponseHdrSize dataSize.toNat
    return ⟨0, { resp with val := some val }, error⟩

/-- `parse_tagged_msg` -/
def checkedParseTaggedMsg (resp : Response) (error : Option ResolveError) : Option Parsed :=
  if msgLen < taggedHdrSize then some ⟨-1, resp, some .tooSmall⟩
  else do
    let id ← checkedU32 msg msgLen 0
    let resp := { resp with id := id }
    let respCode ← checkedU8 msg msgLen 4
    let dataSize ← checkedU8 msg msgLen 5
    let dataSize := dataSize.toNat
    if taggedResponseCodeSuccess ≠ respCode then
      let tail ← checkedSub msgLen taggedErrResponseHdrSize
      if dataSize > tail then return ⟨-1, resp, some (.taggedTail dataSize tail)⟩
      if dataSize ≠ 0 then
        let data ← checkedSlice msg msgLen taggedErrResponseHdrSize dataSize
        return ⟨1, resp, some (.remoteText respCode data)⟩
      return ⟨1, resp, some (.remote respCode)⟩
    let tail ← checkedSub msgLen taggedHdrSize
    if dataSize > tail then return ⟨-1, resp, some (.taggedTail dataSize tail)⟩
    let lrnLength ← checkedU8 msg msgLen 6
    let lrnLength := lrnLength.toNat
    if lrnLength > dataSize then return ⟨-1, resp, some (.malformedLrn lrnLength dataSize)⟩
    let val1 ← checkedSlice msg msgLen taggedHdrSize lrnLength
    let tagLength ← checkedSub dataSize lrnLength
    if tagLength > 0 then
      let val2 ← checkedSlice msg msgLen (taggedHdrSize + lrnLength) tagLength
      return ⟨0, { resp with val1 := some val1, val2 := some val2 }, error⟩
    return ⟨0, { resp with val1 := some val1, val2 := none }, error⟩

/-- `parse_msg` -/
def checkedParseMsg (req : Request) (resp : Response) (error : Option ResolveError) :
    Option Parsed := do
  let confrm ← checkedParseConfrmRespMsg msg msgLen resp error
  if confrm.ret = 0 then return confrm
  if req.type = taggedReqVersion then checkedParseTaggedMsg msg msgLen confrm.resp confrm.error
  else if req.type = cnamReqVersion then checkedParseJsonMsg msg msgLen confrm.resp confrm.error
  else return ⟨-1, confrm.resp, confrm.error⟩

end

section

variable {msg : Bytes} {msgLen off len a b : Nat} (resp : Response) (error : Option ResolveError)

theorem checkedSub_eq (h : b ≤ a) : checkedSub a b = some (a - b) := if_pos h

theorem checkedSlice_eq (h : off + len ≤ msgLen) :
    checkedSlice msg msgLen off len = some (slice msg off len) := if_pos h

theorem checkedU8_eq (h : off + 1 ≤ msgLen) : checkedU8 msg msgLen off = some (readU8 msg off) :=
  if_pos h

theorem checkedU32_eq (h : off + 4 ≤ msgLen) :
    checkedU32 msg msgLen off = some (readU32 msg off) := if_pos h

variable (msg msgLen)

theorem checkedParseConfrmRespMsg_eq :
    checkedParseConfrmRespMsg msg msgLen resp error =
      some (parseConfrmRespMsg msg msgLen resp error) := by
  have hsize : cnfrmResponseHdrSize = 4 := rfl
  rw [checkedParseConfrmRespMsg, parseConfrmRespMsg]
  split
  · rfl
  · split
    · rfl
    · rw [checkedU32_eq (by omega)]
      rfl

theorem checkedParseJsonMsg_eq :
    checkedParseJsonMsg msg msgLen resp error = some (parseJsonMsg msg msgLen resp error) := by
  have hsize : cnamResponseHdrSize = 8 := rfl
  rw [checkedParseJsonMsg, parseJsonMsg]
  by_cases hlen : msgLen < cnamResponseHdrSize
  · rw [if_pos hlen, if_pos hlen]
  · rw [if_neg hlen, if_neg hlen, checkedU32_eq (by omega), checkedU32_eq (by omega),
      checkedSub_eq (by omega)]
    dsimp only [Option.bind_eq_bind, Option.bind_some]
    by_cases hzero : readU32 msg 4 = 0
    · rw [if_pos hzero, if_pos hzero]
      rfl
    · rw [if_neg hzero, if_neg hzero]
      by_cases htail : (readU32 msg 4).toNat > msgLen - cnamResponseHdrSize
      · rw [if_pos htail, if_pos htail]
        rfl
      · rw [if_neg htail, if_neg htail, checkedSlice_eq (by omega)]
        rfl

theorem checkedParseTaggedMsg_eq :
    checkedParseTaggedMsg msg msgLen resp error = some (parseTaggedMsg msg msgLen resp error) := by
  have hsize : taggedHdrSize = 7 := rfl
  have herr : taggedErrResponseHdrSize = 6 := rfl
  rw [checkedParseTaggedMsg, parseTaggedMsg]
  by_cases hlen : msgLen < taggedHdrSize
  · rw [if_pos hlen, if_pos hlen]
  · rw [if_neg hlen, if_neg hlen, checkedU32_eq (by omega), checkedU8_eq (by omega),
      checkedU8_eq (by omega), checkedU8_eq (by omega), checkedSub_eq (by omega),
      checkedSub_eq (by omega)]
    dsimp only [Option.bind_eq_bind, Option.bind_some]
    by_cases hcode : taggedResponseCodeSuccess ≠ readU8 msg 4
    · -- a refusal: its data may begin at the byte that holds the length of a number otherwise
      rw [if_pos hcode, if_pos hcode]
      by_cases htail : (readU8 msg 5).toNat > msgLen - taggedErrResponseHdrSize
      · rw [if_pos htail, if_pos htail]
        rfl
      · rw [if_neg htail, if_neg htail]
        by_cases hdata : (readU8 msg 5).toNat ≠ 0
        · rw [if_pos hdata, if_pos hdata, checkedSlice_eq (by omega)]
          rfl
        · rw [if_neg hdata, if_neg hdata]
          rfl
    · rw [if_neg hcode, if_neg hcode]
      by_cases htail : (readU8 msg 5).toNat > msgLen - taggedHdrSize
      · rw [if_pos htail, if_pos htail]
        rfl
      · rw [if_neg htail, if_neg htail]
        by_cases hlrn : (readU8 msg 6).toNat > (readU8 msg 5).toNat
        · rw [if_pos hlrn, if_pos hlrn]
          rfl
        · -- the number ends inside the part that was checked, and the tag ends with it
          rw [if_neg hlrn, if_neg hlrn, checkedSlice_eq (by omega), checkedSub_eq (by omega)]
          dsimp only [Option.bind_some]
          by_cases htag : (readU8 msg 5).toNat - (readU8 msg 6).toNat > 0
          · rw [if_pos htag, if_pos htag, checkedSlice_eq (by omega)]
            rfl
          · rw [if_neg htag, if_neg htag]
            rfl

/-- No read passes the end of the message and no subtraction wraps. -/
theorem checkedParseMsg_eq (req : Request) :
    checkedParseMsg msg msgLen req resp error = some (parseMsg req msg msgLen resp error) := by
  rw [checkedParseMsg, parseMsg, checkedParseConfrmRespMsg_eq]
  dsimp only [Option.bind_eq_bind, Option.bind_some]
  rw [checkedParseTaggedMsg_eq, checkedParseJsonMsg_eq]
  split
  · rfl
  · split
    · rfl
    · split
      · rfl
      · rfl

end

/-- `parse_msg` on any datagram `d`, with any bytes `rest` behind it in the buffer: no read passes
the end of the datagram and no subtraction wraps; the four bytes of an id are a confirmation; behind
that length a datagram is accepted for its lengths alone, and the strings are cut out at them. So it
undoes the encoding of a tagged reply and of a CNAM reply. -/
theorem parseMsg_exact :
    (∀ (req : Request) (d rest : Bytes) (resp : Response) (error : Option ResolveError),
      let parsed := parseMsg req (d ++ rest) d.length resp error
      checkedParseMsg (d ++ rest) d.length req resp error = some parsed ∧
      (d.length < 4 → parsed.ret ≠ 0) ∧
      (d.length = 4 → parsed = ⟨0, { resp with id := leadingId d, isConfrm := true }, error⟩) ∧
      (4 < d.length → req.type = taggedReqVersion →
        (parsed.ret = 0 ↔ TaggedFits d) ∧
        (parsed.ret = 0 → parsed = ⟨0, taggedReply d resp, error⟩)) ∧
      (4 < d.length → req.type = cnamReqVersion →
        (parsed.ret = 0 ↔ CnamFits d) ∧
        (parsed.ret = 0 → parsed = ⟨0, cnamReply d resp, error⟩)) ∧
      (4 < d.length → ¬ IsVersion req.type → parsed.ret ≠ 0)) ∧
    (∀ (req : Request) (id : UInt32) (lrn tag rest : Bytes) (resp : Response)
        (error : Option ResolveError),
      req.type = taggedReqVersion → lrn.length + tag.length ≤ 255 →
      let d := encodeLE 4 id.toNat ++
        [0, UInt8.ofNat (lrn.length + tag.length), UInt8.ofNat lrn.length] ++ lrn ++ tag
      parseMsg req (d ++ rest) d.length resp error =
        ⟨0, { resp with id := id, val1 := some lrn, val2 := if tag = [] then none else some tag },
          error⟩) ∧
    (∀ (req : Request) (id : UInt32) (json rest : Bytes) (resp : Response)
        (error : Option ResolveError),
      req.type = cnamReqVersion → 0 < json.length → 8 + json.length < msgSz →
      let d := encodeLE 4 id.toNat ++ encodeLE 4 json.length ++ json
      parseMsg req (d ++ rest) d.length resp error =
        ⟨0, { resp with id := id, val := some json }, error⟩) := by
  refine ⟨?_, ?_, ?_⟩
  · intro req d rest resp error parsed
    have hparsed : parsed = parseMsg req d d.length resp error :=
      parseMsg_append rest resp error req
    refine ⟨checkedParseMsg_eq _ _ _ _ req, ?_, ?_, ?_, ?_, ?_⟩
    · intro hlen
      rw [hparsed]
      exact parseMsg_of_lt hlen req resp error
    · intro hlen
      rw [hparsed]
      exact parseMsg_of_id hlen req resp error
    · intro hlen htype
      rw [hparsed, parseMsg_of_gt hlen req resp error, if_pos htype]
      refine ⟨parseTaggedMsg_ret_iff resp error, ?_⟩
      intro hret
      exact parseTaggedMsg_of_fits resp error ((parseTaggedMsg_ret_iff resp error).mp hret)
    · intro hlen htype
      have htagged : ¬ req.type = taggedReqVersion := by
        rw [htype]
        decide
      rw [hparsed, parseMsg_of_gt hlen req resp error, if_neg htagged, if_pos htype]
      refine ⟨parseJsonMsg_ret_iff resp error, ?_⟩
      intro hret
      exact parseJsonMsg_of_fits resp error ((parseJsonMsg_ret_iff resp error).mp hret)
    · intro hlen htype
      have htagged : ¬ req.type = taggedReqVersion := fun h => htype (.inl h)
      have hcnam : ¬ req.type = cnamReqVersion := fun h => htype (.inr h)
      rw [hparsed, parseMsg_of_gt hlen req resp error, if_neg htagged, if_neg hcnam]
      simp
  · intro req id lrn tag rest resp error htype hfits d
    have hlen : 4 < d.length := by
      simp only [d, List.length_append, length_encodeLE, List.length_cons]
      omega
    rw [parseMsg_append rest resp error req, parseMsg_of_gt hlen req resp error, if_pos htype]
    have hdecode := parseTaggedMsg_complete id lrn tag [] hfits resp error
    rwa [List.append_nil] at hdecode
  · intro req id json rest resp error htype hpos hfits d
    have hlen : 4 < d.length := by
      simp only [d, List.length_append, length_encodeLE]
      omega
    have htagged : ¬ req.type = taggedReqVersion := by
      rw [htype]
      decide
    have hsize : msgSz = 2048 := rfl
    rw [parseMsg_append rest resp error req, parseMsg_of_gt hlen req resp error,
      if_neg htagged, if_pos htype]
    have hdecode := parseJsonMsg_complete id json [] hpos (by omega) resp error
    rwa [List.append_nil] at hdecode

/-- A reply with id 7, number `123` and tag `ab`, with an older byte behind it in the buffer. -/
theorem parseMsg_exact_tagged :
    parseMsg ⟨7, taggedReqVersion, 0, []⟩
        ([7, 0, 0, 0, 0, 5, 3, 49, 50, 51, 97, 98] ++ [99]) 12 .zero none =
      ⟨0, { Response.zero with id := 7, val1 := some [49, 50, 51], val2 := some [97, 98] },
        none⟩ :=
  parseMsg_exact.2.1 ⟨7, taggedReqVersion, 0, []⟩ 7 [49, 50, 51] [97, 98] [99] .zero none rfl
    (by decide)

end YetiPgExt.Lnp
