import YetiPgExt.Lnp.Layout

/-!
# The reply parsers

`parse_msg` accepts exactly the confirmations (`parseMsg_of_four`) and the datagrams laid out as a
`SuccessReply` of the request's type (`parseMsg_sound`, `parseMsg_complete`), and it reads no byte
of the buffer behind the datagram (`parseMsg_loadMsg`). The layouts are also given by the bytes that
carry the lengths: `TaggedFits` and `CnamFits` are what the two parsers test.
-/

set_option autoImplicit false

namespace YetiPgExt.Lnp

open YetiPgExt.Library

/-! ## The buffer -/

/-- The buffer after a datagram of at most `msgSz` bytes is received into it. -/
def loadMsg (d : Bytes) : Bytes := (store (zeros msgSz) 0 d).set d.length 0

theorem loadMsg_eq (d : Bytes) :
    loadMsg d = d ++ zeros (msgSz - d.length) := by
  have hdrop : (zeros msgSz).drop d.length = zeros (msgSz - d.length) := by
    simp only [zeros, List.drop_replicate]
  -- the store and the write behind it, over what is left of the zeros
  rw [loadMsg, store, List.take_zero, List.nil_append, Nat.zero_add, hdrop,
    List.set_append_right _ _ le_rfl, Nat.sub_self]
  -- the terminating zero falls on a zero, or behind the buffer
  cases hn : msgSz - d.length with
  | zero => rfl
  | succ n => rfl

section Prefix

variable {d : Bytes} (z : Bytes) (resp : Response) (error : Option ResolveError)

theorem readU32_append {off : Nat} (h : off + 4 ≤ d.length) :
    readU32 (d ++ z) off = readU32 d off := by
  rw [readU32, readU32, slice_append_of_le h]

theorem readU8_append {off : Nat} (h : off < d.length) : readU8 (d ++ z) off = readU8 d off := by
  rw [readU8, readU8, List.getD_eq_getElem?_getD, List.getD_eq_getElem?_getD,
    List.getElem?_append_left h]

theorem parseConfrmRespMsg_append :
    parseConfrmRespMsg (d ++ z) d.length resp error = parseConfrmRespMsg d d.length resp error := by
  unfold parseConfrmRespMsg
  split
  · rfl
  · split
    · rfl
    · rename_i hlen
      rw [readU32_append z (not_lt.mp hlen)]

theorem parseTaggedMsg_append :
    parseTaggedMsg (d ++ z) d.length resp error = parseTaggedMsg d d.length resp error := by
  have hsize : taggedHdrSize = 7 := rfl
  have herr : taggedErrResponseHdrSize = 6 := rfl
  unfold parseTaggedMsg
  by_cases hlen : d.length < taggedHdrSize
  · rw [if_pos hlen, if_pos hlen]
  · rw [if_neg hlen, if_neg hlen, readU32_append z (by omega), readU8_append z (by omega),
      readU8_append z (by omega), readU8_append z (by omega)]
    dsimp only
    -- the two sides differ in the slices only; every branch has checked that they end in `d`
    generalize (readU8 d 5).toNat = total
    generalize (readU8 d 6).toNat = lrn
    by_cases hcode : taggedResponseCodeSuccess ≠ readU8 d 4
    · rw [if_pos hcode, if_pos hcode]
      by_cases htail : total > d.length - taggedErrResponseHdrSize
      · rw [if_pos htail, if_pos htail]
      · rw [if_neg htail, if_neg htail, slice_append_of_le (by omega)]
    · rw [if_neg hcode, if_neg hcode]
      by_cases htail : total > d.length - taggedHdrSize
      · rw [if_pos htail, if_pos htail]
      · rw [if_neg htail, if_neg htail]
        by_cases hlrn : lrn > total
        · rw [if_pos hlrn, if_pos hlrn]
        · rw [if_neg hlrn, if_neg hlrn, slice_append_of_le (by omega),
            slice_append_of_le (by omega)]

theorem parseJsonMsg_append :
    parseJsonMsg (d ++ z) d.length resp error = parseJsonMsg d d.length resp error := by
  have hsize : cnamResponseHdrSize = 8 := rfl
  unfold parseJsonMsg
  by_cases hlen : d.length < cnamResponseHdrSize
  · rw [if_pos hlen, if_pos hlen]
  · rw [if_neg hlen, if_neg hlen, readU32_append z (by omega), readU32_append z (by omega)]
    dsimp only
    by_cases hzero : readU32 d 4 = 0
    · rw [if_pos hzero, if_pos hzero]
    · rw [if_neg hzero, if_neg hzero]
      by_cases htail : (readU32 d 4).toNat > d.length - cnamResponseHdrSize
      · rw [if_pos htail, if_pos htail]
      · rw [if_neg htail, if_neg htail, slice_append_of_le (by omega)]

/-- `parse_msg` reads only the bytes that `msg_len` counts. -/
theorem parseMsg_append (req : Request) :
    parseMsg req (d ++ z) d.length resp error = parseMsg req d d.length resp error := by
  simp only [parseMsg, parseConfrmRespMsg_append, parseTaggedMsg_append, parseJsonMsg_append]

end Prefix

theorem parseMsg_loadMsg (req : Request) (d : Bytes) (resp : Response)
    (error : Option ResolveError) :
    parseMsg req (loadMsg d) d.length resp error = parseMsg req d d.length resp error := by
  rw [loadMsg_eq, parseMsg_append]

/-! ## The success layouts, byte by byte -/

/-- The header of a tagged reply, its code, and its two lengths, the first inside the datagram and
the second inside the first. -/
structure TaggedFits (d : Bytes) : Prop where
  header : 7 ≤ d.length
  code : readU8 d 4 = 0
  total : (readU8 d 5).toNat ≤ d.length - 7
  lrn : (readU8 d 6).toNat ≤ (readU8 d 5).toNat

/-- What a tagged reply leaves in the response. -/
def taggedReply (d : Bytes) (resp : Response) : Response :=
  let total := (readU8 d 5).toNat
  let lrn := (readU8 d 6).toNat
  { resp with
    id := leadingId d
    val1 := some (slice d 7 lrn)
    val2 := if lrn = total then none else some (slice d (7 + lrn) (total - lrn)) }

/-- The header of a CNAM reply and its length, which is positive and inside the datagram. -/
structure CnamFits (d : Bytes) : Prop where
  header : 8 ≤ d.length
  positive : 1 ≤ (readU32 d 4).toNat
  size : (readU32 d 4).toNat ≤ d.length - 8

/-- What a CNAM reply leaves in the response. -/
def cnamReply (d : Bytes) (resp : Response) : Response :=
  { resp with id := leadingId d, val := some (slice d 8 (readU32 d 4).toNat) }

section

variable {d : Bytes} (resp : Response) (error : Option ResolveError)

theorem parseTaggedMsg_of_fits (h : TaggedFits d) :
    parseTaggedMsg d d.length resp error = ⟨0, taggedReply d resp, error⟩ := by
  have hsize : taggedHdrSize = 7 := rfl
  have hheader := h.header
  have htotal := h.total
  have hlrn := h.lrn
  have hcode : ¬ taggedResponseCodeSuccess ≠ readU8 d 4 := by
    intro hne
    exact hne h.code.symm
  -- the code tests the length of the tag, the layout whether the number takes up everything
  have hval₂ : (if (readU8 d 5).toNat - (readU8 d 6).toNat > 0 then
        some (slice d (taggedHdrSize + (readU8 d 6).toNat)
          ((readU8 d 5).toNat - (readU8 d 6).toNat)) else none) =
      if (readU8 d 6).toNat = (readU8 d 5).toNat then none
      else some (slice d (7 + (readU8 d 6).toNat)
        ((readU8 d 5).toNat - (readU8 d 6).toNat)) := by
    by_cases heq : (readU8 d 6).toNat = (readU8 d 5).toNat
    · rw [if_pos heq, if_neg (by omega)]
    · rw [if_neg heq, if_pos (by omega), hsize]
  rw [parseTaggedMsg, if_neg (by omega), if_neg hcode]
  dsimp only
  rw [if_neg (by omega), if_neg (by omega), hval₂]
  rfl

theorem parseTaggedMsg_ret_iff :
    (parseTaggedMsg d d.length resp error).ret = 0 ↔ TaggedFits d := by
  constructor
  · intro h
    have hsize : taggedHdrSize = 7 := rfl
    unfold parseTaggedMsg at h
    -- only the last exit returns 0: one guard after the other is ruled out
    by_cases hlen : d.length < taggedHdrSize
    · rw [if_pos hlen] at h
      simp at h
    rw [if_neg hlen] at h
    dsimp only at h
    by_cases hcode : taggedResponseCodeSuccess ≠ readU8 d 4
    · rw [if_pos hcode] at h
      split at h
      · simp at h
      · split at h
        · simp at h
        · simp at h
    rw [if_neg hcode] at h
    by_cases htail : (readU8 d 5).toNat > d.length - taggedHdrSize
    · rw [if_pos htail] at h
      simp at h
    rw [if_neg htail] at h
    by_cases hlrn : (readU8 d 6).toNat > (readU8 d 5).toNat
    · rw [if_pos hlrn] at h
      simp at h
    exact ⟨not_lt.mp hlen, (not_not.mp hcode).symm, not_lt.mp htail, not_lt.mp hlrn⟩
  · intro h
    rw [parseTaggedMsg_of_fits resp error h]

theorem parseJsonMsg_of_fits (h : CnamFits d) :
    parseJsonMsg d d.length resp error = ⟨0, cnamReply d resp, error⟩ := by
  have hsize : cnamResponseHdrSize = 8 := rfl
  have hheader := h.header
  have hpositive := h.positive
  have hfits := h.size
  have hzero : readU32 d 4 ≠ 0 := by
    intro hzero
    rw [hzero] at hpositive
    exact absurd hpositive (by decide)
  rw [parseJsonMsg, if_neg (by omega), if_neg hzero, if_neg (by omega)]
  rfl

theorem parseJsonMsg_ret_iff :
    (parseJsonMsg d d.length resp error).ret = 0 ↔ CnamFits d := by
  constructor
  · intro h
    unfold parseJsonMsg at h
    by_cases hlen : d.length < cnamResponseHdrSize
    · rw [if_pos hlen] at h
      simp at h
    rw [if_neg hlen] at h
    by_cases hzero : readU32 d 4 = 0
    · rw [if_pos hzero] at h
      simp at h
    rw [if_neg hzero] at h
    by_cases htail : (readU32 d 4).toNat > d.length - cnamResponseHdrSize
    · rw [if_pos htail] at h
      simp at h
    have hpositive : (readU32 d 4).toNat ≠ 0 := by
      intro hnat
      exact hzero (UInt32.toNat_inj.mp hnat)
    exact ⟨not_lt.mp hlen, Nat.one_le_iff_ne_zero.mpr hpositive, not_lt.mp htail⟩
  · intro h
    rw [parseJsonMsg_of_fits resp error h]

theorem parseMsg_of_id (h : d.length = 4) (req : Request) (resp : Response)
    (error : Option ResolveError) :
    parseMsg req d d.length resp error =
      ⟨0, { resp with id := leadingId d, isConfrm := true }, error⟩ := by
  have hconfrm : parseConfrmRespMsg d d.length resp error =
      ⟨0, { resp with id := leadingId d, isConfrm := true }, error⟩ := by
    rw [h]
    rfl
  rw [parseMsg, hconfrm]
  rfl

/-- Behind the length of a confirmation the type of the request decides. -/
theorem parseMsg_of_gt (h : 4 < d.length) (req : Request) (resp : Response)
    (error : Option ResolveError) :
    parseMsg req d d.length resp error =
      if req.type = taggedReqVersion then parseTaggedMsg d d.length resp error
      else if req.type = cnamReqVersion then parseJsonMsg d d.length resp error
      else ⟨-1, resp, error⟩ := by
  have hconfrm : parseConfrmRespMsg d d.length resp error = ⟨-1, resp, error⟩ := if_pos h
  rw [parseMsg, hconfrm]
  rfl

theorem parseMsg_of_lt (h : d.length < 4) (req : Request) (resp : Response)
    (error : Option ResolveError) : (parseMsg req d d.length resp error).ret ≠ 0 := by
  have hsize : cnfrmResponseHdrSize = 4 := rfl
  have hconfrm : parseConfrmRespMsg d d.length resp error = ⟨-1, resp, some .tooSmall⟩ := by
    rw [parseConfrmRespMsg, if_neg (by omega), if_pos (by omega)]
  rw [parseMsg, hconfrm]
  dsimp only
  rw [if_neg (by decide)]
  split
  · intro hret
    have hheader := ((parseTaggedMsg_ret_iff _ _).mp hret).header
    omega
  · split
    · intro hret
      have hheader := ((parseJsonMsg_ret_iff _ _).mp hret).header
      omega
    · simp

end

/-! ## What they accept -/

theorem parseMsg_of_four {d : Bytes} (h : d.length = 4) (req : Request)
    (error : Option ResolveError) :
    parseMsg req d d.length .zero error = ⟨0, confirmation d, error⟩ :=
  parseMsg_of_id h req .zero error

theorem split_taggedHdr {d : Bytes} (h : 7 ≤ d.length) :
    d = d.take 4 ++ [readU8 d 4, readU8 d 5, readU8 d 6] ++ d.drop 7 := by
  match d, h with
  | _ :: _ :: _ :: _ :: _ :: _ :: _ :: _, _ => rfl

theorem split_cnamHdr {d : Bytes} (h : 8 ≤ d.length) :
    d = d.take 4 ++ slice d 4 4 ++ d.drop 8 := by
  match d, h with
  | _ :: _ :: _ :: _ :: _ :: _ :: _ :: _ :: _, _ => rfl

/-- Bytes that carry the lengths of a tagged reply are one. -/
theorem SuccessReply.of_tagged {d : Bytes} (h : TaggedFits d) :
    SuccessReply taggedReqVersion d (taggedReply d .zero) := by
  obtain ⟨hheader, hcode, htotal, hlrn⟩ := h
  have hbyte := (readU8 d 5).toNat_lt
  have hbyte₅ : readU8 d 5 = UInt8.ofNat (readU8 d 5).toNat := UInt8.ofNat_toNat.symm
  have hbyte₆ : readU8 d 6 = UInt8.ofNat (readU8 d 6).toNat := UInt8.ofNat_toNat.symm
  rw [taggedReply]
  generalize (readU8 d 5).toNat = total at *
  generalize (readU8 d 6).toNat = lrn at *
  have hlenLrn : (slice d 7 lrn).length = lrn := length_slice (by omega)
  have hlenTag : (slice d (7 + lrn) (total - lrn)).length = total - lrn := length_slice (by omega)
  have hsum : (slice d 7 lrn).length + (slice d (7 + lrn) (total - lrn)).length = total := by
    omega
  have hbody : d.drop 7 =
      slice d 7 lrn ++ (slice d (7 + lrn) (total - lrn) ++ d.drop (7 + total)) := by
    have hdrop : d.drop (7 + total) = (d.drop (7 + lrn)).drop (total - lrn) := by
      rw [List.drop_drop]
      congr 1
      omega
    rw [slice, slice, hdrop, List.take_append_drop, ← List.drop_drop, List.take_append_drop]
  -- header, number, tag and the bytes behind them put the datagram together again
  have hd : encodeLE 4 (leadingId d).toNat ++ [0, UInt8.ofNat total, UInt8.ofNat lrn] ++
      slice d 7 lrn ++ slice d (7 + lrn) (total - lrn) ++ d.drop (7 + total) = d := by
    rw [List.append_assoc _ _ (d.drop _), List.append_assoc _ (slice d 7 lrn), ← hbody,
      encodeLE_leadingId (by omega), ← hcode, ← hbyte₅, ← hbyte₆]
    exact (split_taggedHdr hheader).symm
  have hreply := SuccessReply.tagged (leadingId d) (slice d 7 lrn)
    (slice d (7 + lrn) (total - lrn)) (d.drop (7 + total)) (by omega)
  rw [hsum, hlenLrn, hd] at hreply
  -- the lengths leave no tag when its bytes are none
  have hval₂ : (if slice d (7 + lrn) (total - lrn) = [] then none
        else some (slice d (7 + lrn) (total - lrn))) =
      if lrn = total then none else some (slice d (7 + lrn) (total - lrn)) := by
    have hempty : slice d (7 + lrn) (total - lrn) = [] ↔ lrn = total := by
      rw [← List.length_eq_zero_iff, hlenTag]
      omega
    simp only [hempty]
  rwa [hval₂] at hreply

/-- Bytes that carry the length of a CNAM reply are one. -/
theorem SuccessReply.of_cnam {d : Bytes} (h : CnamFits d) :
    SuccessReply cnamReqVersion d (cnamReply d .zero) := by
  obtain ⟨hheader, hpositive, hsize⟩ := h
  have hlenJson : (slice d 8 (readU32 d 4).toNat).length = (readU32 d 4).toNat :=
    length_slice (by omega)
  have hbody : d.drop 8 =
      slice d 8 (readU32 d 4).toNat ++ d.drop (8 + (readU32 d 4).toNat) := by
    rw [slice, ← List.drop_drop, List.take_append_drop]
  have hd : encodeLE 4 (leadingId d).toNat ++ encodeLE 4 (readU32 d 4).toNat ++
      slice d 8 (readU32 d 4).toNat ++ d.drop (8 + (readU32 d 4).toNat) = d := by
    rw [List.append_assoc _ _ (d.drop _), ← hbody, encodeLE_leadingId (by omega),
      encodeLE_readU32 (by omega)]
    exact (split_cnamHdr hheader).symm
  have hreply := SuccessReply.cnam (leadingId d) (slice d 8 (readU32 d 4).toNat)
    (d.drop (8 + (readU32 d 4).toNat)) (by omega) (by rw [hlenJson]; exact (readU32 d 4).toNat_lt)
  rwa [hlenJson, hd] at hreply

theorem parseTaggedMsg_sound {d : Bytes} {resp : Response} {error error' : Option ResolveError}
    (h : parseTaggedMsg d d.length .zero error = ⟨0, resp, error'⟩) :
    SuccessReply taggedReqVersion d resp ∧ error' = error := by
  have hfits : TaggedFits d := by
    rw [← parseTaggedMsg_ret_iff .zero error, h]
  rw [parseTaggedMsg_of_fits .zero error hfits, Parsed.mk.injEq] at h
  obtain ⟨-, rfl, rfl⟩ := h
  exact ⟨SuccessReply.of_tagged hfits, rfl⟩

theorem parseJsonMsg_sound {d : Bytes} {resp : Response} {error error' : Option ResolveError}
    (h : parseJsonMsg d d.length .zero error = ⟨0, resp, error'⟩) :
    SuccessReply cnamReqVersion d resp ∧ error' = error := by
  have hfits : CnamFits d := by
    rw [← parseJsonMsg_ret_iff .zero error, h]
  rw [parseJsonMsg_of_fits .zero error hfits, Parsed.mk.injEq] at h
  obtain ⟨-, rfl, rfl⟩ := h
  exact ⟨SuccessReply.of_cnam hfits, rfl⟩

/-- A datagram that `parse_msg` accepts, and that is no confirmation, is laid out as the reply it
fills in. -/
theorem parseMsg_sound {req : Request} {d : Bytes} {resp : Response}
    {error error' : Option ResolveError} (hlen : 4 < d.length)
    (h : parseMsg req d d.length .zero error = ⟨0, resp, error'⟩) :
    SuccessReply req.type d resp ∧ error' = error := by
  rw [parseMsg_of_gt hlen] at h
  by_cases htagged : req.type = taggedReqVersion
  · rw [if_pos htagged] at h
    rw [htagged]
    exact parseTaggedMsg_sound h
  · rw [if_neg htagged] at h
    by_cases hcnam : req.type = cnamReqVersion
    · rw [if_pos hcnam] at h
      rw [hcnam]
      exact parseJsonMsg_sound h
    · simp [if_neg hcnam] at h

theorem parseTaggedMsg_complete (id : UInt32) (lrn tag rest : Bytes)
    (h : lrn.length + tag.length ≤ 255) (resp : Response) (error : Option ResolveError) :
    let d := encodeLE 4 id.toNat ++ [0, UInt8.ofNat (lrn.length + tag.length),
      UInt8.ofNat lrn.length] ++ lrn ++ tag ++ rest
    parseTaggedMsg d d.length resp error =
      ⟨0, { resp with id := id, val1 := some lrn, val2 := if tag = [] then none else some tag },
        error⟩ := by
  intro d
  have hid : leadingId d = id := by
    simp only [d, List.append_assoc]
    exact leadingId_append _ _
  have hcode : readU8 d 4 = 0 := rfl
  have htotal : (readU8 d 5).toNat = lrn.length + tag.length := by
    show (UInt8.ofNat (lrn.length + tag.length)).toNat = _
    rw [UInt8.toNat_ofNat']
    omega
  have hlrn : (readU8 d 6).toNat = lrn.length := by
    show (UInt8.ofNat lrn.length).toNat = _
    rw [UInt8.toNat_ofNat']
    omega
  have hlen : d.length = 7 + lrn.length + tag.length + rest.length := by
    simp only [d, List.length_append, length_encodeLE, List.length_cons, List.length_nil]
  have hfits : TaggedFits d := ⟨by omega, hcode, by omega, by omega⟩
  have hhdr : (encodeLE 4 id.toNat ++ [0, UInt8.ofNat (lrn.length + tag.length),
      UInt8.ofNat lrn.length]).length = 7 := by
    rw [List.length_append, length_encodeLE]
    rfl
  -- the parser's offsets cut the parts out again
  have hval₁ : slice d 7 lrn.length = lrn := by
    have hslice := slice_append (encodeLE 4 id.toNat ++
      [0, UInt8.ofNat (lrn.length + tag.length), UInt8.ofNat lrn.length]) lrn (tag ++ rest)
    rw [hhdr] at hslice
    simpa only [d, List.append_assoc] using hslice
  have hval₂ : slice d (7 + lrn.length) tag.length = tag := by
    have hslice := slice_append (encodeLE 4 id.toNat ++
      [0, UInt8.ofNat (lrn.length + tag.length), UInt8.ofNat lrn.length] ++ lrn) tag rest
    rw [List.length_append, hhdr] at hslice
    simpa only [d, List.append_assoc] using hslice
  have hempty : lrn.length = lrn.length + tag.length ↔ tag = [] := by
    rw [← List.length_eq_zero_iff]
    omega
  rw [parseTaggedMsg_of_fits resp error hfits, taggedReply]
  simp only [hid, htotal, hlrn, hval₁, hempty, Nat.add_sub_cancel_left, hval₂]

theorem parseJsonMsg_complete (id : UInt32) (json rest : Bytes) (hpos : 0 < json.length)
    (hlt : json.length < 2 ^ 32) (resp : Response) (error : Option ResolveError) :
    let d := encodeLE 4 id.toNat ++ encodeLE 4 json.length ++ json ++ rest
    parseJsonMsg d d.length resp error = ⟨0, { resp with id := id, val := some json }, error⟩ := by
  intro d
  have hid : leadingId d = id := by
    simp only [d, List.append_assoc]
    exact leadingId_append _ _
  have hfield : slice d 4 4 = encodeLE 4 json.length := by
    have hslice := slice_append (encodeLE 4 id.toNat) (encodeLE 4 json.length) (json ++ rest)
    rw [length_encodeLE, length_encodeLE] at hslice
    simpa only [d, List.append_assoc] using hslice
  have hclaimed : (readU32 d 4).toNat = json.length := by
    rw [readU32, hfield, decodeLE_encodeLE_of_lt hlt, UInt32.toNat_ofNat_of_lt' hlt]
  have hlen : d.length = 8 + json.length + rest.length := by
    simp only [d, List.length_append, length_encodeLE]
  have hfits : CnamFits d := ⟨by omega, by omega, by omega⟩
  have hval : slice d 8 json.length = json := by
    have hslice := slice_append (encodeLE 4 id.toNat ++ encodeLE 4 json.length) json rest
    rwa [List.length_append, length_encodeLE, length_encodeLE] at hslice
  rw [parseJsonMsg_of_fits resp error hfits, cnamReply, hid, hclaimed, hval]

/-- `parse_msg` accepts every reply and fills in what it says. -/
theorem parseMsg_complete {req : Request} {d : Bytes} {resp : Response}
    (h : SuccessReply req.type d resp) (error : Option ResolveError) :
    parseMsg req d d.length .zero error = ⟨0, resp, error⟩ := by
  rw [parseMsg_of_gt h.length_gt]
  generalize htype : req.type = type at h
  cases h with
  | tagged id lrn tag rest hlen =>
    rw [if_pos rfl]
    exact parseTaggedMsg_complete id lrn tag rest hlen .zero error
  | cnam id json rest hpos hlt =>
    rw [if_neg (by decide), if_pos rfl]
    exact parseJsonMsg_complete id json rest hpos hlt .zero error

/-- A datagram that `parse_msg` accepts for a request of the given type. -/
def Acceptable (type : UInt8) (d : Bytes) : Prop :=
  d.length = 4 ∨ ∃ resp, SuccessReply type d resp

theorem parseMsg_ret_eq_zero_iff {req : Request} {d : Bytes} {error : Option ResolveError} :
    (parseMsg req d d.length .zero error).ret = 0 ↔ Acceptable req.type d := by
  constructor
  · intro h
    rcases lt_trichotomy d.length 4 with hlt | heq | hgt
    · exact absurd h (parseMsg_of_lt hlt req .zero error)
    · exact .inl heq
    · rcases hp : parseMsg req d d.length .zero error with ⟨ret, resp, error'⟩
      rw [hp] at h
      obtain rfl : ret = 0 := h
      exact .inr ⟨resp, (parseMsg_sound hgt hp).1⟩
  · rintro (hfour | ⟨resp, hreply⟩)
    · rw [parseMsg_of_four hfour]
    · rw [parseMsg_complete hreply]

/-- A datagram says one thing. -/
theorem SuccessReply.unique {type : UInt8} {d : Bytes} {resp resp' : Response}
    (h : SuccessReply type d resp) (h' : SuccessReply type d resp') : resp = resp' := by
  have hparse : ∀ r, SuccessReply type d r →
      parseMsg ⟨0, type, 0, []⟩ d d.length .zero none = ⟨0, r, none⟩ := by
    intro r hr
    exact parseMsg_complete hr none
  have heq := (hparse resp h).symm.trans (hparse resp' h')
  exact (Parsed.mk.inj heq).2.1

end YetiPgExt.Lnp
