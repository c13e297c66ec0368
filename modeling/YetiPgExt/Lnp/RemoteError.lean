import YetiPgExt.Library.Decimal
import YetiPgExt.Lnp.ParseReply

/-!
# Refusals

A refusal of a tagged request has no byte for the length of the number: its header is six bytes,
one shorter than that of an answer. `parse_tagged_msg` knows the shorter header when it looks at
the length of the message, but asks for seven bytes before it looks at the code. A refusal with a
message is reported as one (`parseTaggedMsg_refusal`); one without is only six bytes long and is
reported as too small, so `reportsRemote_iff` says that the message must not be empty.
-/

set_option autoImplicit false

namespace YetiPgExt.Lnp

open YetiPgExt.Library

/-- A refusal: the id, the code, the length of the message and the message. -/
def refusal (id : UInt32) (code : UInt8) (m : Bytes) : Bytes :=
  encodeLE 4 id.toNat ++ [code, UInt8.ofNat m.length] ++ m

/-- The error that reports a refusal. -/
def remoteError (code : UInt8) (m : Bytes) : ResolveError :=
  if m = [] then .remote code else .remoteText code m

/-- The parser reports a refusal, and its text is the code and the bytes of the message. -/
structure ReportsRemote (code : UInt8) (m : Bytes) (parsed : Parsed) : Prop where
  ret : parsed.ret = 1
  error : parsed.error = some (remoteError code m)
  text : ∀ strerror, (remoteError code m).text strerror =
    ascii "remote: " ++ decimal code.toNat ++ if m = [] then [] else ascii " <" ++ m ++ ascii ">"

section

variable {code : UInt8} {m : Bytes}

theorem length_refusal (id : UInt32) : (refusal id code m).length = 6 + m.length := by
  simp only [refusal, List.length_append, length_encodeLE, List.length_cons, List.length_nil]

/-- The text of a refusal fits into the error buffer. -/
theorem text_remoteError (hm : 0 ∉ m) (hlen : m.length ≤ 255) (strerror : Int → Bytes) :
    (remoteError code m).text strerror = ascii "remote: " ++ decimal code.toNat ++
      if m = [] then [] else ascii " <" ++ m ++ ascii ">" := by
  have hdecimal : (decimal code.toNat).length ≤ 3 :=
    length_printNat_le (by omega) (lt_trans code.toNat_lt (by norm_num))
  have hremote : (ascii "remote: ").length = 8 := rfl
  have hopen : (ascii " <").length = 2 := rfl
  have hclose : (ascii ">").length = 1 := rfl
  have hsize : errorSz = 2048 := rfl
  unfold remoteError
  by_cases hempty : m = []
  · rw [if_pos hempty, if_pos hempty, List.append_nil]
    apply List.take_of_length_le
    rw [ResolveError.format, List.length_append]
    omega
  · have htake : m.takeWhile (fun b => decide (b ≠ 0)) = m := by
      have h := takeWhile_append_of_noZero hm []
      rwa [List.append_nil, List.takeWhile_nil, List.append_nil] at h
    have hformat : (ResolveError.remoteText code m).format strerror =
        ascii "remote: " ++ decimal code.toNat ++ (ascii " <" ++ m ++ ascii ">") := by
      rw [ResolveError.format, htake]
      simp only [List.append_assoc]
    rw [if_neg hempty, if_neg hempty, ResolveError.text, hformat]
    apply List.take_of_length_le
    simp only [List.length_append]
    omega

variable (id : UInt32) (resp : Response) (error : Option ResolveError)

/-- A refusal with a message is reported with its code and its message. -/
theorem parseTaggedMsg_refusal (hcode : code ≠ taggedResponseCodeSuccess) (hlen : m.length ≤ 255)
    (hm : m ≠ []) :
    (parseTaggedMsg (refusal id code m) (refusal id code m).length resp error).ret = 1 ∧
      (parseTaggedMsg (refusal id code m) (refusal id code m).length resp error).error =
        some (.remoteText code m) := by
  have hpos : 0 < m.length := List.length_pos_iff.mpr hm
  have hbyte₄ : readU8 (refusal id code m) 4 = code := rfl
  have hbyte₅ : (readU8 (refusal id code m) 5).toNat = m.length := by
    have hread : readU8 (refusal id code m) 5 = UInt8.ofNat m.length := rfl
    rw [hread, UInt8.toNat_ofNat']
    exact Nat.mod_eq_of_lt (by omega)
  have hslice : slice (refusal id code m) taggedErrResponseHdrSize m.length = m := by
    have h := slice_append (encodeLE 4 id.toNat ++ [code, UInt8.ofNat m.length]) m []
    rwa [List.append_nil] at h
  have hsize : taggedHdrSize = 7 := rfl
  have herr : taggedErrResponseHdrSize = 6 := rfl
  rw [parseTaggedMsg, length_refusal, if_neg (by omega), hbyte₄, hbyte₅, if_pos hcode.symm,
    if_neg (by omega), if_pos (by omega), hslice]
  exact ⟨rfl, rfl⟩

/-- A refusal without a message is too small for the first check. -/
theorem parseTaggedMsg_bareRefusal :
    parseTaggedMsg (refusal id code []) (refusal id code []).length resp error =
      ⟨-1, resp, some .tooSmall⟩ := by
  rw [parseTaggedMsg, length_refusal, if_pos (by decide)]

end

/-- A refusal in the message buffer, with any bytes behind it, is reported as one exactly if it has
a message. -/
theorem reportsRemote_iff (id : UInt32) {code : UInt8} {m : Bytes} (rest : Bytes)
    (resp : Response) (error : Option ResolveError) (hcode : code ≠ taggedResponseCodeSuccess)
    (hm : 0 ∉ m) (hlen : m.length ≤ 255) :
    ReportsRemote code m
        (parseTaggedMsg (refusal id code m ++ rest) (refusal id code m).length resp error) ↔
      m ≠ [] := by
  rw [parseTaggedMsg_append]
  constructor
  · rintro ⟨hret, -, -⟩ rfl
    rw [parseTaggedMsg_bareRefusal] at hret
    cases hret
  · intro hne
    obtain ⟨hret, herror⟩ := parseTaggedMsg_refusal id resp error hcode hlen hne
    refine ⟨hret, ?_, text_remoteError hm hlen⟩
    rw [herror, remoteError, if_neg hne]

/-- The code 3 with the message `no`. -/
theorem reportsRemote_iff_no :
    ReportsRemote 3 (ascii "no") (parseTaggedMsg (refusal 7 3 (ascii "no") ++ [])
        (refusal 7 3 (ascii "no")).length .zero none) ↔ ascii "no" ≠ [] :=
  reportsRemote_iff 7 [] .zero none (by decide) (by decide) (by decide)

/-- The refusal of six bytes with the code 3 is reported as a response that is too small. -/
theorem not_reportsRemote : ¬ ∀ (id : UInt32) (code : UInt8) (m rest : Bytes) (resp : Response)
    (error : Option ResolveError), code ≠ taggedResponseCodeSuccess → 0 ∉ m → m.length ≤ 255 →
    ReportsRemote code m
      (parseTaggedMsg (refusal id code m ++ rest) (refusal id code m).length resp error) := by
  intro h
  have hret := (h 7 3 [] [] .zero none (by decide) (by decide) (by decide)).ret
  rw [parseTaggedMsg_append, parseTaggedMsg_bareRefusal] at hret
  cases hret

end YetiPgExt.Lnp
