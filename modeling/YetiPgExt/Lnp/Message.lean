import YetiPgExt.Lnp.Endpoints

/-!
# Requests and replies on the wire

`prepare_msg` writes a request into the message buffer; `parse_msg` reads a reply out of it. The
functions are those of `resolver.c`; what the bytes mean is said independently in
`YetiPgExt.Lnp.Layout`.

The buffer is passed with the number of bytes in it. `error` is the string that the caller's
pointer points to, `none` for `NULL`.
-/

set_option autoImplicit false

namespace YetiPgExt.Lnp

open YetiPgExt.Library

/-- `TAGGED_REQ_VERSION` -/
def taggedReqVersion : UInt8 := 0

/-- `CNAM_REQ_VERSION` -/
def cnamReqVersion : UInt8 := 1

/-- `CNFRM_RESPONSE_HDR_SIZE` -/
def cnfrmResponseHdrSize : Nat := 4

/-- `TAGGED_HDR_SIZE` -/
def taggedHdrSize : Nat := 7

/-- `TAGGED_ERR_RESPONSE_HDR_SIZE` -/
def taggedErrResponseHdrSize : Nat := 6

/-- `TAGGED_RESPONSE_CODE_SUCCESS` -/
def taggedResponseCodeSuccess : UInt8 := 0

/-- `CNAM_HDR_SIZE` -/
def cnamHdrSize : Nat := 10

/-- `CNAM_RESPONSE_HDR_SIZE` -/
def cnamResponseHdrSize : Nat := 8

/-- `request`; `data` holds the bytes of the text behind its header. -/
structure Request where
  id : UInt32
  type : UInt8
  dbId : Int32
  data : Bytes

/-- `response`; the strings are given without their terminating zero. -/
structure Response where
  id : UInt32
  isConfrm : Bool
  val : Option Bytes
  val1 : Option Bytes
  val2 : Option Bytes
  deriving DecidableEq

/-- `memset(resp, 0, sizeof(response))` -/
def Response.zero : Response where
  id := 0
  isConfrm := false
  val := none
  val1 := none
  val2 := none

/-! ## Errors -/

/-- The errors that `SET_ERROR` reports, with the arguments of their format strings. -/
inductive ResolveError where
  | noEndpoints
  | tooLong
  | sendInvalidSocket
  | sendErrno (errno : Int)
  | recvInvalidSocket
  | recvErrno (errno : Int)
  | rttPollFailed (errno : Int) (reqId : UInt32)
  | rttExpired (reqId : UInt32)
  | cantReceive (reqId : UInt32)
  | failedToGet (reqId : UInt32)
  | tooSmall
  | emptyReply
  | jsonTail (claimed : UInt32) (tail : Nat)
  | taggedTail (claimed tail : Nat)
  | malformedLrn (lrnLength dataSize : Nat)
  | remote (code : UInt8)
  | remoteText (code : UInt8) (data : Bytes)
  deriving DecidableEq

/-- `ERROR_SZ` -/
def errorSz : Nat := msgSz

/-- A number as `%d`, `%u` and `%ld` print it. -/
def decimal (n : Int) : Bytes := ascii (toString n)

/-- The formatted text. `strerror` is the C library's. -/
def ResolveError.format (strerror : Int → Bytes) : ResolveError → Bytes
  | .noEndpoints => ascii "local: no configured endpoints"
  | .tooLong => ascii "message is to long"
  | .sendInvalidSocket => ascii "transport: send_data: error: invalid socket_fd"
  | .sendErrno errno => ascii "transport: send_data: errno: " ++ strerror errno
  | .recvInvalidSocket => ascii "transport: recv_data: error: invalid socket_fd"
  | .recvErrno errno => ascii "transport: recv_data: errno: " ++ strerror errno
  | .rttPollFailed errno reqId =>
    ascii "local: rtt poll failed with errno:" ++ decimal errno ++ ascii ", req_id:" ++
      decimal reqId.toNat
  | .rttExpired reqId => ascii "local: rtt waiting expired. req_id:" ++ decimal reqId.toNat
  | .cantReceive reqId => ascii "can't receive response for req_id:" ++ decimal reqId.toNat
  | .failedToGet reqId =>
    ascii "local: failed to get response for req_id:" ++ decimal reqId.toNat
  | .tooSmall => ascii "local: unexpected response (response too small)"
  | .emptyReply => ascii "empty reply"
  | .jsonTail claimed tail =>
    -- the claimed length is printed as a signed number
    ascii "unexpected response (claimed response length " ++
      decimal ((claimed.toNat : Int).bmod (2 ^ 32)) ++ ascii " but have only " ++ decimal tail ++
      ascii " bytes at the tail)"
  | .taggedTail claimed tail =>
    ascii "local: unexpected response (claimed response length " ++ decimal claimed ++
      ascii " but have only " ++ decimal tail ++ ascii " bytes at the tail)"
  | .malformedLrn lrnLength dataSize =>
    ascii "local: malformed response (claimed lrn_length " ++ decimal lrnLength ++
      ascii " but total_length is " ++ decimal dataSize ++ ascii " bytes only)"
  | .remote code => ascii "remote: " ++ decimal code.toNat
  | .remoteText code data =>
    -- a zero byte ends what `%.*s` prints
    ascii "remote: " ++ decimal code.toNat ++ ascii " <" ++ data.takeWhile (· ≠ 0) ++ ascii ">"

/-- What `snprintf` leaves in the error buffer. -/
def ResolveError.text (strerror : Int → Bytes) (e : ResolveError) : Bytes :=
  (e.format strerror).take (errorSz - 1)

/-! ## Requests -/

/-- The two request encoders: they differ in the size of the header and the width of the length
field at its end. -/
def prepareWith (hdrSize lengthWidth : Nat) (req : Request) (st : ResolverState)
    (error : Option ResolveError) : Int × ResolverState × Option ResolveError :=
  let dataSize := req.data.length
  let st := { st with msgLen := dataSize + hdrSize }
  if st.msgLen > msgSz then (-1, st, some .tooLong)
  else
    let msg := zeros msgSz
    let msg := store msg 0 (encodeLE 4 req.id.toNat)
    -- `(uint8_t)req->db_id`: the low byte of the number
    let msg := store msg 4 [UInt8.ofInt req.dbId.toInt]
    let msg := store msg 5 [req.type]
    let msg := store msg 6 (encodeLE lengthWidth dataSize)
    let msg := store msg hdrSize req.data
    (0, { st with msg := msg }, error)

/-- `prepare_tagged_msg` -/
def prepareTaggedMsg := prepareWith taggedHdrSize 1

/-- `prepare_json_msg` -/
def prepareJsonMsg := prepareWith cnamHdrSize 4

/-- `prepare_msg` -/
def prepareMsg (req : Request) (st : ResolverState) (error : Option ResolveError) :
    Int × ResolverState × Option ResolveError :=
  if req.type = taggedReqVersion then prepareTaggedMsg req st error
  else if req.type = cnamReqVersion then prepareJsonMsg req st error
  else (-1, st, error)

/-! ## Replies -/

/-- `*(uint32_t *)(msg+off)` -/
def readU32 (msg : Bytes) (off : Nat) : UInt32 := UInt32.ofNat (decodeLE (slice msg off 4))

/-- `*(uint8_t *)(msg+off)` -/
def readU8 (msg : Bytes) (off : Nat) : UInt8 := msg.getD off 0

/-- How a parser returns: its return value, the response and the error. -/
structure Parsed where
  ret : Int
  resp : Response
  error : Option ResolveError
  deriving DecidableEq

/-- `parse_confrm_resp_msg` -/
def parseConfrmRespMsg (msg : Bytes) (msgLen : Nat) (resp : Response)
    (error : Option ResolveError) : Parsed :=
  if msgLen > cnfrmResponseHdrSize then ⟨-1, resp, error⟩
  else if msgLen < cnfrmResponseHdrSize then ⟨-1, resp, some .tooSmall⟩
  else ⟨0, { resp with id := readU32 msg 0, isConfrm := true }, error⟩

/-- `parse_json_msg`; `palloc` does not return `NULL`. -/
def parseJsonMsg (msg : Bytes) (msgLen : Nat) (resp : Response) (error : Option ResolveError) :
    Parsed :=
  if msgLen < cnamResponseHdrSize then ⟨-1, resp, some .tooSmall⟩
  else
    let resp := { resp with id := readU32 msg 0 }
    let dataSize := readU32 msg 4
    -- an empty answer counts as an error here, unlike in a tagged reply
    if dataSize = 0 then ⟨-1, resp, some .emptyReply⟩
    else if dataSize.toNat > msgLen - cnamResponseHdrSize then
      ⟨-1, resp, some (.jsonTail dataSize (msgLen - cnamResponseHdrSize))⟩
    else ⟨0, { resp with val := some (slice msg cnamResponseHdrSize dataSize.toNat) }, error⟩

/-- `parse_tagged_msg` -/
def parseTaggedMsg (msg : Bytes) (msgLen : Nat) (resp : Response) (error : Option ResolveError) :
    Parsed :=
  if msgLen < taggedHdrSize then ⟨-1, resp, some .tooSmall⟩
  else
    let resp := { resp with id := readU32 msg 0 }
    let respCode := readU8 msg 4
    let dataSize := (readU8 msg 5).toNat
    if taggedResponseCodeSuccess ≠ respCode then
      -- a refusal has no byte for the length of the number, so its header is one shorter
      if dataSize > msgLen - taggedErrResponseHdrSize then
        ⟨-1, resp, some (.taggedTail dataSize (msgLen - taggedErrResponseHdrSize))⟩
      else if dataSize ≠ 0 then
        ⟨1, resp, some (.remoteText respCode (slice msg taggedErrResponseHdrSize dataSize))⟩
      else ⟨1, resp, some (.remote respCode)⟩
    else if dataSize > msgLen - taggedHdrSize then
      ⟨-1, resp, some (.taggedTail dataSize (msgLen - taggedHdrSize))⟩
    else
      let lrnLength := (readU8 msg 6).toNat
      if lrnLength > dataSize then ⟨-1, resp, some (.malformedLrn lrnLength dataSize)⟩
      else
        let tagLength := dataSize - lrnLength
        ⟨0, { resp with
          val1 := some (slice msg taggedHdrSize lrnLength)
          val2 :=
            if tagLength > 0 then some (slice msg (taggedHdrSize + lrnLength) tagLength)
            else none }, error⟩

/-- `parse_msg` -/
def parseMsg (req : Request) (msg : Bytes) (msgLen : Nat) (resp : Response)
    (error : Option ResolveError) : Parsed :=
  let confrm := parseConfrmRespMsg msg msgLen resp error
  -- its error string, if it set one, is handed on to the parser of the type
  if confrm.ret = 0 then confrm
  else if req.type = taggedReqVersion then parseTaggedMsg msg msgLen confrm.resp confrm.error
  else if req.type = cnamReqVersion then parseJsonMsg msg msgLen confrm.resp confrm.error
  else ⟨-1, confrm.resp, confrm.error⟩

end YetiPgExt.Lnp
