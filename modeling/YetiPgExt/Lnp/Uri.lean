import YetiPgExt.Library.CString

/-!
# `parseAddr`

The endpoint URI parser of `uri_parser.c`. The fields of `UriComponents` are buffers of fixed
size; a store outside them leaves `parseAddr` without a result.
-/

set_option autoImplicit false

namespace YetiPgExt.Lnp

open YetiPgExt.Library

/-- `SOCKADDR_SIZE` -/
def sockaddrSize : Nat := 128

/-- `PROTOCOL_SIZE` -/
def protocolSize : Nat := 16

/-- `HOST_SIZE` -/
def hostSize : Nat := 64

structure UriComponents where
  proto : Bytes
  host : Bytes
  port : Int
  deriving DecidableEq

/-- `memset(out, 0, sizeof(UriComponents))` -/
def UriComponents.zero : UriComponents where
  proto := zeros (protocolSize + 1)
  host := zeros (hostSize + 1)
  port := 0

/-- `"://"` -/
def schemeDelim : Bytes := [58, 47, 47]

/-- `':'` -/
def portDelim : UInt8 := 58

/-- Parse the protocol; the rest of the address starts behind its delimiter. -/
def parseProto (addr : Bytes) (out : UriComponents) : Option (UriComponents × Bytes) :=
  match memmem schemeDelim addr with
  -- without a protocol the field stays zero
  | none => some (out, addr)
  | some compSz => do
    let proto ←
      -- a protocol that is empty or too long is dropped without an error
      if 0 < compSz ∧ compSz ≤ protocolSize then strncpy out.proto addr compSz
      else some out.proto
    return ({ out with proto := proto }, addr.drop (compSz + schemeDelim.length))

/-- Copy a host of `compSz` bytes if it fits. -/
def copyHost (addr : Bytes) (compSz : Nat) (host : Bytes) : Option Bytes :=
  if 0 < compSz ∧ compSz ≤ hostSize then strncpy host addr compSz else some host

/-- Parse the host and the port. -/
def parseHost (addr : Bytes) (out : UriComponents) : Option UriComponents :=
  match memchr portDelim addr with
  | some compSz => do
    let host ← copyHost addr compSz out.host
    return { out with host := host, port := atoi (addr.drop (compSz + 1)) }
  | none => do
    let host ← copyHost addr addr.length out.host
    -- the second copy has no bound
    let host ← strncpy host addr addr.length
    return { out with host := host }

/-- `parseAddr` of a string: its return value and the components it leaves. -/
def parseAddr (addr : Bytes) (out : UriComponents) : Option (Int × UriComponents) :=
  if addr.length = 0 ∨ addr.length ≥ sockaddrSize then some (-1, out)
  else do
    let (out, addr) ← parseProto addr .zero
    let out ← parseHost addr out
    return (0, out)

end YetiPgExt.Lnp
