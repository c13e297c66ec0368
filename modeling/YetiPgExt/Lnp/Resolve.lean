import YetiPgExt.Lnp.Layout

/-!
# `resolve`

The attempt and receive loops of `resolver.c` with the transport under them. The network and the
C library's `rand` are a parameter (`Net`) over an arbitrary world, so a statement about every
`Net` is one about every sequence of results the system calls can give. A call keeps a log of what
it does to the socket and of the stores behind a received message (`Event`).

The receive loop has no bound of its own, so it takes fuel; `Outcome.running` says that the fuel
ran out.
-/

set_option autoImplicit false

namespace YetiPgExt.Lnp

open YetiPgExt.Library

/-! ## The environment -/

/-- How a system call ends. -/
inductive SysResult (α : Type) where
  | ok (a : α)
  | fail (errno : Int)
  deriving DecidableEq

/-- The environment of the resolver. A call that is interrupted is repeated by the source, so the
results are those after the last repetition. -/
structure Net (ω : Type) where
  rand : ω → UInt32 × ω
  sendto : ω → Endpoint → Bytes → SysResult Nat × ω
  poll : ω → SysResult Nat × ω
  recvfrom : ω → Nat → SysResult Bytes × ω

/-- What a call of `resolve` does to the socket, and its store of the terminating zero. -/
inductive Event where
  | sent (endp : Endpoint) (buf : Bytes) (result : SysResult Nat)
  | polled (result : SysResult Nat)
  | received (d : Bytes)
  | recvFailed (errno : Int)
  | terminated (index : Nat)
  deriving DecidableEq

/-- How `resolve` ends. `raised` is an exception with the arguments of its message; `crashed` is a
division by zero. -/
inductive Outcome where
  | returned (ret : Int)
  | raised (reqId : UInt32) (cause : Option ResolveError)
  | crashed
  | running
  deriving DecidableEq

/-- The state of a call: the globals, the request and the response, the error string, the world
and the log. -/
structure Ctx (ω : Type) where
  st : ResolverState
  req : Request
  resp : Response
  error : Option ResolveError
  world : ω
  trace : List Event

/-! ## Logging -/

inductive LogLevel where
  | debug1
  | info
  | warning
  | error
  deriving DecidableEq

/-- `elog` returns below `ERROR` and raises an exception from it on. -/
def LogLevel.raises : LogLevel → Bool
  | .error => true
  | _ => false

/-- The level of the macro `err`. -/
def errLevel : LogLevel := .error

variable {ω : Type}

/-! ## The transport -/

/-- `gen_request_id`: the counter, started by `rand` as long as it is zero. -/
def genRequestId (net : Net ω) (reqId : UInt32) (world : ω) : UInt32 × ω :=
  if reqId = 0 then net.rand world else (reqId + 1, world)

/-- `__tr_send_data` of the message in the buffer. -/
def sendData (net : Net ω) (endp : Endpoint) (c : Ctx ω) : Int × Ctx ω :=
  if c.st.socketFd < 0 then (-1, { c with error := some .sendInvalidSocket })
  else
    let buf := c.st.msg.take c.st.msgLen
    let (result, world) := net.sendto c.world endp buf
    let c := { c with world := world, trace := c.trace ++ [.sent endp buf result] }
    match result with
    | .ok n => (n, c)
    | .fail errno => (-1, if errno = 0 then c else { c with error := some (.sendErrno errno) })

/-- `__tr_recv_data` into the message buffer. -/
def recvData (net : Net ω) (c : Ctx ω) : Int × Ctx ω :=
  if c.st.socketFd < 0 then (-1, { c with error := some .recvInvalidSocket })
  else
    let (result, world) := net.recvfrom c.world msgSz
    match result with
    | .ok d =>
      -- a longer datagram is cut off
      let d := d.take msgSz
      (d.length, { c with
        st := { c.st with msg := store c.st.msg 0 d }
        world := world
        trace := c.trace ++ [.received d] })
    | .fail errno =>
      (-1, { c with
        error := if errno = 0 then c.error else some (.recvErrno errno)
        world := world
        trace := c.trace ++ [.recvFailed errno] })

/-! ## One attempt -/

/-- How an attempt ends: `resolve` is left, the socket is ready, or the loop goes on with another
endpoint. -/
inductive AttemptEnd where
  | stop (o : Outcome)
  | ready
  | next (endp : Option Endpoint)

/-- `endp = get_next_endpoint(); continue;` -/
def failover (c : Ctx ω) : AttemptEnd × Ctx ω :=
  match getNextEndpoint c.st with
  | none => (.stop .crashed, c)
  | some (endp, st) => (.next endp, { c with st := st })

/-- Wait for a reply to the request that was sent. -/
def waitReply (net : Net ω) (c : Ctx ω) : AttemptEnd × Ctx ω :=
  let (result, world) := net.poll c.world
  let c := { c with world := world, trace := c.trace ++ [Event.polled result] }
  match result with
  | .fail errno => failover { c with error := some (.rttPollFailed errno c.req.id) }
  | .ok 0 => failover { c with error := some (.rttExpired c.req.id) }
  | .ok _ => (.ready, { c with error := none })

/-- The body of the loop over the endpoints, up to the receive loop. -/
def attempt (net : Net ω) (endp : Endpoint) (c : Ctx ω) : AttemptEnd × Ctx ω :=
  let (id, world) := genRequestId net c.st.reqId c.world
  let c := { c with
    st := { c.st with reqId := id }
    req := { c.req with id := id }
    world := world }
  let (ret, st, error) := prepareMsg c.req c.st c.error
  let c := { c with st := st, error := error }
  if ret ≠ 0 then (.stop (.returned (-1)), c)
  else
    let (n, c) := sendData net endp c
    -- the report of a failed or short send is an `err`, so what follows it is not reached
    if n < 0 ∨ n ≠ c.st.msgLen then
      if errLevel.raises then (.stop (.raised c.req.id c.error), c)
      else failover c
    else waitReply net c

/-! ## Receiving -/

/-- One iteration of the receive loop; `none` if it goes on. The terminating zero of a datagram
that fills the buffer is stored behind it, where the model has no byte. -/
def recvStep (net : Net ω) (c : Ctx ω) : Option Outcome × Ctx ω :=
  let c := { c with st := { c.st with msg := zeros msgSz } }
  let (n, c) := recvData net c
  if n < 0 then
    (some (.returned (-1)),
      { c with error := if c.error = none then some (.cantReceive c.req.id) else c.error })
  else
    let msgLen := n.toNat
    let c := { c with
      -- `msg[msg_len] = '\0'`
      st := { c.st with msgLen := msgLen, msg := c.st.msg.set msgLen 0 }
      trace := c.trace ++ [Event.terminated msgLen] }
    let parsed := parseMsg c.req c.st.msg c.st.msgLen .zero c.error
    let c := { c with resp := parsed.resp, error := parsed.error }
    if parsed.ret ≠ 0 then (some (.returned (-1)), c)
    -- a confirmation, whatever its id, and a reply to another request: wait on
    else if c.resp.isConfrm then (none, c)
    else if c.resp.id ≠ c.req.id then (none, c)
    else (some (.returned 0), c)

/-- The receive loop. -/
def recvLoop (net : Net ω) : Nat → Ctx ω → Outcome × Ctx ω
  | 0, c => (.running, c)
  | fuel + 1, c =>
    match recvStep net c with
    | (some o, c) => (o, c)
    | (none, c) => recvLoop net fuel c

/-! ## The loop over the endpoints -/

/-- What follows the loop. -/
def giveUp (c : Ctx ω) : Outcome × Ctx ω :=
  (.returned (-1),
    { c with error := if c.error = none then some (.failedToGet c.req.id) else c.error })

/-- The loop, with `endpoints_left` iterations left and the endpoint to ask. -/
def attempts (net : Net ω) (fuel : Nat) : Nat → Option Endpoint → Ctx ω → Outcome × Ctx ω
  | 0, _, c => giveUp c
  | _ + 1, none, c => giveUp c
  | left + 1, some endp, c =>
    match attempt net endp c with
    | (.stop o, c) => (o, c)
    | (.ready, c) => recvLoop net fuel c
    | (.next endp, c) => attempts net fuel left endp c

/-- `resolve` -/
def resolve (net : Net ω) (fuel : Nat) (c : Ctx ω) : Outcome × Ctx ω :=
  if c.st.endpointsCount = 0 then (.returned (-1), { c with error := some .noEndpoints })
  else
    match getCurrentEndpoint c.st with
    | none => (.crashed, c)
    | some (endp, st) => attempts net fuel c.st.endpointsCount endp { c with st := st }

end YetiPgExt.Lnp
