import YetiPgExt.Library.Runs
import YetiPgExt.Lnp.Configuration
import YetiPgExt.Lnp.ResolveRow

/-!
# A backend and its calls

The SQL functions that share the state of a backend: the endpoint list, the cache of answers, the
two timeouts and the socket. A call is a function of the state (`exec`); a backend makes calls in
any order, and a call that runs for ever is the last one (`BackendStep`).

A call of a resolve function looks into the cache first and is resolved only if it finds nothing
there (`exec_of_hit`, `exec_of_miss`), so that `execLog`, what it does to the socket, is empty or
the log of `resolve`.
-/

set_option autoImplicit false

namespace YetiPgExt.Lnp

open YetiPgExt.Library YetiPgExt.Postgres

/-! ## The state -/

/-- `struct timeval` -/
structure Timeval where
  sec : Int
  usec : Int
  deriving DecidableEq

/-- The conversion in `__tr_set_timeout`, of a number of milliseconds. -/
def toTimeval (t : Int) : Timeval where
  sec := t.tdiv 1000
  usec := t.tmod 1000 * 1000

/-- `DEFAULT_RECV_TIMEOUT_MSEC` -/
def defaultRecvTimeoutMsec : Int := 5000

/-- `DEFAULT_RTT_TIMEOUT_MSEC` -/
def defaultRttTimeoutMsec : Int32 := 5

/-- The system under a backend. `setsockopt` tells whether the kernel takes an `SO_RCVTIMEO`: it
refuses microseconds that are negative. `poll` is given the round trip timeout, and a receive
depends on the timeout that the socket has. -/
structure Host (ω : Type) where
  inetAton : Bytes → Option UInt32
  strerror : Int → Bytes
  socket : ω → Int × ω
  setsockopt : Timeval → Bool
  rand : ω → UInt32 × ω
  sendto : ω → Endpoint → Bytes → SysResult Nat × ω
  poll : Int32 → ω → SysResult Nat × ω
  recvfrom : Option Timeval → ω → Nat → SysResult Bytes × ω

/-- The system as `resolve` sees it. -/
def Host.net {ω : Type} (host : Host ω) (rttTimeout : Int32) (recvTimeout : Option Timeval) :
    Net ω where
  rand := host.rand
  sendto := host.sendto
  poll := host.poll rttTimeout
  recvfrom := host.recvfrom recvTimeout

/-- What a backend keeps: the session of the resolve functions, `rtt_timeout`, and the timeout that
the socket has. -/
structure Backend (ω : Type) where
  session : Session ω
  rttTimeout : Int32
  recvTimeout : Option Timeval

/-- A backend after `_PG_init`. -/
def Backend.start {ω : Type} (world : ω) : Backend ω where
  session := { hashTab := none, st := .init, world := world }
  rttTimeout := defaultRttTimeoutMsec
  recvTimeout := none

/-- A backend with another state of the resolver. -/
def Backend.withState {ω : Type} (b : Backend ω) (st : ResolverState) : Backend ω :=
  { b with session := { b.session with st := st } }

/-- A backend with another cache. -/
def Backend.withCache {ω : Type} (b : Backend ω) (hashTab : HashTab) : Backend ω :=
  { b with session := { b.session with hashTab := hashTab } }

/-! ## The calls -/

/-- A call of an SQL function. All are strict, so no argument is NULL. -/
inductive Command where
  | endpointsSet (uris : List (Option Bytes))
  | endpointsShow
  | cacheSet (c : CacheSet)
  | setTimeout (t : Int32)
  | setRttTimeout (t : Int32)
  | resolveCnam (dbId : Int32) (data : Text)
  | resolveTagged (composite : Bool) (dbId : Int32) (number : Text)
  | resolveTaggedWithError (composite : Bool) (dbId : Int32) (number : Text)

/-- How a call ends. -/
inductive Result where
  | set (r : SetResult)
  | rows (rows : List ShowRow)
  | cnam (e : CallEnd Bytes)
  | tagged (e : CallEnd LnpResult)
  | withError (e : CallEnd LnpResultWithError)
  deriving DecidableEq

variable {ω : Type}

/-- `__tr_set_timeout` on an open socket. The return value of `setsockopt` is not looked at: a
timeout that the kernel refuses leaves the old one. -/
def setTimeout (host : Host ω) (t : Int) (recvTimeout : Option Timeval) : Option Timeval :=
  if host.setsockopt (toTimeval t) then some (toTimeval t) else recvTimeout

/-- `if (Transport.get_socket_fd() < 0) Transport.init_socket();`: the descriptor, and the backend
with the default timeout set for a new socket. -/
def initSocket (host : Host ω) (b : Backend ω) : Int × Backend ω :=
  if b.session.st.socketFd < 0 then
    let (fd, world) := host.socket b.session.world
    (fd, { b with
      session := { b.session with world := world }
      recvTimeout :=
        -- `err` raises before the timeout is set
        if fd < 0 then b.recvTimeout else setTimeout host defaultRecvTimeoutMsec none })
  else (b.session.st.socketFd, b)

/-- `lnp_set_timeout` -/
def lnpSetTimeout (host : Host ω) (b : Backend ω) (t : Int32) : SetResult × Backend ω :=
  let (fd, b) := initSocket host b
  let b := b.withState { b.session.st with socketFd := fd }
  if fd < 0 then (.raised, b)
  else (.done, { b with recvTimeout := setTimeout host t.toInt b.recvTimeout })

/-- `Resolver.set_rtt_timeout` -/
def setRttTimeout (b : Backend ω) (t : Int32) : Backend ω := { b with rttTimeout := t }

section

variable (host : Host ω) (fuel : Nat) (behind : Bytes)

/-- The network as a backend sees it. -/
def Backend.net (b : Backend ω) : Net ω := host.net b.rttTimeout b.recvTimeout

/-- A call and what it leaves; no result if it reads or writes out of bounds. -/
def exec (b : Backend ω) : Command → Option (Result × Backend ω)
  | .endpointsSet uris => do
    let (fd, b) := initSocket host b
    let (r, st) ← lnpEndpointsSet host.inetAton fd b.session.st uris
    return (.set r, b.withState st)
  | .endpointsShow => do
    let rows ← lnpEndpointsShow b.session.st
    return (.rows rows, b)
  | .cacheSet c => do
    let hashTab ← ecStore b.session.hashTab c.key c.response c.error
    return (.set .done, b.withCache hashTab)
  | .setTimeout t =>
    let (r, b) := lnpSetTimeout host b t
    some (.set r, b)
  | .setRttTimeout t => some (.set .done, setRttTimeout b t)
  | .resolveCnam dbId data =>
    let (e, s) := lnpResolveCnam (b.net host) fuel host.strerror behind b.session dbId data
    some (.cnam e, { b with session := s })
  | .resolveTagged composite dbId number =>
    let (e, s) :=
      lnpResolveTagged (b.net host) fuel host.strerror behind composite b.session dbId number
    some (.tagged e, { b with session := s })
  | .resolveTaggedWithError composite dbId number =>
    let (e, s) := lnpResolveTaggedWithError (b.net host) fuel host.strerror behind composite
      b.session dbId number
    some (.withError e, { b with session := s })

/-- What a call looks up: the version of its request, the database and the number. -/
def Command.lookup? : Command → Option (UInt8 × Int32 × Text)
  | .resolveCnam dbId data => some (cnamReqVersion, dbId, data)
  | .resolveTagged true dbId number => some (taggedReqVersion, dbId, number)
  | .resolveTaggedWithError true dbId number => some (taggedReqVersion, dbId, number)
  | _ => none

/-- What a lookup does to the socket. -/
def lookupLog (b : Backend ω) (type : UInt8) (dbId : Int32) (number : Text) : List Event :=
  match ecFind b.session.hashTab number with
  | some none => (resolveRequest (b.net host) fuel b.session type dbId number).2.trace
  | _ => []

/-- What a call sends and receives. -/
def execLog (b : Backend ω) (command : Command) : List Event :=
  match command.lookup? with
  | some (type, dbId, number) => lookupLog host fuel b type dbId number
  | none => []

end

/-- The call runs for ever. -/
def CallEnd.isRunning {α : Type} : CallEnd α → Bool
  | .running => true
  | _ => false

/-- The call divides by zero, follows a `NULL` or reads behind a buffer. -/
def CallEnd.isUndefined {α : Type} : CallEnd α → Bool
  | .crashed | .outOfBounds => true
  | _ => false

def Result.isRunning : Result → Bool
  | .cnam e => e.isRunning
  | .tagged e => e.isRunning
  | .withError e => e.isRunning
  | .set _ | .rows _ => false

def Result.isUndefined : Result → Bool
  | .cnam e => e.isUndefined
  | .tagged e => e.isUndefined
  | .withError e => e.isUndefined
  | .set _ | .rows _ => false

/-- A call with its result and its log. -/
structure Call where
  command : Command
  result : Result
  log : List Event

/-- A backend makes a call that ends. What lies in memory behind a cached response is arbitrary. -/
def BackendStep (host : Host ω) (b : Backend ω) (call : Call) (b' : Backend ω) : Prop :=
  ∃ fuel behind, exec host fuel behind b call.command = some (call.result, b') ∧
    call.log = execLog host fuel b call.command ∧ call.result.isRunning = false

/-! ## Lookups -/

/-- The result of a lookup from a cached entry: the memory from its response on, and its flag. -/
def Command.fromCache (respMoc : Bytes) (errorMoc : Bool) : Command → Result
  | .resolveTagged _ _ _ =>
    .tagged (if errorMoc then .ofWarning respMoc
      else .ofValue (buildResult (some respMoc) none))
  | .resolveTaggedWithError _ _ _ =>
    .withError (if errorMoc then .ofValue (buildResultWithError none none (some respMoc))
      else .ofValue (buildResultWithError (some respMoc) none none))
  | _ => .cnam (if errorMoc then .ofWarning respMoc else .ofValue (cString? respMoc))

/-- The result of a lookup from the outcome of `resolve`. -/
def Command.fromReply (strerror : Int → Bytes) (o : Outcome) (c : Ctx ω) : Command → Result
  | .resolveTagged _ _ _ =>
    .tagged (.ofOutcome o fun ret =>
      if ret ≠ 0 then .ofWarning (failureMem strerror c.error)
      else .ofValue
        (buildResult (c.resp.val1.map terminated) (c.resp.val2.map terminated)))
  | .resolveTaggedWithError _ _ _ =>
    .withError (.ofOutcome o fun ret =>
      if ret ≠ 0 then .ofValue (buildResultWithError none none (errorMem strerror c.error))
      else .ofValue (buildResultWithError (c.resp.val1.map terminated)
        (c.resp.val2.map terminated) none))
  | _ =>
    .cnam (.ofOutcome o fun ret =>
      if ret ≠ 0 then .ofWarning (failureMem strerror c.error)
      else
        match c.resp.val with
        | some val => .value val
        | none => .crashed)

section Lookups

variable {host : Host ω} {fuel : Nat} {behind : Bytes} {b b' : Backend ω} {command : Command}
variable {type : UInt8} {dbId : Int32} {number : Text}

theorem Command.isVersion_of_lookup (h : command.lookup? = some (type, dbId, number)) :
    IsVersion type := by
  unfold Command.lookup? at h
  split at h
  · cases h
    exact .inr rfl
  · cases h
    exact .inl rfl
  · cases h
    exact .inl rfl
  · cases h

/-- A number in the cache is answered from it. -/
theorem exec_of_hit (h : command.lookup? = some (type, dbId, number)) {entry : EndpointCacheEntry}
    (hfind : ecFind b.session.hashTab number = some (some entry)) :
    exec host fuel behind b command =
      some (command.fromCache (entry.response ++ behind) entry.error, b) := by
  obtain ⟨response, error⟩ := entry
  unfold Command.lookup? at h
  split at h
  · cases h
    rw [exec, lnpResolveCnam, hfind]
    cases error <;> rfl
  · cases h
    rw [exec, lnpResolveTagged, if_neg (by decide), hfind]
    cases error <;> rfl
  · cases h
    rw [exec, lnpResolveTaggedWithError, if_neg (by decide), hfind]
    cases error <;> rfl
  · cases h

/-- Every other number is resolved. -/
theorem exec_of_miss (h : command.lookup? = some (type, dbId, number))
    (hfind : ecFind b.session.hashTab number = some none) :
    exec host fuel behind b command =
      let (o, c) := resolveRequest (b.net host) fuel b.session type dbId number
      some (command.fromReply host.strerror o c, { b with session := b.session.after c }) := by
  unfold Command.lookup? at h
  split at h
  · cases h
    rw [exec, lnpResolveCnam, hfind]
    rfl
  · cases h
    rw [exec, lnpResolveTagged, if_neg (by decide), hfind]
    rfl
  · cases h
    rw [exec, lnpResolveTaggedWithError, if_neg (by decide), hfind]
    rfl
  · cases h

end Lookups

/-! ### A system with a cached answer -/

/-- A system in which every request is answered with the number `123` and the tag `ab`. -/
def sampleHost : Host Unit where
  inetAton := sampleInetAton
  strerror _ := []
  socket _ := (3, ())
  setsockopt tv := decide (0 ≤ tv.usec)
  rand _ := (7, ())
  sendto _ _ buf := (.ok buf.length, ())
  poll _ _ := (.ok 1, ())
  recvfrom _ _ _ := (.ok ([7, 0, 0, 0, 0, 5, 3] ++ ascii "123ab"), ())

/-- The arguments of `lnp_endpoints_cache_set('456', '789', false)`. -/
def sampleStore : CacheSet where
  key := ⟨ascii "456", by decide⟩
  response := ⟨ascii "789", by decide⟩
  error := false

/-- The cache after this call. -/
def sampleTable : Bytes → Option EndpointCacheEntry :=
  Function.update (fun _ => none) (keyImage sampleStore.key) (some (entryOf sampleStore))

theorem otherNumber_no_zero : 0 ∉ ascii "380" := by decide

/-- A number that is not in it. -/
def otherNumber : Text := ⟨ascii "380", otherNumber_no_zero⟩

end YetiPgExt.Lnp
