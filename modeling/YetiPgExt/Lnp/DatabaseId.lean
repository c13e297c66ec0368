import YetiPgExt.Lnp.Backend
import YetiPgExt.Lnp.RequestWire

/-!
# The database id on the wire

A request carries a database id of 32 bits and its message one of 8: both encoders store the low
byte. Every message that a call of `resolve` sends is the image of its request
(`sendsRequest_rule`), so a resolve function asks the database that it was called with exactly if
the id fits a byte or the call sends nothing: without a context for its row, with an answer in the
cache, without an endpoint, or with a text that is too long (`databaseId_iff`). Requests that differ
in the id only have the same message exactly if the ids agree modulo 256.
-/

set_option autoImplicit false

namespace YetiPgExt.Lnp

open YetiPgExt.Library YetiPgExt.Postgres

/-- The messages in the log are images of the request, each under an id of its own. -/
def SendsRequest (req : Request) (log : List Event) : Prop :=
  ∀ endp buf result, .sent endp buf result ∈ log → ∃ id, buf = requestImage { req with id := id }

/-- The messages in the log carry the database id, in the byte that the layout has for it. -/
def CarriesDatabaseId (dbId : Int32) (log : List Event) : Prop :=
  ∀ endp buf result, .sent endp buf result ∈ log → ((readU8 buf 4).toNat : Int) = dbId.toInt

theorem readU8_requestImage (req : Request) :
    readU8 (requestImage req) 4 = UInt8.ofInt req.dbId.toInt := rfl

theorem toNat_ofInt (n : Int) : ((UInt8.ofInt n).toNat : Int) = n % 256 := by
  have hmod : 0 ≤ n % 2 ^ 8 := Int.emod_nonneg n (by decide)
  rw [UInt8.ofInt, UInt8.toNat_ofNat']
  omega

theorem ofInt_eq_iff (m n : Int) : UInt8.ofInt m = UInt8.ofInt n ↔ m % 256 = n % 256 := by
  rw [← UInt8.toNat_inj, ← toNat_ofInt, ← toNat_ofInt]
  exact Int.ofNat_inj.symm

/-- Requests that differ in the database id have the same bytes exactly if its low bytes agree. -/
theorem requestImage_eq_iff (req : Request) (dbId : Int32) :
    requestImage req = requestImage { req with dbId := dbId } ↔
      req.dbId.toInt % 256 = dbId.toInt % 256 := by
  rw [← ofInt_eq_iff]
  constructor
  · intro h
    have hread := congrArg (fun buf => readU8 buf 4) h
    rwa [readU8_requestImage, readU8_requestImage] at hread
  · intro h
    simp only [requestImage, h]

/-- The byte of an image carries the database id exactly if the id fits a byte. -/
theorem carries_requestImage_iff (req : Request) :
    ((readU8 (requestImage req) 4).toNat : Int) = req.dbId.toInt ↔
      0 ≤ req.dbId.toInt ∧ req.dbId.toInt ≤ 255 := by
  rw [readU8_requestImage, toNat_ofInt]
  omega

section

variable {ω : Type} {net : Net ω} {c c' : Ctx ω} {req : Request}

/-- The request, under an id of its own. -/
def IsRequest (req r : Request) : Prop := ∃ id, r = { req with id := id }

theorem IsRequest.nextRequest (net : Net ω) (h : IsRequest req c.req) :
    IsRequest req (nextRequest net c) := by
  obtain ⟨id, hreq⟩ := h
  exact ⟨(Lnp.nextRequest net c).id, by rw [Lnp.nextRequest, hreq]⟩

theorem SendsRequest.of_attempt (h : IsRequest req c.req) (endp : Endpoint)
    (result : SysResult Nat) {log : List Event}
    (hlog : ∀ endp buf result, .sent endp buf result ∉ log) :
    SendsRequest req (.sent endp (requestImage (Lnp.nextRequest net c)) result :: log) := by
  intro endp' buf result' hmem
  rcases List.mem_cons.mp hmem with heq | hmem
  · cases heq
    obtain ⟨id, hid⟩ := h.nextRequest net
    exact ⟨id, by rw [hid]⟩
  · exact absurd hmem (hlog _ _ _)

theorem AttemptStep.sendsRequest {endp : Endpoint} {e : AttemptEnd}
    (hreq : IsRequest req c.req) (h : AttemptStep net endp c e c') :
    IsRequest req c'.req ∧ ∃ log, c'.trace = c.trace ++ log ∧ SendsRequest req log := by
  cases h with
  | refused _ =>
    exact ⟨hreq.nextRequest net, [], (List.append_nil _).symm, fun _ _ _ h => nomatch h⟩
  | sendFailed _ _ _ =>
    exact ⟨hreq.nextRequest net, _, rfl, .of_attempt hreq _ _ (by simp)⟩
  | notReady _ _ _ _ =>
    exact ⟨hreq.nextRequest net, _, rfl, .of_attempt hreq _ _ (by simp)⟩
  | ready _ _ _ _ =>
    exact ⟨hreq.nextRequest net, _, rfl, .of_attempt hreq _ _ (by simp)⟩

theorem sendsRequest_rule (net : Net ω) (req : Request) :
    LogRule net (IsRequest req) (SendsRequest req) where
  nil _ _ _ h := absurd h List.not_mem_nil
  append h h' endp buf result hmem := by
    rcases List.mem_append.mp hmem with hmem | hmem
    · exact h endp buf result hmem
    · exact h' endp buf result hmem
  attempt hreq hstep := hstep.sendsRequest hreq
  recv hstep := by
    obtain ⟨log, htrace, hlog⟩ := hstep.frame.log
    refine ⟨log, htrace, fun endp buf result hmem => ?_⟩
    cases hlog _ hmem

theorem AttemptStep.exists_sent {endp : Endpoint} {e : AttemptEnd}
    (h : AttemptStep net endp c e c') (hsendable : Sendable c.req) :
    ∃ buf result, .sent endp buf result ∈ c'.trace := by
  cases h with
  | refused hrefused => exact absurd hsendable hrefused
  | sendFailed _ _ _ => exact ⟨_, _, List.mem_append_right _ List.mem_cons_self⟩
  | notReady _ _ _ _ => exact ⟨_, _, List.mem_append_right _ List.mem_cons_self⟩
  | ready _ _ _ _ => exact ⟨_, _, List.mem_append_right _ List.mem_cons_self⟩

/-- A request that fits is sent if there is an endpoint. -/
theorem exists_sent (net : Net ω) (fuel : Nat) (hst : WellFormed c.st)
    (hpos : 0 < c.st.endpointsCount) (hsendable : Sendable c.req) :
    ∃ endp buf result, .sent endp buf result ∈ (resolve net fuel c).2.trace := by
  obtain ⟨endp, hslot⟩ := getEndpointAtIndex_of_range ⟨hst.index_nonneg, hst.index_lt hpos⟩
  obtain ⟨n, hn⟩ := Nat.exists_eq_succ_of_ne_zero (Nat.ne_of_gt hpos)
  rw [resolve_eq_attempts net fuel hst hpos, hslot, hn, attempts]
  rcases hattempt : attempt net endp c with ⟨e, c₁⟩
  obtain ⟨hstep, hwf, -, hcount⟩ := attempt_spec hst hpos hattempt
  obtain ⟨buf, result, hmem⟩ := hstep.exists_sent hsendable
  refine ⟨endp, buf, result, ?_⟩
  -- what follows the first attempt only adds to the log
  have hrule := sendsRequest_rule net c₁.req
  have hreq : IsRequest c₁.req c₁.req := ⟨c₁.req.id, rfl⟩
  cases e with
  | stop o => exact hmem
  | next endp' =>
    obtain ⟨log, htrace, -⟩ := hrule.attempts fuel n endp' hwf hcount hreq
    simp only [htrace]
    exact List.mem_append_left _ hmem
  | ready =>
    obtain ⟨log, htrace, -⟩ := hrule.recvLoop fuel (hwf.socket hcount)
    simp only [htrace]
    exact List.mem_append_left _ hmem

end

/-- A log of images carries the database id if the id fits a byte, or if nothing is sent. -/
theorem SendsRequest.carries_iff {req : Request} {log : List Event} (h : SendsRequest req log) :
    CarriesDatabaseId req.dbId log ↔
      (∀ endp buf result, .sent endp buf result ∉ log) ∨
        (0 ≤ req.dbId.toInt ∧ req.dbId.toInt ≤ 255) := by
  constructor
  · intro hcarries
    by_cases hsent : ∃ endp buf result, .sent endp buf result ∈ log
    · obtain ⟨endp, buf, result, hmem⟩ := hsent
      obtain ⟨id, rfl⟩ := h endp buf result hmem
      exact .inr ((carries_requestImage_iff { req with id := id }).mp (hcarries _ _ _ hmem))
    · exact .inl fun endp buf result hmem => hsent ⟨endp, buf, result, hmem⟩
  · rintro (hsilent | hbyte) endp buf result hmem
    · exact absurd hmem (hsilent _ _ _)
    · obtain ⟨id, rfl⟩ := h endp buf result hmem
      exact (carries_requestImage_iff { req with id := id }).mpr hbyte

/-- The request that a resolve function makes of its arguments. -/
def lnpRequest (type : UInt8) (dbId : Int32) (number : Text) : Request where
  id := 0
  type := type
  dbId := dbId
  data := number.bytes

/-- A request that is resolved asks its database exactly if there is no endpoint, it is too long to
be sent, or the id fits a byte. -/
theorem resolveRequest_carries_iff {ω : Type} (net : Net ω) (fuel : Nat) {s : Session ω}
    (type : UInt8) (dbId : Int32) (number : Text) (hst : Reachable s.st) :
    CarriesDatabaseId dbId (resolveRequest net fuel s type dbId number).2.trace ↔
      s.st.endpointsCount = 0 ∨ ¬ Sendable (lnpRequest type dbId number) ∨
        (0 ≤ dbId.toInt ∧ dbId.toInt ≤ 255) := by
  let c : Ctx ω := ⟨s.st, lnpRequest type dbId number, .zero, none, s.world, []⟩
  have hwf : WellFormed c.st := hst.wellFormed
  obtain ⟨log, htrace, hlog⟩ :=
    (sendsRequest_rule net (lnpRequest type dbId number)).resolve (c := c) fuel hwf ⟨0, rfl⟩
  have hrequest : (resolveRequest net fuel s type dbId number).2.trace = log := htrace
  have hcarries : CarriesDatabaseId dbId log ↔
      (∀ endp buf result, .sent endp buf result ∉ log) ∨
        (0 ≤ dbId.toInt ∧ dbId.toInt ≤ 255) := hlog.carries_iff
  rw [hrequest, hcarries, ← or_assoc]
  refine or_congr_left ⟨?_, ?_⟩
  · intro hsilent
    by_contra hasks
    rw [not_or, not_not] at hasks
    obtain ⟨endp, buf, result, hmem⟩ :=
      exists_sent net fuel (c := c) hwf (Nat.pos_of_ne_zero hasks.1) hasks.2
    rw [htrace] at hmem
    exact hsilent endp buf result hmem
  · rintro hrefused endp buf result hmem
    have hempty : log = [] := by
      rw [← hrequest, resolveRequest]
      rcases hrefused with hcount | hlong
      · rw [resolve, if_pos hcount]
      · exact resolve_trace_of_not_sendable net fuel c hlong
    rw [hempty] at hmem
    cases hmem

/-! ## The resolve functions -/

/-- The database and the text that a resolve function is called with, and the version of the request
that it makes of them. -/
def Command.asks? : Command → Option (UInt8 × Int32 × Text)
  | .resolveCnam dbId data => some (cnamReqVersion, dbId, data)
  | .resolveTagged _ dbId number => some (taggedReqVersion, dbId, number)
  | .resolveTaggedWithError _ dbId number => some (taggedReqVersion, dbId, number)
  | _ => none

/-- The call is made in a context that takes what it returns; a text is taken everywhere. -/
def Command.takesResult : Command → Bool
  | .resolveTagged composite _ _ => composite
  | .resolveTaggedWithError composite _ _ => composite
  | _ => true

theorem Command.lookup?_of_asks {command : Command} {type : UInt8} {dbId : Int32} {number : Text}
    (h : command.asks? = some (type, dbId, number)) :
    command.lookup? = if command.takesResult then some (type, dbId, number) else none := by
  unfold Command.asks? at h
  split at h
  · cases h
    rfl
  · rename_i composite _ _
    cases h
    cases composite <;> rfl
  · rename_i composite _ _
    cases h
    cases composite <;> rfl
  · cases h

/-- What a call of a resolve function puts on the wire carries the database id that it was called
with exactly if the call sends nothing or the id fits a byte. -/
theorem execLog_carries_iff {ω : Type} (host : Host ω) (fuel : Nat) {b : Backend ω}
    {command : Command} {type : UInt8} {dbId : Int32} {number : Text}
    (hst : Reachable b.session.st) (hasks : command.asks? = some (type, dbId, number)) :
    CarriesDatabaseId dbId (execLog host fuel b command) ↔
      command.takesResult = false ∨
        (∃ entry, ecFind b.session.hashTab number = some (some entry)) ∨
        b.session.st.endpointsCount = 0 ∨ ¬ Sendable (lnpRequest type dbId number) ∨
        (0 ≤ dbId.toInt ∧ dbId.toInt ≤ 255) := by
  have hsilent : CarriesDatabaseId dbId [] := fun _ _ _ hmem => absurd hmem List.not_mem_nil
  have hlookup := Command.lookup?_of_asks hasks
  cases htakes : command.takesResult with
  | false =>
    rw [htakes, if_neg Bool.false_ne_true] at hlookup
    rw [execLog, hlookup]
    exact iff_of_true hsilent (.inl rfl)
  | true =>
    rw [htakes, if_pos rfl] at hlookup
    obtain ⟨found, hfind⟩ := exists_ecFind b.session.hashTab number
    simp only [execLog, hlookup, lookupLog, hfind]
    cases found with
    | some entry => exact iff_of_true hsilent (.inr (.inl ⟨entry, rfl⟩))
    | none =>
      have hnone : ¬ ∃ entry : EndpointCacheEntry,
          some (none : Option EndpointCacheEntry) = some (some entry) := by
        rintro ⟨entry, hentry⟩
        cases hentry
      rw [resolveRequest_carries_iff (b.net host) fuel type dbId number hst,
        or_iff_right (show ¬ true = false by decide), or_iff_right hnone]

/-- Two requests that are accepted and differ at most in the database id are encoded to the same
bytes exactly if the ids agree modulo 256. -/
theorem prepareMsg_eq_iff {req : Request} {dbId : Int32} {st st₁ st₂ : ResolverState}
    {error error₁ error₂ : Option ResolveError} (h₁ : prepareMsg req st error = (0, st₁, error₁))
    (h₂ : prepareMsg { req with dbId := dbId } st error = (0, st₂, error₂)) :
    st₁.msg.take st₁.msgLen = st₂.msg.take st₂.msgLen ↔
      req.dbId.toInt % 256 = dbId.toInt % 256 := by
  obtain ⟨msg₁, hprep₁, hmsg₁⟩ := prepareMsg_of_sendable ((prepareMsg_ret h₁).mp rfl) st error
  obtain ⟨msg₂, hprep₂, hmsg₂⟩ := prepareMsg_of_sendable ((prepareMsg_ret h₂).mp rfl) st error
  rw [hprep₁] at h₁
  rw [hprep₂] at h₂
  cases h₁
  cases h₂
  dsimp only
  rw [hmsg₁, hmsg₂]
  exact requestImage_eq_iff req dbId

/-- The database asked: the messages of a call of a resolve function, and the id of the call in two
requests that are compared. -/
theorem databaseId_iff {ω : Type} (host : Host ω) (fuel : Nat) {b : Backend ω} {command : Command}
    {type : UInt8} {dbId : Int32} {number : Text} (hst : Reachable b.session.st)
    (hasks : command.asks? = some (type, dbId, number)) :
    (CarriesDatabaseId dbId (execLog host fuel b command) ↔
      command.takesResult = false ∨
        (∃ entry, ecFind b.session.hashTab number = some (some entry)) ∨
        b.session.st.endpointsCount = 0 ∨ ¬ Sendable (lnpRequest type dbId number) ∨
        (0 ≤ dbId.toInt ∧ dbId.toInt ≤ 255)) ∧
    ∀ (req : Request) (st st₁ st₂ : ResolverState) (error error₁ error₂ : Option ResolveError),
      prepareMsg req st error = (0, st₁, error₁) →
      prepareMsg { req with dbId := dbId } st error = (0, st₂, error₂) →
      (st₁.msg.take st₁.msgLen = st₂.msg.take st₂.msgLen ↔
        req.dbId.toInt % 256 = dbId.toInt % 256) := by
  refine ⟨execLog_carries_iff host fuel hst hasks, ?_⟩
  intro req st st₁ st₂ error error₁ error₂ h₁ h₂
  exact prepareMsg_eq_iff h₁ h₂

/-- A backend with two endpoints and an answer for `456` in its cache. -/
def askedBackend : Backend Unit where
  session := { sampleSession with hashTab := some sampleTable }
  rttTimeout := defaultRttTimeoutMsec
  recvTimeout := none

theorem reachable_askedBackend : Reachable askedBackend.session.st := by
  have hst : askedBackend.session.st = sampleState := by simp only [askedBackend, sampleSession]
  rw [hst]
  exact reachable_sampleState

theorem databaseId_iff_askedBackend :
    CarriesDatabaseId 4 (execLog sampleHost 1 askedBackend (.resolveTagged true 4 otherNumber)) ∧
      CarriesDatabaseId 256
        (execLog sampleHost 1 askedBackend (.resolveCnam 256 sampleStore.key)) ∧
      ¬ CarriesDatabaseId 256
        (execLog sampleHost 1 askedBackend (.resolveCnam 256 otherNumber)) := by
  have hnew : ecFind askedBackend.session.hashTab otherNumber = some none := by decide +kernel
  refine ⟨?_, ?_, ?_⟩
  · have hasks : (Command.resolveTagged true 4 otherNumber).asks? =
        some (taggedReqVersion, 4, otherNumber) := rfl
    exact (databaseId_iff sampleHost 1 reachable_askedBackend hasks).1.mpr (.inr (.inr (.inr (.inr (by decide)))))
  · have hasks : (Command.resolveCnam 256 sampleStore.key).asks? =
        some (cnamReqVersion, 256, sampleStore.key) := rfl
    refine (databaseId_iff sampleHost 1 reachable_askedBackend hasks).1.mpr
      (.inr (.inl ⟨entryOf sampleStore, ?_⟩))
    decide +kernel
  · have hasks : (Command.resolveCnam 256 otherNumber).asks? =
        some (cnamReqVersion, 256, otherNumber) := rfl
    rw [(databaseId_iff sampleHost 1 reachable_askedBackend hasks).1]
    rintro (htakes | ⟨entry, hfind⟩ | hcount | hlong | hbyte)
    · cases htakes
    · rw [hnew] at hfind
      cases hfind
    · exact absurd hcount (by decide +kernel)
    · exact hlong (by decide)
    · exact absurd hbyte.2 (by decide)

/-- A request for the database 256 asks the database 0. -/
theorem not_databaseId : ¬ ∀ (ω : Type) (host : Host ω) (fuel : Nat) (b : Backend ω)
    (command : Command) (type : UInt8) (dbId : Int32) (number : Text), Reachable b.session.st →
    command.asks? = some (type, dbId, number) →
    CarriesDatabaseId dbId (execLog host fuel b command) := by
  intro h
  have hcarries := h Unit sampleHost 1 askedBackend (.resolveTagged true 256 otherNumber)
    taggedReqVersion 256 otherNumber reachable_askedBackend rfl
  have hnew : ecFind askedBackend.session.hashTab otherNumber = some none := by decide +kernel
  rw [execLog_carries_iff sampleHost 1 reachable_askedBackend rfl] at hcarries
  rcases hcarries with htakes | ⟨entry, hfind⟩ | hcount | hlong | hbyte
  · cases htakes
  · rw [hnew] at hfind
    cases hfind
  · exact absurd hcount (by decide +kernel)
  · exact hlong (by decide)
  · exact absurd hbyte.2 (by decide)

end YetiPgExt.Lnp
