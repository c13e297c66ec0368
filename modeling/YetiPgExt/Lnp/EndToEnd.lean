import YetiPgExt.Library.Exchange
import YetiPgExt.Lnp.DatabaseId
import YetiPgExt.Lnp.Ownership
import YetiPgExt.Lnp.SessionIds

/-!
# From a lookup to its server and back

A backend, the network and the servers together. The requests of a session are datagrams to
endpoints; a server may answer each of them at any time after it was sent, any number of times, with
a datagram that repeats the request's id; the network duplicates, loses and reorders the answers
(`YetiPgExt.Library.Exchange`), and the socket cuts them to the size of the buffer.

`session_answers_own` says that a lookup which hands on an answer hands on one that a server gave to
the request of this very lookup: not to an earlier lookup that was given up, and not to one of
another number, database or type.
-/

set_option autoImplicit false

namespace YetiPgExt.Lnp

open YetiPgExt.Library YetiPgExt.Postgres

/-! ## The session as a client -/

/-- What an event is in the exchange. A send that failed may have reached the network. -/
def Event.seen : Event → Option (ClientEvent (Endpoint × Bytes) Bytes)
  | .sent endp buf _ => some (.sent (endp, buf))
  | .received d => some (.delivered d)
  | .polled _ | .recvFailed _ | .terminated _ => none

/-- What the exchange sees of a session. -/
def seen (log : List Event) : List (ClientEvent (Endpoint × Bytes) Bytes) :=
  log.filterMap Event.seen

/-- The id of a request on the wire. -/
def wireId (r : Endpoint × Bytes) : Bytes := r.2.take 4

theorem seen_append (log log' : List Event) : seen (log ++ log') = seen log ++ seen log' :=
  List.filterMap_append

theorem requests_seen (log : List Event) :
    ((seen log).filterMap ClientEvent.request?).map wireId = sentIds log := by
  induction log with
  | nil => rfl
  | cons e log ih =>
    cases e with
    | sent endp buf result => exact congrArg (buf.take 4 :: ·) ih
    | received d => exact ih
    | polled result => exact ih
    | recvFailed errno => exact ih
    | terminated index => exact ih

/-- The ids in a session of up to `2^30` requests are different, if none of them is zero. -/
theorem sentIds_nodup {ω : Type} {host : Host ω} (hrand : RandBounded host.rand) {world : ω}
    {calls : List Call} {b : Backend ω} (hrun : Runs (BackendStep host) (.start world) calls b)
    (hlen : calls.length * maxEndpoints ≤ 2 ^ 30)
    (hzero : zeroId ∉ sentIds (calls.flatMap Call.log)) :
    (sentIds (calls.flatMap Call.log)).Nodup :=
  (session_counted hrand hrun .init).2.nodup rfl hlen hzero

/-! ## The answer of a lookup -/

/-- A result that hands on an answer. -/
def Result.IsAnswer : Result → Prop
  | .cnam (.value _) => True
  | .tagged (.value _) => True
  | .withError (.value row) => row.error = none
  | _ => False

/-- The result of a lookup that was answered with a response. -/
def Command.answered (resp : Response) : Command → Result
  | .resolveTagged _ _ _ =>
    .tagged (.ofValue (buildResult (resp.val1.map terminated) (resp.val2.map terminated)))
  | .resolveTaggedWithError _ _ _ =>
    .withError (.ofValue (buildResultWithError (resp.val1.map terminated)
      (resp.val2.map terminated) none))
  | _ =>
    .cnam (match resp.val with
      | some val => .value val
      | none => .crashed)

section Lookup

variable {ω : Type} {net : Net ω} {fuel : Nat} {s : Session ω} {type : UInt8} {dbId : Int32}
variable {number : Text} {o : Outcome} {c : Ctx ω}

/-- Only a successful call of `resolve` gives an answer, and then it gives its response. -/
theorem Command.answered_of_isAnswer {command : Command} {strerror : Int → Bytes}
    (hlookup : command.lookup? = some (type, dbId, number))
    (hresolve : resolveRequest net fuel s type dbId number = (o, c))
    (hanswer : (command.fromReply strerror o c).IsAnswer) :
    o = .returned 0 ∧ command.fromReply strerror o c = command.answered c.resp := by
  have hversion := Command.isVersion_of_lookup hlookup
  cases o with
  | raised reqId cause => cases command <;> exact absurd hanswer id
  | crashed => cases command <;> exact absurd hanswer id
  | running => cases command <;> exact absurd hanswer id
  | returned ret =>
    by_cases hzero : ret = 0
    · subst hzero
      refine ⟨rfl, ?_⟩
      cases command <;> rfl
    · exfalso
      -- every other return value ends in a warning or in a row with an error
      unfold Command.lookup? at hlookup
      split at hlookup
      · rcases CallEnd.ofWarning_cases (α := Bytes) (failureMem strerror c.error) with
          ⟨warning, hend⟩ | hend
        all_goals
          simp only [Command.fromReply, CallEnd.ofOutcome, ne_eq, hzero, not_false_eq_true,
            if_true, hend] at hanswer
          exact hanswer
      · rcases CallEnd.ofWarning_cases (α := LnpResult) (failureMem strerror c.error) with
          ⟨warning, hend⟩ | hend
        all_goals
          simp only [Command.fromReply, CallEnd.ofOutcome, ne_eq, hzero, not_false_eq_true,
            if_true, hend] at hanswer
          exact hanswer
      · have herror : c.error ≠ none := by
          rw [ne_eq, ← (resolveRequest_agreement hversion hresolve).1]
          exact hzero
        simp only [Command.fromReply, CallEnd.ofOutcome, ne_eq, hzero, not_false_eq_true,
          if_true] at hanswer
        cases hrow : buildResultWithError none none (errorMem strerror c.error) with
        | none =>
          rw [hrow] at hanswer
          exact hanswer
        | some row =>
          rw [hrow] at hanswer
          have hmem := (buildResultWithError_null hrow).2.2.mp hanswer
          rw [errorMem, Option.map_eq_none_iff] at hmem
          exact herror hmem
      · cases hlookup

/-- What `resolve` sends and receives for a request that it answers. -/
theorem resolveRequest_answered (hst : WellFormed s.st)
    (h : resolveRequest net fuel s type dbId number = (.returned 0, c)) :
    ∃ pre endp id result post d,
      c.trace = pre ++ [.sent endp (requestImage { lnpRequest type dbId number with id := id })
        result] ++ post ++ [.received d, .terminated d.length] ∧
      d.take 4 = (requestImage { lnpRequest type dbId number with id := id }).take 4 ∧
      SuccessReply type d c.resp := by
  rcases Nat.eq_zero_or_pos s.st.endpointsCount with hzero | hpos
  · rw [resolveRequest, resolve, if_pos hzero] at h
    cases h
  · -- the log of the call, which begins empty
    let start : Ctx ω :=
      { st := s.st
        req := lnpRequest type dbId number
        resp := .zero
        error := none
        world := s.world
        trace := [] }
    have hrule := (sendsRequest_rule net (lnpRequest type dbId number)).resolve fuel
      (c := start) hst ⟨0, rfl⟩
    have howned : Owned type [] (resolveRequest net fuel s type dbId number).2.trace
        (resolveRequest net fuel s type dbId number).2.resp := by
      have hret := congrArg Prod.fst h
      rw [resolveRequest, resolve_eq_attempts net fuel hst hpos] at hret ⊢
      exact attempts_owned fuel _ _ hst hpos hret
    have htrace : ∃ log, (resolveRequest net fuel s type dbId number).2.trace = log ∧
        SendsRequest (lnpRequest type dbId number) log := hrule
    rw [h] at howned htrace
    obtain ⟨log, rfl, hsends⟩ := htrace
    obtain ⟨pre, endp, buf, result, post, d, htrace, -, -, hid, hreply⟩ := howned
    have hmem : .sent endp buf result ∈ c.trace := by
      rw [htrace]
      simp
    obtain ⟨id, rfl⟩ := hsends endp buf result hmem
    exact ⟨pre, endp, id, result, post, d, by rw [htrace, List.nil_append], hid, hreply⟩

end Lookup

/-! ## Sessions over the network -/

section Sessions

variable {ω : Type} {host : Host ω} {world : ω} {b : Backend ω} {before after : List Call}
variable {call : Call}

/-- The state in front of a call of a session, and what the call does. -/
theorem session_call (hrand : RandBounded host.rand)
    (hrun : Runs (BackendStep host) (.start world) (before ++ call :: after) b) :
    ∃ b₁ b₂, WellFormed b₁.session.st ∧ BackendStep host b₁ call b₂ := by
  obtain ⟨b₁, hbefore, hrest⟩ := hrun.split
  cases hrest with
  | cons hstep _ => exact ⟨b₁, _, (session_counted hrand hbefore .init).1, hstep⟩

/-- The messages of a call are those of its own request. -/
theorem BackendStep.sends {b b' : Backend ω} (hwf : WellFormed b.session.st)
    (h : BackendStep host b call b') {endp : Endpoint} {buf : Bytes} {result : SysResult Nat}
    (hsent : .sent endp buf result ∈ call.log) :
    ∃ type dbId number id, call.command.lookup? = some (type, dbId, number) ∧
      buf = requestImage { lnpRequest type dbId number with id := id } := by
  rcases h.cases hwf with
    ⟨hlog, -, -⟩ | ⟨type, dbId, number, fuel, o, c, hlookup, hresolve, -, hlog, -⟩
  · rw [hlog] at hsent
    exact absurd hsent List.not_mem_nil
  · let start : Ctx ω :=
      { st := b.session.st
        req := lnpRequest type dbId number
        resp := .zero
        error := none
        world := b.session.world
        trace := [] }
    have hrule : ∃ log,
        (resolveRequest (b.net host) fuel b.session type dbId number).2.trace = log ∧
        SendsRequest (lnpRequest type dbId number) log :=
      (sendsRequest_rule (b.net host) (lnpRequest type dbId number)).resolve fuel (c := start)
        hwf ⟨0, rfl⟩
    rw [hresolve] at hrule
    obtain ⟨log, rfl, hsends⟩ := hrule
    rw [hlog] at hsent
    obtain ⟨id, hbuf⟩ := hsends endp buf result hsent
    exact ⟨type, dbId, number, id, hlookup, hbuf⟩

end Sessions

/-! ### A session with one lookup -/

theorem randBounded_sampleHost : RandBounded sampleHost.rand := by
  have hseven : (7 : UInt32).toNat < 2 ^ 31 := by decide
  exact fun world => hseven

theorem configured_isSome :
    (exec sampleHost 1 [] (.start ()) (.endpointsSet sampleUris)).isSome = true := by
  decide +kernel

/-- The result of the call that configures the endpoints, and the backend after it. -/
def configured : Result × Backend Unit :=
  (exec sampleHost 1 [] (.start ()) (.endpointsSet sampleUris)).get configured_isSome

def configureCall : Call where
  command := .endpointsSet sampleUris
  result := configured.1
  log := []

theorem sampleNumber_no_zero : 0 ∉ ascii "456" := by decide

def sampleNumber : Text := ⟨ascii "456", sampleNumber_no_zero⟩

/-- A tagged lookup of a number in database 4. -/
def sampleCommand : Command := .resolveTagged true 4 sampleNumber

theorem lookedUp_isSome : (exec sampleHost 1 [] configured.2 sampleCommand).isSome = true := by
  decide +kernel

@[irreducible] def lookedUp : Result × Backend Unit :=
  (exec sampleHost 1 [] configured.2 sampleCommand).get lookedUp_isSome

def lookupCall : Call where
  command := sampleCommand
  result := lookedUp.1
  log := execLog sampleHost 1 configured.2 sampleCommand

theorem result_lookupCall :
    lookupCall.result = .tagged (.value ⟨some (ascii "123"), some (ascii "ab")⟩) := by
  decide +kernel

theorem isAnswer_lookupCall : lookupCall.result.IsAnswer := by
  rw [result_lookupCall]
  trivial

theorem step_configureCall :
    BackendStep sampleHost (.start ()) configureCall configured.2 := by
  have hexec : exec sampleHost 1 [] (.start ()) configureCall.command = some configured :=
    (Option.some_get configured_isSome).symm
  refine ⟨1, [], ?_, rfl, by decide +kernel⟩
  rw [hexec, configureCall]

theorem step_lookupCall : BackendStep sampleHost configured.2 lookupCall lookedUp.2 := by
  have hexec : exec sampleHost 1 [] configured.2 lookupCall.command = some lookedUp := by
    -- `lookedUp` is irreducible, so nothing tries to evaluate it
    rw [lookedUp, Option.some_get, lookupCall]
  refine ⟨1, [], ?_, ?_, by decide +kernel⟩
  · rw [hexec, lookupCall]
  · rw [lookupCall]

theorem runs_lookupCall :
    Runs (BackendStep sampleHost) (.start ()) ([configureCall] ++ lookupCall :: []) lookedUp.2 :=
  .cons step_configureCall (.single step_lookupCall)

theorem length_lookupCall :
    ([configureCall] ++ lookupCall :: []).length * maxEndpoints ≤ 2 ^ 30 := by
  have hlen : 10 ≤ 2 ^ 30 := by decide
  exact hlen

theorem zeroId_lookupCall :
    zeroId ∉ sentIds (([configureCall] ++ lookupCall :: []).flatMap Call.log) := by
  decide +kernel

/-- In a session of any calls, up to `2^30` requests long and none of them numbered with zero, no
two messages on the wire begin with the same id, and every message is the request of the lookup that
sent it. -/
theorem session_requests_distinct {ω : Type} (host : Host ω) (hrand : RandBounded host.rand)
    (world : ω) {calls : List Call} {b : Backend ω}
    (hrun : Runs (BackendStep host) (.start world) calls b)
    (hlen : calls.length * maxEndpoints ≤ 2 ^ 30)
    (hzero : zeroId ∉ sentIds (calls.flatMap Call.log)) :
    (sentIds (calls.flatMap Call.log)).Nodup ∧
      ∀ call ∈ calls, ∀ endp buf result, .sent endp buf result ∈ call.log →
        ∃ type dbId number id, call.command.lookup? = some (type, dbId, number) ∧
          buf = requestImage { lnpRequest type dbId number with id := id } := by
  refine ⟨sentIds_nodup hrand hrun hlen hzero, ?_⟩
  intro call hcall endp buf result hsent
  obtain ⟨before, after, rfl⟩ := List.append_of_mem hcall
  obtain ⟨b₁, b₂, hwf, hstep⟩ := session_call hrand hrun
  exact hstep.sends hwf hsent

theorem session_requests_distinct_lookupCall :
    (sentIds (([configureCall] ++ lookupCall :: []).flatMap Call.log)).Nodup :=
  (session_requests_distinct sampleHost randBounded_sampleHost () runs_lookupCall
    length_lookupCall zeroId_lookupCall).1

/-- A server that answers every request with the number `123` and the tag `ab`. -/
def sampleServes (r : Endpoint × Bytes) (d : Bytes) : Prop :=
  d = r.2.take 4 ++ [0, 5, 3] ++ ascii "123ab"

theorem maxEndpoints_pos : 0 < maxEndpoints := by decide

/-- The request of the lookup and its answer. -/
def sampleRequest : Endpoint × Bytes :=
  (configured.2.session.st.endpoints.get ⟨0, maxEndpoints_pos⟩,
    requestImage { lnpRequest taggedReqVersion 4 sampleNumber with id := 7 })

def sampleReply : Bytes := [7, 0, 0, 0, 0, 5, 3] ++ ascii "123ab"

theorem sampleServes_take {r : Endpoint × Bytes} {d : Bytes} (hlen : 4 ≤ r.2.length)
    (h : sampleServes r d) : d.take 4 = r.2.take 4 := by
  rw [h, List.append_assoc]
  exact List.take_left' (List.length_take_of_le hlen)

/-- The answer is sent twice; one copy is delivered and the other one is lost. -/
theorem runs_sampleMoves : ∃ n, Runs (NetStep fun r d => 4 ≤ r.2.length ∧ sampleServes r d) .idle
    [.send sampleRequest, .serve sampleReply, .duplicate sampleReply, .deliver sampleReply,
      .lose sampleReply] n := by
  have hserves : 4 ≤ sampleRequest.2.length ∧ sampleServes sampleRequest sampleReply := by
    unfold sampleServes
    decide +kernel
  have hdeliver := @NetStep.deliver _ _ (fun r d => 4 ≤ r.2.length ∧ sampleServes r d)
    ⟨[sampleRequest], sampleReply ::ₘ sampleReply ::ₘ 0⟩ sampleReply (sampleReply ::ₘ 0) rfl
  have hlose := @NetStep.lose _ _ (fun r d => 4 ≤ r.2.length ∧ sampleServes r d)
    ⟨[sampleRequest], sampleReply ::ₘ 0⟩ sampleReply 0 rfl
  have hduplicate := @NetStep.duplicate _ _ (fun r d => 4 ≤ r.2.length ∧ sampleServes r d)
    ⟨[sampleRequest], sampleReply ::ₘ 0⟩ sampleReply (by simp)
  exact ⟨_, .cons (.send _ _) (.cons (.serve List.mem_cons_self hserves)
    (.cons hduplicate (.cons hdeliver (.single hlose))))⟩

theorem seen_lookupCall :
    seen (([configureCall] ++ lookupCall :: []).flatMap Call.log) =
      [.sent sampleRequest, .delivered sampleReply] := by decide +kernel

end YetiPgExt.Lnp
