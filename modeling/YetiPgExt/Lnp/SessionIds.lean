import YetiPgExt.Lnp.BackendParts
import YetiPgExt.Lnp.RequestIds

/-!
# The request ids of a session

One counter numbers the requests of a backend, whatever SQL function sends them. `Counted` ties the
messages that a call sends to calls of `gen_request_id` on the counter; a session is then one run of
the counter (`session_counted`), and its messages begin with different ids, as long as `rand` does
not number one of them with zero (`Counted.nodup`).
-/

set_option autoImplicit false

namespace YetiPgExt.Lnp

open YetiPgExt.Library YetiPgExt.Postgres

/-! ## The counter -/

/-- A call of `gen_request_id` on the counter, with the id that it returns. -/
inductive CounterStep : UInt32 → UInt32 → UInt32 → Prop
  | drawn {id : UInt32} : id.toNat < 2 ^ 31 → CounterStep 0 id id
  | next {c : UInt32} : c ≠ 0 → CounterStep c (c + 1) (c + 1)

/-- `rand` returns a value up to `RAND_MAX`, which is `2^31 - 1`. -/
def RandBounded {ω : Type} (rand : ω → UInt32 × ω) : Prop := ∀ world, (rand world).1.toNat < 2 ^ 31

theorem genRequestId_counter {ω : Type} {net : Net ω} (hrand : RandBounded net.rand)
    (reqId : UInt32) (world : ω) :
    CounterStep reqId (genRequestId net reqId world).1 (genRequestId net reqId world).1 := by
  by_cases hzero : reqId = 0
  · have hgen : genRequestId net reqId world = net.rand world := if_pos hzero
    rw [hgen, hzero]
    exact .drawn (hrand world)
  · have hgen : genRequestId net reqId world = (reqId + 1, world) := if_neg hzero
    rw [hgen]
    exact .next hzero

/-- A counter that does not reach the wrap gives different ids, above where it was. -/
theorem CounterStep.above {c c' : UInt32} {ids : List UInt32} (h : Runs CounterStep c ids c')
    (hpos : c ≠ 0) (hfit : c.toNat + ids.length < 2 ^ 32) :
    (∀ id ∈ ids, c.toNat < id.toNat) ∧ ids.Nodup := by
  induction h with
  | nil => exact ⟨fun id hid => absurd hid List.not_mem_nil, List.nodup_nil⟩
  | @cons c c₁ c' id ids hstep _ ih =>
    rw [List.length_cons] at hfit
    cases hstep with
    | drawn _ => exact absurd rfl hpos
    | next _ =>
      rcases toNat_count c with ⟨hcount, -⟩ | ⟨-, hwrap⟩
      · have hne : c + 1 ≠ 0 := toNat_pos_iff.mp (by omega)
        obtain ⟨habove, hnodup⟩ := ih hne (by omega)
        refine ⟨List.forall_mem_cons.mpr ⟨by omega, fun id hid => ?_⟩, ?_⟩
        · have hlt := habove id hid
          omega
        · exact List.nodup_cons.mpr ⟨fun hmem => Nat.lt_irrefl _ (habove _ hmem), hnodup⟩
      · omega

/-- The ids of a counter that starts at zero are different, except for zeros that `rand` returns. -/
theorem CounterStep.nodup {c' : UInt32} {ids : List UInt32} (h : Runs CounterStep 0 ids c')
    (hlen : ids.length ≤ 2 ^ 30) : (ids.filter fun id => decide (id ≠ 0)).Nodup := by
  -- on the calls: as long as `rand` returns zero, the counter stays at it
  induction ids with
  | nil => exact List.nodup_nil
  | cons id ids ih =>
    rw [List.length_cons] at hlen
    cases h with
    | cons hstep hrest =>
      cases hstep with
      | next hne => exact absurd rfl hne
      | drawn hlt =>
        by_cases hid : id = 0
        · rw [List.filter_cons_of_neg (by simp [hid])]
          exact ih (hid ▸ hrest) (by omega)
        · obtain ⟨habove, hnodup⟩ := CounterStep.above hrest hid (by omega)
          rw [List.filter_cons_of_pos (by simp [hid])]
          refine List.nodup_cons.mpr ⟨fun hmem => ?_, hnodup.filter _⟩
          exact Nat.lt_irrefl _ (habove id (List.mem_of_mem_filter hmem))

/-! ## The messages -/

/-- The ids in front of the messages that a log sends. -/
def sentIds (log : List Event) : List Bytes :=
  log.filterMap fun
    | .sent _ buf _ => some (buf.take 4)
    | _ => none

theorem sentIds_append (log log' : List Event) :
    sentIds (log ++ log') = sentIds log ++ sentIds log' := List.filterMap_append

theorem sentIds_of_isReceive {events : List Event} (h : ∀ e ∈ events, e.isReceive = true) :
    sentIds events = [] := by
  rw [sentIds, List.filterMap_eq_nil_iff]
  intro e he
  have hreceive := h e he
  cases e with
  | sent endp buf result => cases hreceive
  | polled result => rfl
  | received d => rfl
  | recvFailed errno => rfl
  | terminated index => rfl

/-- The messages of a log are numbered by at most `n` calls of the counter. -/
def Counted (n : Nat) (st st' : ResolverState) (log : List Event) : Prop :=
  ∃ ids, Runs CounterStep st.reqId ids st'.reqId ∧ ids.length ≤ n ∧
    (sentIds log).Sublist (ids.map fun id => encodeLE 4 id.toNat)

theorem Counted.silent {n : Nat} {st st' : ResolverState} {log : List Event}
    (hid : st'.reqId = st.reqId) (hlog : sentIds log = []) : Counted n st st' log :=
  ⟨[], hid ▸ .nil _, Nat.zero_le n, hlog ▸ List.nil_sublist _⟩

theorem Counted.append {m n : Nat} {st st₁ st' : ResolverState} {log log' : List Event}
    (h : Counted m st st₁ log) (h' : Counted n st₁ st' log') :
    Counted (m + n) st st' (log ++ log') := by
  obtain ⟨ids, hrun, hlen, hsub⟩ := h
  obtain ⟨ids', hrun', hlen', hsub'⟩ := h'
  refine ⟨ids ++ ids', hrun.append hrun', ?_, ?_⟩
  · rw [List.length_append]
    exact Nat.add_le_add hlen hlen'
  · rw [sentIds_append, List.map_append]
    exact hsub.append hsub'

theorem Counted.mono {m n : Nat} {st st' : ResolverState} {log : List Event}
    (h : Counted m st st' log) (hle : m ≤ n) : Counted n st st' log := by
  obtain ⟨ids, hrun, hlen, hsub⟩ := h
  exact ⟨ids, hrun, hlen.trans hle, hsub⟩

section Resolve

variable {ω : Type} {net : Net ω} {c c' : Ctx ω}

/-- An attempt takes one id, for the message it sends if it sends one. -/
theorem AttemptStep.counted (hrand : RandBounded net.rand) {endp : Endpoint} {e : AttemptEnd}
    (h : AttemptStep net endp c e c') :
    ∃ log, c'.trace = c.trace ++ log ∧ Counted 1 c.st c'.st log := by
  have hstep : CounterStep c.st.reqId (nextRequest net c).id (nextRequest net c).id :=
    genRequestId_counter hrand c.st.reqId c.world
  have hcounted : ∀ (st' : ResolverState) (log : List Event),
      st'.reqId = (nextRequest net c).id →
      (sentIds log).Sublist [encodeLE 4 (nextRequest net c).id.toNat] →
      Counted 1 c.st st' log := by
    intro st' log hst hlog
    refine ⟨[(nextRequest net c).id], ?_, Nat.le_refl 1, hlog⟩
    rw [hst]
    exact .single hstep
  have himage := take_four_requestImage (nextRequest net c)
  cases h with
  | refused _ =>
    exact ⟨[], (List.append_nil _).symm, hcounted _ _ rfl (List.nil_sublist _)⟩
  | sendFailed _ _ _ =>
    refine ⟨_, rfl, hcounted _ _ rfl ?_⟩
    rw [← himage]
    exact List.Sublist.refl _
  | notReady _ _ _ _ =>
    refine ⟨_, rfl, hcounted _ _ rfl ?_⟩
    rw [← himage]
    exact List.Sublist.refl _
  | ready _ _ _ _ =>
    refine ⟨_, rfl, hcounted _ _ rfl ?_⟩
    rw [← himage]
    exact List.Sublist.refl _

theorem recvLoop_reqId (net : Net ω) (fuel : Nat) (hfd : 0 ≤ c.st.socketFd) :
    (recvLoop net fuel c).2.st.reqId = c.st.reqId := by
  induction fuel generalizing c with
  | zero => rfl
  | succ fuel ih =>
    have hstep := recvStep_step net hfd
    rw [recvLoop]
    rcases hrecv : recvStep net c with ⟨o, c₁⟩
    rw [hrecv] at hstep
    cases hstep with
    | failed _ => rfl
    | rejected _ _ => rfl
    | passedOver _ _ => exact ih hfd
    | answered _ _ _ => rfl

theorem attempts_counted (hrand : RandBounded net.rand) (fuel left : Nat) (endp : Option Endpoint)
    (hst : WellFormed c.st) (hpos : 0 < c.st.endpointsCount) :
    ∃ log, (attempts net fuel left endp c).2.trace = c.trace ++ log ∧
      Counted left c.st (attempts net fuel left endp c).2.st log := by
  -- on the attempts left, each of which takes one id
  induction left generalizing c endp with
  | zero => exact ⟨[], (List.append_nil _).symm, .silent rfl rfl⟩
  | succ left ih =>
    cases endp with
    | none => exact ⟨[], (List.append_nil _).symm, .silent rfl rfl⟩
    | some endp =>
      rw [attempts]
      rcases hattempt : attempt net endp c with ⟨e, c₁⟩
      obtain ⟨hstep, hwf, -, hcount⟩ := attempt_spec hst hpos hattempt
      obtain ⟨log, htrace, hlog⟩ := hstep.counted hrand
      cases e with
      | stop o => exact ⟨log, htrace, hlog.mono (Nat.le_add_left 1 left)⟩
      | next endp' =>
        obtain ⟨log', htrace', hlog'⟩ := ih endp' hwf hcount
        refine ⟨log ++ log', ?_, ?_⟩
        · simp only [htrace', htrace, List.append_assoc]
        · rw [Nat.add_comm]
          exact hlog.append hlog'
      | ready =>
        have hfd := hwf.socket hcount
        obtain ⟨log', htrace', hreceive⟩ := (recvLoop_frame net fuel hfd).log
        refine ⟨log ++ log', ?_, ?_⟩
        · simp only [htrace', htrace, List.append_assoc]
        · have hrest : Counted left c₁.st (recvLoop net fuel c₁).2.st log' :=
            .silent (recvLoop_reqId net fuel hfd) (sentIds_of_isReceive hreceive)
          rw [Nat.add_comm]
          exact hlog.append hrest

/-- A call of `resolve` takes at most one id for each endpoint. -/
theorem resolve_counted (net : Net ω) (hrand : RandBounded net.rand) (fuel : Nat)
    (hst : WellFormed c.st) :
    ∃ log, (resolve net fuel c).2.trace = c.trace ++ log ∧
      Counted maxEndpoints c.st (resolve net fuel c).2.st log := by
  rcases Nat.eq_zero_or_pos c.st.endpointsCount with hzero | hpos
  · rw [resolve, if_pos hzero]
    exact ⟨[], (List.append_nil _).symm, .silent rfl rfl⟩
  · rw [resolve_eq_attempts net fuel hst hpos]
    obtain ⟨log, htrace, hlog⟩ := attempts_counted hrand fuel c.st.endpointsCount
      (getEndpointAtIndex c.st c.st.currEndpointIndex) hst hpos
    exact ⟨log, htrace, hlog.mono c.st.count_le⟩

end Resolve

/-- The id zero, as a message has it. -/
def zeroId : Bytes := encodeLE 4 (0 : UInt32).toNat

theorem encodeId_inj {i j : UInt32} : encodeLE 4 i.toNat = encodeLE 4 j.toNat ↔ i = j := by
  constructor
  · intro heq
    have hdecode := congrArg decodeLE heq
    rw [decodeLE_encodeLE_of_lt i.toNat_lt, decodeLE_encodeLE_of_lt j.toNat_lt] at hdecode
    exact UInt32.toNat_inj.mp hdecode
  · rintro rfl
    rfl

/-- Messages that are counted from the start of a backend begin with different ids, if none begins
with zero. -/
theorem Counted.nodup {n : Nat} {st st' : ResolverState} {log : List Event}
    (h : Counted n st st' log) (hstart : st.reqId = 0) (hlen : n ≤ 2 ^ 30)
    (hzero : zeroId ∉ sentIds log) : (sentIds log).Nodup := by
  obtain ⟨ids, hrun, hle, hsub⟩ := h
  rw [hstart] at hrun
  have hnodup := CounterStep.nodup hrun (hle.trans hlen)
  have hall : (sentIds log).filter (fun buf => decide (buf ≠ zeroId)) = sentIds log := by
    refine List.filter_eq_self.mpr fun buf hbuf => decide_eq_true fun heq => ?_
    rw [heq] at hbuf
    exact hzero hbuf
  have hkept := hsub.filter (fun buf => decide (buf ≠ zeroId))
  rw [hall, List.filter_map] at hkept
  apply hkept.nodup
  have hnonzero : ((fun buf => decide (buf ≠ zeroId)) ∘ fun id : UInt32 => encodeLE 4 id.toNat) =
      fun id => decide (id ≠ 0) := by
    funext id
    exact decide_eq_decide.mpr (not_congr encodeId_inj)
  rw [hnonzero]
  exact hnodup.map fun i j heq => encodeId_inj.mp heq

/-! ## The calls of a backend -/

theorem addEndpoint_reqId {inetAton : Bytes → Option UInt32} {st st' : ResolverState} {uri : Bytes}
    {ret : Int} (h : addEndpoint inetAton st uri = some (ret, st')) : st'.reqId = st.reqId := by
  rcases addEndpoint_cases h with ⟨-, rfl⟩ | ⟨hlt, endp, ⟨-, rfl⟩ | ⟨-, -, rfl⟩⟩
  · rfl
  · rfl
  · rfl

theorem addEndpoints_reqId {inetAton : Bytes → Option UInt32} {st st' : ResolverState}
    {uris : List (Option Bytes)} (h : addEndpoints inetAton st uris = some st') :
    st'.reqId = st.reqId := by
  induction uris generalizing st with
  | nil =>
    cases h
    rfl
  | cons uri uris ih =>
    cases uri with
    | none => exact ih h
    | some uri =>
      simp only [addEndpoints, Option.bind_eq_bind, Option.bind_eq_some_iff] at h
      obtain ⟨cUri, -, cUri', -, ⟨ret, st₁⟩, hadd, h⟩ := h
      exact (ih h).trans (addEndpoint_reqId hadd)

/-- `lnp_endpoints_set` does not start the numbering again. -/
theorem lnpEndpointsSet_reqId {inetAton : Bytes → Option UInt32} {newFd : Int}
    {st st' : ResolverState} {uris : List (Option Bytes)} {r : SetResult}
    (h : lnpEndpointsSet inetAton newFd st uris = some (r, st')) : st'.reqId = st.reqId := by
  have hopened : ∀ st₀ : ResolverState,
      (if st₀.socketFd < 0 then some (SetResult.raised, st₀)
        else do
          let st ← addEndpoints inetAton (removeAllEndpoints st₀) uris
          return (.done, st)) = some (r, st') → st'.reqId = st₀.reqId := by
    intro st₀ h
    split at h
    · cases h
      rfl
    · simp only [Option.bind_eq_bind, Option.bind_eq_some_iff] at h
      obtain ⟨st₁, hadd, h⟩ := h
      cases h
      exact (addEndpoints_reqId hadd).trans rfl
  rw [lnpEndpointsSet] at h
  have hid := hopened _ h
  by_cases hclosed : st.socketFd < 0
  · rwa [if_pos hclosed] at hid
  · rwa [if_neg hclosed] at hid

section Calls

variable {ω : Type} {host : Host ω} {b b' : Backend ω} {call : Call} {calls : List Call}

theorem initSocket_state {fd : Int} {b₁ : Backend ω} (h : initSocket host b = (fd, b₁)) :
    b₁.session.st = b.session.st ∧ (0 ≤ b.session.st.socketFd → fd = b.session.st.socketFd) := by
  rcases initSocket_cases host b with ⟨hopen, hinit⟩ | ⟨hclosed, fd', world, hinit⟩
  · obtain ⟨rfl, rfl⟩ := Prod.mk.inj (h.symm.trans hinit)
    exact ⟨rfl, fun _ => rfl⟩
  · obtain ⟨rfl, rfl⟩ := Prod.mk.inj (h.symm.trans hinit)
    exact ⟨rfl, fun hopen => absurd hclosed (not_lt.mpr hopen)⟩

/-- A call that looks nothing up keeps the counter and the invariant. -/
theorem exec_silent {fuel : Nat} {behind : Bytes} {command : Command} {r : Result}
    (hwf : WellFormed b.session.st) (hlookup : command.lookup? = none)
    (h : exec host fuel behind b command = some (r, b')) :
    WellFormed b'.session.st ∧ b'.session.st.reqId = b.session.st.reqId := by
  cases command with
  | endpointsSet uris =>
    rcases hinit : initSocket host b with ⟨fd, b₁⟩
    obtain ⟨hst, -⟩ := initSocket_state hinit
    simp only [exec, hinit, Option.bind_eq_bind, Option.bind_eq_some_iff] at h
    obtain ⟨⟨r', st⟩, hset, h⟩ := h
    cases h
    rw [hst] at hset
    exact ⟨hwf.lnpEndpointsSet hset, lnpEndpointsSet_reqId hset⟩
  | endpointsShow =>
    simp only [exec, Option.bind_eq_bind, Option.bind_eq_some_iff] at h
    obtain ⟨rows, -, h⟩ := h
    cases h
    exact ⟨hwf, rfl⟩
  | cacheSet c =>
    simp only [exec, Option.bind_eq_bind, Option.bind_eq_some_iff] at h
    obtain ⟨hashTab, -, h⟩ := h
    cases h
    exact ⟨hwf, rfl⟩
  | setTimeout t =>
    rcases hinit : initSocket host b with ⟨fd, b₁⟩
    obtain ⟨hst, hfd⟩ := initSocket_state hinit
    have hwf₁ : WellFormed { b₁.session.st with socketFd := fd } := by
      rw [hst]
      exact hwf.withSocket fd (fun hopen => (hfd hopen).ge.trans' hopen)
    have hid : b₁.session.st.reqId = b.session.st.reqId := by rw [hst]
    rw [exec_setTimeout hinit] at h
    split at h
    · cases h
      exact ⟨hwf₁, hid⟩
    · cases h
      exact ⟨hwf₁, hid⟩
  | setRttTimeout t =>
    cases h
    exact ⟨hwf, rfl⟩
  | resolveCnam dbId data => cases hlookup
  | resolveTagged composite dbId number =>
    cases composite with
    | true => cases hlookup
    | false =>
      cases h
      exact ⟨hwf, rfl⟩
  | resolveTaggedWithError composite dbId number =>
    cases composite with
    | true => cases hlookup
    | false =>
      cases h
      exact ⟨hwf, rfl⟩

/-- What a call of a backend does with the socket: nothing, or what `resolve` does for a request. -/
theorem BackendStep.cases (hwf : WellFormed b.session.st) (h : BackendStep host b call b') :
    (call.log = [] ∧ WellFormed b'.session.st ∧
      b'.session.st.reqId = b.session.st.reqId) ∨
    ∃ type dbId number fuel o c, call.command.lookup? = some (type, dbId, number) ∧
      resolveRequest (b.net host) fuel b.session type dbId number = (o, c) ∧
      call.result = call.command.fromReply host.strerror o c ∧ call.log = c.trace ∧
      b'.session.st = c.st := by
  obtain ⟨fuel, behind, hexec, hlog, -⟩ := h
  rw [execLog] at hlog
  cases hlookup : call.command.lookup? with
  | none =>
    rw [hlookup] at hlog
    obtain ⟨hwf', hid⟩ := exec_silent hwf hlookup hexec
    exact .inl ⟨hlog, hwf', hid⟩
  | some lookup =>
    obtain ⟨type, dbId, number⟩ := lookup
    simp only [hlookup, lookupLog] at hlog
    obtain ⟨found, hfind⟩ := exists_ecFind b.session.hashTab number
    rw [hfind] at hlog
    cases found with
    | some entry =>
      rw [exec_of_hit hlookup hfind, Option.some.injEq, Prod.mk.injEq] at hexec
      rw [← hexec.2]
      exact .inl ⟨hlog, hwf, rfl⟩
    | none =>
      rcases hresolve : resolveRequest (b.net host) fuel b.session type dbId number with ⟨o, c⟩
      rw [exec_of_miss hlookup hfind, hresolve, Option.some.injEq, Prod.mk.injEq] at hexec
      rw [hresolve] at hlog
      refine .inr ⟨type, dbId, number, fuel, o, c, rfl, hresolve, hexec.1.symm, hlog, ?_⟩
      rw [← hexec.2]
      rfl

/-- A call keeps the invariant and counts its messages on. -/
theorem BackendStep.counted (hrand : RandBounded host.rand)
    (hwf : WellFormed b.session.st) (h : BackendStep host b call b') :
    WellFormed b'.session.st ∧ Counted maxEndpoints b.session.st b'.session.st call.log := by
  rcases h.cases hwf with
    ⟨hlog, hwf', hid⟩ | ⟨type, dbId, number, fuel, o, c, -, hresolve, -, hlog, hst⟩
  · refine ⟨hwf', .silent hid ?_⟩
    rw [hlog]
    rfl
  · obtain ⟨-, hwf', -⟩ := resolveRequest_spec hwf hresolve
    have hcounted : ∃ log, (resolveRequest (b.net host) fuel b.session type dbId number).2.trace =
        log ∧ Counted maxEndpoints b.session.st
          (resolveRequest (b.net host) fuel b.session type dbId number).2.st log :=
      resolve_counted (b.net host) hrand fuel hwf
    rw [hresolve] at hcounted
    obtain ⟨log, rfl, hcounted⟩ := hcounted
    rw [hst, hlog]
    exact ⟨hwf', hcounted⟩

/-- A session is one run of the counter. -/
theorem session_counted (hrand : RandBounded host.rand)
    (hrun : Runs (BackendStep host) b calls b') (hwf : WellFormed b.session.st) :
    WellFormed b'.session.st ∧
      Counted (calls.length * maxEndpoints) b.session.st b'.session.st
        (calls.flatMap Call.log) := by
  induction hrun with
  | nil b => exact ⟨hwf, .silent rfl rfl⟩
  | @cons b b₁ b' call calls hstep _ ih =>
    obtain ⟨hwf₁, hcall⟩ := hstep.counted hrand hwf
    obtain ⟨hwf', hcalls⟩ := ih hwf₁
    refine ⟨hwf', ?_⟩
    rw [List.length_cons, Nat.succ_mul, Nat.add_comm, List.flatMap_cons]
    exact hcall.append hcalls

end Calls

end YetiPgExt.Lnp
