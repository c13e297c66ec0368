import YetiPgExt.Lnp.Backend

/-!
# The parts of a backend

Each part of the state belongs to one function: the endpoint list to `lnp_endpoints_set`, the cache
to `lnp_endpoints_cache_set`, the timeouts to their setters. `Parts` says what a part holds in terms
of the calls of its function, and `Parts.exec` that every other call leaves it alone, if its
arguments fit their buffers (`Command.Fits`).
-/

set_option autoImplicit false

namespace YetiPgExt.Lnp

open YetiPgExt.Library YetiPgExt.Postgres

/-! ## What the calls of a session say -/

/-- The arguments fit the buffers they are copied into, with their terminators. -/
def Command.Fits : Command → Prop
  | .endpointsSet uris => ∀ uri, some uri ∈ uris → FittingText uri
  | .cacheSet c => c.response.bytes.length < ecResponseMaxLength
  | _ => True

/-- The array that a successful call of `lnp_endpoints_set` was given. -/
def Call.configured? : Call → Option (List (Option Bytes))
  | ⟨.endpointsSet uris, .set .done, _⟩ => some uris
  | _ => none

def Call.cached? : Call → Option CacheSet
  | ⟨.cacheSet c, _, _⟩ => some c
  | _ => none

/-- The argument of a successful call of `lnp_set_timeout`, if the kernel takes it. -/
def Call.timeout? {ω : Type} (host : Host ω) : Call → Option (Option Int)
  | ⟨.setTimeout t, .set .done, _⟩ =>
    if host.setsockopt (toTimeval t.toInt) then some (some t.toInt) else none
  | _ => none

/-- The timeout of a new socket: the default, if the kernel takes it. -/
def firstTimeout {ω : Type} (host : Host ω) : Option Int :=
  if host.setsockopt (toTimeval defaultRecvTimeoutMsec) then some defaultRecvTimeoutMsec else none

def Call.rttTimeout? : Call → Option Int32
  | ⟨.setRttTimeout t, _, _⟩ => some t
  | _ => none

/-- The last of the values that calls have, or a default. -/
def lastOf {α : Type} (f : Call → Option α) (default : α) (calls : List Call) : α :=
  (calls.filterMap f).getLastD default

theorem lastOf_cons {α : Type} (f : Call → Option α) (default : α) (call : Call)
    (calls : List Call) :
    lastOf f default (call :: calls) = lastOf f ((f call).getD default) calls := by
  rw [lastOf, lastOf]
  cases hf : f call with
  | none => rw [List.filterMap_cons_none hf, Option.getD_none]
  | some a => rw [List.filterMap_cons_some hf, List.getLastD_cons, Option.getD_some]

/-! ## The parts -/

/-- The endpoint list is the one that `uris` configures. -/
structure Configured (inetAton : Bytes → Option UInt32) (st : ResolverState)
    (uris : List (Option Bytes)) : Prop where
  visible_eq : (visible st).map describe = entries inetAton 0 (accepted inetAton maxEndpoints uris)
  fits : ∀ uri, some uri ∈ uris → FittingText uri

/-- What a backend holds after calls with these arguments. -/
structure Parts {ω : Type} (host : Host ω) (b : Backend ω) (uris : List (Option Bytes))
    (stores : List CacheSet) (timeout : Option Int) (rttTimeout : Int32) : Prop where
  configured : Configured host.inetAton b.session.st uris
  hashTab_eq : cacheSets none stores = some b.session.hashTab
  stores_short : ∀ c ∈ stores, c.response.bytes.length < ecResponseMaxLength
  recvTimeout_eq :
    b.recvTimeout = if b.session.st.socketFd < 0 then none else timeout.map toTimeval
  timeout_of_closed : b.session.st.socketFd < 0 → timeout = firstTimeout host
  rttTimeout_eq : b.rttTimeout = rttTimeout

theorem Parts.start {ω : Type} (host : Host ω) (world : ω) :
    Parts host (.start world) [] [] (firstTimeout host) defaultRttTimeoutMsec where
  configured := ⟨rfl, fun _ h => absurd h List.not_mem_nil⟩
  hashTab_eq := rfl
  stores_short _ h := absurd h List.not_mem_nil
  recvTimeout_eq := rfl
  timeout_of_closed _ := rfl
  rttTimeout_eq := rfl

/-- The milliseconds that a timeout stands for. -/
theorem toTimeval_micro (t : Int) :
    (toTimeval t).sec * 1000000 + (toTimeval t).usec = 1000 * t ∧
      -1000000 < (toTimeval t).usec ∧ (toTimeval t).usec < 1000000 := by
  have hdiv := Int.mul_tdiv_add_tmod t 1000
  have hlow := Int.lt_tmod_of_pos t (show (0 : Int) < 1000 by decide)
  have hhigh := Int.tmod_lt_of_pos t (show (0 : Int) < 1000 by decide)
  simp only [toTimeval]
  omega

/-! ## The endpoint list -/

theorem visible_congr {st st' : ResolverState} (h : SameList st st') :
    visible st' = visible st := by
  rw [visible, visible, h.endpoints_eq, h.count_eq]

theorem Configured.of_sameList {inetAton : Bytes → Option UInt32} {st st' : ResolverState}
    {uris : List (Option Bytes)} (hst : Configured inetAton st uris) (h : SameList st st') :
    Configured inetAton st' uris := ⟨by rw [visible_congr h]; exact hst.visible_eq, hst.fits⟩

theorem Configured.show_eq {inetAton : Bytes → Option UInt32} {st : ResolverState}
    {uris : List (Option Bytes)} (h : Configured inetAton st uris) :
    lnpEndpointsShow st = some (rowsOf (accepted inetAton maxEndpoints uris)) := by
  apply lnpEndpointsShow_eq h.visible_eq
  intro uri huri
  have hmem := List.mem_of_mem_filter (List.mem_of_mem_take huri)
  exact (h.fits uri (List.reduceOption_mem_iff.mp hmem)).length_lt

/-- A list that was set replaces the old one; a call without a socket raises and leaves the list
alone. -/
theorem lnpEndpointsSet_configured (inetAton : Bytes → Option UInt32) (newFd : Int)
    (st : ResolverState) {uris : List (Option Bytes)}
    (huris : ∀ uri, some uri ∈ uris → FittingText uri) :
    (st.socketFd < 0 ∧ newFd < 0 ∧
      lnpEndpointsSet inetAton newFd st uris = some (.raised, { st with socketFd := newFd })) ∨
    (¬ (st.socketFd < 0 ∧ newFd < 0) ∧
      ∃ st', lnpEndpointsSet inetAton newFd st uris = some (.done, st') ∧
        Configured inetAton st' uris ∧ 0 ≤ st'.socketFd) := by
  by_cases hraise : st.socketFd < 0 ∧ newFd < 0
  · left
    refine ⟨hraise.1, hraise.2, ?_⟩
    rw [lnpEndpointsSet, if_pos hraise.1, if_pos hraise.2]
  · right
    refine ⟨hraise, ?_⟩
    have hopen := fun h => hraise (socketFd_init_lt_iff.mp h)
    obtain ⟨st', hadd, -, hvis⟩ := addEndpoints_shown inetAton
      (removeAllEndpoints (if st.socketFd < 0 then { st with socketFd := newFd } else st)) huris
    refine ⟨st', ?_, ⟨hvis, huris⟩, ?_⟩
    · rw [lnpEndpointsSet, if_neg hopen, hadd]
      rfl
    · exact (Filling.addEndpoints (Filling.removeAllEndpoints (not_lt.mp hopen)) hadd).socket

/-! ## Resolving -/

section Resolve

variable {ω : Type} {net : Net ω} {c : Ctx ω}

theorem attempts_sameList (fuel left : Nat) (endp : Option Endpoint) (hst : WellFormed c.st)
    (hpos : 0 < c.st.endpointsCount) :
    SameList c.st (attempts net fuel left endp c).2.st := by
  -- on the attempts left
  induction left generalizing c endp with
  | zero => exact .refl _
  | succ left ih =>
    cases endp with
    | none => exact .refl _
    | some endp =>
      rw [attempts]
      rcases hattempt : attempt net endp c with ⟨e, c₁⟩
      obtain ⟨-, hwf, hsame, hcount⟩ := attempt_spec hst hpos hattempt
      cases e with
      | stop o => exact hsame
      | next endp' => exact hsame.trans (ih endp' hwf hcount)
      | ready => exact hsame.trans (recvLoop_frame net fuel (hwf.socket hcount)).sameList

/-- `resolve` changes neither the endpoints nor the socket. -/
theorem resolve_sameList (net : Net ω) (fuel : Nat) (hst : WellFormed c.st) :
    SameList c.st (resolve net fuel c).2.st := by
  rcases Nat.eq_zero_or_pos c.st.endpointsCount with hzero | hpos
  · rw [resolve, if_pos hzero]
    exact .refl _
  · rw [resolve_eq_attempts net fuel hst hpos]
    exact attempts_sameList fuel _ _ hst hpos

end Resolve

/-! ## One call -/

section Step

variable {ω : Type} {host : Host ω} {fuel : Nat} {behind : Bytes} {b b' : Backend ω}

/-- The default timeout on a new socket. -/
theorem setTimeout_default (host : Host ω) :
    Lnp.setTimeout host defaultRecvTimeoutMsec none = (firstTimeout host).map toTimeval := by
  rw [Lnp.setTimeout, firstTimeout]
  split <;> rfl

/-- A timeout that is set replaces the old one if the kernel takes it. -/
theorem setTimeout_map (host : Host ω) (t : Int32) (timeout : Option Int) (log : List Event) :
    Lnp.setTimeout host t.toInt (timeout.map toTimeval) =
      ((Call.timeout? host ⟨.setTimeout t, .set .done, log⟩).getD timeout).map toTimeval := by
  rw [Lnp.setTimeout, Call.timeout?]
  split <;> rfl

/-- An open socket is not opened again; a new one gets the default timeout. -/
theorem initSocket_cases (host : Host ω) (b : Backend ω) :
    (0 ≤ b.session.st.socketFd ∧ initSocket host b = (b.session.st.socketFd, b)) ∨
    (b.session.st.socketFd < 0 ∧ ∃ fd world, initSocket host b =
      (fd, { b with
        session := { b.session with world := world }
        recvTimeout :=
          if fd < 0 then b.recvTimeout else (firstTimeout host).map toTimeval })) := by
  rw [initSocket]
  by_cases hclosed : b.session.st.socketFd < 0
  · rw [if_pos hclosed, setTimeout_default]
    exact .inr ⟨hclosed, _, _, rfl⟩
  · rw [if_neg hclosed]
    exact .inl ⟨not_lt.mp hclosed, rfl⟩

theorem exec_endpointsSet {b₁ : Backend ω} {fd : Int} {uris : List (Option Bytes)} {r : SetResult}
    {st : ResolverState} (hinit : initSocket host b = (fd, b₁))
    (hset : lnpEndpointsSet host.inetAton fd b₁.session.st uris = some (r, st)) :
    exec host fuel behind b (.endpointsSet uris) = some (.set r, b₁.withState st) := by
  rw [exec, hinit]
  simp only [hset, Option.bind_eq_bind, Option.bind_some]
  rfl

theorem exec_setTimeout {b₁ : Backend ω} {fd : Int} (hinit : initSocket host b = (fd, b₁))
    (t : Int32) :
    exec host fuel behind b (.setTimeout t) =
      if fd < 0 then some (.set .raised, b₁.withState { b₁.session.st with socketFd := fd })
      else some (.set .done, { b₁.withState { b₁.session.st with socketFd := fd } with
        recvTimeout := Lnp.setTimeout host t.toInt b₁.recvTimeout }) := by
  rw [exec, lnpSetTimeout, hinit]
  by_cases hneg : fd < 0
  · simp only [if_pos hneg]
  · simp only [if_neg hneg]
    rfl

/-- A descriptor in place of a closed one. -/
theorem WellFormed.withSocket {st : ResolverState} (hst : WellFormed st) (fd : Int)
    (hfd : 0 ≤ st.socketFd → 0 ≤ fd) : WellFormed { st with socketFd := fd } where
  index_nonneg := hst.index_nonneg
  index_lt := hst.index_lt
  socket hpos := hfd (hst.socket hpos)
  ids := hst.ids

variable {uris : List (Option Bytes)} {stores : List CacheSet} {timeout : Option Int}
variable {rttTimeout : Int32}

/-- A resolved number changes the index, the counter, the buffer and the world. -/
theorem Parts.after (h : Parts host b uris stores timeout rttTimeout) {c : Ctx ω}
    (hsame : SameList b.session.st c.st) :
    Parts host { b with session := b.session.after c } uris stores timeout rttTimeout where
  configured := h.configured.of_sameList hsame
  hashTab_eq := h.hashTab_eq
  stores_short := h.stores_short
  recvTimeout_eq := by
    show b.recvTimeout = if c.st.socketFd < 0 then none else timeout.map toTimeval
    rw [hsame.socket_eq]
    exact h.recvTimeout_eq
  timeout_of_closed hclosed := h.timeout_of_closed (by rwa [← hsame.socket_eq])
  rttTimeout_eq := h.rttTimeout_eq

/-- A call of `lnp_endpoints_set` on the parts. -/
theorem Parts.endpointsSet (fuel : Nat) (behind : Bytes) (hwf : WellFormed b.session.st)
    (h : Parts host b uris stores timeout rttTimeout) {newUris : List (Option Bytes)}
    (huris : ∀ uri, some uri ∈ newUris → FittingText uri) :
    ∃ r b', exec host fuel behind b (.endpointsSet newUris) = some (.set r, b') ∧
      WellFormed b'.session.st ∧
      Parts host b' (if r = .done then newUris else uris) stores timeout rttTimeout := by
  rcases initSocket_cases host b with ⟨hopen, hinit⟩ | ⟨hclosed, fd, world, hinit⟩
  · -- the socket stays as it is
    rcases lnpEndpointsSet_configured host.inetAton b.session.st.socketFd b.session.st huris with
      ⟨hlt, -⟩ | ⟨-, st', hset, hconf, hfd⟩
    · exact absurd hlt (not_lt.mpr hopen)
    · refine ⟨.done, _, exec_endpointsSet hinit hset, hwf.lnpEndpointsSet hset, hconf,
        h.hashTab_eq, h.stores_short, ?_, fun hlt => absurd hlt (not_lt.mpr hfd), h.rttTimeout_eq⟩
      show b.recvTimeout = if st'.socketFd < 0 then none else timeout.map toTimeval
      rw [if_neg (not_lt.mpr hfd)]
      exact h.recvTimeout_eq.trans (if_neg (not_lt.mpr hopen))
  · rcases lnpEndpointsSet_configured host.inetAton fd b.session.st huris with
      ⟨-, hneg, hset⟩ | ⟨hsocket, st', hset, hconf, hfd⟩
    · refine ⟨.raised, _, exec_endpointsSet hinit hset, hwf.lnpEndpointsSet hset,
        ⟨h.configured.visible_eq, h.configured.fits⟩, h.hashTab_eq, h.stores_short, ?_,
        fun _ => h.timeout_of_closed hclosed, h.rttTimeout_eq⟩
      show (if fd < 0 then b.recvTimeout else _) = if fd < 0 then none else _
      rw [if_pos hneg, if_pos hneg]
      exact h.recvTimeout_eq.trans (if_pos hclosed)
    · have hnonneg : ¬ fd < 0 := fun hneg => hsocket ⟨hclosed, hneg⟩
      refine ⟨.done, _, exec_endpointsSet hinit hset, hwf.lnpEndpointsSet hset, hconf,
        h.hashTab_eq, h.stores_short, ?_, fun hlt => absurd hlt (not_lt.mpr hfd), h.rttTimeout_eq⟩
      show (if fd < 0 then b.recvTimeout else _) = if st'.socketFd < 0 then none else _
      rw [if_neg hnonneg, if_neg (not_lt.mpr hfd), h.timeout_of_closed hclosed]

/-- A call of `lnp_set_timeout` on the parts. -/
theorem Parts.setTimeout (fuel : Nat) (behind : Bytes) (hwf : WellFormed b.session.st)
    (h : Parts host b uris stores timeout rttTimeout) (t : Int32) :
    ∃ r b', exec host fuel behind b (.setTimeout t) = some (.set r, b') ∧
      WellFormed b'.session.st ∧
      ∀ log, Parts host b' uris stores
        ((Call.timeout? host ⟨.setTimeout t, .set r, log⟩).getD timeout) rttTimeout := by
  rcases initSocket_cases host b with ⟨hopen, hinit⟩ | ⟨hclosed, fd, world, hinit⟩
  · have hnonneg : ¬ b.session.st.socketFd < 0 := not_lt.mpr hopen
    refine ⟨.done, _, (exec_setTimeout hinit t).trans (if_neg hnonneg), hwf, fun log =>
      ⟨⟨h.configured.visible_eq, h.configured.fits⟩, h.hashTab_eq, h.stores_short, ?_,
        fun hlt => absurd hlt hnonneg, h.rttTimeout_eq⟩⟩
    show Lnp.setTimeout host t.toInt b.recvTimeout = if b.session.st.socketFd < 0 then none else _
    rw [h.recvTimeout_eq, if_neg hnonneg, if_neg hnonneg, setTimeout_map host t timeout log]
  · have hwf' := hwf.withSocket fd (fun hopen => absurd hclosed (not_lt.mpr hopen))
    by_cases hneg : fd < 0
    · refine ⟨.raised, _, (exec_setTimeout hinit t).trans (if_pos hneg), hwf', fun log =>
        ⟨⟨h.configured.visible_eq, h.configured.fits⟩, h.hashTab_eq, h.stores_short, ?_,
          fun _ => h.timeout_of_closed hclosed, h.rttTimeout_eq⟩⟩
      show (if fd < 0 then b.recvTimeout else _) = if fd < 0 then none else _
      rw [if_pos hneg, if_pos hneg]
      exact h.recvTimeout_eq.trans (if_pos hclosed)
    · refine ⟨.done, _, (exec_setTimeout hinit t).trans (if_neg hneg), hwf', fun log =>
        ⟨⟨h.configured.visible_eq, h.configured.fits⟩, h.hashTab_eq, h.stores_short, ?_,
          fun hlt => absurd hlt hneg, h.rttTimeout_eq⟩⟩
      -- the new socket has the default, until the call sets its own timeout
      show Lnp.setTimeout host t.toInt (if fd < 0 then b.recvTimeout else _) =
        if fd < 0 then none else _
      rw [if_neg hneg, if_neg hneg, h.timeout_of_closed hclosed,
        setTimeout_map host t (firstTimeout host) log]

/-! ### The cache -/

/-- A call of `lnp_endpoints_cache_set` on the parts. -/
theorem Parts.cacheSet (fuel : Nat) (behind : Bytes)
    (h : Parts host b uris stores timeout rttTimeout) {c : CacheSet}
    (hc : c.response.bytes.length < ecResponseMaxLength) :
    ∃ b', exec host fuel behind b (.cacheSet c) = some (.set .done, b') ∧
      b'.session.st = b.session.st ∧
      Parts host b' uris (stores ++ [c]) timeout rttTimeout := by
  obtain ⟨hashTab, hstore⟩ : ∃ hashTab,
      ecStore b.session.hashTab c.key c.response c.error = some hashTab := ⟨_, ecStore_eq _ _⟩
  refine ⟨b.withCache hashTab, ?_, rfl, ?_⟩
  · rw [exec, hstore]
    rfl
  · refine ⟨h.configured, ?_, ?_, h.recvTimeout_eq, h.timeout_of_closed, h.rttTimeout_eq⟩
    · rw [cacheSets_append, h.hashTab_eq, Option.bind_some, cacheSets, hstore]
      rfl
    · intro c' hc'
      rcases List.mem_append.mp hc' with hc' | hc'
      · exact h.stores_short c' hc'
      · rwa [List.mem_singleton.mp hc']

/-- What a lookup answers from the cache. -/
def Command.cached (a : CacheAnswer) : Command → Result
  | .resolveTagged _ _ _ =>
    .tagged (if a.error then .null a.response else .value ⟨some a.response, none⟩)
  | .resolveTaggedWithError _ _ _ =>
    .withError (.value (if a.error then ⟨none, none, some a.response⟩
      else ⟨some a.response, none, none⟩))
  | _ => .cnam (if a.error then .null a.response else .value a.response)

/-- A cached response that ends in its field is read up to there. -/
theorem Command.fromCache_eq (command : Command) {mem : Bytes} {a : CacheAnswer}
    (hread : cString? mem = some a.response) :
    command.fromCache mem a.error = command.cached a := by
  obtain ⟨response, error⟩ := a
  cases command <;> cases error <;>
    simp [Command.fromCache, Command.cached, CallEnd.ofWarning, CallEnd.ofValue, buildResult,
      buildResultWithError, cStringField, hread]

theorem cString?_entryOf_append {c : CacheSet}
    (h : c.response.bytes.length < ecResponseMaxLength) (behind : Bytes) :
    cString? ((entryOf c).response ++ behind) = some c.response.bytes := by
  obtain ⟨n, hn⟩ := Nat.exists_eq_succ_of_ne_zero (Nat.ne_of_gt (Nat.sub_pos_of_lt h))
  rw [entryOf, List.take_of_length_le (Nat.le_of_lt h), List.append_assoc, hn]
  exact cString?_append c.response.no_zero rfl

/-- A lookup of a number: from the cache if there is a store under it, or else not. -/
theorem Parts.find_cases (h : Parts host b uris stores timeout rttTimeout) (number : Text) :
    (∃ a entry, recentAnswer keyPrefix stores number = some a ∧
      ecFind b.session.hashTab number = some (some entry) ∧ entry.error = a.error ∧
      ∀ behind, cString? (entry.response ++ behind) = some a.response) ∨
    (recentAnswer keyPrefix stores number = none ∧
      ecFind b.session.hashTab number = some none) := by
  obtain ⟨hashTab, hsets, hfind⟩ := ecFind_cacheSets stores number
  obtain rfl : hashTab = b.session.hashTab := Option.some.inj (hsets.symm.trans h.hashTab_eq)
  have himage : lastStore (fun c => keyImage c.key) stores (keyImage number) =
      lastStore (fun c => keyPrefix c.key) stores (keyPrefix number) :=
    lastStore_congr (fun c _ => keyImage_inj)
  rw [himage] at hfind
  rw [recentAnswer]
  cases hlast : lastStore (fun c => keyPrefix c.key) stores (keyPrefix number) with
  | none =>
    rw [hlast] at hfind
    exact .inr ⟨rfl, hfind⟩
  | some c =>
    rw [hlast] at hfind
    have hc : c ∈ stores := List.mem_reverse.mp (List.mem_of_find?_eq_some hlast)
    exact .inl ⟨answerOf c, entryOf c, rfl, hfind, rfl,
      cString?_entryOf_append (h.stores_short c hc)⟩

/-! ### Resolving a number -/

/-- A string that was stored with its terminator has an end. -/
theorem cString?_terminated (s : Bytes) : ∃ t, cString? (terminated s) = some t := by
  rw [cString?, terminated, if_pos (List.mem_append_right s List.mem_cons_self)]
  exact ⟨_, rfl⟩

theorem cStringField_terminated (s : Option Bytes) :
    ∃ field, cStringField (s.map terminated) = some field := by
  cases s with
  | none => exact ⟨none, rfl⟩
  | some s =>
    obtain ⟨t, ht⟩ := cString?_terminated s
    exact ⟨some t, congrArg (Option.map some) ht⟩

theorem CallEnd.isUndefined_ofWarning {α : Type} {mem t : Bytes} (h : cString? mem = some t) :
    (ofWarning mem : CallEnd α).isUndefined = false := by
  rw [ofWarning, h]
  rfl

theorem CallEnd.isUndefined_ofValue {α : Type} {v : Option α} (h : ∃ a, v = some a) :
    (ofValue v).isUndefined = false := by
  obtain ⟨a, rfl⟩ := h
  rfl

/-- `error ? error : "generic failure"` has an end. -/
theorem cString?_failureMem (strerror : Int → Bytes) (error : Option ResolveError) :
    ∃ t, cString? (failureMem strerror error) = some t := by
  cases error with
  | none => exact cString?_terminated _
  | some e => exact cString?_terminated _

theorem buildResult_terminated (v₀ v₁ : Option Bytes) :
    ∃ row, buildResult (v₀.map terminated) (v₁.map terminated) = some row := by
  obtain ⟨lrn, hlrn⟩ := cStringField_terminated v₀
  obtain ⟨tag, htag⟩ := cStringField_terminated v₁
  exact ⟨⟨lrn, tag⟩, by rw [buildResult, hlrn, htag]; rfl⟩

theorem buildResultWithError_terminated (v₀ v₁ v₂ : Option Bytes) :
    ∃ row, buildResultWithError (v₀.map terminated) (v₁.map terminated) (v₂.map terminated) =
      some row := by
  obtain ⟨lrn, hlrn⟩ := cStringField_terminated v₀
  obtain ⟨tag, htag⟩ := cStringField_terminated v₁
  obtain ⟨error, herror⟩ := cStringField_terminated v₂
  exact ⟨⟨lrn, tag, error⟩, by rw [buildResultWithError, hlrn, htag, herror]; rfl⟩

theorem resolveRequest_spec {net : Net ω} {s : Session ω} {type : UInt8} {dbId : Int32}
    {number : Text} {o : Outcome} {c : Ctx ω} (hst : WellFormed s.st)
    (h : resolveRequest net fuel s type dbId number = (o, c)) :
    o ≠ .crashed ∧ WellFormed c.st ∧ SameList s.st c.st := by
  have hne : (resolveRequest net fuel s type dbId number).1 ≠ .crashed :=
    (resolve_wellFormed net fuel hst).1
  have hwf : WellFormed (resolveRequest net fuel s type dbId number).2.st :=
    (resolve_wellFormed net fuel hst).2
  have hsame : SameList s.st (resolveRequest net fuel s type dbId number).2.st := by
    rw [resolveRequest]
    exact resolve_sameList net fuel (c := { st := s.st, .. }) hst
  rw [h] at hne hwf hsame
  exact ⟨hne, hwf, hsame⟩

/-- The result of a lookup is defined whatever `resolve` came to. -/
theorem Command.isUndefined_fromReply {command : Command} {type : UInt8} {dbId : Int32}
    {number : Text} (h : command.lookup? = some (type, dbId, number)) {s : Session ω}
    {net : Net ω} (strerror : Int → Bytes) {o : Outcome} {c : Ctx ω} (hst : WellFormed s.st)
    (hresolve : resolveRequest net fuel s type dbId number = (o, c)) :
    (command.fromReply strerror o c).isUndefined = false := by
  have hcrash := (resolveRequest_spec hst hresolve).1
  have hmem := cString?_failureMem strerror c.error
  cases o with
  | crashed => exact absurd rfl hcrash
  | raised reqId cause => cases command <;> rfl
  | running => cases command <;> rfl
  | returned ret =>
    obtain ⟨t, ht⟩ := hmem
    unfold Command.lookup? at h
    split at h
    · cases h
      -- a request that was answered has its text
      have hval := (resolveRequest_agreement (.inr rfl) hresolve).2
      show (CallEnd.isUndefined (if ret ≠ 0 then _ else _)) = false
      by_cases hzero : ret = 0
      · rw [if_neg (not_not.mpr hzero)]
        cases hv : c.resp.val with
        | none => exact absurd hv ((hval hzero).json rfl)
        | some val => rfl
      · rw [if_pos hzero]
        exact CallEnd.isUndefined_ofWarning ht
    · cases h
      show (CallEnd.isUndefined (if ret ≠ 0 then _ else _)) = false
      by_cases hzero : ret = 0
      · rw [if_neg (not_not.mpr hzero)]
        exact CallEnd.isUndefined_ofValue (buildResult_terminated _ _)
      · rw [if_pos hzero]
        exact CallEnd.isUndefined_ofWarning ht
    · cases h
      show (CallEnd.isUndefined (if ret ≠ 0 then _ else _)) = false
      by_cases hzero : ret = 0
      · rw [if_neg (not_not.mpr hzero)]
        exact CallEnd.isUndefined_ofValue (buildResultWithError_terminated _ _ none)
      · rw [if_pos hzero]
        refine CallEnd.isUndefined_ofValue ?_
        rw [errorMem, show c.error.map (fun e => terminated (e.text strerror)) =
          (c.error.map (fun e => e.text strerror)).map terminated by rw [Option.map_map]; rfl]
        exact buildResultWithError_terminated none none _
    · cases h

theorem Command.isUndefined_cached (command : Command) (a : CacheAnswer) :
    (command.cached a).isUndefined = false := by
  obtain ⟨response, error⟩ := a
  cases command <;> cases error <;> rfl

/-- A lookup on the parts: it is answered from the cache and changes nothing, or resolved. -/
theorem Parts.lookup (fuel : Nat) (behind : Bytes) (hwf : WellFormed b.session.st)
    (h : Parts host b uris stores timeout rttTimeout) {command : Command} {type : UInt8}
    {dbId : Int32} {number : Text} (hlookup : command.lookup? = some (type, dbId, number)) :
    (∃ a, recentAnswer keyPrefix stores number = some a ∧
      exec host fuel behind b command = some (command.cached a, b) ∧
      execLog host fuel b command = []) ∨
    (recentAnswer keyPrefix stores number = none ∧
      ∃ o c, resolveRequest (b.net host) fuel b.session type dbId number = (o, c) ∧
        SameList b.session.st c.st ∧ WellFormed c.st ∧
        exec host fuel behind b command =
          some (command.fromReply host.strerror o c, { b with session := b.session.after c }) ∧
        execLog host fuel b command = c.trace) := by
  rcases h.find_cases number with ⟨a, entry, hanswer, hfind, herror, hread⟩ | ⟨hanswer, hfind⟩
  · left
    refine ⟨a, hanswer, ?_, ?_⟩
    · rw [exec_of_hit hlookup hfind, herror, command.fromCache_eq (hread behind)]
    · rw [execLog, hlookup]
      simp only [lookupLog, hfind]
  · right
    rcases hresolve : resolveRequest (b.net host) fuel b.session type dbId number with ⟨o, c⟩
    obtain ⟨-, hwf', hsame⟩ := resolveRequest_spec hwf hresolve
    refine ⟨hanswer, o, c, rfl, hsame, hwf', ?_, ?_⟩
    · rw [exec_of_miss hlookup hfind, hresolve]
    · rw [execLog, hlookup]
      simp only [lookupLog, hfind, hresolve]

theorem Parts.append_nil (h : Parts host b uris stores timeout rttTimeout) :
    Parts host b uris (stores ++ []) timeout rttTimeout := by
  rwa [List.append_nil]

/-- A call that leaves the resolver to `resolve` and the rest alone. -/
theorem Parts.lookup_safe (fuel : Nat) (behind : Bytes) (hwf : WellFormed b.session.st)
    (h : Parts host b uris stores timeout rttTimeout) {command : Command} {type : UInt8}
    {dbId : Int32} {number : Text} (hlookup : command.lookup? = some (type, dbId, number)) :
    ∃ r b', exec host fuel behind b command = some (r, b') ∧ r.isUndefined = false ∧
      WellFormed b'.session.st ∧ Parts host b' uris stores timeout rttTimeout := by
  rcases h.lookup fuel behind hwf hlookup with
    ⟨a, -, hexec, -⟩ | ⟨-, o, c, hresolve, hsame, hwf', hexec, -⟩
  · exact ⟨_, b, hexec, command.isUndefined_cached a, hwf, h⟩
  · exact ⟨_, _, hexec, Command.isUndefined_fromReply hlookup _ hwf hresolve, hwf',
      h.after hsame⟩

/-- Every call whose arguments fit has a defined result and changes its own part only. -/
theorem Parts.exec (fuel : Nat) (behind : Bytes) (hwf : WellFormed b.session.st)
    (h : Parts host b uris stores timeout rttTimeout) {command : Command} (hfit : command.Fits) :
    ∃ r b', exec host fuel behind b command = some (r, b') ∧ r.isUndefined = false ∧
      WellFormed b'.session.st ∧
      ∀ log, let call : Call := ⟨command, r, log⟩
        Parts host b' (call.configured?.getD uris) (stores ++ call.cached?.toList)
          ((call.timeout? host).getD timeout) (call.rttTimeout?.getD rttTimeout) := by
  cases command with
  | endpointsSet newUris =>
    obtain ⟨r, b', hexec, hwf', h'⟩ := h.endpointsSet fuel behind hwf hfit
    refine ⟨.set r, b', hexec, rfl, hwf', fun log => ?_⟩
    cases r with
    | done =>
      rw [if_pos rfl] at h'
      exact h'.append_nil
    | raised =>
      rw [if_neg (by decide)] at h'
      exact h'.append_nil
  | endpointsShow =>
    refine ⟨.rows (rowsOf (accepted host.inetAton maxEndpoints uris)), b, ?_, rfl, hwf,
      fun log => h.append_nil⟩
    rw [Lnp.exec, h.configured.show_eq]
    rfl
  | cacheSet c =>
    obtain ⟨b', hexec, hst, h'⟩ := h.cacheSet fuel behind hfit
    exact ⟨_, b', hexec, rfl, by rwa [hst], fun log => h'⟩
  | setTimeout t =>
    obtain ⟨r, b', hexec, hwf', h'⟩ := h.setTimeout fuel behind hwf t
    exact ⟨.set r, b', hexec, rfl, hwf', fun log => (h' log).append_nil⟩
  | setRttTimeout t =>
    have h' : Parts host (Lnp.setRttTimeout b t) uris stores timeout t :=
      ⟨h.configured, h.hashTab_eq, h.stores_short, h.recvTimeout_eq, h.timeout_of_closed, rfl⟩
    exact ⟨_, _, rfl, rfl, hwf, fun log => h'.append_nil⟩
  | resolveCnam dbId data =>
    obtain ⟨r, b', hexec, hdef, hwf', h'⟩ := h.lookup_safe fuel behind hwf
      (show (Command.resolveCnam dbId data).lookup? = some _ from rfl)
    exact ⟨r, b', hexec, hdef, hwf', fun log => h'.append_nil⟩
  | resolveTagged composite dbId number =>
    cases composite with
    | false => exact ⟨_, b, rfl, rfl, hwf, fun log => h.append_nil⟩
    | true =>
      obtain ⟨r, b', hexec, hdef, hwf', h'⟩ := h.lookup_safe fuel behind hwf
        (show (Command.resolveTagged true dbId number).lookup? = some _ from rfl)
      exact ⟨r, b', hexec, hdef, hwf', fun log => h'.append_nil⟩
  | resolveTaggedWithError composite dbId number =>
    cases composite with
    | false => exact ⟨_, b, rfl, rfl, hwf, fun log => h.append_nil⟩
    | true =>
      obtain ⟨r, b', hexec, hdef, hwf', h'⟩ := h.lookup_safe fuel behind hwf
        (show (Command.resolveTaggedWithError true dbId number).lookup? = some _ from rfl)
      exact ⟨r, b', hexec, hdef, hwf', fun log => h'.append_nil⟩

end Step

end YetiPgExt.Lnp
