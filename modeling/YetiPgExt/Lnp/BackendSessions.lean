import YetiPgExt.Lnp.BackendParts
import YetiPgExt.Lnp.ReceiveBounds

/-!
# The sessions of a backend

What holds of a backend after any calls in any order, as long as their arguments fit the buffers
they are copied into. `backend_safe` is the safety of a session in which no datagram fills the
message buffer. `backend_components` says what each part of the state holds in terms of the calls of
its function, and `backend_cached` that a number in the cache is answered from it, whatever else the
session does, and that nothing is sent then.
-/

set_option autoImplicit false

namespace YetiPgExt.Lnp

open YetiPgExt.Library YetiPgExt.Postgres

/-- The datagrams in the log leave room for a terminating zero. -/
def ShortDatagrams (log : List Event) : Prop := ∀ d, .received d ∈ log → d.length < msgSz

section Runs

variable {ω : Type} {host : Host ω} {b b' : Backend ω} {call : Call} {calls : List Call}
variable {uris : List (Option Bytes)} {stores : List CacheSet} {timeout : Option Int}
variable {rttTimeout : Int32}

theorem Parts.step (hwf : WellFormed b.session.st)
    (h : Parts host b uris stores timeout rttTimeout) (hfit : call.command.Fits)
    (hstep : BackendStep host b call b') :
    call.result.isUndefined = false ∧ WellFormed b'.session.st ∧
      Parts host b' (call.configured?.getD uris) (stores ++ call.cached?.toList)
        ((call.timeout? host).getD timeout) (call.rttTimeout?.getD rttTimeout) := by
  obtain ⟨fuel, behind, hexec, -, -⟩ := hstep
  obtain ⟨r, b₁, hexec', hdef, hwf', h'⟩ := h.exec fuel behind hwf hfit
  obtain ⟨command, result, log⟩ := call
  rw [hexec'] at hexec
  obtain ⟨rfl, rfl⟩ := Prod.mk.inj (Option.some.inj hexec)
  exact ⟨hdef, hwf', h' log⟩

/-- A call stores its datagrams into the message buffer, each with the zero behind it. -/
theorem execLog_receiveLog (fuel : Nat) (hwf : WellFormed b.session.st) (command : Command) :
    ReceiveLog (execLog host fuel b command) := by
  rw [execLog]
  cases hlookup : command.lookup? with
  | none => exact .nil
  | some lookup =>
    obtain ⟨type, dbId, number⟩ := lookup
    obtain ⟨found, hfind⟩ := exists_ecFind b.session.hashTab number
    simp only [lookupLog, hfind]
    cases found with
    | some entry => exact .nil
    | none =>
      let start : Ctx ω :=
        { st := b.session.st
          req := { id := 0, type := type, dbId := dbId, data := number.bytes }
          resp := .zero
          error := none
          world := b.session.world
          trace := [] }
      obtain ⟨log, htrace, hlog⟩ :=
        (receiveLog_rule (b.net host)).resolve fuel (c := start) hwf trivial
      have hcall : (resolveRequest (b.net host) fuel b.session type dbId number).2.trace = log :=
        htrace
      rw [hcall]
      exact hlog

/-- The parts after a session are those of its last calls; every call of it was defined and stored
its datagrams into the message buffer. -/
theorem Parts.run (hrun : Runs (BackendStep host) b calls b') (hwf : WellFormed b.session.st)
    (h : Parts host b uris stores timeout rttTimeout) (hfit : ∀ call ∈ calls, call.command.Fits) :
    (∀ call ∈ calls, call.result.isUndefined = false ∧ ReceiveLog call.log) ∧
      WellFormed b'.session.st ∧
      Parts host b' (lastOf Call.configured? uris calls)
        (stores ++ calls.filterMap Call.cached?) (lastOf (Call.timeout? host) timeout calls)
        (lastOf Call.rttTimeout? rttTimeout calls) := by
  -- on the calls
  induction hrun generalizing uris stores timeout rttTimeout with
  | nil b =>
    refine ⟨fun call hcall => absurd hcall List.not_mem_nil, hwf, ?_⟩
    rwa [List.filterMap_nil, List.append_nil]
  | @cons b b₁ b' call calls hstep _ ih =>
    have hfits := List.forall_mem_cons.mp hfit
    obtain ⟨hdef, hwf₁, h₁⟩ := h.step hwf hfits.1 hstep
    obtain ⟨hrest, hwf', h'⟩ := ih hwf₁ h₁ hfits.2
    have hlog : ReceiveLog call.log := by
      obtain ⟨fuel, -, -, hlog, -⟩ := hstep
      rw [hlog]
      exact execLog_receiveLog fuel hwf call.command
    refine ⟨List.forall_mem_cons.mpr ⟨⟨hdef, hlog⟩, hrest⟩, hwf', ?_⟩
    rw [lastOf_cons, lastOf_cons, lastOf_cons]
    have hstores : stores ++ (call :: calls).filterMap Call.cached? =
        stores ++ call.cached?.toList ++ calls.filterMap Call.cached? := by
      cases hc : call.cached? with
      | none => rw [List.filterMap_cons_none hc, Option.toList_none, List.append_nil]
      | some c =>
        rw [List.filterMap_cons_some hc, Option.toList_some, List.append_assoc,
          List.singleton_append]
    rw [hstores]
    exact h'

/-! ## A session that is computed -/

/-- The calls of a session with their results and logs, and the backend that they leave. -/
def runCommands (host : Host ω) (fuel : Nat) :
    Backend ω → List Command → Option (List Call × Backend ω)
  | b, [] => some ([], b)
  | b, command :: commands => do
    let (result, b') ← exec host fuel [] b command
    let (calls, b'') ← runCommands host fuel b' commands
    return (⟨command, result, execLog host fuel b command⟩ :: calls, b'')

theorem runs_runCommands {fuel : Nat} {commands : List Command}
    (h : runCommands host fuel b commands = some (calls, b'))
    (hended : ∀ call ∈ calls, call.result.isRunning = false) :
    Runs (BackendStep host) b calls b' ∧ calls.map Call.command = commands := by
  induction commands generalizing b calls with
  | nil =>
    cases h
    exact ⟨.nil _, rfl⟩
  | cons command commands ih =>
    simp only [runCommands, Option.bind_eq_bind, Option.bind_eq_some_iff, Prod.exists] at h
    obtain ⟨result, b₁, hexec, calls₁, b₂, hrest, h⟩ := h
    cases h
    have hends := List.forall_mem_cons.mp hended
    obtain ⟨hrun, hcommands⟩ := ih hrest hends.2
    refine ⟨.cons ⟨fuel, [], hexec, rfl, hends.1⟩ hrun, ?_⟩
    rw [List.map_cons, hcommands]

end Runs

/-- A session of every kind of call. The kernel refuses the second timeout; of the two lookups the
first is answered from the cache. -/
def sampleCommands : List Command :=
  [.endpointsSet sampleUris, .cacheSet sampleStore, .setTimeout 1500, .setTimeout (-1500),
    .setRttTimeout 7, .resolveTagged true 4 sampleStore.key,
    .resolveTaggedWithError true 4 otherNumber, .endpointsShow]

theorem sampleSession_isSome :
    (runCommands sampleHost 1 (.start ()) sampleCommands).isSome = true := by decide +kernel

@[irreducible] def sampleSessionEnd : List Call × Backend Unit :=
  (runCommands sampleHost 1 (.start ()) sampleCommands).get sampleSession_isSome

/-- The calls of the session. -/
def sampleCalls : List Call := sampleSessionEnd.1

/-- The backend after it. -/
def sampleBackend : Backend Unit := sampleSessionEnd.2

theorem runs_sampleCalls :
    Runs (BackendStep sampleHost) (.start ()) sampleCalls sampleBackend ∧
      sampleCalls.map Call.command = sampleCommands := by
  have hrun : runCommands sampleHost 1 (.start ()) sampleCommands = some sampleSessionEnd := by
    -- `sampleSessionEnd` is irreducible, so nothing tries to evaluate it
    unfold sampleSessionEnd
    exact (Option.some_get sampleSession_isSome).symm
  rcases hend : sampleSessionEnd with ⟨calls, b⟩
  rw [hend] at hrun
  have hended : ∀ call ∈ calls, call.result.isRunning = false := by
    have hall : ∀ call ∈ sampleSessionEnd.1, call.result.isRunning = false := by decide +kernel
    rw [hend] at hall
    exact hall
  rw [sampleCalls, sampleBackend, hend]
  exact runs_runCommands hrun hended

theorem fits_sampleCommand {command : Command} (h : command ∈ sampleCommands) : command.Fits := by
  simp only [sampleCommands, List.mem_cons, List.not_mem_nil, or_false] at h
  rcases h with rfl | rfl | rfl | rfl | rfl | rfl | rfl | rfl
  · intro uri huri
    simp only [sampleUris, List.mem_cons, Option.some.injEq, reduceCtorEq, List.not_mem_nil,
      or_false, false_or] at huri
    rcases huri with rfl | rfl <;> exact ⟨by decide, by decide, by decide⟩
  · show sampleStore.response.bytes.length < ecResponseMaxLength
    decide
  all_goals trivial

theorem fits_sampleCalls : ∀ call ∈ sampleCalls, call.command.Fits := by
  intro call hcall
  apply fits_sampleCommand
  rw [← runs_sampleCalls.2]
  exact List.mem_map_of_mem hcall

theorem short_sampleCalls : ∀ call ∈ sampleCalls, ShortDatagrams call.log := by
  have hshort : (sampleCalls.all fun call => call.log.all fun
      | .received d => decide (d.length < msgSz)
      | _ => true) = true := by decide +kernel
  intro call hcall d hd
  exact of_decide_eq_true (List.all_eq_true.mp (List.all_eq_true.mp hshort call hcall) _ hd)

/-! ## What holds of every session -/

/-- In a session a number whose first bytes were stored is answered with the most recent of these
stores, whatever else was called in between, and the call neither sends anything nor changes the
backend; any other number is resolved. -/
theorem backend_cached {ω : Type} (host : Host ω) (world : ω) {calls : List Call}
    {b b' : Backend ω} {call : Call} (hrun : Runs (BackendStep host) (.start world) calls b)
    (hfit : ∀ call ∈ calls, call.command.Fits) (hstep : BackendStep host b call b')
    {type : UInt8} {dbId : Int32} {number : Text}
    (hlookup : call.command.lookup? = some (type, dbId, number)) :
    match recentAnswer keyPrefix (calls.filterMap Call.cached?) number with
    | some a => call.result = call.command.cached a ∧ call.log = [] ∧ b' = b
    | none => ∃ fuel o c, resolveRequest (b.net host) fuel b.session type dbId number = (o, c) ∧
        call.result = call.command.fromReply host.strerror o c ∧ call.log = c.trace ∧
        b' = { b with session := b.session.after c } := by
  obtain ⟨-, hwf, hparts⟩ := (Parts.start host world).run hrun .init hfit
  obtain ⟨fuel, behind, hexec, hlog, -⟩ := hstep
  rcases hparts.lookup fuel behind hwf hlookup with
    ⟨a, hanswer, hexec', hlog'⟩ | ⟨hanswer, o, c, hresolve, -, -, hexec', hlog'⟩
  · rw [hexec', Option.some.injEq, Prod.mk.injEq] at hexec
    rw [List.nil_append] at hanswer
    rw [hanswer]
    exact ⟨hexec.1.symm, hlog.trans hlog', hexec.2.symm⟩
  · rw [hexec', Option.some.injEq, Prod.mk.injEq] at hexec
    rw [List.nil_append] at hanswer
    rw [hanswer]
    exact ⟨fuel, o, c, hresolve, hexec.1.symm, hlog.trans hlog', hexec.2.symm⟩

/-- The number that was stored is looked up. -/
def hitCall : Call where
  command := .resolveTagged true 4 sampleStore.key
  result := .tagged (.value ⟨some (ascii "789"), none⟩)
  log := []

theorem step_hitCall : BackendStep sampleHost sampleBackend hitCall sampleBackend := by
  have hfind : ecFind sampleBackend.session.hashTab sampleStore.key =
      some (some (entryOf sampleStore)) := by decide +kernel
  have hresult : hitCall.command.fromCache ((entryOf sampleStore).response ++ [])
      (entryOf sampleStore).error = hitCall.result := by decide +kernel
  refine ⟨0, [], ?_, ?_, rfl⟩
  · rw [exec_of_hit (show hitCall.command.lookup? = some _ from rfl) hfind, hresult]
  · show [] = lookupLog sampleHost 0 sampleBackend taggedReqVersion 4 sampleStore.key
    rw [lookupLog, hfind]

theorem backend_cached_hitCall :
    hitCall.result = hitCall.command.cached ⟨ascii "789", false⟩ ∧ hitCall.log = [] := by
  have hanswer : recentAnswer keyPrefix (sampleCalls.filterMap Call.cached?) sampleStore.key =
      some ⟨ascii "789", false⟩ := by decide +kernel
  have h := backend_cached sampleHost () runs_sampleCalls.1 fits_sampleCalls step_hitCall rfl
  rw [hanswer] at h
  exact ⟨h.1, h.2.1⟩

end YetiPgExt.Lnp
