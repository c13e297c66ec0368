import YetiPgExt.Lnp.Schedule

/-!
# Foreign datagrams

A late answer to an earlier request arrives on the same socket. It should not matter to the
request in progress. `foreign_iff` says when it does not: the request is already decided, or the
call is in its receive loop and the datagram is one that `parse_msg` accepts. In every other phase
some continuation tells the two schedules apart, because the id is compared only after `poll` has
committed the call to the endpoint and the datagram has been parsed.
-/

set_option autoImplicit false

namespace YetiPgExt.Lnp

open YetiPgExt.Library

/-! ## The ids of a request -/

/-- The ids that `n` attempts in a row get. -/
def attemptIds (rand : Nat → UInt32) : Nat → UInt32 → Nat → List UInt32
  | 0, _, _ => []
  | n + 1, reqId, draws =>
    (nextId rand reqId draws).1 ::
      attemptIds rand n (nextId rand reqId draws).1 (nextId rand reqId draws).2

/-- The ids that the attempts of a call can have. -/
def callIds (rand : Nat → UInt32) (c : Ctx ScheduleWorld) : List UInt32 :=
  attemptIds rand c.st.endpointsCount c.st.reqId c.world.draws

/-- A datagram of at least 4 bytes that carries the id of no attempt of the call. -/
structure ForeignTo (rand : Nat → UInt32) (c : Ctx ScheduleWorld) (d : Bytes) : Prop where
  length_ge : 4 ≤ d.length
  id_ne : ∀ id ∈ callIds rand c, leadingId d ≠ id

/-- The phase of the call after the arrivals `pre`. -/
noncomputable def phaseAfter (rand : Nat → UInt32) (send : Endpoint → Bytes → SysResult Nat)
    (c : Ctx ScheduleWorld) (pre : List Arrival) : Phase :=
  pre.foldl (Phase.step rand send c.st c.req) (start rand send c)

/-- The phases in which a foreign datagram changes nothing. -/
def HarmlessIn (type : UInt8) (d : Bytes) : Phase → Prop
  | .polling _ _ _ _ => False
  | .receiving _ => Acceptable type (d.take msgSz)
  | .done _ => True

section Machine

variable {rand : Nat → UInt32} {send : Endpoint → Bytes → SysResult Nat}
variable {st : ResolverState} {req : Request}

/-- A call in progress has a request that fits, and an id among those of its attempts; what is left
of them belongs to the attempts left. -/
inductive InProgress (rand : Nat → UInt32) (req : Request) (ids : List UInt32) : Phase → Prop
  | polling {left : Nat} {id : UInt32} {draws : Nat} {index : Int} {past : List UInt32} :
      Sendable req → ids = past ++ id :: attemptIds rand left id draws →
      InProgress rand req ids (.polling left id draws index)
  | receiving {id : UInt32} : Sendable req → id ∈ ids → InProgress rand req ids (.receiving id)
  | done {v : Verdict} : InProgress rand req ids (.done v)

theorem inProgress_startAttempt {ids : List UInt32} (past : List UInt32) {left : Nat}
    {reqId : UInt32} {draws : Nat} (h : ids = past ++ attemptIds rand left reqId draws)
    (index : Int) :
    InProgress rand req ids (startAttempt rand send st req left reqId draws index) := by
  rcases startAttempt_cases rand send st req left reqId draws
    index with hstart | hstart | ⟨left', rfl, hsendable, hstart⟩
  · rw [hstart]
    exact .done
  · rw [hstart]
    exact .done
  · rw [hstart]
    exact .polling hsendable h

theorem inProgress_receive {ids : List UInt32} {id : UInt32} (hsendable : Sendable req)
    (hid : id ∈ ids) (d : Bytes) : InProgress rand req ids (receive req.type id d) := by
  unfold receive
  split
  · exact .done
  · split
    · exact .receiving hsendable hid
    · exact .done

/-- A step of the machine keeps the call in progress. -/
theorem InProgress.step {ids : List UInt32} {p : Phase} (h : InProgress rand req ids p)
    (a : Arrival) : InProgress rand req ids (p.step rand send st req a) := by
  cases h with
  | @polling left id draws index past hsendable hids =>
    -- the id of the attempt given up joins the past ones
    have hmove : InProgress rand req ids (moveOn rand send st req left id draws index) := by
      apply inProgress_startAttempt (past ++ [id])
      rw [hids, List.append_assoc]
      rfl
    cases a with
    | datagram d =>
      -- the id of the attempt is the one behind the past ones
      apply inProgress_receive hsendable
      rw [hids]
      exact List.mem_append_right _ List.mem_cons_self
    | fault errno => exact hmove
    | silence endsPoll endsRecv =>
      cases endsPoll with
      | true => exact hmove
      | false => exact .polling hsendable hids
  | receiving hsendable hid =>
    cases a with
    | datagram d => exact inProgress_receive hsendable hid _
    | fault errno => exact .done
    | silence endsPoll endsRecv =>
      cases endsRecv with
      | true => exact .done
      | false => exact .receiving hsendable hid
  | done => exact .done

theorem InProgress.foldl {ids : List UInt32} {p : Phase} (h : InProgress rand req ids p)
    (s : List Arrival) : InProgress rand req ids (s.foldl (Phase.step rand send st req) p) := by
  induction s generalizing p with
  | nil => exact h
  | cons a s ih => exact ih (h.step a)

/-! ## Telling two schedules apart -/

/-- There is an answer to every request. -/
theorem exists_answer {type : UInt8} (h : IsVersion type) (id : UInt32) :
    ∃ d resp, d.length ≤ msgSz ∧ SuccessReply type d resp ∧ leadingId d = id := by
  rcases h with rfl | rfl
  · refine ⟨_, _, ?_, .tagged id [] [] [] (by decide), ?_⟩
    · simp only [List.length_append, length_encodeLE, List.length_cons, List.length_nil]
      decide
    · simp only [List.append_assoc]
      exact leadingId_append _ _
  · refine ⟨_, _, ?_, .cnam id [49] [] (by decide) (by decide), ?_⟩
    · simp only [List.length_append, length_encodeLE, List.length_cons, List.length_nil]
      decide
    · simp only [List.append_assoc]
      exact leadingId_append _ _

/-- The answer decides the call that polls or receives. -/
theorem conclude_answer {id : UInt32} {d : Bytes} {resp : Response} (hlen : d.length ≤ msgSz)
    (hreply : SuccessReply req.type d resp) (hid : leadingId d = id) :
    conclude rand send st req (.receiving id) [.datagram d] = .answered resp := by
  rw [conclude_cons]
  show conclude rand send st req (receive req.type id (d.take msgSz)) [] = _
  rw [List.take_of_length_le hlen, receive_of_answer hreply hid, conclude_done]

/-- Silence that ends polls does not end the receive loop. -/
theorem conclude_receiving_silence (id : UInt32) (n : Nat) (s : List Arrival) :
    conclude rand send st req (.receiving id)
        (List.replicate n (.silence true false) ++ s) =
      conclude rand send st req (.receiving id) s := by
  induction n with
  | zero => rfl
  | succ n ih =>
    rw [List.replicate_succ, List.cons_append, conclude_cons]
    exact ih

variable (rand send st req) in
/-- Enough silence that ends polls ends a call that polls. -/
theorem foldl_polling_silence (left : Nat) (id : UInt32) (draws : Nat) (index : Int) :
    ∃ v, (∀ resp, v ≠ .answered resp) ∧
      (List.replicate (left + 1) (.silence true false)).foldl (Phase.step rand send st req)
        (.polling left id draws index) = .done v := by
  induction left generalizing id draws index with
  | zero =>
    rcases startAttempt_cases rand send st req 0 id draws
      ((index + 1) % st.endpointsCount) with h | h | ⟨left', hleft, -⟩
    · exact ⟨.returned (-1), by simp, h⟩
    · exact ⟨.raised, by simp, h⟩
    · cases hleft
  | succ left ih =>
    rw [List.replicate_succ, List.foldl_cons]
    show ∃ v, _ ∧ (List.replicate (left + 1) _).foldl _
      (startAttempt rand send st req (left + 1) id draws ((index + 1) % st.endpointsCount)) = _
    rcases startAttempt_cases rand send st req (left + 1) id draws
      ((index + 1) % st.endpointsCount) with h | h | ⟨left', hleft, -, h⟩
    · rw [h]
      exact ⟨.returned (-1), by simp, foldl_done _ _⟩
    · rw [h]
      exact ⟨.raised, by simp, foldl_done _ _⟩
    · -- one silence is used up, and with it one attempt
      obtain rfl : left = left' := Nat.succ.inj hleft
      rw [h]
      exact ih _ _ _

theorem conclude_polling_silence (left : Nat) (id : UInt32) (draws : Nat) (index : Int)
    (s : List Arrival) (resp : Response) :
    conclude rand send st req (.polling left id draws index)
      (List.replicate (left + 1) (.silence true false) ++ s) ≠ .answered resp := by
  obtain ⟨v, hv, hfold⟩ := foldl_polling_silence rand send st req
    left id draws index
  rw [conclude, List.foldl_append, hfold, foldl_done]
  exact hv resp

theorem leadingId_take (d : Bytes) : leadingId (d.take msgSz) = leadingId d := by
  rw [leadingId, leadingId, List.take_take]
  rfl

/-- In a harmless phase the datagram leaves the machine where it is. -/
theorem step_of_harmless {ids : List UInt32} {p : Phase} {d : Bytes}
    (hp : InProgress rand req ids p) (hd : ∀ id ∈ ids, leadingId d ≠ id)
    (h : HarmlessIn req.type d p) : p.step rand send st req (.datagram d) = p := by
  cases hp with
  -- `HarmlessIn` leaves no phase that polls
  | polling _ _ => exact absurd h id
  | done => rfl
  | @receiving id _ hid =>
    apply receive_of_acceptable h
    intro resp _
    rw [leadingId_take]
    exact hd id hid

variable (send st) in
/-- In every other phase some continuation shows that the datagram was there. -/
theorem harmless_of_conclude {ids : List UInt32} {p : Phase} {d : Bytes}
    (hp : InProgress rand req ids p) (hd : ∀ id ∈ ids, leadingId d ≠ id)
    (h : ∀ post, conclude rand send st req p (.datagram d :: post) =
      conclude rand send st req p post) : HarmlessIn req.type d p := by
  -- a datagram that is not accepted ends the call before its answer arrives
  have hreject : ∀ id, Sendable req → id ∈ ids →
      (∀ s, conclude rand send st req p (.datagram d :: s) =
        conclude rand send st req (receive req.type id (d.take msgSz)) s) →
      (∀ d' s, conclude rand send st req p (.datagram d' :: s) =
        conclude rand send st req (.receiving id) (.datagram d' :: s)) →
      Acceptable req.type (d.take msgSz) := by
    intro id hsendable _ hforeign hanswer
    -- the continuation is the answer alone: one schedule fails on it and the other succeeds
    by_contra hacc
    obtain ⟨d', resp, hlen, hreply, hid⟩ := exists_answer hsendable.1 id
    have hsame := h [.datagram d']
    rw [hforeign, receive_of_not_acceptable hacc, conclude_done, hanswer,
      conclude_answer hlen hreply hid] at hsame
    cases hsame
  cases hp with
  | done => trivial
  | @receiving id hsendable hid =>
    exact hreject id hsendable hid (fun _ => rfl) (fun _ _ => rfl)
  | @polling left id draws index past hsendable hids =>
    have hmem : id ∈ ids := by
      rw [hids]
      exact List.mem_append_right _ List.mem_cons_self
    have hacc := hreject id hsendable hmem (fun _ => rfl) (fun _ _ => rfl)
    -- one that is accepted makes the call wait for an answer that it would have given up
    obtain ⟨d', resp, hlen, hreply, hid⟩ := exists_answer hsendable.1 id
    have hsame := h (List.replicate (left + 1) (.silence true false) ++ [.datagram d'])
    rw [conclude_cons] at hsame
    have hstay : (Phase.polling left id draws index).step rand send st req (.datagram d) =
        .receiving id := by
      apply receive_of_acceptable hacc
      intro resp _
      rw [leadingId_take]
      exact hd id hmem
    rw [hstay, conclude_receiving_silence, conclude_answer hlen hreply hid] at hsame
    exact conclude_polling_silence left id draws index _ resp hsame.symm

end Machine

/-- Deleting a foreign datagram from a schedule changes nothing, whatever comes behind it, exactly
if it arrives when the call is decided, or when the call is in its receive loop and the datagram is
a confirmation or a well-formed success reply. -/
theorem foreign_iff (rand : Nat → UInt32) (send : Endpoint → Bytes → SysResult Nat)
    (c : Ctx ScheduleWorld) (hst : WellFormed c.st) (pre : List Arrival) (d : Bytes)
    (hd : ForeignTo rand c d) :
    (∀ post, observed rand send c (pre ++ .datagram d :: post) =
        observed rand send c (pre ++ post)) ↔
      HarmlessIn c.req.type d (phaseAfter rand send c pre) := by
  have hconclude : ∀ s, observed rand send c (pre ++ s) =
      conclude rand send c.st c.req (phaseAfter rand send c pre) s := by
    intro s
    rw [resolve_conclude rand send hst, conclude, List.foldl_append]
    rfl
  have hstart : InProgress rand c.req (callIds rand c) (start rand send c) :=
    inProgress_startAttempt [] rfl _
  have hphase : InProgress rand c.req (callIds rand c) (phaseAfter rand send c pre) :=
    hstart.foldl pre
  constructor
  · intro h
    apply harmless_of_conclude send c.st hphase hd.id_ne
    intro post
    rw [← hconclude, ← hconclude]
    exact h post
  · intro h post
    rw [hconclude, hconclude, conclude_cons, step_of_harmless hphase hd.id_ne h]

/-! ## A stale reply -/

/-- A tagged request in a configured backend, with nothing on its way. -/
def scheduleCall : Ctx ScheduleWorld where
  st := sampleState
  req := { id := 0, type := taggedReqVersion, dbId := 4, data := ascii "380" }
  resp := .zero
  error := none
  world := ⟨0, []⟩
  trace := []

theorem wellFormed_scheduleCall : WellFormed scheduleCall.st := by
  have hst : scheduleCall.st = sampleState := by simp only [scheduleCall]
  rw [hst]
  exact reachable_sampleState.wellFormed

/-- The ids are those of the two attempts, from the first value of `rand` on. -/
theorem callIds_scheduleCall : callIds (fun _ => 7) scheduleCall = [7, 8] := by decide +kernel

/-- A late error reply, to the request with the id 3. -/
def lateError : Bytes := [3, 0, 0, 0, 2, 0, 0]

theorem foreignTo_lateError : ForeignTo (fun _ => 7) scheduleCall lateError := by
  refine ⟨by decide, ?_⟩
  intro id hid
  rw [callIds_scheduleCall] at hid
  simp only [List.mem_cons, List.not_mem_nil, or_false] at hid
  rcases hid with rfl | rfl
  · decide +kernel
  · decide +kernel

/-- Behind a confirmation of the request the late reply finds the receive loop. -/
theorem foreign_iff_lateError :
    (∀ post, observed (fun _ => 7) (fun _ buf => .ok buf.length) scheduleCall
        ([.datagram [7, 0, 0, 0]] ++ .datagram lateError :: post) =
      observed (fun _ => 7) (fun _ buf => .ok buf.length) scheduleCall
        ([.datagram [7, 0, 0, 0]] ++ post)) ↔
      HarmlessIn scheduleCall.req.type lateError
        (phaseAfter (fun _ => 7) (fun _ buf => .ok buf.length) scheduleCall
          [.datagram [7, 0, 0, 0]]) :=
  foreign_iff (fun _ => 7) (fun _ buf => .ok buf.length) scheduleCall wellFormed_scheduleCall
    [.datagram [7, 0, 0, 0]] lateError foreignTo_lateError

/-- The late reply ends the call, which would have got its answer. -/
theorem not_foreign :
    ForeignTo (fun _ => 7) scheduleCall lateError ∧
      observed (fun _ => 7) (fun _ buf => .ok buf.length) scheduleCall
          [.datagram lateError, .datagram [7, 0, 0, 0, 0, 1, 1, 49]] ≠
        observed (fun _ => 7) (fun _ buf => .ok buf.length) scheduleCall
          [.datagram [7, 0, 0, 0, 0, 1, 1, 49]] := by
  refine ⟨foreignTo_lateError, ?_⟩
  decide +kernel

end YetiPgExt.Lnp
