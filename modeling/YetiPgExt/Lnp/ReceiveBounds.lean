import YetiPgExt.Lnp.Ownership

/-!
# The message buffer under a datagram

The receive loop lets `recvfrom` store `MSG_SZ` bytes into `msg`, all it has, and then stores the
terminating zero behind them. A log of a call pairs each datagram with that store (`ReceiveLog`).
So the zero stays inside the buffer as long as every datagram received is shorter than the buffer
(`resolve_bufferKept_iff`); a datagram that fills it puts the zero behind it.
-/

set_option autoImplicit false

namespace YetiPgExt.Lnp

open YetiPgExt.Library

/-- An event about a datagram in the message buffer. -/
def Event.ofDatagram : Event → Bool
  | .received _ | .terminated _ => true
  | .sent _ _ _ | .polled _ | .recvFailed _ => false

/-- A log in which each datagram received is stored into the buffer and followed by the store of
the zero behind it. -/
inductive ReceiveLog : List Event → Prop
  | nil : ReceiveLog []
  | other {e : Event} {log : List Event} : e.ofDatagram = false → ReceiveLog log →
      ReceiveLog (e :: log)
  | datagram {d : Bytes} {log : List Event} : d.length ≤ msgSz → ReceiveLog log →
      ReceiveLog (.received d :: .terminated d.length :: log)

/-- The stores into the message that the log has lie inside it, and `msg_len`, the index of the
zero, does not exceed the number of bytes received. -/
structure BufferKept (log : List Event) : Prop where
  received : ∀ d, .received d ∈ log → d.length ≤ msgSz
  terminated : ∀ i, .terminated i ∈ log → i < msgSz
  msgLen_le : ∀ pre i post, log = pre ++ .terminated i :: post →
    ∃ d, pre.getLast? = some (.received d) ∧ i ≤ d.length

namespace ReceiveLog

variable {log log' : List Event}

theorem append (h : ReceiveLog log) (h' : ReceiveLog log') : ReceiveLog (log ++ log') := by
  induction h with
  | nil => exact h'
  | other he _ ih => exact .other he ih
  | datagram hd _ ih => exact .datagram hd ih

theorem received_le (h : ReceiveLog log) {d : Bytes} (hd : .received d ∈ log) :
    d.length ≤ msgSz := by
  induction h with
  | nil => cases hd
  | @other e log he _ ih =>
    rcases List.mem_cons.mp hd with rfl | hd
    · cases he
    · exact ih hd
  | @datagram d' log hlen _ ih =>
    rcases List.mem_cons.mp hd with heq | hd
    · cases heq
      exact hlen
    · rcases List.mem_cons.mp hd with heq | hd
      · cases heq
      · exact ih hd

/-- A zero is stored at an index exactly if a datagram of that length was received. -/
theorem terminated_mem_iff (h : ReceiveLog log) {i : Nat} :
    .terminated i ∈ log ↔ ∃ d, .received d ∈ log ∧ d.length = i := by
  induction h with
  | nil => simp
  | @other e log he _ ih =>
    rw [List.mem_cons, ih]
    constructor
    · rintro (rfl | ⟨d, hd, hi⟩)
      · cases he
      · exact ⟨d, List.mem_cons_of_mem _ hd, hi⟩
    · rintro ⟨d, hd, hi⟩
      rcases List.mem_cons.mp hd with rfl | hd
      · cases he
      · exact .inr ⟨d, hd, hi⟩
  | @datagram d' log hlen _ ih =>
    rw [List.mem_cons, List.mem_cons, ih]
    constructor
    · rintro (heq | heq | ⟨d, hd, hi⟩)
      · cases heq
      · cases heq
        exact ⟨d', List.mem_cons_self, rfl⟩
      · exact ⟨d, List.mem_cons_of_mem _ (List.mem_cons_of_mem _ hd), hi⟩
    · rintro ⟨d, hd, rfl⟩
      rcases List.mem_cons.mp hd with heq | hd
      · cases heq
        exact .inr (.inl rfl)
      · rcases List.mem_cons.mp hd with heq | hd
        · cases heq
        · exact .inr (.inr ⟨d, hd, rfl⟩)

/-- The zero is stored right behind the datagram. -/
theorem getLast?_of_terminated (h : ReceiveLog log) {pre post : List Event} {i : Nat}
    (hlog : log = pre ++ .terminated i :: post) :
    ∃ d, pre.getLast? = some (.received d) ∧ i = d.length := by
  induction h generalizing pre with
  | nil => exact absurd hlog.symm (List.append_ne_nil_of_right_ne_nil _ (List.cons_ne_nil _ _))
  | @other e log he _ ih =>
    cases pre with
    | nil =>
      rw [List.nil_append, List.cons.injEq] at hlog
      rw [hlog.1] at he
      cases he
    | cons a pre =>
      rw [List.cons_append, List.cons.injEq] at hlog
      obtain ⟨d, hlast, hi⟩ := ih hlog.2
      exact ⟨d, by rw [List.getLast?_cons, hlast, Option.getD_some], hi⟩
  | @datagram d' log hlen _ ih =>
    match pre with
    | [] =>
      rw [List.nil_append, List.cons.injEq] at hlog
      cases hlog.1
    | [a] =>
      simp only [List.cons_append, List.nil_append, List.cons.injEq, Event.terminated.injEq] at hlog
      exact ⟨d', by rw [← hlog.1]; rfl, hlog.2.1.symm⟩
    | a :: b :: pre =>
      simp only [List.cons_append, List.cons.injEq] at hlog
      obtain ⟨d, hlast, hi⟩ := ih hlog.2.2
      exact ⟨d, by rw [List.getLast?_cons, List.getLast?_cons, hlast]; rfl, hi⟩

/-- Only the terminating zero can leave the buffer, and it does so behind a full one. -/
theorem bufferKept_iff (h : ReceiveLog log) :
    BufferKept log ↔ ∀ d, .received d ∈ log → d.length < msgSz := by
  constructor
  · intro hkept d hd
    exact hkept.terminated d.length (h.terminated_mem_iff.mpr ⟨d, hd, rfl⟩)
  · intro hshort
    refine ⟨fun d hd => h.received_le hd, ?_, ?_⟩
    · intro i hi
      obtain ⟨d, hd, rfl⟩ := h.terminated_mem_iff.mp hi
      exact hshort d hd
    · intro pre i post hlog
      obtain ⟨d, hlast, hi⟩ := h.getLast?_of_terminated hlog
      exact ⟨d, hlast, Nat.le_of_eq hi⟩

end ReceiveLog

section Steps

variable {ω : Type} {net : Net ω} {c c' : Ctx ω}

theorem AttemptStep.receiveLog {endp : Endpoint} {e : AttemptEnd}
    (h : AttemptStep net endp c e c') : ∃ log, c'.trace = c.trace ++ log ∧ ReceiveLog log := by
  cases h with
  | refused _ => exact ⟨[], (List.append_nil _).symm, .nil⟩
  | sendFailed _ _ _ => exact ⟨_, rfl, .other rfl .nil⟩
  | notReady _ _ _ _ => exact ⟨_, rfl, .other rfl (.other rfl .nil)⟩
  | ready _ _ _ _ => exact ⟨_, rfl, .other rfl (.other rfl .nil)⟩

/-- A datagram as `recvfrom` stores it has at most as many bytes as the buffer. -/
theorem length_take_msgSz_le (d : Bytes) : (d.take msgSz).length ≤ msgSz := by
  rw [List.length_take]
  exact Nat.min_le_left _ _

theorem RecvStep.receiveLog {o : Option Outcome} (h : RecvStep net c o c') :
    ∃ log, c'.trace = c.trace ++ log ∧ ReceiveLog log := by
  cases h with
  | failed _ => exact ⟨_, rfl, .other rfl .nil⟩
  | rejected _ _ => exact ⟨_, rfl, .datagram (length_take_msgSz_le _) .nil⟩
  | passedOver _ _ => exact ⟨_, rfl, .datagram (length_take_msgSz_le _) .nil⟩
  | answered _ _ _ => exact ⟨_, rfl, .datagram (length_take_msgSz_le _) .nil⟩

theorem receiveLog_rule (net : Net ω) : LogRule net (fun _ => True) ReceiveLog where
  nil := .nil
  append h h' := h.append h'
  attempt _ hstep := ⟨trivial, hstep.receiveLog⟩
  recv hstep := hstep.receiveLog

end Steps

/-- A call of `resolve` from a reachable state, whatever is sent to it, keeps its stores behind a
receive inside the message buffer exactly if every datagram that it receives is shorter than the
buffer. -/
theorem resolve_bufferKept_iff {ω : Type} (net : Net ω) (fuel : Nat) (c : Ctx ω)
    (hst : Reachable c.st) :
    ∃ log, (resolve net fuel c).2.trace = c.trace ++ log ∧
      (BufferKept log ↔ ∀ d, .received d ∈ log → d.length < msgSz) := by
  obtain ⟨log, htrace, hlog⟩ := (receiveLog_rule net).resolve fuel hst.wellFormed trivial
  exact ⟨log, htrace, hlog.bufferKept_iff⟩

theorem resolve_bufferKept_iff_sampleCall :
    ∃ log, (resolve promptNet 1 sampleCall).2.trace = sampleCall.trace ++ log ∧
      (BufferKept log ↔ ∀ d, .received d ∈ log → d.length < msgSz) :=
  resolve_bufferKept_iff promptNet 1 sampleCall reachable_sampleCall

/-- A server that answers with a datagram of 2048 bytes. -/
def fullNet : Net Unit where
  rand _ := (7, ())
  sendto _ _ buf := (.ok buf.length, ())
  poll _ := (.ok 1, ())
  recvfrom _ _ := (.ok (zeros msgSz), ())

theorem terminated_fullNet :
    .terminated 2048 ∈ (resolve fullNet 1 sampleCall).2.trace := by
  decide +kernel

/-- The zero behind a datagram of 2048 bytes is stored at the index 2048. -/
theorem not_resolve_bufferKept : ¬ ∀ (ω : Type) (net : Net ω) (fuel : Nat) (c : Ctx ω),
    Reachable c.st → ∃ log, (resolve net fuel c).2.trace = c.trace ++ log ∧ BufferKept log := by
  intro h
  obtain ⟨log, htrace, hkept⟩ := h Unit fullNet 1 sampleCall reachable_sampleCall
  have hmem := terminated_fullNet
  rw [htrace] at hmem
  exact absurd (hkept.terminated 2048 hmem) (by decide)

end YetiPgExt.Lnp
