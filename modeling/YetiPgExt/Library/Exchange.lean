import YetiPgExt.Library.Runs
import Mathlib.Data.List.Nodup
import Mathlib.Data.Multiset.Basic

/-!
# Requests and replies over an unreliable network

A client sends requests and reads replies. Behind the network are servers that may answer a request
once it was sent: late, several times, or not at all. Replies in flight are duplicated, lost and
delivered in any order, and the client may read only a part of a reply (`cut`).

`Network.causal` says what is left of this in the client's own log: every reply in it answers a
request in front of it. If requests are told apart by an identifier that their replies repeat, then
a reply that carries the identifier of a request answers that request (`Causal.belongs`).
-/

set_option autoImplicit false

namespace YetiPgExt.Library

universe u v w

variable {Req : Type u} {Rep : Type v}

/-- What the client sees of the exchange. -/
inductive ClientEvent (Req : Type u) (Rep : Type v) where
  | sent (r : Req)
  | delivered (p : Rep)
  deriving DecidableEq

/-- The requests in a log. -/
def ClientEvent.request? : ClientEvent Req Rep → Option Req
  | .sent r => some r
  | .delivered _ => none

/-- A move of the network, its servers and the client. -/
inductive NetMove (Req : Type u) (Rep : Type v) where
  | send (r : Req)
  | serve (p : Rep)
  | duplicate (p : Rep)
  | lose (p : Rep)
  | deliver (p : Rep)

/-- What the client sees of a move. -/
def NetMove.view (cut : Rep → Rep) : NetMove Req Rep → Option (ClientEvent Req Rep)
  | .send r => some (.sent r)
  | .deliver p => some (.delivered (cut p))
  | .serve _ | .duplicate _ | .lose _ => none

/-- The requests that were sent so far, and the replies in flight. -/
structure Network (Req : Type u) (Rep : Type v) where
  asked : List Req
  flight : Multiset Rep

/-- Nothing was sent yet. -/
def Network.idle : Network Req Rep where
  asked := []
  flight := 0

/-- The moves. A request that was sent stays with the servers; one that nobody answers was lost. -/
inductive NetStep (serves : Req → Rep → Prop) :
    Network Req Rep → NetMove Req Rep → Network Req Rep → Prop
  | send (n : Network Req Rep) (r : Req) :
      NetStep serves n (.send r) { n with asked := r :: n.asked }
  | serve {n : Network Req Rep} {r : Req} {p : Rep} : r ∈ n.asked → serves r p →
      NetStep serves n (.serve p) { n with flight := p ::ₘ n.flight }
  | duplicate {n : Network Req Rep} {p : Rep} : p ∈ n.flight →
      NetStep serves n (.duplicate p) { n with flight := p ::ₘ n.flight }
  | lose {n : Network Req Rep} {p : Rep} {rest : Multiset Rep} : n.flight = p ::ₘ rest →
      NetStep serves n (.lose p) { n with flight := rest }
  | deliver {n : Network Req Rep} {p : Rep} {rest : Multiset Rep} : n.flight = p ::ₘ rest →
      NetStep serves n (.deliver p) { n with flight := rest }

/-- Every reply in a client's log answers a request in front of it, or one of `asked`. -/
inductive Causal (serves : Req → Rep → Prop) : List Req → List (ClientEvent Req Rep) → Prop
  | nil (asked : List Req) : Causal serves asked []
  | sent {asked : List Req} {r : Req} {log : List (ClientEvent Req Rep)} :
      Causal serves (r :: asked) log → Causal serves asked (.sent r :: log)
  | delivered {asked : List Req} {r : Req} {p : Rep} {log : List (ClientEvent Req Rep)} :
      r ∈ asked → serves r p → Causal serves asked log → Causal serves asked (.delivered p :: log)

section Exchange

variable {serves : Req → Rep → Prop}

/-- A reply as the client reads it. -/
def ServesCut (serves : Req → Rep → Prop) (cut : Rep → Rep) (r : Req) (q : Rep) : Prop :=
  ∃ p, serves r p ∧ cut p = q

/-- Every reply in flight answers a request that was sent. -/
def Network.Answering (serves : Req → Rep → Prop) (n : Network Req Rep) : Prop :=
  ∀ p ∈ n.flight, ∃ r ∈ n.asked, serves r p

theorem Network.answering_idle : (Network.idle : Network Req Rep).Answering serves :=
  fun p hp => absurd hp (Multiset.notMem_zero p)

theorem NetStep.answering {n n' : Network Req Rep} {move : NetMove Req Rep}
    (h : NetStep serves n move n') (hn : n.Answering serves) : n'.Answering serves := by
  cases h with
  | send r =>
    intro p hp
    obtain ⟨r', hr', hserves⟩ := hn p hp
    exact ⟨r', List.mem_cons_of_mem _ hr', hserves⟩
  | @serve r p hr hserves =>
    intro q hq
    rcases Multiset.mem_cons.mp hq with rfl | hq
    · exact ⟨r, hr, hserves⟩
    · exact hn q hq
  | duplicate hp =>
    intro q hq
    rcases Multiset.mem_cons.mp hq with rfl | hq
    · exact hn q hp
    · exact hn q hq
  | lose hflight => exact fun q hq => hn q (by rw [hflight]; exact Multiset.mem_cons_of_mem hq)
  | deliver hflight => exact fun q hq => hn q (by rw [hflight]; exact Multiset.mem_cons_of_mem hq)

/-- Whatever the network does, what the client sees is causal. -/
theorem Network.causal (cut : Rep → Rep) {n n' : Network Req Rep} {moves : List (NetMove Req Rep)}
    (h : Runs (NetStep serves) n moves n') (hn : n.Answering serves) :
    Causal (ServesCut serves cut) n.asked (moves.filterMap (NetMove.view cut)) := by
  -- on the moves; only two of them show in the log
  induction h with
  | nil n => exact .nil n.asked
  | @cons n n₁ n' move moves hstep _ ih =>
    have hrest := ih (hstep.answering hn)
    cases hstep with
    | send r => exact .sent hrest
    | serve _ _ => exact hrest
    | duplicate _ => exact hrest
    | lose _ => exact hrest
    | deliver hflight =>
      obtain ⟨r, hr, hserves⟩ := hn _ (by rw [hflight]; exact Multiset.mem_cons_self _ _)
      exact .delivered hr ⟨_, hserves, rfl⟩ hrest

namespace Causal

variable {asked : List Req} {pre post log : List (ClientEvent Req Rep)} {p : Rep}

/-- A reply answers a request in front of it. -/
theorem answers (h : Causal serves asked (pre ++ .delivered p :: post)) :
    ∃ r, (r ∈ asked ∨ .sent r ∈ pre) ∧ serves r p := by
  induction pre generalizing asked with
  | nil =>
    cases h with
    | delivered hr hserves _ => exact ⟨_, .inl hr, hserves⟩
  | cons e pre ih =>
    cases h with
    | @sent _ r _ hrest =>
      obtain ⟨r', hr', hserves⟩ := ih hrest
      refine ⟨r', ?_, hserves⟩
      -- a request that the rest knew is the one in front of it, or an older one
      rcases hr' with hr' | hr'
      · rcases List.mem_cons.mp hr' with rfl | hr'
        · exact .inr List.mem_cons_self
        · exact .inl hr'
      · exact .inr (List.mem_cons_of_mem _ hr')
    | delivered _ _ hrest =>
      obtain ⟨r', hr', hserves⟩ := ih hrest
      exact ⟨r', hr'.imp_right (List.mem_cons_of_mem _), hserves⟩

variable {Id : Type w} {reqId : Req → Id} {repId : Rep → Id}

/-- Where replies repeat the identifier of their request and no two requests have the same one, a
reply with the identifier of a request answers it. -/
theorem belongs (hid : ∀ r p, serves r p → repId p = reqId r)
    (h : Causal serves [] (pre ++ .delivered p :: post))
    (hnodup : (((pre ++ .delivered p :: post).filterMap ClientEvent.request?).map reqId).Nodup)
    {r : Req} (hsent : .sent r ∈ pre) (hmatch : repId p = reqId r) : serves r p := by
  obtain ⟨r', hr', hserves⟩ := h.answers
  have hsent' : .sent r' ∈ pre := hr'.resolve_left List.not_mem_nil
  have hrequest : ∀ s, .sent s ∈ pre →
      s ∈ (pre ++ .delivered p :: post).filterMap ClientEvent.request? := by
    intro s hs
    exact List.mem_filterMap.mpr ⟨.sent s, List.mem_append_left _ hs, rfl⟩
  have hsame : reqId r' = reqId r := (hid r' p hserves).symm.trans hmatch
  have heq := List.inj_on_of_nodup_map hnodup (hrequest r' hsent') (hrequest r hsent) hsame
  rwa [← heq]

end Causal

end Exchange

end YetiPgExt.Library
