import YetiPgExt.Lnp.Configuration

/-!
# Endpoint texts

What becomes of a text that is given to `add_endpoint` and to `lnp_endpoints_set`.

The port of an accepted endpoint is what `atoi` makes of its text, cut down to 16 bits: it is the
written one, and any other text is refused, exactly if the text is a port or the URI is refused
anyway (`portKept_iff`).

The texts of an array are copied into `c_uri` before their length is looked at: the copies stay
inside it, and texts that are too long are skipped, exactly if there are none or nothing is copied
(`oversizedSkipped_iff`).
-/

set_option autoImplicit false

namespace YetiPgExt.Lnp

open YetiPgExt.Library

/-! ## The port -/

/-- A decimal number in the range of a port. -/
structure IsPortText (text : Bytes) : Prop where
  ne_nil : text ≠ []
  digits : ∀ d ∈ text, isDigit d = true
  value_le : digitsValue text ≤ 65535

/-- An endpoint is accepted with the port that is written, and any other text is refused without an
endpoint. -/
def PortKept (inetAton : Bytes → Option UInt32) (st : ResolverState) (uri : Bytes) : Prop :=
  ∃ ret st', addEndpoint inetAton st uri = some (ret, st') ∧
    (ret = 0 → IsPortText (portText uri) ∧ ∃ endp, visible st' = visible st ++ [endp] ∧
      endp.sinPort.toNat = digitsValue (portText uri)) ∧
    (¬ IsPortText (portText uri) → ret = -1 ∧ st'.endpointsCount = st.endpointsCount)

section

variable {uri : Bytes}

/-- A port goes through the `int` and the 16 bits unchanged. -/
theorem IsPortText.sinPort_eq {text : Bytes} (h : IsPortText text) :
    (UInt16.ofInt (atoi text)).toNat = digitsValue text := by
  obtain ⟨hne, hdigits, hle⟩ := h
  rw [atoi_digits hne hdigits (by omega), UInt16.ofInt, UInt16.toNat_ofNat']
  omega

/-- The written port is stored, and every other text is refused, exactly if the endpoint is refused
for another reason or the text is a port: `add_endpoint` does not look at it. -/
theorem portKept_iff (inetAton : Bytes → Option UInt32) (st : ResolverState) (h : 0 ∉ uri)
    (hlen : uri.length < maxEndpointLen) (hcolon : portDelim ∈ afterScheme uri) :
    PortKept inetAton st uri ↔
      maxEndpoints ≤ st.endpointsCount ∨ inetAton (hostField uri) = none ∨
        IsPortText (portText uri) := by
  rcases Nat.lt_or_ge st.endpointsCount maxEndpoints with hroom | hfull
  · obtain ⟨comps, hparse, hhost, hatoi⟩ := parseAddr_port h hlen hcolon .zero
    obtain ⟨endp, -, -, hport, hadd⟩ := addEndpoint_of_parse inetAton hroom hlen hparse hhost
    rw [PortKept, hadd]
    rcases haddr : inetAton (hostField uri) with _ | addr
    · refine iff_of_true ⟨-1, _, rfl, ?_, fun _ => ⟨rfl, rfl⟩⟩ (.inr (.inl rfl))
      intro hret
      cases hret
    · have hvisible := visible_count st hroom { endp with sinAddr := addr }
      constructor
      · rintro ⟨ret, st', hres, haccepted, -⟩
        obtain ⟨rfl, rfl⟩ := Prod.mk.inj (Option.some.inj hres)
        exact .inr (.inr (haccepted rfl).1)
      · rintro (hfull | hnone | htext)
        · exact absurd hroom (Nat.not_lt_of_le hfull)
        · cases hnone
        · refine ⟨0, _, rfl, fun _ => ⟨htext, _, hvisible, ?_⟩, fun hnot => absurd htext hnot⟩
          rw [← htext.sinPort_eq, ← hatoi, ← hport]
  · refine iff_of_true ⟨-1, st, ?_, ?_, fun _ => ⟨rfl, rfl⟩⟩ (.inl hfull)
    · rw [addEndpoint, dif_neg (Nat.not_lt_of_le hfull)]
    · intro hret
      cases hret

end

/-- `inet_aton` where only the loopback address is one. -/
def loopbackAton (host : Bytes) : Option UInt32 :=
  if host = ascii "127.0.0.1" then some 2130706433 else none

theorem portKept_iff_loopback :
    PortKept loopbackAton .init (ascii "udp://127.0.0.1:5060") ↔
      maxEndpoints ≤ ResolverState.init.endpointsCount ∨
        loopbackAton (hostField (ascii "udp://127.0.0.1:5060")) = none ∨
        IsPortText (portText (ascii "udp://127.0.0.1:5060")) :=
  portKept_iff loopbackAton .init (by decide) (by decide) (by decide)

/-- Port 70000 is accepted, and stored as 4464. -/
theorem not_portKept :
    ¬ ∀ (inetAton : Bytes → Option UInt32) (st : ResolverState) (uri : Bytes), 0 ∉ uri →
      uri.length < maxEndpointLen → portDelim ∈ afterScheme uri → PortKept inetAton st uri := by
  intro h
  obtain ⟨ret, st', hadd, haccepted, -⟩ := h loopbackAton .init (ascii "udp://127.0.0.1:70000")
    (by decide) (by decide) (by decide)
  have hshown : (addEndpoint loopbackAton .init (ascii "udp://127.0.0.1:70000")).map
      (fun p => (p.1, (visible p.2).map Endpoint.sinPort)) = some (0, [4464]) := by decide
  rw [hadd, Option.map_some, Option.some.injEq, Prod.mk.injEq] at hshown
  obtain ⟨htext, -⟩ := haccepted hshown.1
  exact absurd htext.value_le (by decide)

/-! ## Texts that are too long -/

/-- The copy of a text stays inside `c_uri` and leaves a terminator. -/
def CopyHolds (uri : Bytes) : Prop :=
  ∃ cUri, memcpy (zeros maxEndpointLen) uri = some cUri ∧ 0 ∈ cUri

/-- The array without the texts that are too long. -/
def shortTexts (uris : List (Option Bytes)) : List (Option Bytes) :=
  uris.filter fun uri => uri.all fun text => decide (text.length < maxEndpointLen)

/-- Every copy that is made holds, and a text that is too long makes no difference. -/
def OversizedSkipped (inetAton : Bytes → Option UInt32) (newFd : Int) (st : ResolverState)
    (uris : List (Option Bytes)) : Prop :=
  (¬ (st.socketFd < 0 ∧ newFd < 0) → ∀ uri, some uri ∈ uris → CopyHolds uri) ∧
    lnpEndpointsSet inetAton newFd st uris = lnpEndpointsSet inetAton newFd st (shortTexts uris)

theorem copyHolds_iff {uri : Bytes} (h : 0 ∉ uri) :
    CopyHolds uri ↔ uri.length < maxEndpointLen := by
  constructor
  · rintro ⟨cUri, hcopy, hmem⟩
    by_cases hle : uri.length ≤ maxEndpointLen
    · -- the zero is not in the text, so there is room behind it
      rw [memcpy_zeros hle] at hcopy
      rw [← Option.some.inj hcopy, List.mem_append] at hmem
      rcases hmem with hmem | hmem
      · exact absurd hmem h
      · exact Nat.lt_of_sub_ne_zero (List.mem_replicate.mp hmem).1
    · rw [memcpy, if_neg (by rwa [length_zeros])] at hcopy
      cases hcopy
  · intro hlt
    refine ⟨_, memcpy_zeros (Nat.le_of_lt hlt), List.mem_append_right _ ?_⟩
    exact List.mem_replicate.mpr ⟨Nat.sub_ne_zero_of_lt hlt, rfl⟩

theorem shortTexts_eq {uris : List (Option Bytes)}
    (h : ∀ uri, some uri ∈ uris → uri.length < maxEndpointLen) : shortTexts uris = uris := by
  rw [shortTexts, List.filter_eq_self]
  rintro (_ | uri) hmem
  · rfl
  · exact decide_eq_true (h uri hmem)

/-- Without a socket the call ends before the array is looked at. -/
theorem lnpEndpointsSet_raised (inetAton : Bytes → Option UInt32) {newFd : Int}
    {st : ResolverState} (hst : st.socketFd < 0) (hnew : newFd < 0) (uris : List (Option Bytes)) :
    lnpEndpointsSet inetAton newFd st uris = some (.raised, { st with socketFd := newFd }) := by
  rw [lnpEndpointsSet, if_pos hst]
  exact if_pos hnew

/-- The copies hold and texts that are too long are skipped exactly if there are none or the call
raises before the first copy. -/
theorem oversizedSkipped_iff (inetAton : Bytes → Option UInt32) (newFd : Int)
    (st : ResolverState) {uris : List (Option Bytes)} (h : ∀ uri, some uri ∈ uris → 0 ∉ uri) :
    OversizedSkipped inetAton newFd st uris ↔
      (st.socketFd < 0 ∧ newFd < 0) ∨ ∀ uri, some uri ∈ uris → uri.length < maxEndpointLen := by
  constructor
  · rintro ⟨hcopies, -⟩
    by_cases hsocket : st.socketFd < 0 ∧ newFd < 0
    · exact .inl hsocket
    · right
      intro uri hmem
      exact (copyHolds_iff (h uri hmem)).mp (hcopies hsocket uri hmem)
  · rintro (⟨hst, hnew⟩ | hshort)
    · refine ⟨fun hopen => absurd ⟨hst, hnew⟩ hopen, ?_⟩
      rw [lnpEndpointsSet_raised inetAton hst hnew, lnpEndpointsSet_raised inetAton hst hnew]
    · refine ⟨fun _ uri hmem => (copyHolds_iff (h uri hmem)).mpr (hshort uri hmem), ?_⟩
      rw [shortTexts_eq hshort]

theorem oversizedSkipped_iff_loopback :
    OversizedSkipped loopbackAton 7 .init [some (ascii "udp://127.0.0.1:5060"), none] ↔
      (ResolverState.init.socketFd < 0 ∧ (7 : Int) < 0) ∨
        ∀ uri, some uri ∈ [some (ascii "udp://127.0.0.1:5060"), none] →
          uri.length < maxEndpointLen := by
  apply oversizedSkipped_iff
  intro uri hmem
  rcases List.mem_cons.mp hmem with heq | hmem
  · obtain rfl := Option.some.inj heq
    decide
  · cases List.mem_singleton.mp hmem

/-- A text of 129 bytes is written past the end of `c_uri`. -/
theorem not_oversizedSkipped :
    ¬ ∀ (inetAton : Bytes → Option UInt32) (newFd : Int) (st : ResolverState)
      (uris : List (Option Bytes)), (∀ uri, some uri ∈ uris → 0 ∉ uri) →
        OversizedSkipped inetAton newFd st uris := by
  intro h
  have hzero : ∀ uri, some uri ∈ [some (List.replicate 129 (97 : UInt8))] → 0 ∉ uri := by
    intro uri hmem hin
    obtain rfl := Option.some.inj (List.mem_singleton.mp hmem)
    cases (List.mem_replicate.mp hin).2
  obtain ⟨hcopies, -⟩ := h loopbackAton 7 .init _ hzero
  obtain ⟨cUri, hcopy, -⟩ := hcopies (by decide) _ List.mem_cons_self
  rw [memcpy, if_neg (by rw [List.length_replicate, length_zeros]; decide)] at hcopy
  cases hcopy

end YetiPgExt.Lnp
