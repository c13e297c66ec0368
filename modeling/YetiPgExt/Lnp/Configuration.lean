import YetiPgExt.Lnp.Endpoints
import YetiPgExt.Lnp.UriFields
import Mathlib.Data.List.ReduceOption

/-!
# Configuring the endpoints

`lnp_endpoints_set` and `lnp_endpoints_show` against each other: after a call that does not raise,
the visible endpoints are the first `maxEndpoints` valid URIs of the array, whatever the state was
before (`lnpEndpointsSet_visible`), and `lnp_endpoints_show` lists them.
-/

set_option autoImplicit false

namespace YetiPgExt.Lnp

open YetiPgExt.Library

/-! ## The visible endpoints -/

/-- The endpoints that the count covers. -/
def visible (st : ResolverState) : List Endpoint := st.endpoints.toList.take st.endpointsCount

theorem length_visible (st : ResolverState) : (visible st).length = st.endpointsCount := by
  rw [visible, List.length_take_of_le]
  rw [Vector.length_toList]
  exact st.count_le

theorem getEndpointAtIndex_eq (st : ResolverState) (i : Nat) :
    getEndpointAtIndex st i = (visible st)[i]? := by
  rw [getEndpointAtIndex]
  by_cases hi : i < st.endpointsCount
  · have hlt : i < maxEndpoints := Nat.lt_of_lt_of_le hi st.count_le
    rw [dif_pos ⟨Int.natCast_nonneg i, Int.ofNat_lt.mpr hi⟩, visible, List.getElem?_take_of_lt hi,
      List.getElem?_eq_getElem (by rwa [Vector.length_toList]), Vector.getElem_toList]
    rfl
  · have hout : ¬ (0 ≤ (i : Int) ∧ (i : Int) < st.endpointsCount) := by omega
    rw [dif_neg hout, List.getElem?_eq_none]
    rw [length_visible]
    exact not_lt.mp hi

/-- What a list of endpoints tells: the ids, the URIs, and the addresses. -/
def describe (endp : Endpoint) : Nat × Option Bytes × Option UInt32 :=
  (endp.id, cString? endp.url, some endp.sinAddr)

/-- A write behind the last endpoint is not visible. -/
theorem visible_set (st : ResolverState) (h : st.endpointsCount < maxEndpoints) (endp : Endpoint) :
    visible { st with endpoints := st.endpoints.set st.endpointsCount endp } = visible st := by
  rw [visible, visible, Vector.toList_set, List.take_set_of_le (Nat.le_refl _)]

/-- Counting it makes it the last visible one. -/
theorem visible_count (st : ResolverState) (h : st.endpointsCount < maxEndpoints)
    (endp : Endpoint) :
    visible { st with
        endpoints := st.endpoints.set st.endpointsCount endp
        endpointsCount := st.endpointsCount + 1
        count_le := h } = visible st ++ [endp] := by
  have hlen : st.endpointsCount < (st.endpoints.toList.set st.endpointsCount endp).length := by
    rw [List.length_set, Vector.length_toList]
    exact h
  have hget : (st.endpoints.toList.set st.endpointsCount endp)[st.endpointsCount] = endp :=
    List.getElem_set_self _
  change (st.endpoints.set st.endpointsCount endp).toList.take (st.endpointsCount + 1) = _
  rw [Vector.toList_set, List.take_add_one, List.getElem?_eq_getElem hlen, hget,
    List.take_set_of_le (Nat.le_refl _), visible]
  rfl

/-- A URI that `add_endpoint` takes. -/
def validUri (inetAton : Bytes → Option UInt32) (uri : Bytes) : Bool :=
  decide (uri ≠ []) && (inetAton (hostPart uri)).isSome

/-- A text that fits `c_uri` and has a host that fits. -/
structure FittingText (uri : Bytes) : Prop where
  no_zero : 0 ∉ uri
  length_lt : uri.length < maxEndpointLen
  host_le : (hostPart uri).length ≤ hostSize

theorem copyUrl_eq {uri : Bytes} (h : uri.length < maxEndpointLen) :
    strncpy Endpoint.zero.url uri maxEndpointLen =
      some (uri ++ zeros (maxEndpointLen - uri.length)) := by
  have hfit : maxEndpointLen ≤ Endpoint.zero.url.length := by rw [Endpoint.zero, length_zeros]
  have hrest : Endpoint.zero.url.drop maxEndpointLen = [] := by decide
  rw [strncpy_eq uri hfit, List.take_of_length_le (Nat.le_of_lt h), hrest, List.append_nil]

/-- `add_endpoint` of a URI that is parsed, with a free slot: whether the endpoint is counted is
left to its host. -/
theorem addEndpoint_of_parse (inetAton : Bytes → Option UInt32) {st : ResolverState} {uri : Bytes}
    (hroom : st.endpointsCount < maxEndpoints) (hlen : uri.length < maxEndpointLen)
    {comps : UriComponents} {host : Bytes} (hparse : parseAddr uri .zero = some (0, comps))
    (hhost : cString? comps.host = some host) :
    ∃ endp : Endpoint, endp.id = st.endpointsCount ∧
      endp.url = uri ++ zeros (maxEndpointLen - uri.length) ∧
      endp.sinPort = UInt16.ofInt comps.port ∧
      addEndpoint inetAton st uri =
        match inetAton host with
        | none => some (-1, { st with endpoints := st.endpoints.set st.endpointsCount endp })
        | some addr =>
          some (0, { st with
            endpoints := st.endpoints.set st.endpointsCount { endp with sinAddr := addr }
            endpointsCount := st.endpointsCount + 1
            count_le := hroom }) := by
  refine ⟨{ Endpoint.zero with
    id := st.endpointsCount
    url := uri ++ zeros (maxEndpointLen - uri.length)
    sinPort := UInt16.ofInt comps.port }, rfl, rfl, rfl, ?_⟩
  rw [addEndpoint, dif_pos hroom]
  simp only [hparse, copyUrl_eq hlen, hhost, Option.bind_eq_bind, Option.bind_some]
  have hret : ¬ (0 : Int) = -1 := by decide
  rw [if_neg hret]
  cases inetAton host with
  | none => rfl
  | some addr => rfl

/-- What `add_endpoint` shows of a URI: the next endpoint, if there is room and the URI is valid. -/
structure Shown (inetAton : Bytes → Option UInt32) (uri : Bytes) (st st' : ResolverState) :
    Prop where
  index_eq : st'.currEndpointIndex = st.currEndpointIndex
  visible_eq : (visible st').map describe = (visible st).map describe ++
    if st.endpointsCount < maxEndpoints ∧ validUri inetAton uri then
      [(st.endpointsCount, some uri, inetAton (hostPart uri))]
    else []

theorem Shown.count_eq {inetAton : Bytes → Option UInt32} {uri : Bytes} {st st' : ResolverState}
    (h : Shown inetAton uri st st') :
    st'.endpointsCount = st.endpointsCount +
      if st.endpointsCount < maxEndpoints ∧ validUri inetAton uri then 1 else 0 := by
  have hlen := congrArg List.length h.visible_eq
  rw [List.length_append, List.length_map, List.length_map, length_visible, length_visible] at hlen
  rw [hlen]
  split
  · rfl
  · rfl

theorem addEndpoint_shown (inetAton : Bytes → Option UInt32) (st : ResolverState) {uri : Bytes}
    (huri : FittingText uri) :
    ∃ ret st', addEndpoint inetAton st uri = some (ret, st') ∧ Shown inetAton uri st st' := by
  by_cases hroom : st.endpointsCount < maxEndpoints
  · by_cases hnil : uri = []
    · subst hnil
      refine ⟨-1, { st with endpoints := st.endpoints.set st.endpointsCount .zero }, ?_, ?_⟩
      · rw [addEndpoint, dif_pos hroom]
        rfl
      · refine ⟨rfl, ?_⟩
        rw [visible_set st hroom, if_neg (by simp [validUri]), List.append_nil]
    · obtain ⟨comps, hparse, hhost⟩ :=
        parseAddr_eq hnil huri.length_lt huri.no_zero huri.host_le .zero
      obtain ⟨endp, hid, hurl, -, hadd⟩ :=
        addEndpoint_of_parse inetAton hroom huri.length_lt hparse hhost
      have hread : cString? endp.url = some uri := by
        rw [hurl]
        exact cString?_zeros huri.no_zero (Nat.sub_pos_of_lt huri.length_lt)
      rw [hadd]
      rcases haddr : inetAton (hostPart uri) with _ | addr
      · refine ⟨-1, _, rfl, ⟨rfl, ?_⟩⟩
        rw [visible_set st hroom, if_neg (by simp [validUri, haddr]), List.append_nil]
      · refine ⟨0, _, rfl, ⟨rfl, ?_⟩⟩
        rw [visible_count st hroom, if_pos ⟨hroom, by simp [validUri, haddr, hnil]⟩,
          List.map_append, List.map_singleton, describe, hid, hread, haddr]
  · refine ⟨-1, st, ?_, ⟨rfl, ?_⟩⟩
    · rw [addEndpoint, dif_neg hroom]
    · rw [if_neg (fun h => hroom h.1), List.append_nil]

/-! ## The whole array -/

/-- The URIs of the array that are taken, as long as `room` lasts. -/
def accepted (inetAton : Bytes → Option UInt32) (room : Nat) (uris : List (Option Bytes)) :
    List Bytes :=
  (uris.reduceOption.filter (validUri inetAton)).take room

/-- What the endpoints of these URIs tell, numbered from `first` on. -/
def entries (inetAton : Bytes → Option UInt32) (first : Nat) (taken : List Bytes) :
    List (Nat × Option Bytes × Option UInt32) :=
  (taken.zipIdx first).map (fun p => (p.2, some p.1, inetAton (hostPart p.1)))

section

variable {inetAton : Bytes → Option UInt32} {room first : Nat} {uri : Bytes}
  {uris : List (Option Bytes)} {taken : List Bytes}

theorem accepted_nil : accepted inetAton room [] = [] := List.take_nil

theorem accepted_zero : accepted inetAton 0 uris = [] := List.take_zero

theorem accepted_cons_of_valid (h : validUri inetAton uri = true) :
    accepted inetAton (room + 1) (some uri :: uris) = uri :: accepted inetAton room uris := by
  rw [accepted, List.reduceOption_cons_of_some, List.filter_cons_of_pos h, List.take_succ_cons,
    ← accepted]

theorem accepted_cons_of_not_valid (h : ¬ validUri inetAton uri = true) :
    accepted inetAton room (some uri :: uris) = accepted inetAton room uris := by
  rw [accepted, List.reduceOption_cons_of_some, List.filter_cons_of_neg h, ← accepted]

theorem entries_nil : entries inetAton first [] = [] := rfl

theorem entries_cons :
    entries inetAton first (uri :: taken) =
      (first, some uri, inetAton (hostPart uri)) :: entries inetAton (first + 1) taken := by
  rw [entries, List.zipIdx_cons, List.map_cons, ← entries]

/-- The entries behind `first` endpoints begin with the URI, if it is taken. -/
theorem entries_accepted_cons :
    entries inetAton first (accepted inetAton (maxEndpoints - first) (some uri :: uris)) =
      (if first < maxEndpoints ∧ validUri inetAton uri then
        [(first, some uri, inetAton (hostPart uri))] else []) ++
        entries inetAton (first + if first < maxEndpoints ∧ validUri inetAton uri then 1 else 0)
          (accepted inetAton (maxEndpoints -
            (first + if first < maxEndpoints ∧ validUri inetAton uri then 1 else 0)) uris) := by
  by_cases htaken : first < maxEndpoints ∧ validUri inetAton uri
  · obtain ⟨hroom, hvalid⟩ := htaken
    have hleft : maxEndpoints - first = maxEndpoints - (first + 1) + 1 := by omega
    rw [if_pos ⟨hroom, hvalid⟩, if_pos ⟨hroom, hvalid⟩, hleft, accepted_cons_of_valid hvalid,
      entries_cons]
    rfl
  · rw [if_neg htaken, if_neg htaken, Nat.add_zero, List.nil_append]
    by_cases hvalid : validUri inetAton uri = true
    · -- there is no room left
      have hleft : maxEndpoints - first = 0 :=
        Nat.sub_eq_zero_of_le (not_lt.mp (fun hroom => htaken ⟨hroom, hvalid⟩))
      rw [hleft, accepted_zero, accepted_zero]
    · rw [accepted_cons_of_not_valid hvalid]

end

/-- The copy of a text in `c_uri`. -/
theorem cUri_eq {uri : Bytes} (h : FittingText uri) :
    memcpy (zeros maxEndpointLen) uri = some (uri ++ zeros (maxEndpointLen - uri.length)) ∧
      cString? (uri ++ zeros (maxEndpointLen - uri.length)) = some uri :=
  ⟨memcpy_zeros (Nat.le_of_lt h.length_lt),
    cString?_zeros h.no_zero (Nat.sub_pos_of_lt h.length_lt)⟩

/-- The loop shows the valid URIs in order as long as there is room. -/
theorem addEndpoints_shown (inetAton : Bytes → Option UInt32) (st : ResolverState)
    {uris : List (Option Bytes)} (huris : ∀ uri, some uri ∈ uris → FittingText uri) :
    ∃ st', addEndpoints inetAton st uris = some st' ∧
      st'.currEndpointIndex = st.currEndpointIndex ∧
      (visible st').map describe = (visible st).map describe ++
        entries inetAton st.endpointsCount
          (accepted inetAton (maxEndpoints - st.endpointsCount) uris) := by
  induction uris generalizing st with
  | nil =>
    refine ⟨st, rfl, rfl, ?_⟩
    rw [accepted_nil, entries_nil, List.append_nil]
  | cons uri uris ih =>
    have hrest : ∀ uri, some uri ∈ uris → FittingText uri := by
      intro u hu
      exact huris u (List.mem_cons_of_mem _ hu)
    cases uri with
    | none => exact ih st hrest
    | some uri =>
      have huri := huris uri List.mem_cons_self
      obtain ⟨hcopy, hread⟩ := cUri_eq huri
      obtain ⟨ret, st₁, hadd, hshown⟩ := addEndpoint_shown inetAton st huri
      obtain ⟨st', hloop, hindex, hvis⟩ := ih st₁ hrest
      refine ⟨st', ?_, hindex.trans hshown.index_eq, ?_⟩
      · rw [addEndpoints, hcopy]
        simp only [Option.bind_eq_bind, Option.bind_some, hread, hadd]
        exact hloop
      · rw [hvis, hshown.visible_eq, List.append_assoc]
        rw [hshown.count_eq, entries_accepted_cons]

/-! ## Showing the list -/

/-- A row of `lnp_endpoints_show`: the two strings that the tuple is built from. -/
structure ShowRow where
  id : Bytes
  uri : Bytes
  deriving DecidableEq

/-- The strings of an endpoint. `snprintf` writes the decimal id, cut to 15 bytes. The buffer for
the URI is not cleared, but `strncpy` writes all of it. -/
def showRow (ep : Endpoint) : Option ShowRow := do
  let id := (ascii (toString ep.id)).take 15
  let v ← strncpy (zeros maxEndpointLen) (ep.url.takeWhile (fun b => decide (b ≠ 0))) maxEndpointLen
  let uri ← cString? v
  return ⟨id, uri⟩

/-- The calls of `lnp_endpoints_show` from the call counter `i` on, with `left` calls below
`max_calls`. An endpoint that is missing ends the query without a result. -/
def showCalls (st : ResolverState) : Nat → Nat → Option (List ShowRow)
  | 0, _ => some []
  | left + 1, i => do
    let ep ← getEndpointAtIndex st i
    let row ← showRow ep
    let rows ← showCalls st left (i + 1)
    return row :: rows

/-- `lnp_endpoints_show` -/
def lnpEndpointsShow (st : ResolverState) : Option (List ShowRow) :=
  showCalls st st.endpointsCount 0

theorem showRow_eq {ep : Endpoint} {uri : Bytes} (hurl : cString? ep.url = some uri)
    (hlen : uri.length < maxEndpointLen) :
    showRow ep = some ⟨(ascii (toString ep.id)).take 15, uri⟩ := by
  rw [cString?] at hurl
  split at hurl
  · have huri : ep.url.takeWhile (fun b => decide (b ≠ 0)) = uri := Option.some.inj hurl
    have hzero : 0 ∉ uri := by
      rw [← huri]
      intro hmem
      have hb := List.mem_takeWhile_imp hmem
      rw [decide_eq_true_iff] at hb
      exact hb rfl
    have hcopy : strncpy (zeros maxEndpointLen) uri maxEndpointLen =
        some (uri ++ zeros (maxEndpointLen - uri.length)) := by
      rw [strncpy_eq uri (Nat.le_of_eq (length_zeros _).symm), drop_zeros, Nat.sub_self,
        List.take_of_length_le (Nat.le_of_lt hlen)]
      exact congrArg some (congrArg (uri ++ ·) (List.append_nil _))
    rw [showRow, huri, hcopy]
    simp only [Option.bind_eq_bind, Option.bind_some,
      cString?_zeros hzero (Nat.sub_pos_of_lt hlen)]
    rfl
  · cases hurl

/-- With a row for every visible endpoint, the calls list them. -/
theorem showCalls_eq {st : ResolverState} {row : Endpoint → ShowRow}
    (hrow : ∀ ep ∈ visible st, showRow ep = some (row ep)) {left i : Nat}
    (hi : i + left = st.endpointsCount) :
    showCalls st left i = some (((visible st).map row).drop i) := by
  induction left generalizing i with
  | zero =>
    rw [showCalls, List.drop_eq_nil_of_le]
    rw [List.length_map, length_visible]
    omega
  | succ left ih =>
    have hlt : i < (visible st).length := by
      rw [length_visible]
      omega
    have hlt' : i < ((visible st).map row).length := by rwa [List.length_map]
    have hget : getEndpointAtIndex st i = some (visible st)[i] := by
      rw [getEndpointAtIndex_eq, List.getElem?_eq_getElem hlt]
    rw [showCalls, hget]
    simp only [Option.bind_eq_bind, Option.bind_some, hrow _ (List.getElem_mem hlt),
      ih (show i + 1 + left = st.endpointsCount by omega)]
    rw [List.drop_eq_getElem_cons hlt', List.getElem_map]
    rfl

/-- The rows of these URIs, numbered from 0. -/
def rowsOf (taken : List Bytes) : List ShowRow :=
  taken.zipIdx.map (fun p => ⟨ascii (toString p.2), p.1⟩)

/-- Ids below `maxEndpoints` are printed whole. -/
theorem take_ascii_id {id : Nat} (h : id < maxEndpoints) :
    (ascii (toString id)).take 15 = ascii (toString id) := by
  have hall : ∀ id < maxEndpoints, (ascii (toString id)).take 15 = ascii (toString id) := by decide
  exact hall id h

/-- Where the endpoints tell of these URIs, `lnp_endpoints_show` lists them. -/
theorem lnpEndpointsShow_eq {inetAton : Bytes → Option UInt32} {st : ResolverState}
    {taken : List Bytes} (hvis : (visible st).map describe = entries inetAton 0 taken)
    (hlen : ∀ uri ∈ taken, uri.length < maxEndpointLen) :
    lnpEndpointsShow st = some (rowsOf taken) := by
  have hcount : taken.length ≤ maxEndpoints := by
    have hlength := congrArg List.length hvis
    rw [List.length_map, length_visible, entries, List.length_map, List.length_zipIdx] at hlength
    rw [← hlength]
    exact st.count_le
  have hrow : ∀ ep ∈ visible st,
      showRow ep = some ⟨ascii (toString ep.id), (cString? ep.url).getD []⟩ := by
    intro ep hep
    have hmem : describe ep ∈ entries inetAton 0 taken := by
      rw [← hvis]
      exact List.mem_map_of_mem hep
    obtain ⟨⟨uri, id⟩, hp, heq⟩ := List.mem_map.mp hmem
    simp only [describe, Prod.mk.injEq] at heq
    obtain ⟨hid, hurl, -⟩ := heq
    have hget := List.mem_zipIdx_iff_getElem?.mp hp
    obtain ⟨hlt, huri⟩ := List.getElem?_eq_some_iff.mp hget
    have huri' : uri ∈ taken := List.mem_of_getElem? hget
    rw [showRow_eq hurl.symm (hlen uri huri'), ← hid, take_ascii_id (by omega), ← hurl]
    rfl
  have hshow := showCalls_eq hrow (Nat.zero_add st.endpointsCount)
  rw [List.drop_zero] at hshow
  have hrows : (visible st).map
        (fun ep => (⟨ascii (toString ep.id), (cString? ep.url).getD []⟩ : ShowRow)) =
      ((visible st).map describe).map (fun d => ⟨ascii (toString d.1), d.2.1.getD []⟩) := by
    rw [List.map_map]
    rfl
  rw [lnpEndpointsShow, hshow, hrows, hvis, entries, List.map_map]
  rfl

/-- The test of a URI on its own: it is valid exactly if it is parsed and its host is an address. -/
theorem validUri_iff {inetAton : Bytes → Option UInt32} {uri : Bytes} (huri : FittingText uri) :
    validUri inetAton uri = true ↔
      uri ≠ [] ∧ ∃ comps host, parseAddr uri .zero = some (0, comps) ∧
        cString? comps.host = some host ∧ (inetAton host).isSome := by
  obtain ⟨hzero, hlen, hhost⟩ := huri
  rw [validUri, Bool.and_eq_true, decide_eq_true_iff]
  constructor
  · rintro ⟨hne, haddr⟩
    obtain ⟨comps, hparse, hread⟩ := parseAddr_eq hne hlen hzero hhost .zero
    exact ⟨hne, comps, _, hparse, hread, haddr⟩
  · rintro ⟨hne, comps, host, hparse, hread, haddr⟩
    obtain ⟨comps', hparse', hread'⟩ := parseAddr_eq hne hlen hzero hhost .zero
    rw [hparse] at hparse'
    obtain rfl : comps = comps' := (Prod.mk.inj (Option.some.inj hparse')).2
    obtain rfl : host = hostPart uri := Option.some.inj (hread.symm.trans hread')
    exact ⟨hne, haddr⟩

/-- There is no socket after `init_socket` if there was none and the system gives none. -/
theorem socketFd_init_lt_iff {st : ResolverState} {newFd : Int} :
    (if st.socketFd < 0 then { st with socketFd := newFd } else st).socketFd < 0 ↔
      st.socketFd < 0 ∧ newFd < 0 := by
  split
  · rename_i hclosed
    exact ⟨fun h => ⟨hclosed, h⟩, fun h => h.2⟩
  · rename_i hopen
    exact ⟨fun h => absurd h hopen, fun h => absurd h.1 hopen⟩

/-- After `lnp_endpoints_set` the visible endpoints are the first valid URIs of the array, in order
and with their URIs, whatever was configured before, and `lnp_endpoints_show` lists them. The call
raises only if it has no socket and gets none. -/
theorem lnpEndpointsSet_visible (inetAton : Bytes → Option UInt32) (newFd : Int)
    (st : ResolverState) (uris : List (Option Bytes))
    (huris : ∀ uri, some uri ∈ uris → FittingText uri) :
    ∃ r st', lnpEndpointsSet inetAton newFd st uris = some (r, st') ∧
      (r = .raised ↔ st.socketFd < 0 ∧ newFd < 0) ∧
      (r = .done →
        (visible st').map describe =
          entries inetAton 0 (accepted inetAton maxEndpoints uris) ∧
        (∀ i : Nat, getEndpointAtIndex st' i = (visible st')[i]?) ∧
        st'.currEndpointIndex = 0 ∧
        lnpEndpointsShow st' = some (rowsOf (accepted inetAton maxEndpoints uris))) ∧
      (∀ uri, some uri ∈ uris → (validUri inetAton uri = true ↔
        uri ≠ [] ∧ ∃ comps host, parseAddr uri .zero = some (0, comps) ∧
          cString? comps.host = some host ∧ (inetAton host).isSome)) := by
  have hvalid : ∀ uri, some uri ∈ uris → (validUri inetAton uri = true ↔
      uri ≠ [] ∧ ∃ comps host, parseAddr uri .zero = some (0, comps) ∧
        cString? comps.host = some host ∧ (inetAton host).isSome) :=
    fun uri huri => validUri_iff (huris uri huri)
  -- a call that gets to the list empties it first
  have hset : ∀ st₀ : ResolverState, ∃ st', addEndpoints inetAton (removeAllEndpoints st₀) uris =
      some st' ∧ (visible st').map describe =
        entries inetAton 0 (accepted inetAton maxEndpoints uris) ∧ st'.currEndpointIndex = 0 := by
    intro st₀
    obtain ⟨st', hadd, hindex, hvis⟩ :=
      addEndpoints_shown inetAton (removeAllEndpoints st₀) huris
    exact ⟨st', hadd, hvis, hindex⟩
  have hshort : ∀ uri ∈ accepted inetAton maxEndpoints uris, uri.length < maxEndpointLen := by
    intro uri huri
    have hmem := List.mem_of_mem_filter (List.mem_of_mem_take huri)
    exact (huris uri (List.reduceOption_mem_iff.mp hmem)).length_lt
  rw [lnpEndpointsSet]
  by_cases hraise : st.socketFd < 0 ∧ newFd < 0
  · refine ⟨.raised, _, if_pos (socketFd_init_lt_iff.mpr hraise),
      ⟨fun _ => hraise, fun _ => rfl⟩, ?_, hvalid⟩
    intro h
    cases h
  · obtain ⟨st', hadd, hvis, hindex⟩ :=
      hset (if st.socketFd < 0 then { st with socketFd := newFd } else st)
    refine ⟨.done, st', ?_, ?_, ?_, hvalid⟩
    · rw [if_neg (fun h => hraise (socketFd_init_lt_iff.mp h)), hadd]
      rfl
    · constructor
      · intro h
        cases h
      · intro h
        exact absurd h hraise
    · intro _
      exact ⟨hvis, getEndpointAtIndex_eq st', hindex, lnpEndpointsShow_eq hvis hshort⟩

theorem lnpEndpointsSet_visible_three :
    ∃ st', lnpEndpointsSet
        (fun host => if host = ascii "127.0.0.1" then some 2130706433 else none) 7 .init [some (ascii "udp://nohost"), none, some (ascii "udp://127.0.0.1:5060")] =
          some (.done, st') ∧
      lnpEndpointsShow st' = some [⟨ascii "0", ascii "udp://127.0.0.1:5060"⟩] := by
  have hfit : ∀ uri, some uri ∈ [some (ascii "udp://nohost"), none,
      some (ascii "udp://127.0.0.1:5060")] → FittingText uri := by
    intro uri huri
    rcases List.mem_cons.mp huri with heq | huri
    · obtain rfl := Option.some.inj heq
      exact ⟨by decide, by decide, by decide⟩
    · rcases List.mem_cons.mp huri with heq | huri
      · cases heq
      · obtain rfl := Option.some.inj (List.mem_singleton.mp huri)
        exact ⟨by decide, by decide, by decide⟩
  obtain ⟨r, st', hset, hraised, hdone, -⟩ := lnpEndpointsSet_visible
    (fun host => if host = ascii "127.0.0.1" then some 2130706433 else none) 7 .init _ hfit
  cases r with
  | raised => exact absurd (hraised.mp rfl).2 (by decide)
  | done =>
    obtain ⟨-, -, -, hshow⟩ := hdone rfl
    refine ⟨st', hset, hshow.trans ?_⟩
    decide

end YetiPgExt.Lnp
