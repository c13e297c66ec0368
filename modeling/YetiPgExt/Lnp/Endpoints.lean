import YetiPgExt.Lnp.Uri

/-!
# The endpoint list

The state that `resolver.c`, `transport.c` and `request_id.c` keep in global variables, the
operations on the endpoint list, and `lnp_endpoints_set`, which rebuilds it. The static array has
`maxEndpoints` slots; that the count never exceeds it is a field of the state.

`WellFormed` is what holds between calls. `getCurrentEndpoint_of_wellFormed` and
`getNextEndpoint_of_wellFormed` say which slot the two selectors give then, and that the modulus
is not zero.
-/

set_option autoImplicit false

namespace YetiPgExt.Lnp

open YetiPgExt.Library

/-- `MAX_ENDPOINT_LEN` -/
def maxEndpointLen : Nat := 128

/-- `MAX_ENDPOINTS` -/
def maxEndpoints : Nat := 5

/-- `MSG_SZ` -/
def msgSz : Nat := 2048

/-- `endpoint`; the port and the address are in host order. -/
structure Endpoint where
  id : Nat
  sinPort : UInt16
  sinAddr : UInt32
  url : Bytes
  deriving DecidableEq

/-- A slot after `memset` or `bzero`. -/
def Endpoint.zero : Endpoint where
  id := 0
  sinPort := 0
  sinAddr := 0
  url := zeros maxEndpointLen

/-- The global variables. -/
structure ResolverState where
  endpoints : Vector Endpoint maxEndpoints
  endpointsCount : Nat
  currEndpointIndex : Int
  msg : Bytes
  msgLen : Nat
  reqId : UInt32
  socketFd : Int
  count_le : endpointsCount ≤ maxEndpoints

/-- The state of a new backend, after `init`. -/
def ResolverState.init : ResolverState where
  endpoints := .replicate _ .zero
  endpointsCount := 0
  currEndpointIndex := 0
  msg := zeros msgSz
  msgLen := 0
  reqId := 0
  socketFd := -1
  count_le := Nat.zero_le _

/-! ## Choosing an endpoint -/

/-- `get_endpoint_at_index`; `none` for `NULL`. -/
def getEndpointAtIndex (st : ResolverState) (index : Int) : Option Endpoint :=
  if h : 0 ≤ index ∧ index < st.endpointsCount then
    some (st.endpoints.get ⟨index.toNat, by have := st.count_le; omega⟩)
  else none

/-- `get_next_endpoint`; there is no result when the modulus is zero. -/
def getNextEndpoint (st : ResolverState) : Option (Option Endpoint × ResolverState) :=
  if st.endpointsCount = 0 then none
  else
    let st := { st with
      currEndpointIndex := (st.currEndpointIndex + 1).tmod st.endpointsCount }
    some (getEndpointAtIndex st st.currEndpointIndex, st)

/-- `get_current_endpoint` -/
def getCurrentEndpoint (st : ResolverState) : Option (Option Endpoint × ResolverState) :=
  if 0 ≤ st.currEndpointIndex ∧ st.currEndpointIndex < st.endpointsCount then
    some (getEndpointAtIndex st st.currEndpointIndex, st)
  else getNextEndpoint st

/-! ## Configuring the list -/

/-- `add_endpoint` on a string: its return value and the new state; no result if a store is out of
bounds. `inetAton` is `inet_aton`. The slot behind the last endpoint is written before the host is
checked; it becomes visible with the last assignment only. -/
def addEndpoint (inetAton : Bytes → Option UInt32) (st : ResolverState) (uri : Bytes) :
    Option (Int × ResolverState) :=
  if h : st.endpointsCount < maxEndpoints then
    let slot : Fin maxEndpoints := ⟨st.endpointsCount, h⟩
    let setSlot (endp : Endpoint) : ResolverState :=
      { st with endpoints := st.endpoints.set slot endp }
    do
      let (ret, comps) ← parseAddr uri .zero
      -- the slot keeps the zeros of `memset`
      if ret = -1 then return (-1, setSlot .zero)
      let url ← strncpy Endpoint.zero.url uri maxEndpointLen
      let endp : Endpoint :=
        { Endpoint.zero with
          id := st.endpointsCount, url := url, sinPort := UInt16.ofInt comps.port }
      let host ← cString? comps.host
      match inetAton host with
      -- the slot is filled already, but the count does not cover it
      | none => return (-1, setSlot endp)
      | some addr =>
        return (0,
          { setSlot { endp with sinAddr := addr } with
            endpointsCount := st.endpointsCount + 1
            count_le := h })
  else some (-1, st)

/-- `remove_all_endpoints` -/
def removeAllEndpoints (st : ResolverState) : ResolverState :=
  { st with
    endpoints := st.endpoints.mapFinIdx fun i endp _ =>
      if i < st.endpointsCount then .zero else endp
    endpointsCount := 0
    currEndpointIndex := 0
    count_le := Nat.zero_le _ }

/-- The loop of `lnp_endpoints_set` over the array: NULLs are skipped, every other text is copied
into `c_uri` and added. -/
def addEndpoints (inetAton : Bytes → Option UInt32) :
    ResolverState → List (Option Bytes) → Option ResolverState
  | st, [] => some st
  | st, none :: uris => addEndpoints inetAton st uris
  | st, some uri :: uris => do
    let cUri ← memcpy (zeros maxEndpointLen) uri
    let cUri ← cString? cUri
    -- the return value is ignored: a text that is refused leaves no gap in the list
    let (_, st) ← addEndpoint inetAton st cUri
    addEndpoints inetAton st uris

/-- How a call that changes the configuration ends. -/
inductive SetResult where
  | done
  | raised
  deriving DecidableEq

/-- `lnp_endpoints_set`. `newFd` is what `socket` returns if it is called; `err` raises when that
is negative. -/
def lnpEndpointsSet (inetAton : Bytes → Option UInt32) (newFd : Int) (st : ResolverState)
    (uris : List (Option Bytes)) : Option (SetResult × ResolverState) :=
  let st := if st.socketFd < 0 then { st with socketFd := newFd } else st
  if st.socketFd < 0 then some (.raised, st)
  else do
    let st ← addEndpoints inetAton (removeAllEndpoints st) uris
    return (.done, st)

/-! ## What holds between calls -/

/-- The index is in range and the socket is open as soon as there is an endpoint; the endpoint in
slot `i` has the id `i`. -/
structure WellFormed (st : ResolverState) : Prop where
  index_nonneg : 0 ≤ st.currEndpointIndex
  index_lt : 0 < st.endpointsCount → st.currEndpointIndex < st.endpointsCount
  socket : 0 < st.endpointsCount → 0 ≤ st.socketFd
  ids : ∀ i : Fin maxEndpoints, i < st.endpointsCount → (st.endpoints.get i).id = i

theorem WellFormed.init : WellFormed .init where
  index_nonneg := le_rfl
  index_lt h := absurd h (by decide)
  socket h := absurd h (by decide)
  ids _ h := absurd h (Nat.not_lt_zero _)

/-- The state after the list is emptied, with an open socket, and while it is filled again. -/
structure Filling (st : ResolverState) : Prop where
  index_eq : st.currEndpointIndex = 0
  socket : 0 ≤ st.socketFd
  ids : ∀ i : Fin maxEndpoints, i < st.endpointsCount → (st.endpoints.get i).id = i

/-! ### The selectors -/

theorem getEndpointAtIndex_of_range {st : ResolverState} {index : Int}
    (h : 0 ≤ index ∧ index < st.endpointsCount) :
    ∃ endp, getEndpointAtIndex st index = some endp := by
  rw [getEndpointAtIndex, dif_pos h]
  exact ⟨_, rfl⟩

/-- The endpoint at an index has the index as its id. -/
theorem WellFormed.id_eq {st : ResolverState} (hst : WellFormed st) {index : Int} {endp : Endpoint}
    (h : getEndpointAtIndex st index = some endp) : (endp.id : Int) = index := by
  unfold getEndpointAtIndex at h
  split at h
  · -- the slot is the one that `index` names, and `ids` speaks of it
    rename_i hrange
    obtain ⟨hnonneg, hlt⟩ := hrange
    cases h
    rw [hst.ids _ (by show index.toNat < st.endpointsCount; omega)]
    exact Int.toNat_of_nonneg hnonneg
  · cases h

/-- The current endpoint is the one at the current index. -/
theorem getCurrentEndpoint_of_wellFormed {st : ResolverState} (hst : WellFormed st)
    (hpos : 0 < st.endpointsCount) :
    getCurrentEndpoint st = some (getEndpointAtIndex st st.currEndpointIndex, st) := by
  rw [getCurrentEndpoint, if_pos ⟨hst.index_nonneg, hst.index_lt hpos⟩]

/-- The next endpoint is the one at the next index, around the list. -/
theorem getNextEndpoint_of_wellFormed {st : ResolverState} (hst : WellFormed st)
    (hpos : 0 < st.endpointsCount) :
    getNextEndpoint st =
      some (getEndpointAtIndex st ((st.currEndpointIndex + 1) % st.endpointsCount),
        { st with currEndpointIndex := (st.currEndpointIndex + 1) % st.endpointsCount }) := by
  have hnonneg : 0 ≤ st.currEndpointIndex + 1 := by have := hst.index_nonneg; omega
  rw [getNextEndpoint, if_neg (by omega), Int.tmod_eq_emod_of_nonneg hnonneg]
  rfl

/-! ### The configuration -/

theorem Filling.wellFormed {st : ResolverState} (h : Filling st) : WellFormed st where
  index_nonneg := h.index_eq.ge
  index_lt hpos := by
    rw [h.index_eq]
    exact_mod_cast hpos
  socket _ := h.socket
  ids := h.ids

theorem Filling.removeAllEndpoints {st : ResolverState} (h : 0 ≤ st.socketFd) :
    Filling (removeAllEndpoints st) where
  index_eq := rfl
  socket := h
  ids _ hi := absurd hi (Nat.not_lt_zero _)

/-- What `add_endpoint` can do: write into the slot behind the last endpoint, and make it visible
with its index as its id. -/
theorem addEndpoint_cases {inetAton : Bytes → Option UInt32} {st st' : ResolverState} {uri : Bytes}
    {ret : Int} (h : addEndpoint inetAton st uri = some (ret, st')) :
    (ret = -1 ∧ st' = st) ∨
    ∃ (hlt : st.endpointsCount < maxEndpoints) (endp : Endpoint),
      (ret = -1 ∧ st' = { st with endpoints := st.endpoints.set st.endpointsCount endp }) ∨
      (ret = 0 ∧ endp.id = st.endpointsCount ∧
        st' = { st with
          endpoints := st.endpoints.set st.endpointsCount endp
          endpointsCount := st.endpointsCount + 1
          count_le := hlt }) := by
  unfold addEndpoint at h
  split at h
  · -- there is a free slot: the three exits of the body
    rename_i hlt
    right
    refine ⟨hlt, ?_⟩
    simp only [Option.bind_eq_bind, Option.bind_eq_some_iff] at h
    obtain ⟨⟨ret', comps⟩, -, h⟩ := h
    split at h
    · cases h
      exact ⟨_, .inl ⟨rfl, rfl⟩⟩
    · simp only [Option.bind_eq_some_iff] at h
      obtain ⟨url, -, host, -, h⟩ := h
      cases haddr : inetAton host with
      | none =>
        rw [haddr] at h
        cases h
        exact ⟨_, .inl ⟨rfl, rfl⟩⟩
      | some addr =>
        rw [haddr] at h
        cases h
        exact ⟨_, .inr ⟨rfl, rfl, rfl⟩⟩
  · cases h
    exact .inl ⟨rfl, rfl⟩

theorem Filling.addEndpoint {inetAton : Bytes → Option UInt32} {st st' : ResolverState}
    {uri : Bytes} {ret : Int} (hst : Filling st)
    (h : addEndpoint inetAton st uri = some (ret, st')) : Filling st' := by
  rcases addEndpoint_cases h with ⟨-, rfl⟩ | ⟨hlt, endp, ⟨-, rfl⟩ | ⟨-, hid, rfl⟩⟩
  · exact hst
  · -- the write is behind the last endpoint, so every id is as before
    refine ⟨hst.index_eq, hst.socket, ?_⟩
    intro i hi
    have hne : st.endpointsCount ≠ i := Nat.ne_of_gt hi
    show ((st.endpoints.set st.endpointsCount endp)[(i : Nat)]).id = i
    rw [Vector.getElem_set_ne _ _ hne]
    exact hst.ids i hi
  · refine ⟨hst.index_eq, hst.socket, ?_⟩
    intro i hi
    show ((st.endpoints.set st.endpointsCount endp)[(i : Nat)]).id = i
    -- the slot that became visible is the only new one
    rcases Nat.lt_or_eq_of_le (Nat.lt_succ_iff.mp hi) with hlt' | heq
    · rw [Vector.getElem_set_ne _ _ (Nat.ne_of_gt hlt')]
      exact hst.ids i hlt'
    · simp only [heq, Vector.getElem_set_self]
      exact hid

theorem Filling.addEndpoints {inetAton : Bytes → Option UInt32} {st st' : ResolverState}
    {uris : List (Option Bytes)} (hst : Filling st)
    (h : addEndpoints inetAton st uris = some st') : Filling st' := by
  -- on the array: every element leaves a list that is being filled
  induction uris generalizing st with
  | nil =>
    cases h
    exact hst
  | cons uri uris ih =>
    cases uri with
    | none => exact ih hst h
    | some uri =>
      simp only [Lnp.addEndpoints, Option.bind_eq_bind, Option.bind_eq_some_iff] at h
      obtain ⟨cUri, -, cUri', -, ⟨ret, st₁⟩, hadd, h⟩ := h
      exact ih (hst.addEndpoint hadd) h

/-- `lnp_endpoints_set` keeps the state well formed, also when it raises. -/
theorem WellFormed.lnpEndpointsSet {inetAton : Bytes → Option UInt32} {newFd : Int}
    {st st' : ResolverState} {uris : List (Option Bytes)} {r : SetResult} (hst : WellFormed st)
    (h : lnpEndpointsSet inetAton newFd st uris = some (r, st')) : WellFormed st' := by
  unfold Lnp.lnpEndpointsSet at h
  -- a closed socket is opened first, and if that fails the old list stays
  by_cases hfd : st.socketFd < 0
  · have hempty : ¬ 0 < st.endpointsCount := by
      intro hpos
      have := hst.socket hpos
      omega
    simp only [if_pos hfd] at h
    split at h
    · cases h
      exact ⟨hst.index_nonneg, hst.index_lt, fun hpos => absurd hpos hempty, hst.ids⟩
    · rename_i hopen
      simp only [Option.bind_eq_bind, Option.bind_eq_some_iff] at h
      obtain ⟨st₁, hadd, h⟩ := h
      cases h
      exact (Filling.addEndpoints (Filling.removeAllEndpoints (not_lt.mp hopen)) hadd).wellFormed
  · simp only [if_neg hfd, Option.bind_eq_bind, Option.bind_eq_some_iff] at h
    obtain ⟨st₁, hadd, h⟩ := h
    cases h
    exact (Filling.addEndpoints (Filling.removeAllEndpoints (not_lt.mp hfd)) hadd).wellFormed

end YetiPgExt.Lnp
