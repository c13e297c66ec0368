import YetiPgExt.Lnp.Cache
import YetiPgExt.Lnp.ErrorAgreement
import YetiPgExt.Lnp.Reachable

/-!
# The resolve functions

`f_lnp_resolve.c`: the three functions that look a number up in the cache and ask an endpoint if it
is not there. A string is passed to the server as a pointer; here that is the memory from the
pointer on, and the string in it is what stands before the first zero.

`resolve_and_rows_agree` carries the agreement of `resolve` on to the rows of
`lnp_resolve_tagged_with_error`: each has a number or an error, and not both.
-/

set_option autoImplicit false

namespace YetiPgExt.Lnp

open YetiPgExt.Library YetiPgExt.Postgres

/-! ## What a call returns -/

/-- How a call of a resolve function ends. `null` is `PG_RETURN_NULL` behind a warning with the
given text, `notComposite` the `ereport` of a call in a context that takes no record, and
`outOfBounds` a read or a write behind a buffer. -/
inductive CallEnd (α : Type) where
  | value (a : α)
  | null (warning : Bytes)
  | notComposite
  | raised (reqId : UInt32) (cause : Option ResolveError)
  | crashed
  | running
  | outOfBounds
  deriving DecidableEq

variable {α ω : Type}

/-- A call that returns a value it has read. -/
def CallEnd.ofValue : Option α → CallEnd α
  | some a => .value a
  | none => .outOfBounds

/-- `warn("%s", mem); PG_RETURN_NULL();` -/
def CallEnd.ofWarning (mem : Bytes) : CallEnd α :=
  match cString? mem with
  | some warning => .null warning
  | none => .outOfBounds

/-- A call that goes on with the return value of `resolve`. -/
def CallEnd.ofOutcome (o : Outcome) (k : Int → CallEnd α) : CallEnd α :=
  match o with
  | .returned ret => k ret
  | .raised reqId cause => .raised reqId cause
  | .crashed => .crashed
  | .running => .running

/-- A field of a row from the string at a pointer; `none` for `NULL`. -/
def cStringField : Option Bytes → Option (Option Bytes)
  | none => some none
  | some mem => (cString? mem).map some

/-- A row of `lnp_resolve_tagged`. -/
structure LnpResult where
  lrn : Option Bytes
  tag : Option Bytes
  deriving DecidableEq

/-- A row of `lnp_resolve_tagged_with_error`. -/
structure LnpResultWithError where
  lrn : Option Bytes
  tag : Option Bytes
  error : Option Bytes
  deriving DecidableEq

/-- `BuildTupleFromCStrings(attinmeta, v)` for the two strings of a number. -/
def buildResult (v₀ v₁ : Option Bytes) : Option LnpResult := do
  let lrn ← cStringField v₀
  let tag ← cStringField v₁
  return ⟨lrn, tag⟩

/-- `BuildTupleFromCStrings(attinmeta, v)` with the error string behind them. -/
def buildResultWithError (v₀ v₁ v₂ : Option Bytes) : Option LnpResultWithError := do
  let lrn ← cStringField v₀
  let tag ← cStringField v₁
  let error ← cStringField v₂
  return ⟨lrn, tag, error⟩

/-- The memory of a string that was allocated with its terminating zero. -/
def terminated (s : Bytes) : Bytes := s ++ [0]

/-! ## The three functions -/

/-- What a backend keeps between the calls. -/
structure Session (ω : Type) where
  hashTab : HashTab
  st : ResolverState
  world : ω

section

variable (net : Net ω) (fuel : Nat) (strerror : Int → Bytes)

/-- The memory of the error string. -/
def errorMem (error : Option ResolveError) : Option Bytes :=
  error.map fun e => terminated (e.text strerror)

/-- `error ? error : "generic failure"` -/
def failureMem (error : Option ResolveError) : Bytes :=
  (errorMem strerror error).getD (terminated (ascii "generic failure"))

/-- `resolve` for a new request, with the response and the error pointer cleared. -/
def resolveRequest (s : Session ω) (type : UInt8) (dbId : Int32) (number : Text) :
    Outcome × Ctx ω :=
  resolve net fuel
    { st := s.st
      req := { id := 0, type := type, dbId := dbId, data := number.bytes }
      resp := .zero
      error := none
      world := s.world
      trace := [] }

/-- The session after `resolve`. -/
def Session.after (s : Session ω) (c : Ctx ω) : Session ω := { s with st := c.st, world := c.world }

/-! A cached response need not have a zero in it: `behind` is the memory that follows it. -/

variable (behind : Bytes)

/-- `lnp_resolve_cnam` -/
def lnpResolveCnam (s : Session ω) (dbId : Int32) (number : Text) : CallEnd Bytes × Session ω :=
  match ecFind s.hashTab number with
  | none => (.outOfBounds, s)
  | some (some entry) =>
    let respMoc := entry.response ++ behind
    if entry.error then (.ofWarning respMoc, s)
    else (.ofValue (cString? respMoc), s)
  | some none =>
    let (o, c) := resolveRequest net fuel s cnamReqVersion dbId number
    (.ofOutcome o fun ret =>
      if ret ≠ 0 then .ofWarning (failureMem strerror c.error)
      else
        match c.resp.val with
        | some val => .value val
        | none => .crashed, s.after c)

/-- `lnp_resolve_tagged` -/
def lnpResolveTagged (composite : Bool) (s : Session ω) (dbId : Int32) (number : Text) :
    CallEnd LnpResult × Session ω :=
  if composite = false then (.notComposite, s)
  else
    match ecFind s.hashTab number with
    | none => (.outOfBounds, s)
    | some (some entry) =>
      let respMoc := entry.response ++ behind
      if entry.error then (.ofWarning respMoc, s)
      else (.ofValue (buildResult (some respMoc) none), s)
    | some none =>
      let (o, c) := resolveRequest net fuel s taggedReqVersion dbId number
      (.ofOutcome o fun ret =>
        if ret ≠ 0 then .ofWarning (failureMem strerror c.error)
        else .ofValue
          (buildResult (c.resp.val1.map terminated) (c.resp.val2.map terminated)), s.after c)

/-- `lnp_resolve_tagged_with_error` -/
def lnpResolveTaggedWithError (composite : Bool) (s : Session ω) (dbId : Int32) (number : Text) :
    CallEnd LnpResultWithError × Session ω :=
  if composite = false then (.notComposite, s)
  else
    match ecFind s.hashTab number with
    | none => (.outOfBounds, s)
    | some (some entry) =>
      let respMoc := entry.response ++ behind
      if entry.error then (.ofValue (buildResultWithError none none (some respMoc)), s)
      else (.ofValue (buildResultWithError (some respMoc) none none), s)
    | some none =>
      let (o, c) := resolveRequest net fuel s taggedReqVersion dbId number
      (.ofOutcome o fun ret =>
        if ret ≠ 0 then .ofValue (buildResultWithError none none (errorMem strerror c.error))
        else .ofValue (buildResultWithError (c.resp.val1.map terminated)
          (c.resp.val2.map terminated) none), s.after c)

end

/-! ## The fields of a row -/

theorem cStringField_eq_none_iff {v field : Option Bytes} (h : cStringField v = some field) :
    field = none ↔ v = none := by
  cases v with
  | none =>
    cases h
    exact iff_of_true rfl rfl
  | some mem =>
    obtain ⟨s, -, rfl⟩ := Option.map_eq_some_iff.mp h
    exact iff_of_false (Option.some_ne_none s) (Option.some_ne_none mem)

/-- A field of a row is `NULL` exactly if its pointer is. -/
theorem buildResultWithError_null {v₀ v₁ v₂ : Option Bytes} {row : LnpResultWithError}
    (h : buildResultWithError v₀ v₁ v₂ = some row) :
    (row.lrn = none ↔ v₀ = none) ∧ (row.tag = none ↔ v₁ = none) ∧
      (row.error = none ↔ v₂ = none) := by
  obtain ⟨lrn, hlrn, h⟩ := Option.bind_eq_some_iff.mp h
  obtain ⟨tag, htag, h⟩ := Option.bind_eq_some_iff.mp h
  obtain ⟨error, herror, h⟩ := Option.bind_eq_some_iff.mp h
  cases h
  exact ⟨cStringField_eq_none_iff hlrn, cStringField_eq_none_iff htag,
    cStringField_eq_none_iff herror⟩

/-- The pointers decide whether a row has a number or an error. -/
theorem buildResultWithError_exclusive {v₀ v₁ v₂ : Option Bytes} {row : LnpResultWithError}
    (h : buildResultWithError v₀ v₁ v₂ = some row) (hexclusive : v₀ ≠ none ↔ v₂ = none)
    (htag : v₁ ≠ none → v₀ ≠ none) :
    (row.lrn ≠ none ↔ row.error = none) ∧ (row.tag ≠ none → row.lrn ≠ none) := by
  obtain ⟨hv₀, hv₁, hv₂⟩ := buildResultWithError_null h
  rw [ne_eq, ne_eq, hv₀, hv₁, hv₂]
  exact ⟨hexclusive, htag⟩

theorem CallEnd.ofValue_eq_value {v : Option α} {a : α} (h : ofValue v = .value a) :
    v = some a := by
  cases v with
  | none => cases h
  | some b =>
    cases h
    rfl

/-- A warning is followed by `NULL`, if it has an end. -/
theorem CallEnd.ofWarning_cases (mem : Bytes) :
    (∃ warning, (ofWarning mem : CallEnd α) = .null warning) ∨
      (ofWarning mem : CallEnd α) = .outOfBounds := by
  rw [ofWarning]
  cases cString? mem with
  | none => exact .inr rfl
  | some warning => exact .inl ⟨warning, rfl⟩

theorem CallEnd.ofOutcome_eq_value {o : Outcome} {k : Int → CallEnd α} {a : α}
    (h : ofOutcome o k = .value a) : ∃ ret, o = .returned ret ∧ k ret = .value a := by
  cases o with
  | returned ret => exact ⟨ret, rfl, h⟩
  | raised reqId cause => cases h
  | crashed => cases h
  | running => cases h

section Rows

variable {net : Net ω} {fuel : Nat} {strerror : Int → Bytes} {behind : Bytes} {composite : Bool}
variable {s : Session ω} {dbId : Int32} {number : Text}

theorem resolveRequest_agreement {type : UInt8} (htype : IsVersion type) {ret : Int} {c : Ctx ω}
    (h : resolveRequest net fuel s type dbId number = (.returned ret, c)) :
    (ret = 0 ↔ c.error = none) ∧ (ret = 0 → c.resp.Answers type) := by
  obtain ⟨hagree, htype'⟩ := resolve_agreement net fuel _ htype h
  refine ⟨hagree.error_iff, ?_⟩
  intro hret
  have hanswers := hagree.answers hret
  rwa [htype'] at hanswers

/-- A row with an error string has neither a number nor a tag; one without has a number. -/
theorem lnpResolveTaggedWithError_value {row : LnpResultWithError}
    (h : (lnpResolveTaggedWithError net fuel strerror behind composite s dbId number).1 =
      .value row) :
    (row.lrn ≠ none ↔ row.error = none) ∧ (row.tag ≠ none → row.lrn ≠ none) := by
  have hsome : ∀ mem : Bytes, some mem ≠ none := Option.some_ne_none
  rw [lnpResolveTaggedWithError] at h
  split at h
  · cases h
  obtain ⟨found, hfind⟩ := exists_ecFind s.hashTab number
  rw [hfind] at h
  cases found with
  | some entry =>
    -- a cached answer fills one of the two columns
    dsimp only at h
    split at h
    · apply buildResultWithError_exclusive (CallEnd.ofValue_eq_value h)
      · exact iff_of_false (not_not.mpr rfl) (hsome _)
      · exact fun htag => absurd rfl htag
    · apply buildResultWithError_exclusive (CallEnd.ofValue_eq_value h)
      · exact iff_of_true (hsome _) rfl
      · exact fun htag => absurd rfl htag
  | none =>
    rcases hresolve : resolveRequest net fuel s taggedReqVersion dbId number with ⟨o, c⟩
    rw [hresolve] at h
    obtain ⟨ret, rfl, hret⟩ := CallEnd.ofOutcome_eq_value h
    obtain ⟨herror, hanswers⟩ := resolveRequest_agreement (.inl rfl) hresolve
    by_cases hzero : ret = 0
    · rw [if_neg (not_not.mpr hzero)] at hret
      have hlrn : c.resp.val1.map terminated ≠ none := by
        rw [ne_eq, Option.map_eq_none_iff]
        exact (hanswers hzero).lrn rfl
      apply buildResultWithError_exclusive (CallEnd.ofValue_eq_value hret)
      · exact iff_of_true hlrn rfl
      · exact fun _ => hlrn
    · rw [if_pos hzero] at hret
      have hmem : errorMem strerror c.error ≠ none := by
        rw [ne_eq, errorMem, Option.map_eq_none_iff, ← herror]
        exact hzero
      apply buildResultWithError_exclusive (CallEnd.ofValue_eq_value hret)
      · exact iff_of_false (not_not.mpr rfl) hmem
      · exact fun htag => absurd rfl htag

end Rows

/-- If `resolve` returns for a request of either type, it returns 0 exactly if there is no error
string, and a tagged request is then answered with a number. So each row of
`lnp_resolve_tagged_with_error` has a number or an error and not both, and a tag only beside a
number. -/
theorem resolve_and_rows_agree :
    (∀ {ω : Type} (net : Net ω) (fuel : Nat) (c c' : Ctx ω) (ret : Int), IsVersion c.req.type →
      resolve net fuel c = (.returned ret, c') →
      (ret = 0 ↔ c'.error = none) ∧
      (c.req.type = taggedReqVersion → ret = 0 → c'.resp.val1 ≠ none)) ∧
    (∀ {ω : Type} (net : Net ω) (fuel : Nat) (strerror : Int → Bytes) (behind : Bytes)
        (composite : Bool) (s : Session ω) (dbId : Int32) (number : Text)
        (row : LnpResultWithError),
      (lnpResolveTaggedWithError net fuel strerror behind composite s dbId number).1 =
        .value row →
      (row.lrn ≠ none ↔ row.error = none) ∧ (row.tag ≠ none → row.lrn ≠ none)) := by
  constructor
  · intro ω net fuel c c' ret htype h
    obtain ⟨hagree, htype'⟩ := resolve_agreement net fuel c htype h
    refine ⟨hagree.error_iff, ?_⟩
    intro htagged hret
    exact (hagree.answers hret).lrn (htype'.trans htagged)
  · intro ω net fuel strerror behind composite s dbId number row h
    exact lnpResolveTaggedWithError_value h

/-- A network in which every request is answered with the number `123` and the tag `ab`. -/
def replyNet : Net Unit where
  rand _ := (7, ())
  sendto _ _ buf := (.ok buf.length, ())
  poll _ := (.ok 1, ())
  recvfrom _ _ := (.ok ([7, 0, 0, 0, 0, 5, 3] ++ ascii "123ab"), ())

/-- A backend with two endpoints and nothing cached. -/
def sampleSession : Session Unit where
  hashTab := none
  st := sampleState
  world := ()

/-- A call of `resolve` for a number in it. -/
def replyCall : Ctx Unit where
  st := sampleState
  req := { id := 0, type := taggedReqVersion, dbId := 0, data := ascii "456" }
  resp := .zero
  error := none
  world := ()
  trace := []

theorem resolve_and_rows_agree_reply :
    ((resolve replyNet 1 replyCall).1 = .returned 0 ∧
      ((0 : Int) = 0 ↔ (resolve replyNet 1 replyCall).2.error = none) ∧
      (replyCall.req.type = taggedReqVersion → (0 : Int) = 0 →
        (resolve replyNet 1 replyCall).2.resp.val1 ≠ none)) ∧
    (lnpResolveTaggedWithError replyNet 1 (fun _ => []) [] true sampleSession 0
        ⟨ascii "456", by decide⟩).1 = .value ⟨some (ascii "123"), some (ascii "ab"), none⟩ ∧
      ((some (ascii "123") ≠ none ↔ (none : Option Bytes) = none) ∧
        (some (ascii "ab") ≠ none → some (ascii "123") ≠ none)) := by
  have hret : (resolve replyNet 1 replyCall).1 = .returned 0 := by decide +kernel
  have hrow : (lnpResolveTaggedWithError replyNet 1 (fun _ => []) [] true sampleSession 0
      ⟨ascii "456", by decide⟩).1 = .value ⟨some (ascii "123"), some (ascii "ab"), none⟩ := by
    decide +kernel
  have hcall : resolve replyNet 1 replyCall =
      (.returned 0, (resolve replyNet 1 replyCall).2) := by
    rw [← hret]
  refine ⟨⟨hret, ?_⟩, hrow, ?_⟩
  · exact resolve_and_rows_agree.1 replyNet 1 replyCall (resolve replyNet 1 replyCall).2 0
      (.inl rfl) hcall
  · exact resolve_and_rows_agree.2 replyNet 1 (fun _ => []) [] true sampleSession 0
      ⟨ascii "456", by decide⟩ ⟨some (ascii "123"), some (ascii "ab"), none⟩ hrow

end YetiPgExt.Lnp
