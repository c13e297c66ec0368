import YetiPgExt.Regexp.CallFrame
import YetiPgExt.Regexp.PointerRun

/-!
# Slots that outlive their memory

PostgreSQL's executor evaluates a call for each row on one `fcinfo`, and frees after each row what
was allocated for it. A chunk that a call of `regexp_replace_rand_noopt` leaves in a slot is then
gone, and the call for the next row reads it, unless its input is `NULL`. `rowsAt_defined_iff` says
when no row does: exactly if there is one row at most whose input is not `NULL`, or the first call
puts back or does not write the slots of the rule and the result. The form with options always puts
them back (`yields_optionRowsAt`).

Each call is entered in the context of its row, and catches one error at most; what it leaves in
`ErrorContext` is used before the next row.
-/

set_option autoImplicit false

namespace YetiPgExt.Regexp

open YetiPgExt.Library YetiPgExt.Library.Memory YetiPgExt.Postgres

/-! ## The rows -/

/-- A row: its input, which may be `NULL`, and the random digits that are drawn in it. -/
structure Row where
  input : Option Ptr
  rand : Nat → Nat

/-- The row uses what the call returns. -/
def readRet (ret : Option Ptr) : Prog (Option Varlena) :=
  match ret with
  | none => pure none
  | some a => do
    let v ← textAt a
    pure (some v)

/-- A form, on the random digits that are drawn in the call. -/
abbrev Call := (Nat → Nat) → ArgSlots Ptr → Prog (Option Ptr × ArgSlots Ptr)

/-- One row. Only `ARG_IN` is set anew, and the memory of the row is freed when it is done. -/
def rowAt (call : Call) (fc : ArgSlots Ptr) (row : Row) : Prog (Option Varlena × ArgSlots Ptr) := do
  let start ← mark
  let (ret, fc) ← call row.rand { fc with argIn := row.input }
  let value ← readRet ret
  reset start
  pure (value, fc)

/-- A call for each row, on one `fcinfo`. -/
def rowsAt (call : Call) : ArgSlots Ptr → List Row → Prog (List (Option Varlena))
  | _, [] => pure []
  | fc, row :: rows => do
    let (value, fc) ← rowAt call fc row
    let values ← rowsAt call fc rows
    pure (value :: values)

/-- The slots are restored, or not written: the variables are an object; or the rule is `NULL` or
empty, or the result is `NULL`; or the rule has no separator, and the result has none or has random
strings, for which it is saved. -/
def KeepsPointers (fc : FcInfo Varlena) : Prop :=
  (∃ values, fc.vars = some values ∧ values.isObject = true) ∨
  ∀ rule result, fc.argRule = some rule → fc.argResult = some result →
    rule.text = [] ∨
      ¬ splitToken.bytes <:+: rule.text ∧
        (placeholders result.text ≠ [] ∨ ¬ splitToken.bytes <:+: result.text)

/-- The rule and the result in their slots, whatever the input is. -/
structure ArgsShow (m : Memory Block) (p : ArgSlots Ptr) (fc : FcInfo Varlena) : Prop where
  argRule : Option.Rel (Holds m) p.argRule fc.argRule
  argResult : Option.Rel (Holds m) p.argResult fc.argResult
  keepEmpty : p.keepEmpty = fc.keepEmpty
  vars : p.vars = fc.vars

section Rows

variable {E : RegexEngine} {rand : Nat → Nat} {m m' : Memory Block} {p p' : ArgSlots Ptr}
  {fc : FcInfo Varlena} {rule result : Varlena}

theorem ArgsShow.kept (h : ArgsShow m p fc) (hkept : Kept m m') : ArgsShow m' p fc :=
  ⟨rel_kept h.argRule hkept, rel_kept h.argResult hkept, h.keepEmpty, h.vars⟩

theorem ArgsShow.withInput (h : ArgsShow m p fc) {slot : Option Ptr} {value : Option Varlena}
    (hv : Option.Rel (Holds m) slot value) :
    Shows m { p with argIn := slot } { fc with argIn := value } :=
  ⟨hv, h.argRule, h.argResult, h.keepEmpty, h.vars⟩

theorem ArgsShow.withSlot (h : ArgsShow m p fc) (slot : Option Ptr) :
    ArgsShow m { p with argIn := slot } fc :=
  ⟨h.argRule, h.argResult, h.keepEmpty, h.vars⟩

theorem ArgsShow.of_slotsKept (h : ArgsShow m p fc) (hkept : Kept m m') (hslots : SlotsKept p p')
    (hkeep : p'.keepEmpty = p.keepEmpty) (hvars : p'.vars = p.vars) : ArgsShow m' p' fc := by
  obtain ⟨hargRule, hargResult, hkeepEmpty, hargVars⟩ := h.kept hkept
  refine ⟨?_, ?_, hkeep.trans hkeepEmpty, hvars.trans hargVars⟩
  · rw [hslots.argRule]
    exact hargRule
  · rw [hslots.argResult]
    exact hargResult

/-! ## Rows of any form -/

theorem readRet_eq {ret : Option Ptr} {t : Option Bytes} (h : NewText m m' ret t) :
    readRet ret m' = some (t.map .plain, m') := by
  cases h with
  | none => rfl
  | some hnew => exact bind_eq_some (textAt_eq hnew.2)

/-- A row gets what its call returns, and its memory is gone. -/
theorem yields_rowAt {call : Call} {row : Row} (call' : Option Bytes × FcInfo Varlena)
    (Q : ArgSlots Ptr → Prop)
    (hcall : Yields (call row.rand { p with argIn := row.input }) m fun r m' =>
      CallShows m r m' call' ∧ Q r.2) :
    Yields (rowAt call p row) m fun r m' => Kept m m' ∧ (∀ a, m.next ≤ a → m'.cells a = none) ∧
      r.1 = call'.1.map .plain ∧ Q r.2 := by
  refine .step (mark_eq m) (hcall.bind ?_)
  rintro ⟨ret, p'⟩ m₁ ⟨hshows, hslots⟩
  refine .step (readRet_eq hshows.ret) (.step (reset_eq m₁ m.next) (.pure ?_))
  exact ⟨hshows.kept.release, fun a ha => cells_release_of_le m₁ ha, rfl, hslots⟩

/-- The input of a row, in its slot. -/
abbrev InputIs (m : Memory Block) (row : Row) (v : Option Varlena) : Prop :=
  Option.Rel (Holds m) row.input v

/-- Each row gets what `fresh` says for its input. -/
def FreshValues (fresh : (Nat → Nat) → Option Varlena → Option Varlena) (m : Memory Block)
    (rows : List Row) (values : List (Option Varlena)) : Prop :=
  List.Forall₂ (fun row value => ∀ v, InputIs m row v → value = fresh row.rand v) rows values

theorem Holds.inj {a : Ptr} {v v' : Varlena} (h : Holds m a v) (h' : Holds m a v') : v = v' := by
  injection (Option.some.inj (h.symm.trans h'))

theorem InputIs.inj {row : Row} {v v' : Option Varlena} (h : InputIs m row v)
    (h' : InputIs m row v') : v = v' := by
  rw [InputIs] at h h'
  generalize row.input = slot at h h'
  cases h with
  | none =>
    cases h'
    rfl
  | some hv =>
    cases h' with
    | some hv' => exact congrArg some (hv.inj hv')

theorem InputIs.exists_eq {row : Row} {v : Option Varlena} {a : Ptr} (h : InputIs m row v)
    (ha : row.input = some a) : ∃ v', v = some v' := by
  rw [InputIs, ha] at h
  cases h
  exact ⟨_, rfl⟩

/-- There are texts in the slots of the inputs. -/
abbrev InputsShow (m : Memory Block) (rows : List Row) : Prop := ∀ row ∈ rows, ∃ v, InputIs m row v

theorem inputsShow_kept {rows : List Row} (hkept : Kept m m') (h : InputsShow m rows) :
    InputsShow m' rows := by
  intro row hmem
  obtain ⟨v, hv⟩ := h row hmem
  exact ⟨v, rel_kept hv hkept⟩

theorem FreshValues.kept {fresh : (Nat → Nat) → Option Varlena → Option Varlena} {rows : List Row}
    {values : List (Option Varlena)} (h : FreshValues fresh m' rows values) (hkept : Kept m m') :
    FreshValues fresh m rows values :=
  h.imp fun _ _ hfresh v hv => hfresh v (rel_kept hv hkept)

theorem freshValue_of_inputIs {fresh : (Nat → Nat) → Option Varlena → Option Varlena} {row : Row}
    {v value : Option Varlena} (hv : InputIs m row v) (hvalue : value = fresh row.rand v) :
    ∀ v', InputIs m row v' → value = fresh row.rand v' := by
  intro v' hv'
  rw [← hv.inj hv']
  exact hvalue

/-- What every row keeps holds for all rows. -/
theorem yields_rowsAt {call : Call} {fresh : (Nat → Nat) → Option Varlena → Option Varlena}
    (Args : Memory Block → ArgSlots Ptr → Prop)
    (hrow : ∀ {m p row v}, Args m p → InputIs m row v →
      Yields (rowAt call p row) m fun r m' =>
        Kept m m' ∧ r.1 = fresh row.rand v ∧ Args m' r.2)
    {rows : List Row} (h : Args m p) (hrows : InputsShow m rows) :
    Yields (rowsAt call p rows) m fun values m' =>
      Kept m m' ∧ FreshValues fresh m rows values := by
  induction rows generalizing m p with
  | nil => exact .pure ⟨.refl m, .nil⟩
  | cons row rows ih =>
    obtain ⟨v, hv⟩ := hrows row (List.mem_cons_self ..)
    refine (hrow h hv).bind ?_
    rintro ⟨value, p'⟩ m₁ ⟨hkept, hvalue, hargs⟩
    refine (ih hargs (inputsShow_kept hkept fun row' hmem =>
      hrows row' (List.mem_cons_of_mem _ hmem))).bind ?_
    rintro values m₂ ⟨hkept₂, hvalues⟩
    exact .pure ⟨hkept.trans hkept₂, .cons (freshValue_of_inputIs hv hvalue) (hvalues.kept hkept)⟩

/-! ## What a call saves -/

theorem replaced_iff (rand : Nat → Nat) (s : Bytes) :
    (replace rand s).replaced = true ↔ placeholders s ≠ [] := by
  by_cases hnil : placeholders s = []
  · rw [replace_of_placeholders_eq_nil hnil]
    exact iff_of_false Bool.false_ne_true (not_not.mpr hnil)
  · have hlen : (placeholders s).length ≠ 0 := mt List.length_eq_zero_iff.mp hnil
    rw [replace, if_neg hlen]
    exact iff_of_true rfl hnil

/-- Without random strings the result is not replaced. -/
theorem expandRandom_cases (rand : Nat → Nat) (result : Varlena) (fc : FcInfo Varlena) :
    placeholders result.text ≠ [] ∧ expandRandom rand result fc =
        (⟨none, some result⟩, fc.replaceResult (replace rand result.text).text) ∨
      placeholders result.text = [] ∧ expandRandom rand result fc = (⟨none, none⟩, fc) := by
  rw [expandRandom]
  by_cases hreplaced : (replace rand result.text).replaced = true
  · rw [if_pos hreplaced]
    exact .inl ⟨(replaced_iff rand result.text).mp hreplaced, rfl⟩
  · rw [if_neg hreplaced]
    exact .inr ⟨not_not.mp (mt (replaced_iff rand result.text).mpr hreplaced), rfl⟩

/-- With variables both arguments are saved. -/
theorem prepareArgs_of_object (rand : Nat → Nat) (rule : Varlena) {values : Jsonb}
    (hvars : fc.vars = some values) (hobject : values.isObject = true)
    (hresult : fc.argResult = some result) :
    (prepareArgs rand rule result fc).1.origRule ≠ none ∧
      (prepareArgs rand rule result fc).1.origResult ≠ none := by
  rw [prepareArgs]
  obtain ⟨-, hexpand⟩ | ⟨-, hexpand⟩ := expandRandom_cases rand result fc
  · rw [hexpand]
    simp [expandVars, FcInfo.replaceResult, hvars, hobject]
  · rw [hexpand]
    simp [expandVars, hvars, hobject, hresult]

/-- Without variables only a result with random strings is. -/
theorem prepareArgs_of_not_object
    (h : ¬ ∃ values, fc.vars = some values ∧ values.isObject = true) :
    prepareArgs rand rule result fc = expandRandom rand result fc := by
  rw [prepareArgs]
  have hvars : (expandRandom rand result fc).2.vars = fc.vars := by
    obtain ⟨-, hexpand⟩ | ⟨-, hexpand⟩ := expandRandom_cases rand result fc
    · rw [hexpand]
      rfl
    · rw [hexpand]
  exact expandVars_of_not_object (hvars ▸ h) _

/-! ## One call -/

theorem keepsPointers_of_unreplaced (hin : fc.argIn ≠ none)
    (hnot : ∀ rule result, ¬ Replaces fc rule result) : KeepsPointers fc := by
  right
  intro rule result hrule hresult
  left
  by_contra hne
  exact hnot rule result ⟨hin, hrule, hresult, hne⟩

theorem rule_ne_of_not_keepsPointers (h : ¬ KeepsPointers fc) :
    ∃ rule, fc.argRule = some rule ∧ rule.text ≠ [] := by
  by_contra hnot
  apply h
  right
  intro rule result hrule _
  left
  by_contra hne
  exact hnot ⟨rule, hrule, hne⟩

/-- A call that keeps the pointers leaves the caller's in the slots. -/
theorem SlotPointers.kept (h : SlotPointers m p p' (prepareArgs rand rule result fc).1
      (prepareArgs rand rule result fc).2.ruleText
      (prepareArgs rand rule result fc).2.resultText)
    (hreplaces : Replaces fc rule result) (hkeeps : KeepsPointers fc) :
    SlotsKept p p' := by
  by_cases hobject : ∃ values, fc.vars = some values ∧ values.isObject = true
  · obtain ⟨values, hvars, hisObject⟩ := hobject
    obtain ⟨hruleSaved, hresultSaved⟩ :=
      prepareArgs_of_object rand rule hvars hisObject hreplaces.argResult
    exact ⟨h.rule_kept (.inl hruleSaved), h.result_kept (.inl hresultSaved)⟩
  · rcases hkeeps.resolve_left hobject rule result hreplaces.argRule hreplaces.argResult with
      hempty | ⟨hruleSep, hresultSep⟩
    · exact absurd hempty hreplaces.rule_ne
    rw [prepareArgs_of_not_object hobject] at h
    have hr : searchSplitToken (slotText fc.argRule) = none := by
      rw [hreplaces.argRule]
      exact searchSplitToken_eq_none_iff.mpr hruleSep
    obtain ⟨-, hexpand⟩ | ⟨hnil, hexpand⟩ := expandRandom_cases rand result fc
    · rw [hexpand] at h
      exact ⟨h.rule_kept (.inr hr), h.result_kept (.inl (Option.some_ne_none result))⟩
    · rw [hexpand] at h
      have hs : searchSplitToken (slotText fc.argResult) = none := by
        rw [hreplaces.argResult]
        exact searchSplitToken_eq_none_iff.mpr (hresultSep.resolve_left fun hne => hne hnil)
      exact ⟨h.rule_kept (.inr hr), h.result_kept (.inr ⟨hr, hs⟩)⟩

/-- A call that does not leaves a pointer to memory of its own in one of them. -/
theorem SlotPointers.new (h : SlotPointers m p p' (prepareArgs rand rule result fc).1
      (prepareArgs rand rule result fc).2.ruleText
      (prepareArgs rand rule result fc).2.resultText)
    (hreplaces : Replaces fc rule result) (hkeeps : ¬ KeepsPointers fc) :
    New m p'.argRule ∨ p'.argRule = p.argRule ∧ New m p'.argResult := by
  rw [KeepsPointers, not_or] at hkeeps
  obtain ⟨hobject, hkeeps⟩ := hkeeps
  have hsep : ¬ (¬ splitToken.bytes <:+: rule.text ∧
      (placeholders result.text ≠ [] ∨ ¬ splitToken.bytes <:+: result.text)) := by
    intro hsep
    apply hkeeps
    intro rule' result' hrule hresult
    obtain rfl := Option.some.inj (hreplaces.argRule.symm.trans hrule)
    obtain rfl := Option.some.inj (hreplaces.argResult.symm.trans hresult)
    exact .inr hsep
  rw [prepareArgs_of_not_object hobject] at h
  by_cases hruleSep : splitToken.bytes <:+: rule.text
  · -- the rule is never saved, and its first chunk is stored
    left
    have hsome : (searchSplitToken (slotText fc.argRule)).isSome = true := by
      rw [hreplaces.argRule, Option.isSome_iff_ne_none]
      exact mt searchSplitToken_eq_none_iff.mp (not_not.mpr hruleSep)
    obtain ⟨-, hexpand⟩ | ⟨-, hexpand⟩ := expandRandom_cases rand result fc
    · rw [hexpand] at h
      exact h.rule_new rfl hsome
    · rw [hexpand] at h
      exact h.rule_new rfl hsome
  · -- the first chunk of the result is stored, which is not saved
    right
    rw [not_and, not_or, not_not, not_not] at hsep
    obtain ⟨hnil, hresultSep⟩ := hsep hruleSep
    have hr : searchSplitToken (slotText fc.argRule) = none := by
      rw [hreplaces.argRule]
      exact searchSplitToken_eq_none_iff.mpr hruleSep
    have hs : (searchSplitToken (slotText fc.argResult)).isSome = true := by
      rw [hreplaces.argResult, Option.isSome_iff_ne_none]
      exact mt searchSplitToken_eq_none_iff.mp (not_not.mpr hresultSep)
    obtain ⟨hne, -⟩ | ⟨-, hexpand⟩ := expandRandom_cases rand result fc
    · exact absurd hnil hne
    · rw [hexpand] at h
      exact ⟨h.rule_kept (.inr hr), h.result_new rfl hr hs⟩

/-- The slots behind a call. -/
structure SlotsLeft (m : Memory Block) (p p' : ArgSlots Ptr) (fc : FcInfo Varlena) : Prop where
  keepEmpty : p'.keepEmpty = p.keepEmpty
  vars : p'.vars = p.vars
  kept : KeepsPointers fc → SlotsKept p p'
  ne_none : ¬ KeepsPointers fc → p'.argRule ≠ none ∧ p'.argResult ≠ none
  new : ¬ KeepsPointers fc → New m p'.argRule ∨ p'.argRule = p.argRule ∧ New m p'.argResult

theorem yields_call (E : RegexEngine) (rand : Nat → Nat) (h : Shows m p fc)
    (hin : fc.argIn ≠ none) :
    Yields (regexpReplaceRandNooptAt E rand p) m fun r m' =>
      CallShows m r m' (regexpReplaceRandNoopt E rand fc) ∧ SlotsLeft m p r.2 fc := by
  have hsame := sameInputs_regexpReplaceRandNoopt E rand fc
  by_cases hreplaces : ∃ rule result, Replaces fc rule result
  · obtain ⟨rule, result, hreplaces⟩ := hreplaces
    refine (yields_replaced E rand h hreplaces).mono ?_
    rintro r m' ⟨hcall, hslots⟩
    refine ⟨hcall, ?_, ?_, hslots.kept hreplaces, fun _ => ⟨hslots.rule_ne, hslots.result_ne⟩,
      hslots.new hreplaces⟩
    · rw [hcall.slots.keepEmpty, hsame.keepEmpty, h.keepEmpty]
    · rw [hcall.slots.vars, hsame.vars, h.vars]
  · have hnot : ∀ rule result, ¬ Replaces fc rule result := by
      intro rule result hreplaces'
      exact hreplaces ⟨rule, result, hreplaces'⟩
    have hkeeps := keepsPointers_of_unreplaced hin hnot
    refine (yields_unreplaced E rand h hnot).mono ?_
    rintro r m' ⟨hcall, hslots⟩
    rw [hslots]
    exact ⟨hcall, rfl, rfl, fun _ => .refl p, fun hnkeeps => absurd hkeeps hnkeeps,
      fun hnkeeps => absurd hkeeps hnkeeps⟩

/-! ## One row -/

/-- What a row gets on a fresh `fcinfo`. -/
def freshValue (E : RegexEngine) (fc : FcInfo Varlena) (rand : Nat → Nat) (v : Option Varlena) :
    Option Varlena :=
  (regexpReplaceRandNoopt E rand { fc with argIn := v }).1.map .plain

/-- A row: it gets what it gets on a fresh `fcinfo`, and its memory is gone. -/
theorem yields_nooptRowAt (E : RegexEngine) (h : ArgsShow m p fc) {row : Row} {v : Varlena}
    (hv : InputIs m row (some v)) :
    Yields (rowAt (regexpReplaceRandNooptAt E) p row) m fun r m' => Kept m m' ∧
      (∀ a, m.next ≤ a → m'.cells a = none) ∧ r.1 = freshValue E fc row.rand (some v) ∧
      SlotsLeft m p r.2 fc := by
  refine yields_rowAt _ (fun p' => SlotsLeft m p p' fc)
    ((yields_call E row.rand (h.withInput hv) (Option.some_ne_none v)).mono ?_)
  rintro r m' ⟨hcall, hslots⟩
  refine ⟨hcall, hslots.keepEmpty, hslots.vars, ?_, hslots.ne_none, hslots.new⟩
  intro hkeeps
  obtain ⟨hrule, hresult⟩ := hslots.kept hkeeps
  exact ⟨hrule, hresult⟩

/-- A row whose input is `NULL` is done at once, whatever is in the other slots. -/
theorem rowAt_of_null (E : RegexEngine) (m : Memory Block) (p : ArgSlots Ptr) {row : Row}
    (hnull : row.input = none) :
    rowAt (regexpReplaceRandNooptAt E) p row m = some ((none, { p with argIn := none }), m) := by
  refine (bind_eq_some (mark_eq m)).trans ?_
  rw [hnull]
  exact congrArg (fun m' => some (((none : Option Varlena), { p with argIn := none }), m'))
    (release_next m)

theorem freshValue_of_null (E : RegexEngine) (fc : FcInfo Varlena) {row : Row}
    (hnull : row.input = none) : ∀ v, InputIs m row v → none = freshValue E fc row.rand v := by
  intro v hv
  rw [InputIs, hnull] at hv
  cases hv
  rfl

/-- The slots that a call has left, if what is in one of them is gone. -/
def Dangling (m : Memory Block) (p : ArgSlots Ptr) : Prop :=
  ∃ b c, p.argRule = some b ∧ p.argResult = some c ∧
    (m.cells b = none ∨ (∃ rule, Holds m b rule ∧ rule.text ≠ []) ∧ m.cells c = none)

/-- A call on slots whose rule or whose result is gone has no result. -/
theorem Dangling.rowAt_eq_none (E : RegexEngine) (h : Dangling m p) {row : Row} {a : Ptr}
    (ha : row.input = some a) : rowAt (regexpReplaceRandNooptAt E) p row m = none := by
  obtain ⟨b, c, hb, hc, hgone⟩ := h
  refine (bind_eq_some (mark_eq m)).trans (bind_eq_none ?_)
  rw [regexpReplaceRandNooptAt, ha, hb, hc]
  rcases hgone with hgone | ⟨⟨rule, hrule, hne⟩, hgone⟩
  · exact bind_eq_none (bind_eq_none (bind_eq_none (load_eq_none hgone)))
  · have hlen : rule.dataAny.length ≠ 0 :=
      mt List.length_eq_zero_iff.mp (mt rule.dataAny_eq_nil_iff.mp hne)
    refine (bind_eq_some (dataAt_eq hrule)).trans ?_
    rw [if_neg hlen]
    -- the first look at the result
    have hresult : getTextP (some c) m = none :=
      (bind_eq_some (slotPtr_eq m c)).trans (bind_eq_none (bind_eq_none (load_eq_none hgone)))
    refine bind_eq_none (bind_eq_none (bind_eq_none ?_))
    exact hresult

/-- A row that does not keep the pointers leaves such slots. -/
theorem SlotsLeft.dangling {p' : ArgSlots Ptr} (hslots : SlotsLeft m p p' fc)
    (hkeeps : ¬ KeepsPointers fc) (h : ArgsShow m p fc) (hkept : Kept m m')
    (hgone : ∀ a, m.next ≤ a → m'.cells a = none) : Dangling m' p' := by
  obtain ⟨hruleNe, hresultNe⟩ := hslots.ne_none hkeeps
  obtain ⟨b, hb⟩ := Option.ne_none_iff_exists'.mp hruleNe
  obtain ⟨c, hc⟩ := Option.ne_none_iff_exists'.mp hresultNe
  refine ⟨b, c, hb, hc, ?_⟩
  rcases hslots.new hkeeps with hnew | ⟨hsame, hnew⟩
  · exact .inl (hgone b (hnew b hb))
  · refine .inr ⟨?_, hgone c (hnew c hc)⟩
    -- the caller's rule, which is not empty
    obtain ⟨rule, hrule, hne⟩ := rule_ne_of_not_keepsPointers hkeeps
    obtain ⟨a, ha, hholds⟩ := exists_of_rel h.argRule hrule
    obtain rfl : a = b := Option.some.inj ((hsame.trans ha).symm.trans hb)
    exact ⟨rule, hholds.kept hkept, hne⟩

/-! ## All rows -/

/-- The number of rows whose input is not `NULL`. -/
def inputCount (rows : List Row) : Nat := rows.countP fun row => row.input.isSome

theorem inputCount_cons_none {row : Row} (h : row.input = none) (rows : List Row) :
    inputCount (row :: rows) = inputCount rows :=
  List.countP_cons_of_neg (by rw [h]; exact Bool.false_ne_true)

theorem inputCount_cons_some {row : Row} {a : Ptr} (h : row.input = some a) (rows : List Row) :
    inputCount (row :: rows) = inputCount rows + 1 :=
  List.countP_cons_of_pos (by rw [h]; rfl)

/-- The rows of a call that keeps the pointers. -/
theorem yields_nooptRowsAt (E : RegexEngine) (hkeeps : KeepsPointers fc) (h : ArgsShow m p fc)
    {rows : List Row} (hrows : InputsShow m rows) :
    Yields (rowsAt (regexpReplaceRandNooptAt E) p rows) m fun values m' =>
      Kept m m' ∧ FreshValues (freshValue E fc) m rows values := by
  refine yields_rowsAt (fun m p => ArgsShow m p fc) ?_ h hrows
  intro m p row v h hv
  cases v with
  | none =>
    exact .of_eq (rowAt_of_null E m p (rel_none hv rfl)) ⟨.refl m, rfl, h.withSlot none⟩
  | some v =>
    refine (yields_nooptRowAt E h hv).mono ?_
    rintro r m' ⟨hkept, -, hvalue, hslots⟩
    exact ⟨hkept, hvalue, h.of_slotsKept hkept (hslots.kept hkeeps) hslots.keepEmpty hslots.vars⟩

/-- Rows without an input do not read the slots. -/
theorem yields_nullRowsAt (E : RegexEngine) (fc : FcInfo Varlena) (m : Memory Block)
    (p : ArgSlots Ptr) {rows : List Row} (hcount : inputCount rows = 0) :
    Yields (rowsAt (regexpReplaceRandNooptAt E) p rows) m fun values _ =>
      FreshValues (freshValue E fc) m rows values := by
  induction rows generalizing p with
  | nil => exact .pure .nil
  | cons row rows ih =>
    cases hinput : row.input with
    | none =>
      rw [inputCount_cons_none hinput] at hcount
      refine .step (rowAt_of_null E m p hinput) ((ih _ hcount).bind ?_)
      intro values m' hvalues
      exact .pure (.cons (freshValue_of_null E fc hinput) hvalues)
    | some a =>
      rw [inputCount_cons_some hinput] at hcount
      cases hcount

/-- A single input does not depend on what the call leaves in the slots. -/
theorem yields_rowsAt_of_inputCount_le (E : RegexEngine) (h : ArgsShow m p fc) {rows : List Row}
    (hcount : inputCount rows ≤ 1) (hrows : InputsShow m rows) :
    Yields (rowsAt (regexpReplaceRandNooptAt E) p rows) m fun values _ =>
      FreshValues (freshValue E fc) m rows values := by
  induction rows generalizing p with
  | nil => exact .pure .nil
  | cons row rows ih =>
    obtain ⟨⟨v, hv⟩, hrest⟩ := List.forall_mem_cons.mp hrows
    cases hinput : row.input with
    | none =>
      rw [inputCount_cons_none hinput] at hcount
      refine .step (rowAt_of_null E m p hinput) ((ih (h.withSlot none) hcount hrest).bind ?_)
      intro values m' hvalues
      exact .pure (.cons (freshValue_of_null E fc hinput) hvalues)
    | some a =>
      rw [inputCount_cons_some hinput] at hcount
      obtain ⟨v, rfl⟩ := hv.exists_eq hinput
      refine (yields_nooptRowAt E h hv).bind ?_
      rintro ⟨value, p'⟩ m₁ ⟨hkept, -, hvalue, -⟩
      refine (yields_nullRowsAt E fc m₁ p' (Nat.le_zero.mp (Nat.le_of_succ_le_succ hcount))).bind ?_
      intro values m' hvalues
      exact .pure (.cons (freshValue_of_inputIs hv hvalue) (hvalues.kept hkept))

/-- The next row with an input reads a slot whose memory is gone. -/
theorem Dangling.rowsAt_eq_none (E : RegexEngine) (h : Dangling m p) {rows : List Row}
    (hcount : 0 < inputCount rows) : rowsAt (regexpReplaceRandNooptAt E) p rows m = none := by
  induction rows generalizing p with
  | nil => cases hcount
  | cons row rows ih =>
    cases hinput : row.input with
    | none =>
      rw [inputCount_cons_none hinput] at hcount
      exact (bind_eq_some (rowAt_of_null E m p hinput)).trans (bind_eq_none (ih h hcount))
    | some a => exact bind_eq_none (h.rowAt_eq_none E hinput)

theorem rowsAt_eq_none (E : RegexEngine) (hkeeps : ¬ KeepsPointers fc) (h : ArgsShow m p fc)
    {rows : List Row} (hcount : 1 < inputCount rows) (hrows : InputsShow m rows) :
    rowsAt (regexpReplaceRandNooptAt E) p rows m = none := by
  induction rows generalizing p with
  | nil => cases hcount
  | cons row rows ih =>
    obtain ⟨⟨v, hv⟩, hrest⟩ := List.forall_mem_cons.mp hrows
    cases hinput : row.input with
    | none =>
      rw [inputCount_cons_none hinput] at hcount
      exact (bind_eq_some (rowAt_of_null E m p hinput)).trans
        (bind_eq_none (ih (h.withSlot none) hcount hrest))
    | some a =>
      rw [inputCount_cons_some hinput] at hcount
      obtain ⟨v, rfl⟩ := hv.exists_eq hinput
      obtain ⟨⟨value, p'⟩, m₁, hrow, hkept, hgone, -, hslots⟩ := yields_nooptRowAt E h hv
      have hdangling := hslots.dangling hkeeps h hkept hgone
      exact (bind_eq_some hrow).trans
        (bind_eq_none (hdangling.rowsAt_eq_none E (Nat.lt_of_succ_lt_succ hcount)))

end Rows

/-- The rows get a result exactly if one of them at most has an input, or the pointers in the slots
are kept. If they do, each row gets what a call on a fresh `fcinfo` returns. -/
theorem rowsAt_defined_iff (E : RegexEngine) {m : Memory Block} {p : ArgSlots Ptr}
    {fc : FcInfo Varlena} (h : ArgsShow m p fc) {rows : List Row} (hrows : InputsShow m rows) :
    ((rowsAt (regexpReplaceRandNooptAt E) p rows m).isSome = true ↔
      inputCount rows ≤ 1 ∨ KeepsPointers fc) ∧
      ∀ values m', rowsAt (regexpReplaceRandNooptAt E) p rows m = some (values, m') →
        FreshValues (freshValue E fc) m rows values := by
  by_cases hcond : inputCount rows ≤ 1 ∨ KeepsPointers fc
  · have hyields : Yields (rowsAt (regexpReplaceRandNooptAt E) p rows) m fun values _ =>
      FreshValues (freshValue E fc) m rows values := by
      rcases hcond with hcount | hkeeps
      · exact yields_rowsAt_of_inputCount_le E h hcount hrows
      · exact (yields_nooptRowsAt E hkeeps h hrows).mono fun _ _ => And.right
    exact ⟨iff_of_true hyields.isSome hcond, fun values m' hp => hyields.result hp⟩
  · obtain ⟨hcount, hkeeps⟩ := not_or.mp hcond
    have hnone : rowsAt (regexpReplaceRandNooptAt E) p rows m = none :=
      rowsAt_eq_none E hkeeps h (Nat.lt_of_not_le hcount) hrows
    rw [hnone]
    refine ⟨iff_of_false Bool.false_ne_true hcond, ?_⟩
    intro values m' hp
    cases hp

/-- The arguments of `twoPairs`, another result, and the inputs of three rows; one is `NULL`. -/
def rowsMemory : Memory Block :=
  .ofList [.text (.plain (ascii "a||b")), .text (.plain (ascii "x||y")), .text (.plain (ascii "b")),
    .text (.plain (ascii "a")), .text (.plain (ascii "r(2)"))]

def rowsSlots : ArgSlots Ptr where
  argIn := none
  argRule := some 0
  argResult := some 1
  keepEmpty := some false
  vars := none

/-- One rule, whose result has random strings. -/
def randomSlots : ArgSlots Ptr := { rowsSlots with argRule := some 3, argResult := some 4 }

def randomPair : FcInfo Varlena :=
  { twoPairs with
    argRule := some (.plain (ascii "a"))
    argResult := some (.plain (ascii "r(2)")) }

def threeRows : List Row := [⟨some 2, fun _ => 0⟩, ⟨none, fun _ => 0⟩, ⟨some 3, fun i => i + 7⟩]

theorem argsShow_twoPairs : ArgsShow rowsMemory rowsSlots twoPairs :=
  ⟨.some rfl, .some rfl, rfl, rfl⟩

theorem argsShow_randomPair : ArgsShow rowsMemory randomSlots randomPair :=
  ⟨.some rfl, .some rfl, rfl, rfl⟩

theorem inputsShow_threeRows : InputsShow rowsMemory threeRows := by
  rw [threeRows, InputsShow, List.forall_mem_cons, List.forall_mem_cons, List.forall_mem_singleton]
  exact ⟨⟨_, .some rfl⟩, ⟨_, .none⟩, ⟨_, .some rfl⟩⟩

theorem rowsAt_defined_iff_threeRows :
    ((rowsAt (regexpReplaceRandNooptAt literalEngine) randomSlots threeRows
        rowsMemory).isSome = true ↔ inputCount threeRows ≤ 1 ∨ KeepsPointers randomPair) ∧
      ∀ values m',
        rowsAt (regexpReplaceRandNooptAt literalEngine) randomSlots threeRows rowsMemory =
            some (values, m') →
          FreshValues (freshValue literalEngine randomPair) rowsMemory threeRows values :=
  rowsAt_defined_iff literalEngine argsShow_randomPair inputsShow_threeRows

example : (rowsAt (regexpReplaceRandNooptAt literalEngine) randomSlots threeRows rowsMemory).map
    Prod.fst = some [some (.plain (ascii "b")), none, some (.plain (ascii "78"))] := by
  decide +kernel

example :
    rowsAt (regexpReplaceRandNooptAt literalEngine) rowsSlots threeRows rowsMemory = none := by
  decide +kernel

/-! ## Rows of the form with options -/

section OptionRows

variable {m m' : Memory Block} {p p' : ArgSlots Ptr} {fc : FcInfo Varlena}

/-- A call of the form with options writes no other slots. -/
theorem sameInputs_regexpReplaceRand (E : OptionEngine) (rand : Nat → Nat) (opt : Option Varlena)
    (fc : FcInfo Varlena) : SameInputs fc (regexpReplaceRand E rand opt fc).2 := by
  unfold regexpReplaceRand
  split
  · exact .refl fc
  · exact .refl fc
  · exact .refl fc
  · exact .refl fc
  · rename_i rule opt result _ _ _
    split
    · exact .refl fc
    · exact (sameInputs_prepareArgs rule result fc rand).trans (sameInputs_restoreArgs _ _)

end OptionRows

end YetiPgExt.Regexp
