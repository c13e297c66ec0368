import YetiPgExt.Regexp.Pointers

/-!
# What the pointers hold

The functions on pointers against those on texts, up to one pair of chunks. `Slots` is what holds
between the call's first allocation and its last free: the slots point to the texts that the
function on texts has in them, what the call will free is its own, and the slots of the rule and the
result do not share a pointer that it will free.
-/

set_option autoImplicit false

namespace YetiPgExt.Regexp

open YetiPgExt.Library YetiPgExt.Library.Memory YetiPgExt.Postgres

/-- The text at an address. -/
def Holds (m : Memory Block) (a : Ptr) (v : Varlena) : Prop := m.cells a = some (.text v)

/-- A slot that is not `NULL` points to its text. -/
def InSlot (m : Memory Block) (slot : Option Ptr) (value : Option Varlena) : Prop :=
  ∃ a v, slot = some a ∧ value = some v ∧ Holds m a v

/-- A new text, or none. -/
def NewText (m m' : Memory Block) : Option Ptr → Option Bytes → Prop :=
  Option.Rel fun a t => m.next ≤ a ∧ Holds m' a (.plain t)

/-- The slots of a call that has come behind its checks for `NULL`. -/
structure Loaded {ι κ : Type} (In : Option ι → Option κ → Prop) (m : Memory Block)
    (p : ArgSlots ι) (fc : FcInfo κ) : Prop where
  argIn : In p.argIn fc.argIn
  argRule : InSlot m p.argRule fc.argRule
  argResult : InSlot m p.argResult fc.argResult
  keepEmpty : p.keepEmpty = fc.keepEmpty
  vars : p.vars = fc.vars

section Texts

variable {m m' m'' : Memory Block} {a : Ptr} {v : Varlena} {slot : Option Ptr}
  {value : Option Varlena} {p : ArgSlots Ptr} {fc : FcInfo Varlena}

theorem Holds.kept (h : Holds m a v) (hkept : Kept m m') : Holds m' a v := hkept.live h

theorem Holds.lt_next (h : Holds m a v) : a < m.next := Memory.lt_next h

theorem holds_alloc (m : Memory Block) (v : Varlena) : Holds (m.alloc (.text v)) m.next v :=
  cells_alloc_next m _

theorem InSlot.kept (h : InSlot m slot value) (hkept : Kept m m') : InSlot m' slot value := by
  obtain ⟨a, v, hslot, hvalue, hv⟩ := h
  exact ⟨a, v, hslot, hvalue, hv.kept hkept⟩

theorem InSlot.ne_none (h : InSlot m slot value) : slot ≠ none := by
  obtain ⟨a, v, rfl, -, -⟩ := h
  exact Option.some_ne_none a

theorem InSlot.lt_next (h : InSlot m slot value) (hslot : slot = some a) : a < m.next := by
  obtain ⟨b, v, hb, -, hv⟩ := h
  obtain rfl : b = a := Option.some.inj (hb.symm.trans hslot)
  exact hv.lt_next

theorem Loaded.mono (h : Loaded (InSlot m) m p fc) (hkept : Kept m m') :
    Loaded (InSlot m') m' p fc :=
  ⟨h.argIn.kept hkept, h.argRule.kept hkept, h.argResult.kept hkept, h.keepEmpty, h.vars⟩

theorem NewText.mono {ret : Option Ptr} {t : Option Bytes} (h : NewText m m' ret t)
    (hkept : Kept m' m'') : NewText m m'' ret t := by
  cases h with
  | none => exact .none
  | some h => exact .some ⟨h.1, h.2.kept hkept⟩

theorem NewText.of_le {m₀ : Memory Block} {ret : Option Ptr} {t : Option Bytes}
    (h : NewText m m' ret t) (hle : m₀.next ≤ m.next) : NewText m₀ m' ret t := by
  cases h with
  | none => exact .none
  | some h => exact .some ⟨Nat.le_trans hle h.1, h.2⟩

theorem NewText.next_le {ret : Option Ptr} {t : Option Bytes} (h : NewText m m' ret t)
    (hret : ret = some a) : m.next ≤ a := by
  cases h with
  | none => cases hret
  | some h =>
    rw [← Option.some.inj hret]
    exact h.1

/-! ## Reading and copying -/

theorem slotPtr_eq (m : Memory Block) (a : Ptr) : slotPtr (some a) m = some (a, m) := rfl

theorem textAt_eq (h : Holds m a v) : textAt a m = some (v, m) := bind_eq_some (load_eq h)

theorem dataAt_eq (h : Holds m a v) : dataAt a m = some (v.dataAny, m) :=
  bind_eq_some (textAt_eq h)

/-- The text in a slot, stored plainly. -/
theorem yields_getTextP (h : InSlot m slot value) :
    Yields (getTextP slot) m fun a m' => Kept m m' ∧ Holds m' a (.plain (slotText value)) := by
  obtain ⟨a, v, rfl, rfl, hv⟩ := h
  refine .step (slotPtr_eq m a) (.step (textAt_eq hv) ?_)
  cases v with
  | plain t => exact .pure ⟨.refl m, hv⟩
  | short t => exact .of_eq (palloc_eq m _) ⟨(Kept.refl m).alloc _, holds_alloc m _⟩
  | compressed t => exact .of_eq (palloc_eq m _) ⟨(Kept.refl m).alloc _, holds_alloc m _⟩
  | external t => exact .of_eq (palloc_eq m _) ⟨(Kept.refl m).alloc _, holds_alloc m _⟩

/-- Wide characters are allocated, read and freed. -/
theorem yields_wide {β : Type} {chars : Bytes} {f : Bytes → Prog β}
    {Q : β → Memory Block → Prop} (hf : ∀ m', Kept m m' → Yields (f chars) m' Q) :
    Yields (do
      let wide ← palloc (.wide chars)
      let chars ← wideAt wide
      pfree wide
      f chars) m Q := by
  have hlive := cells_alloc_next m (.wide chars)
  have hread : wideAt m.next (m.alloc (.wide chars)) = some (chars, m.alloc (.wide chars)) :=
    bind_eq_some (load_eq hlive)
  have hkept : Kept m ((m.alloc (.wide chars)).free m.next) :=
    ((Kept.refl m).alloc _).free (Nat.le_refl _)
  exact .step (palloc_eq m _) (.step hread (.step (pfree_eq hlive) (hf _ hkept)))

theorem yields_getInCopyAt (h : InSlot m p.argIn fc.argIn) :
    Yields (getInCopyAt p) m fun a m' =>
      Kept m m' ∧ m.next ≤ a ∧ Holds m' a (.plain (getInCopy fc)) := by
  refine (yields_getTextP h).bind ?_
  rintro a m₁ ⟨hkept, ha⟩
  refine .step (dataAt_eq ha) (.of_eq (palloc_eq m₁ _) ?_)
  exact ⟨hkept.alloc _, hkept.next_le, holds_alloc _ _⟩

/-! ## One pair -/

theorem yields_compiles (E : RegexEngine) (h : InSlot m p.argRule fc.argRule) :
    Yields (compiles E p) m fun r m' =>
      Kept m m' ∧ r = (E.regcomp fc.ruleText, fc.ruleText) := by
  refine (yields_getTextP h).bind ?_
  rintro a m₁ ⟨hkept, ha⟩
  refine .step (dataAt_eq ha) (yields_wide ?_)
  intro m₂ hkept₂
  exact .pure ⟨hkept.trans hkept₂, rfl⟩

theorem yields_matchesData (E : RegexEngine) (regexp : Bytes) (h : InSlot m p.argIn fc.argIn) :
    Yields (matchesData E regexp p) m fun found m' =>
      Kept m m' ∧ found = E.regexec regexp (slotText fc.argIn) := by
  refine (yields_getTextP h).bind ?_
  rintro a m₁ ⟨hkept, ha⟩
  refine .step (dataAt_eq ha) (yields_wide ?_)
  intro m₂ hkept₂
  exact .pure ⟨hkept.trans hkept₂, rfl⟩

theorem yields_inputIf (final : Bool) (h : InSlot m p.argIn fc.argIn) :
    Yields (inputIf final p) m fun ret m' =>
      Kept m m' ∧ NewText m m' ret (if final then some (getInCopy fc) else none) := by
  cases final with
  | false => exact .pure ⟨.refl m, .none⟩
  | true =>
    refine (yields_getInCopyAt h).bind ?_
    rintro a m₁ ⟨hkept, hnew, ha⟩
    exact .pure ⟨hkept, .some ⟨hnew, ha⟩⟩

theorem yields_returned (m : Memory Block) (t : Option Bytes) :
    Yields (returned t) m fun ret m' => Kept m m' ∧ NewText m m' ret t := by
  cases t with
  | none => exact .pure ⟨.refl m, .none⟩
  | some t =>
    refine .step (palloc_eq m _) (.pure ⟨(Kept.refl m).alloc _, .some ⟨Nat.le_refl _, ?_⟩⟩)
    exact holds_alloc m _

theorem yields_callReplace (f : (data pattern replacement : Bytes) → Option Bytes)
    (h : Loaded (InSlot m) m p fc) :
    Yields (callReplace f p) m fun ret m' =>
      Kept m m' ∧ NewText m m' ret (f (slotText fc.argIn) fc.ruleText fc.resultText) := by
  obtain ⟨⟨a, v, hslot, hvalue, hv⟩, ⟨a', v', hslot', hvalue', hv'⟩,
    ⟨a'', v'', hslot'', hvalue'', hv''⟩, -, -⟩ := h
  rw [callReplace, hslot, hslot', hslot'', FcInfo.ruleText, FcInfo.resultText, hvalue, hvalue',
    hvalue'']
  refine .step (slotPtr_eq m a) (.step (textAt_eq hv) (.step (slotPtr_eq m a')
    (.step (textAt_eq hv') (.step (slotPtr_eq m a'') (.step (textAt_eq hv'') ?_)))))
  exact yields_returned m (f v.text v'.text v''.text)

/-- What is returned for the result of the engine. -/
def replacedOr (input : Option Bytes) (keepEmpty : Bool) : Option Bytes → Option Bytes
  | some ret => if keepEmpty = false ∧ ret.length = 0 then input else some ret
  | none => input

theorem yields_replaceOrInput (f : (data pattern replacement : Bytes) → Option Bytes)
    (final keepEmpty : Bool) (h : Loaded (InSlot m) m p fc) :
    Yields (replaceOrInput f final keepEmpty p) m fun r m' =>
      Kept m m' ∧
        NewText m m' r.1 (replacedOr (if final then some (getInCopy fc) else none) keepEmpty
          (f (slotText fc.argIn) fc.ruleText fc.resultText)) ∧
        (r.2 = true → f (slotText fc.argIn) fc.ruleText fc.resultText = none) := by
  refine (yields_callReplace f h).bind ?_
  rintro ret m₁ ⟨hkept, hret⟩
  cases hf : f (slotText fc.argIn) fc.ruleText fc.resultText with
  | none =>
    rw [hf] at hret
    cases hret
    refine (yields_inputIf final (h.argIn.kept hkept)).bind ?_
    rintro ret m₂ ⟨hkept₂, hnew⟩
    exact .pure ⟨hkept.trans hkept₂, hnew.of_le hkept.next_le, fun _ => rfl⟩
  | some t =>
    rw [hf] at hret
    cases hret with
    | @some a _ hnew =>
      refine .step (dataAt_eq hnew.2) ?_
      rw [replacedOr]
      by_cases hempty : keepEmpty = false ∧ t.length = 0
      · rw [if_pos hempty]
        show Yields (if keepEmpty = false ∧ t.length = 0 then _ else _) m₁ _
        rw [if_pos hempty]
        -- the empty result is freed, and nothing else
        have hfree : Kept m (m₁.free a) := hkept.free hnew.1
        refine .step (pfree_eq hnew.2) ((yields_inputIf final (h.argIn.kept hfree)).bind ?_)
        rintro ret m₂ ⟨hkept₂, hnew₂⟩
        exact .pure ⟨hfree.trans hkept₂, hnew₂.of_le hfree.next_le, fun h => by cases h⟩
      · rw [if_neg hempty]
        show Yields (if keepEmpty = false ∧ t.length = 0 then _ else _) m₁ _
        rw [if_neg hempty]
        exact .pure ⟨hkept, .some hnew, fun h => by cases h⟩

theorem applyTextregexreplaceNoopt_eq (E : RegexEngine) (fc : FcInfo Varlena)
    (final keepEmpty : Bool) :
    applyTextregexreplaceNoopt E fc final keepEmpty =
      if E.regcomp fc.ruleText = false then ⟨none, false⟩
      else if E.regexec fc.ruleText (slotText fc.argIn) = false then
        ⟨if final then some (getInCopy fc) else none, false⟩
      else
        ⟨replacedOr (if final then some (getInCopy fc) else none) keepEmpty
          (E.textregexreplaceNoopt (slotText fc.argIn) fc.ruleText fc.resultText), true⟩ := by
  rw [applyTextregexreplaceNoopt]
  split
  · rfl
  · split
    · rfl
    · cases E.textregexreplaceNoopt (slotText fc.argIn) fc.ruleText fc.resultText with
      | none => rfl
      | some ret =>
        simp only [replacedOr]
        split
        · rfl
        · rfl

/-- One pair: what was there stays, and the result is new. -/
theorem yields_applyAt (E : RegexEngine) (final keepEmpty : Bool) (h : Loaded (InSlot m) m p fc) :
    Yields (applyAt E p final keepEmpty) m fun r m' =>
      Kept m m' ∧ r.matched = (applyTextregexreplaceNoopt E fc final keepEmpty).matched ∧
        NewText m m' r.ret (applyTextregexreplaceNoopt E fc final keepEmpty).ret ∧
        (r.raised = true → E.RaisesOn (slotText fc.argIn)) := by
  rw [applyTextregexreplaceNoopt_eq]
  refine (yields_compiles E h.argRule).bind ?_
  rintro _ m₁ ⟨hkept, rfl⟩
  show Yields (if E.regcomp fc.ruleText = false then _ else _) m₁ _
  by_cases hcomp : E.regcomp fc.ruleText = false
  · rw [if_pos hcomp, if_pos hcomp]
    exact .pure ⟨hkept, rfl, .none, fun h => by cases h⟩
  rw [if_neg hcomp, if_neg hcomp]
  refine (yields_matchesData E fc.ruleText (h.argIn.kept hkept)).bind ?_
  rintro _ m₂ ⟨hkept₂, rfl⟩
  show Yields (if E.regexec fc.ruleText (slotText fc.argIn) = false then _ else _) m₂ _
  have hkept' := hkept.trans hkept₂
  by_cases hexec : E.regexec fc.ruleText (slotText fc.argIn) = false
  · rw [if_pos hexec, if_pos hexec]
    refine (yields_inputIf final (h.argIn.kept hkept')).bind ?_
    rintro ret m₃ ⟨hkept₃, hnew⟩
    exact .pure ⟨hkept'.trans hkept₃, rfl, hnew.of_le hkept'.next_le, fun h => by cases h⟩
  · rw [if_neg hexec, if_neg hexec]
    refine (yields_replaceOrInput E.textregexreplaceNoopt final keepEmpty (h.mono hkept')).bind ?_
    rintro ⟨ret, raised⟩ m₃ ⟨hkept₃, hnew, hraised⟩
    refine .pure ⟨hkept'.trans hkept₃, rfl, hnew.of_le hkept'.next_le, fun h => ?_⟩
    exact ⟨_, _, eq_true_of_ne_false hcomp, eq_true_of_ne_false hexec, hraised h⟩

end Texts

/-! ## The slots of a call -/

/-- What a slot points to was allocated since `m₀`. -/
def New (m₀ : Memory Block) (slot : Option Ptr) : Prop := ∀ a, slot = some a → m₀.next ≤ a

/-- The slots between the first allocation of a call, which begins in `m₀`, and its last free.
`ownRule` and `ownResult` say that the call has allocated what is in the slot. -/
structure Slots {ι κ : Type} (In : Option ι → Option κ → Prop) (m₀ : Memory Block)
    (ownRule ownResult : Prop) (m : Memory Block) (p : ArgSlots ι) (fc : FcInfo κ) : Prop
    extends Loaded In m p fc where
  kept : Kept m₀ m
  rule_new : ownRule → New m₀ p.argRule
  result_new : ownResult → New m₀ p.argResult
  apart : ∀ a, p.argRule = some a → p.argResult = some a → a < m₀.next

/-- The slots of a call with one input, which stays the caller's. -/
abbrev ScalarSlots (m₀ : Memory Block) : Prop → Prop → Memory Block → ArgSlots Ptr →
    FcInfo Varlena → Prop :=
  Slots (InSlot m₀) m₀

/-- A new text that is in no slot. -/
structure RetIs (k m : Memory Block) (p : ArgSlots Ptr) (ret : Option Ptr) (t : Option Bytes) :
    Prop where
  text : NewText k m ret t
  apart : ∀ a, ret = some a → p.argRule ≠ some a ∧ p.argResult ≠ some a

/-- What is returned for a pair is new and in no slot, and an error is one that the text of the
input has. -/
structure AppliedIs (E : RegexEngine) (data : Bytes) (k m : Memory Block) (p : ArgSlots Ptr)
    (applied : AppliedAt) (t : Option Bytes) : Prop extends RetIs k m p applied.ret t where
  raisesOn : applied.raised = true → E.RaisesOn data

/-- The text that a loop walks through is still there. -/
structure Walks (m : Memory Block) (buf : Buffer) (s : Bytes) : Prop where
  holds : Holds m buf.ptr (.plain s)
  stop_eq : buf.stop = s.length

section Slots

variable {ι κ : Type} {In : Option ι → Option κ → Prop} {q : ArgSlots ι} {gc : FcInfo κ}
  {k m₀ m m' : Memory Block} {ownRule ownResult : Prop} {p : ArgSlots Ptr}
  {fc : FcInfo Varlena} {buf : Buffer} {s : Bytes}

theorem Slots.mono (h : Slots In m₀ ownRule ownResult m q gc) (hkept : Kept m m') :
    Slots In m₀ ownRule ownResult m' q gc where
  argIn := h.argIn
  argRule := h.argRule.kept hkept
  argResult := h.argResult.kept hkept
  keepEmpty := h.keepEmpty
  vars := h.vars
  kept := h.kept.trans hkept
  rule_new := h.rule_new
  result_new := h.result_new
  apart := h.apart

/-- Fewer slots that are known to be the call's own. -/
theorem Slots.imp {ownRule' ownResult' : Prop} (h : Slots In m₀ ownRule ownResult m q gc)
    (hrule : ownRule' → ownRule) (hresult : ownResult' → ownResult) :
    Slots In m₀ ownRule' ownResult' m q gc where
  toLoaded := h.toLoaded
  kept := h.kept
  rule_new := h.rule_new ∘ hrule
  result_new := h.result_new ∘ hresult
  apart := h.apart

/-- Another input. -/
theorem Slots.withInput {ι' κ' : Type} {In' : Option ι' → Option κ' → Prop} {x : Option ι'}
    {y : Option κ'} (h : Slots In m₀ ownRule ownResult m q gc) (hin : In' x y) :
    Slots In' m₀ ownRule ownResult m { q with argIn := x } { gc with argIn := y } where
  argIn := hin
  argRule := h.argRule
  argResult := h.argResult
  keepEmpty := h.keepEmpty
  vars := h.vars
  kept := h.kept
  rule_new := h.rule_new
  result_new := h.result_new
  apart := h.apart

/-- The input is the caller's, so it is still there. -/
theorem Slots.loaded (h : ScalarSlots m₀ ownRule ownResult m p fc) : Loaded (InSlot m) m p fc :=
  ⟨h.argIn.kept h.kept, h.argRule, h.argResult, h.keepEmpty, h.vars⟩

theorem Walks.kept (h : Walks m buf s) (hkept : Kept m m') : Walks m' buf s :=
  ⟨h.holds.kept hkept, h.stop_eq⟩

theorem RetIs.none (k m : Memory Block) (p : ArgSlots Ptr) : RetIs k m p none none where
  text := .none
  apart := by
    intro a ha
    cases ha

theorem searchAt_eq (h : Walks m buf s) (start : Nat) :
    searchAt buf start m = some ((searchSplitToken (s.drop start)).map (start + ·), m) := by
  have hslice : slice s start (buf.stop - start) = s.drop start := by
    rw [slice, h.stop_eq, ← List.length_drop, List.take_length]
  rw [← hslice]
  exact bind_eq_some (dataAt_eq h.holds)

theorem replaceArg_eq (h : Walks m buf s) (start stop : Nat) :
    replaceArg none buf.ptr start stop m =
      some (m.next, m.alloc (.text (.plain (slice s start (stop - start))))) :=
  bind_eq_some (dataAt_eq h.holds)

/-- A chunk of the rule goes into its slot. -/
theorem Slots.storeRule (h : ScalarSlots m₀ ownRule ownResult m p fc) (hbuf : Walks m buf s)
    (start stop : Nat) :
    Yields (storeRule buf start stop p) m fun p' m' => Kept m m' ∧
      ScalarSlots m₀ True ownResult m' p'
        (fc.replaceRule (slice s start (stop - start))) := by
  refine .step (replaceArg_eq hbuf start stop) (.pure ?_)
  have hkept : Kept m (m.alloc (.text (.plain (slice s start (stop - start))))) :=
    (Kept.refl m).alloc _
  refine ⟨hkept, ⟨h.argIn, ⟨_, _, rfl, rfl, holds_alloc m _⟩, h.argResult.kept hkept,
    h.keepEmpty, h.vars⟩, h.kept.trans hkept, ?_, h.result_new, ?_⟩
  · intro _ a ha
    rw [← Option.some.inj ha]
    exact h.kept.next_le
  · -- the new chunk is not in the other slot
    intro a ha ha'
    rw [← Option.some.inj ha] at ha'
    exact absurd (h.argResult.lt_next ha') (lt_irrefl _)

/-- A chunk of the result goes into its slot. -/
theorem Slots.storeResult (h : ScalarSlots m₀ ownRule ownResult m p fc) (hbuf : Walks m buf s)
    (start stop : Nat) :
    Yields (storeResult buf start stop p) m fun p' m' => Kept m m' ∧ p'.argRule = p.argRule ∧
      ScalarSlots m₀ ownRule True m' p'
        (fc.replaceResult (slice s start (stop - start))) := by
  refine .step (replaceArg_eq hbuf start stop) (.pure ?_)
  have hkept : Kept m (m.alloc (.text (.plain (slice s start (stop - start))))) :=
    (Kept.refl m).alloc _
  refine ⟨hkept, rfl, ⟨h.argIn, h.argRule.kept hkept, ⟨_, _, rfl, rfl, holds_alloc m _⟩,
    h.keepEmpty, h.vars⟩, h.kept.trans hkept, h.rule_new, ?_, ?_⟩
  · intro _ a ha
    rw [← Option.some.inj ha]
    exact h.kept.next_le
  · intro a ha ha'
    rw [← Option.some.inj ha'] at ha
    exact absurd (h.argRule.lt_next ha) (lt_irrefl _)

/-- One pair leaves the slots alone. -/
theorem Slots.applyAt (E : RegexEngine) (final keepEmpty : Bool)
    (h : ScalarSlots m₀ ownRule ownResult m p fc) {data : Bytes}
    (hdata : slotText fc.argIn = data) :
    Yields (applyAt E p final keepEmpty) m fun r m' => Kept m m' ∧
      ScalarSlots m₀ ownRule ownResult m' p fc ∧
      r.matched = (applyTextregexreplaceNoopt E fc final keepEmpty).matched ∧
      ∀ k : Memory Block, k.next ≤ m.next →
        AppliedIs E data k m' p r (applyTextregexreplaceNoopt E fc final keepEmpty).ret := by
  refine (yields_applyAt E final keepEmpty h.loaded).mono ?_
  rintro r m' ⟨hkept, hmatched, hret, hraised⟩
  rw [hdata] at hraised
  refine ⟨hkept, h.mono hkept, hmatched, fun k hk => ⟨⟨hret.of_le hk, ?_⟩, hraised⟩⟩
  intro a ha
  have hnew : m.next ≤ a := hret.next_le ha
  constructor
  · intro hslot
    exact absurd (h.argRule.lt_next hslot) (Nat.not_lt.mpr hnew)
  · intro hslot
    exact absurd (h.argResult.lt_next hslot) (Nat.not_lt.mpr hnew)

end Slots

/-! ## In front of the chunks, and behind them -/

/-- The arguments that are to be put back are still where the caller has them. -/
structure SavedIs (m₀ : Memory Block) (saved : SavedPtr) (saved' : Saved) : Prop where
  rule : Option.Rel (Holds m₀) saved.origRule saved'.origRule
  result : Option.Rel (Holds m₀) saved.origResult saved'.origResult

section Prepare

variable {ι κ : Type} {In : Option ι → Option κ → Prop} {m₀ m : Memory Block}
  {p₀ p : ArgSlots ι} {fc : FcInfo κ} {saved : SavedPtr} {saved' : Saved}

/-- What would be put back now is what the caller has passed. -/
structure PreparedFrom (p₀ : ArgSlots ι) (saved : SavedPtr) (p : ArgSlots ι) : Prop where
  rule : saved.origRule.or p.argRule = p₀.argRule
  result : saved.origResult.or p.argResult = p₀.argResult

/-- The slots once the random strings are put in: the rule is the caller's, and so is the result
unless it was replaced. -/
structure ExpandedSlots (In : Option ι → Option κ → Prop) (m₀ : Memory Block) (p₀ : ArgSlots ι)
    (saved : SavedPtr) (saved' : Saved) (m : Memory Block) (p : ArgSlots ι) (fc : FcInfo κ) :
    Prop extends PreparedFrom p₀ saved p where
  slots : Slots In m₀ (saved.origRule ≠ none) (saved.origResult ≠ none) m p fc
  savedIs : SavedIs m₀ saved saved'
  origRule : saved.origRule = none
  callerRule : InSlot m₀ p.argRule fc.argRule
  callerResult : saved.origResult = none → InSlot m₀ p.argResult fc.argResult

theorem InSlot.rel {slot : Option Ptr} {value : Option Varlena} (h : InSlot m slot value) :
    Option.Rel (Holds m) slot value := by
  obtain ⟨a, v, rfl, rfl, hv⟩ := h
  exact .some hv

theorem yields_expandRandomAt (rand : Nat → Nat) {result : Varlena} (h : Loaded In m₀ p fc)
    (hresult : fc.argResult = some result) :
    Yields (expandRandomAt rand p) m₀ fun r m' =>
      ExpandedSlots In m₀ p r.1 (expandRandom rand result fc).1 m' r.2
        (expandRandom rand result fc).2 := by
  obtain ⟨hin, hrule, hslot, hkeep, hvars⟩ := h
  refine (yields_getTextP hslot).bind ?_
  rintro a m₁ ⟨hkept, ha⟩
  refine .step (dataAt_eq ha) ?_
  have htext : slotText fc.argResult = result.text := by rw [hresult]; rfl
  rw [expandRandom]
  show Yields (if (replace rand (slotText fc.argResult)).replaced then _ else _) m₁ _
  rw [htext]
  split
  · have hkept₂ := hkept.alloc (.text (.plain (replace rand result.text).text))
    refine .step (palloc_eq m₁ _) (.pure ⟨⟨rfl, ?_⟩, ⟨⟨hin, hrule.kept hkept₂,
      ⟨_, _, rfl, rfl, holds_alloc _ _⟩, hkeep, hvars⟩, hkept₂, ?_, ?_, ?_⟩, ?_, rfl, hrule, ?_⟩)
    · obtain ⟨b, v, hb, -, -⟩ := hslot
      rw [hb]
      rfl
    · intro hne
      exact absurd rfl hne
    · intro _ a ha
      rw [← Option.some.inj ha]
      exact hkept.next_le
    · intro a ha _
      exact hrule.lt_next ha
    · rw [← hresult]
      exact ⟨.none, hslot.rel⟩
    · intro hnone
      obtain ⟨b, v, hb, -, -⟩ := hslot
      exact absurd (hb.symm.trans hnone) (Option.some_ne_none b)
  · refine .pure ⟨⟨rfl, rfl⟩, ⟨⟨hin, hrule.kept hkept, hslot.kept hkept, hkeep, hvars⟩, hkept, ?_,
      ?_, ?_⟩, ⟨.none, .none⟩, rfl, hrule, fun _ => hslot⟩
    · intro hne
      exact absurd rfl hne
    · intro hne
      exact absurd rfl hne
    · intro a ha _
      exact hrule.lt_next ha

theorem yields_replacePlaceholdersAt {slot : Option Ptr} {value : Option Varlena}
    (h : InSlot m slot value) (values : Jsonb) :
    replacePlaceholdersAt slot values m =
      some (m.next, m.alloc (.text (.plain
        (replacePlaceholders (value.getD (.plain [])) values)))) := by
  obtain ⟨a, v, rfl, rfl, hv⟩ := h
  exact (bind_eq_some (slotPtr_eq m a)).trans (bind_eq_some (textAt_eq hv))

/-- The result with random strings is freed once the variables are put in; otherwise nothing is. -/
theorem yields_freeReplaced (h : ExpandedSlots In m₀ p₀ saved saved' m p fc) {m' : Memory Block}
    (hkept : Kept m m') :
    Yields (freeReplaced saved p) m' fun orig m'' => Kept m₀ m'' ∧
      (∀ a, p.argResult ≠ some a → m''.cells a = m'.cells a) ∧
      m''.next = m'.next ∧
      orig = saved.origResult.or p.argResult ∧
      Option.Rel (Holds m₀) orig (saved'.origResult.or fc.argResult) := by
  have hkept₀ : Kept m₀ m' := h.slots.kept.trans hkept
  have hrel := h.savedIs.result
  rw [freeReplaced]
  cases horig : saved.origResult with
  | none =>
    rw [horig] at hrel
    refine .pure ⟨hkept₀, fun _ _ => rfl, rfl, rfl, ?_⟩
    generalize saved'.origResult = orig' at hrel
    cases hrel
    exact (h.callerResult horig).rel
  | some orig =>
    obtain ⟨a, v, ha, -, hv⟩ := h.slots.argResult
    have hown := h.slots.result_new (by rw [horig]; exact Option.some_ne_none _) a ha
    rw [horig] at hrel
    generalize saved'.origResult = orig' at hrel
    cases hrel with | some hholds => ?_
    rw [ha]
    refine .step (slotPtr_eq m' a) (.step (pfree_eq (hv.kept hkept)) (.pure ?_))
    refine ⟨hkept₀.free hown, ?_, rfl, rfl, ?_⟩
    · intro b hb
      exact cells_free_of_ne fun hab => hb (congrArg some hab.symm)
    · exact .some hholds

/-- The variables: the result and the rule are new, and the caller's are saved. -/
theorem ExpandedSlots.expandVarsAt (h : ExpandedSlots In m₀ p₀ saved saved' m p fc) {rule : Varlena}
    (hrule : fc.argRule = some rule) :
    Yields (expandVarsAt saved p) m fun r m' =>
      Slots In m₀ (r.1.origRule ≠ none) (r.1.origResult ≠ none) m' r.2
          (expandVars rule saved' fc).2 ∧
        SavedIs m₀ r.1 (expandVars rule saved' fc).1 ∧ PreparedFrom p₀ r.1 r.2 := by
  rw [Regexp.expandVarsAt, expandVars, h.slots.vars]
  cases hvars : fc.vars with
  | none => exact .pure ⟨h.slots, h.savedIs, h.toPreparedFrom⟩
  | some values =>
    dsimp only
    split
    · refine .step (yields_replacePlaceholdersAt h.slots.argResult values) ?_
      -- the new result, which the next free leaves alone
      have hkept₁ : Kept m (m.alloc (.text (.plain
          (replacePlaceholders (fc.argResult.getD (.plain [])) values)))) := (Kept.refl m).alloc _
      refine (yields_freeReplaced h hkept₁).bind ?_
      rintro orig m₂ ⟨hkept₂, hcells, hnext, horig, hsaved⟩
      have hresult : Holds m₂ m.next (.plain
          (replacePlaceholders (fc.argResult.getD (.plain [])) values)) := by
        have hother : p.argResult ≠ some m.next := fun hsame =>
          absurd (h.slots.argResult.lt_next hsame) (lt_irrefl _)
        rw [Holds, hcells _ hother]
        exact holds_alloc m _
      have hslot : InSlot m₂ p.argRule fc.argRule := h.callerRule.kept hkept₂
      refine .step (yields_replacePlaceholdersAt hslot values) (.pure ?_)
      have hkept₃ := (Kept.refl m₂).alloc
        (.text (.plain (replacePlaceholders (fc.argRule.getD (.plain [])) values)))
      have hle : m₀.next ≤ m.next := h.slots.kept.next_le
      have hlt : m.next < m₂.next := by
        rw [hnext]
        exact Nat.lt_succ_self _
      refine ⟨⟨⟨h.slots.argIn, ⟨_, _, rfl, ?_, holds_alloc m₂ _⟩,
        ⟨_, _, rfl, rfl, hresult.kept hkept₃⟩, h.slots.keepEmpty, hvars.symm⟩,
        hkept₂.trans hkept₃, ?_, ?_, ?_⟩, ⟨?_, hsaved⟩, ?_, ?_⟩
      · rw [hrule]
        rfl
      · intro _ a ha
        rw [← Option.some.inj ha]
        exact hkept₂.next_le
      · intro _ a ha
        rw [← Option.some.inj ha]
        exact hle
      · intro a ha ha'
        exact absurd (Option.some.inj (ha.trans ha'.symm)) (Nat.ne_of_gt hlt)
      · rw [← hrule]
        exact h.callerRule.rel
      · obtain ⟨a, v, ha, -, -⟩ := h.callerRule
        rw [← h.rule, h.origRule, ha]
        rfl
      · obtain ⟨a, v, ha, -, -⟩ := h.slots.argResult
        rw [← h.result, horig, ha]
        cases saved.origResult with
        | none => rfl
        | some orig => rfl
    · exact .pure ⟨h.slots, h.savedIs, h.toPreparedFrom⟩

/-- Everything in front of the chunks. -/
theorem Loaded.prepareArgsAt (rand : Nat → Nat) (h : Loaded In m₀ p fc) {rule result : Varlena}
    (hrule : fc.argRule = some rule) (hresult : fc.argResult = some result) :
    Yields (prepareArgsAt rand p) m₀ fun r m' =>
      Slots In m₀ (r.1.origRule ≠ none) (r.1.origResult ≠ none) m' r.2
          (prepareArgs rand rule result fc).2 ∧
        SavedIs m₀ r.1 (prepareArgs rand rule result fc).1 ∧ PreparedFrom p r.1 r.2 := by
  refine (yields_expandRandomAt rand h hresult).bind ?_
  rintro ⟨saved, p'⟩ m₁ hexpanded
  have hrule' : (expandRandom rand result fc).2.argRule = some rule := by
    rw [expandRandom]
    split
    · exact hrule
    · exact hrule
  exact hexpanded.expandVarsAt hrule'

/-- One slot is restored. -/
theorem yields_restoreSlot {slot : Option Ptr} {value : Option Varlena} (orig : Option Ptr)
    (h : InSlot m slot value) :
    Yields (restoreSlot orig slot) m fun slot' m' => slot' = orig.or slot ∧ m'.next = m.next ∧
      ∀ a, (orig ≠ none → slot ≠ some a) → m'.cells a = m.cells a := by
  cases orig with
  | none => exact .pure ⟨rfl, rfl, fun _ _ => rfl⟩
  | some orig =>
    obtain ⟨a, v, rfl, -, hv⟩ := h
    refine .step (slotPtr_eq m a) (.step (pfree_eq hv) (.pure ⟨rfl, rfl, ?_⟩))
    intro b hb
    exact cells_free_of_ne fun hab =>
      hb (Option.some_ne_none orig) (congrArg some hab.symm)

/-- What is in a slot that is restored. -/
theorem inSlot_restored {m' : Memory Block} {orig slot : Option Ptr} {orig' value : Option Varlena}
    (horig : Option.Rel (Holds m₀) orig orig') (hkept : Kept m₀ m') (h : InSlot m slot value)
    (hcells : orig = none → ∀ a, slot = some a → m'.cells a = m.cells a) :
    InSlot m' (orig.or slot) (orig'.or value) := by
  cases horig with
  | none =>
    obtain ⟨a, v, ha, hvalue, hv⟩ := h
    exact ⟨a, v, ha, hvalue, (hcells rfl a ha).trans hv⟩
  | some hholds => exact ⟨_, _, rfl, rfl, hholds.kept hkept⟩

/-- The slots are restored: what is freed is the call's own, and no object is freed twice. -/
theorem Slots.restoreArgsAt
    (h : Slots In m₀ (saved.origRule ≠ none) (saved.origResult ≠ none) m p fc)
    (hsaved : SavedIs m₀ saved saved') :
    Yields (restoreArgsAt saved p) m fun p' m' => Kept m₀ m' ∧
      Loaded In m' p' (restoreArgs saved' fc) ∧ p'.argRule = saved.origRule.or p.argRule ∧
      p'.argResult = saved.origResult.or p.argResult ∧
      ∀ a, p.argRule ≠ some a → p.argResult ≠ some a → m'.cells a = m.cells a := by
  refine (yields_restoreSlot saved.origRule h.argRule).bind ?_
  rintro rule m₁ ⟨rfl, hnext₁, hcells₁⟩
  -- the result is not what was freed
  have hresult : InSlot m₁ p.argResult fc.argResult := by
    obtain ⟨a, v, ha, hvalue, hv⟩ := h.argResult
    refine ⟨a, v, ha, hvalue, ?_⟩
    rw [Holds, hcells₁ a]
    · exact hv
    · intro hne hsame
      exact absurd (h.apart a hsame ha) (Nat.not_lt.mpr (h.rule_new hne a hsame))
  refine (yields_restoreSlot saved.origResult hresult).bind ?_
  rintro result m₂ ⟨rfl, hnext₂, hcells₂⟩
  have hkept : Kept m₀ m₂ := by
    refine ⟨?_, ?_⟩
    · rw [hnext₂, hnext₁]
      exact h.kept.next_le
    · intro a ha
      rw [hcells₂ a, hcells₁ a]
      · exact h.kept.cells_eq a ha
      · intro hne hsame
        exact absurd ha (Nat.not_lt.mpr (h.rule_new hne a hsame))
      · intro hne hsame
        exact absurd ha (Nat.not_lt.mpr (h.result_new hne a hsame))
  refine .pure ⟨hkept, ⟨h.argIn, ?_, ?_, h.keepEmpty, h.vars⟩, rfl, rfl, ?_⟩
  · apply inSlot_restored hsaved.rule hkept h.argRule
    intro hnone a ha
    rw [hcells₂ a, hcells₁ a fun hne => absurd hnone hne]
    -- the rule is not the result that is freed
    intro hne hsame
    exact absurd (h.apart a ha hsame) (Nat.not_lt.mpr (h.result_new hne a hsame))
  · apply inSlot_restored hsaved.result hkept hresult
    intro hnone a _
    exact hcells₂ a fun hne => absurd hnone hne
  · intro a hrule hres
    rw [hcells₂ a fun _ => hres, hcells₁ a fun _ => hrule]

end Prepare

end YetiPgExt.Regexp
