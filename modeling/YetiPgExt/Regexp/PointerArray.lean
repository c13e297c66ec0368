import YetiPgExt.Regexp.PointerRun

/-!
# The form for arrays on pointers

`regexp_replace_rand_array_noopt` on pointers against the function on texts. The result of an
element is freed at the next element that is not `NULL`, or when the array is done; between the two
it is copied into the array. `regexpReplaceRandArrayNooptAt_refines`: with one error at most, a call
frees nothing twice and reads nothing that it has freed, and the array that is returned is the one
of the function on texts. A second error frees the chunks that are in the slots, and where the slots
are restored they are freed once more.
-/

set_option autoImplicit false

namespace YetiPgExt.Regexp

open YetiPgExt.Library YetiPgExt.Library.Memory YetiPgExt.Postgres

/-- The elements of an array. -/
abbrev ElementsHold (m : Memory Block) : List (Option Ptr) → List (Option Varlena) → Prop :=
  List.Forall₂ (Option.Rel (Holds m))

/-- The engine raises an error on an element. -/
def ElementRaises (E : RegexEngine) (element : Option Varlena) : Prop :=
  ∃ v, element = some v ∧ E.RaisesOn v.text

/-- The engine raises errors on one of the elements at most. -/
def AtMostOneRaises (E : RegexEngine) : List (Option Varlena) → Prop :=
  List.Pairwise fun v w => ¬ (ElementRaises E v ∧ ElementRaises E w)

/-- Slots in which only the rule and the result count. -/
abbrev ChunkSlots (m₀ : Memory Block) : Prop → Prop → Memory Block → ArgSlots Ptr →
    FcInfo Varlena → Prop :=
  Slots (fun _ _ => True) m₀

theorem Slots.chunkSlots {In : Option Ptr → Option Varlena → Prop} {m₀ m : Memory Block}
    {ownRule ownResult : Prop} {p : ArgSlots Ptr} {fc : FcInfo Varlena}
    (h : Slots In m₀ ownRule ownResult m p fc) : ChunkSlots m₀ ownRule ownResult m p fc :=
  h.withInput trivial

section Elements

variable {k m₀ m m' : Memory Block} {ownRule ownResult : Prop} {p : ArgSlots Ptr}
  {fc : FcInfo Varlena} {rule result : Buffer} {R S data : Bytes}

/-! ## One element -/

/-- The loop over the chunks. It stores what the loop of the scalar form stores, but what it returns
may be `NULL`. -/
theorem Slots.elementLoopAt (E : RegexEngine) (keepEmpty : Bool) (hrule : Walks m rule R)
    (hresult : Walks m result S) (h : ScalarSlots m₀ ownRule ownResult m p fc)
    (hdata : slotText fc.argIn = data) (hk : k.next ≤ m.next) (fuel n rulePtr resultPtr : Nat) :
    Yields (elementLoopAt E keepEmpty rule result fuel n rulePtr resultPtr p) m fun e m' =>
      Kept m m' ∧
        ScalarSlots m₀ ownRule ownResult m' e.2
          (elementLoop E keepEmpty fuel n (R.drop rulePtr) (S.drop resultPtr) fc).2 ∧
        slotText (elementLoop E keepEmpty fuel n (R.drop rulePtr) (S.drop resultPtr) fc).2.argIn =
          data ∧
        EndIs E data k m' e.2 R S e.1
          (elementLoop E keepEmpty fuel n (R.drop rulePtr) (S.drop resultPtr) fc).1 := by
  induction fuel generalizing m n rulePtr resultPtr p fc with
  | zero => exact .pure ⟨.refl m, h, hdata, .tail n rulePtr resultPtr⟩
  | succ fuel ih =>
    rw [Regexp.elementLoopAt, elementLoop]
    refine .step (searchAt_eq hrule rulePtr) ?_
    cases hr : searchSplitToken (R.drop rulePtr) with
    | none => exact .pure ⟨.refl m, h, hdata, .tail n rulePtr resultPtr⟩
    | some i =>
      simp only [Option.map_some]
      refine (h.storeRule hrule rulePtr (rulePtr + i)).bind ?_
      rintro p₁ m₁ ⟨hkept₁, h₁⟩
      rw [slice_eq_take] at h₁
      refine .step (searchAt_eq (hresult.kept hkept₁) resultPtr) ?_
      cases hs : searchSplitToken (S.drop resultPtr) with
      | none =>
        simp only [Option.map_none]
        refine (h₁.storeLastResult (hresult.kept hkept₁) n resultPtr).bind ?_
        rintro p₂ m₂ ⟨hkept₂, h₂⟩
        have hdata₂ : slotText (if n > 0
            then (fc.replaceRule ((R.drop rulePtr).take i)).replaceResult (S.drop resultPtr)
            else fc.replaceRule ((R.drop rulePtr).take i)).argIn = data :=
          slotText_lastResult n _ hdata
        refine (h₂.applyAt E false keepEmpty hdata₂).bind ?_
        rintro r m₃ ⟨hkept₃, h₃, -, hret⟩
        have hkept := hkept₁.trans hkept₂
        exact .pure ⟨hkept.trans hkept₃, h₃.imp (fun _ => trivial) id, hdata₂,
          .out (hret k (Nat.le_trans hk hkept.next_le))⟩
      | some j =>
        simp only [Option.map_some]
        refine (h₁.storeResult (hresult.kept hkept₁) resultPtr (resultPtr + j)).bind ?_
        rintro p₂ m₂ ⟨hkept₂, -, h₂⟩
        rw [slice_eq_take] at h₂
        refine (h₂.applyAt E false keepEmpty hdata).bind ?_
        rintro r m₃ ⟨hkept₃, h₃, hmatched, hret⟩
        have hkept := (hkept₁.trans hkept₂).trans hkept₃
        have hown : ScalarSlots m₀ ownRule ownResult m₃ p₂ _ :=
          h₃.imp (fun _ => trivial) fun _ => trivial
        have hrulePtr := drop_behind R rulePtr i
        have hresultPtr := drop_behind S resultPtr j
        simp only [hmatched, behind_iff hrule, behind_iff hresult]
        split
        · exact .pure ⟨hkept, hown, hdata,
            .out (hret k (Nat.le_trans hk (hkept₁.trans hkept₂).next_le))⟩
        · -- the pointers move only behind the check of the one before
          split
          · exact .pure ⟨hkept, hown, hdata, .tail (n + 1) rulePtr resultPtr⟩
          · split
            · rw [← hrulePtr]
              exact .pure ⟨hkept, hown, hdata,
                .tail (n + 1) (rulePtr + i + regexpSplitTokenLen) resultPtr⟩
            · split
              · rw [← hrulePtr, ← hresultPtr]
                exact .pure ⟨hkept, hown, hdata,
                  .tail (n + 1) (rulePtr + i + regexpSplitTokenLen)
                    (resultPtr + j + regexpSplitTokenLen)⟩
              · have hnext := ih (hrule.kept hkept) (hresult.kept hkept) hown hdata
                  (Nat.le_trans hk hkept.next_le) (n + 1) (rulePtr + i + regexpSplitTokenLen)
                  (resultPtr + j + regexpSplitTokenLen)
                rw [hrulePtr, hresultPtr] at hnext
                refine hnext.mono ?_
                rintro e m₄ ⟨hkept₄, hend⟩
                exact ⟨hkept.trans hkept₄, hend⟩

/-- One element, up to `ret`. -/
theorem Slots.processElementAt (E : RegexEngine) (keepEmpty : Bool) (hrule : Walks m rule R)
    (hresult : Walks m result S) (h : ScalarSlots m₀ ownRule ownResult m p fc)
    (hk : k.next ≤ m.next) :
    Yields (processElementAt E keepEmpty rule result p) m fun r m' => Kept m m' ∧
      ScalarSlots m₀ ownRule ownResult m' r.2 (processElement E keepEmpty R S fc).2 ∧
      AppliedIs E (slotText fc.argIn) k m' r.2 r.1 (processElement E keepEmpty R S fc).1 := by
  have hloop := h.elementLoopAt E keepEmpty hrule hresult rfl hk regexpSplitMaxTokens 0 0 0
  rw [List.drop_zero, List.drop_zero] at hloop
  refine hloop.bind ?_
  rintro e m₁ ⟨hkept₁, h₁, hdata, hend⟩
  refine (h₁.finishChunksAt E false keepEmpty (hrule.kept hkept₁) (hresult.kept hkept₁) hdata
    (Nat.le_trans hk hkept₁.next_le) hend).mono ?_
  rintro r m₂ ⟨hkept₂, h₂, hret⟩
  exact ⟨hkept₁.trans hkept₂, h₂, hret⟩

/-! ## All elements -/

theorem RetIs.kept {ret : Option Ptr} {t : Option Bytes} (h : RetIs k m p ret t)
    (hkept : Kept m m') : RetIs k m' p ret t := ⟨h.text.mono hkept, h.apart⟩

/-- What is inserted for an element. -/
theorem RetIs.inserted {ret : Option Ptr} {t : Option Bytes} {a : Ptr} {v : Varlena}
    (h : RetIs k m p ret t) (ha : Holds m a v) :
    ∃ w, Holds m (ret.getD a) w ∧ w.text = t.getD v.text := by
  cases h.text with
  | none => exact ⟨v, ha, rfl⟩
  | some hnew => exact ⟨_, hnew.2, rfl⟩

theorem InSlot.free {slot : Option Ptr} {value : Option Varlena} {a : Ptr}
    (h : InSlot m slot value) (hne : slot ≠ some a) : InSlot (m.free a) slot value := by
  obtain ⟨b, v, rfl, hvalue, hv⟩ := h
  refine ⟨b, v, rfl, hvalue, ?_⟩
  rw [Holds, cells_free_of_ne fun hab => hne (congrArg some hab)]
  exact hv

/-- The result of an element is in no slot, so the slots are there when it is freed. -/
theorem Slots.freeRet (h : ChunkSlots m₀ ownRule ownResult m p fc) {ret : Option Ptr}
    {t : Option Bytes} (hret : RetIs k m p ret t) (hk₀ : Kept m₀ k) (hk : Kept k m) :
    Yields (freeRet ret) m fun _ m' => Kept k m' ∧ ChunkSlots m₀ ownRule ownResult m' p fc := by
  obtain ⟨htext, hapart⟩ := hret
  cases htext with
  | none => exact .pure ⟨hk, h⟩
  | @some a t hnew =>
    obtain ⟨hle, ha⟩ := hnew
    obtain ⟨hruleNe, hresultNe⟩ := hapart a rfl
    refine .of_eq (pfree_eq ha) ⟨hk.free hle, ?_⟩
    exact ⟨⟨trivial, h.argRule.free hruleNe, h.argResult.free hresultNe, h.keepEmpty, h.vars⟩,
      h.kept.free (Nat.le_trans hk₀.next_le hle), h.rule_new, h.result_new, h.apart⟩

/-- The first error frees nothing. -/
theorem yields_flushErrorState {since : Option Nat} {raised : Bool} {P : Prop}
    (hsince : since ≠ none → P) (hraised : raised = true → since = none ∧ P) :
    Yields (flushErrorState since raised) m fun since' m' => m' = m ∧ (since' ≠ none → P) := by
  rw [flushErrorState]
  by_cases h : raised = true
  · obtain ⟨rfl, hP⟩ := hraised h
    rw [if_pos h]
    exact .step (mark_eq m) (.pure ⟨rfl, fun _ => hP⟩)
  · rw [if_neg h]
    exact .pure ⟨rfl, hsince⟩

/-- The loop over the elements. `k` is the memory when it begins: the texts that are split are still
there, and the result of the element before is not one of them. Behind an error the engine raises
none on what is left. -/
theorem Slots.processElementsAt (E : RegexEngine) (keepEmpty : Bool) (hk₀ : Kept m₀ k)
    (hrule : Walks k rule R) (hresult : Walks k result S) {elements : List (Option Ptr)}
    {values : List (Option Varlena)} (helements : ElementsHold m₀ elements values)
    {ret : Option Ptr} {t : Option Bytes} {since : Option Nat}
    (h : ChunkSlots m₀ ownRule ownResult m p fc) (hret : RetIs k m p ret t) (hk : Kept k m)
    (hraises : AtMostOneRaises E values)
    (hsince : since ≠ none → ∀ value ∈ values, ¬ ElementRaises E value) :
    Yields (processElementsAt E keepEmpty rule result elements ret since p) m fun r m' =>
      Kept k m' ∧
        ChunkSlots m₀ ownRule ownResult m' r.2 (processElements E keepEmpty R S values fc).2 ∧
        r.1 = (processElements E keepEmpty R S values fc).1 := by
  induction helements generalizing m ret t since p fc with
  | nil =>
    refine (h.freeRet hret hk₀ hk).bind ?_
    rintro - m₁ ⟨hkept₁, h₁⟩
    exact .pure ⟨hkept₁, h₁, rfl⟩
  | @cons a value elements values ha hrest ih =>
    obtain ⟨hfirst, hrestRaises⟩ := List.pairwise_cons.mp hraises
    have hrestSince : since ≠ none → ∀ value ∈ values, ¬ ElementRaises E value :=
      fun hne => (List.forall_mem_cons.mp (hsince hne)).2
    cases ha with
    | none =>
      refine (ih h hret hk hrestRaises hrestSince).bind ?_
      rintro ⟨inserted, p'⟩ m₁ ⟨hkept₁, h₁, hinserted⟩
      exact .pure ⟨hkept₁, h₁, congrArg (none :: ·) hinserted⟩
    | @some a v hv =>
      refine (h.freeRet hret hk₀ hk).bind ?_
      rintro - m₁ ⟨hkept₁, h₁⟩
      have hin : ScalarSlots m₀ ownRule ownResult m₁ { p with argIn := some a }
          { fc with argIn := some v } := h₁.withInput ⟨a, v, rfl, rfl, hv⟩
      refine (hin.processElementAt E keepEmpty (hrule.kept hkept₁) (hresult.kept hkept₁)
        hkept₁.next_le).bind ?_
      rintro ⟨applied, p₂⟩ m₂ ⟨hkept₂, h₂, hret₂, hraised⟩
      -- an error is the first one, and there is no other behind it
      refine (yields_flushErrorState hrestSince fun hcaught => ?_).bind ?_
      · have hthis : ElementRaises E (some v) := ⟨v, rfl, hraised hcaught⟩
        refine ⟨?_, fun value hvalue hnext => hfirst value hvalue ⟨hthis, hnext⟩⟩
        by_contra hne
        exact (List.forall_mem_cons.mp (hsince hne)).1 hthis
      rintro since' _ ⟨hsame, hsince'⟩
      rw [hsame]
      -- the copy in the array
      have hkeptAll : Kept k m₂ := hkept₁.trans hkept₂
      obtain ⟨w, hw, htext⟩ := hret₂.inserted ((hv.kept hk₀).kept hkeptAll)
      refine .step (textAt_eq hw) ?_
      refine (ih h₂.chunkSlots hret₂ hkeptAll hrestRaises hsince').bind ?_
      rintro ⟨inserted, p₃⟩ m₃ ⟨hkept₃, h₃, hinserted⟩
      exact .pure ⟨hkept₃, h₃, congrArg₂ (some · :: ·) htext hinserted⟩

end Elements

/-! ## Whole calls -/

/-- A call: the caller's objects are as they were, the array that is returned is new, and the slots
point to these texts. -/
structure ArrayCallShows (m : Memory Block) (r : Option Ptr × ArgSlots (List (Option Ptr)))
    (m' : Memory Block) (call : Option (List (Option Bytes)) × FcInfo (List (Option Varlena))) :
    Prop where
  kept : Kept m m'
  ret : Option.Rel (fun a elements => m.next ≤ a ∧ m'.cells a = some (.array elements)) r.1 call.1
  slots : ShowsWith (ElementsHold m') m' r.2 call.2

section Calls

variable {m m' : Memory Block} {p : ArgSlots (List (Option Ptr))}
  {fc : FcInfo (List (Option Varlena))} {elements : List (Option Ptr)}
  {values : List (Option Varlena)}

theorem rel_elements_kept {slot : Option (List (Option Ptr))}
    {value : Option (List (Option Varlena))} (h : Option.Rel (ElementsHold m) slot value)
    (hkept : Kept m m') : Option.Rel (ElementsHold m') slot value := by
  cases h with
  | none => exact .none
  | some helements => exact .some (helements.imp fun _ _ hv => rel_kept hv hkept)

theorem showsWith_kept (h : ShowsWith (ElementsHold m) m p fc) (hkept : Kept m m') :
    ShowsWith (ElementsHold m') m' p fc :=
  ⟨rel_elements_kept h.argIn hkept, rel_kept h.argRule hkept, rel_kept h.argResult hkept,
    h.keepEmpty, h.vars⟩

theorem Loaded.arrayShows (h : Loaded (Option.Rel (ElementsHold m)) m' p fc) (hkept : Kept m m') :
    ShowsWith (ElementsHold m') m' p fc :=
  ⟨rel_elements_kept h.argIn hkept, h.argRule.rel, h.argResult.rel, h.keepEmpty, h.vars⟩

theorem elementTexts_eq (h : ElementsHold m elements values) :
    elementTexts elements m = some (getInCopyArray values, m) := by
  induction h with
  | nil => rfl
  | cons hv _ ih =>
    cases hv with
    | none => exact (bind_eq_some ih).trans rfl
    | some hholds => exact (bind_eq_some (textAt_eq hholds)).trans ((bind_eq_some ih).trans rfl)

theorem yields_returnInArray (h : ShowsWith (ElementsHold m) m p fc)
    (helements : ElementsHold m elements values) :
    Yields (returnInArray elements p) m fun r m' =>
      ArrayCallShows m r m' (some (getInCopyArray values), fc) := by
  have hkept : Kept m (m.alloc (.array (getInCopyArray values))) := (Kept.refl m).alloc _
  refine .step (elementTexts_eq helements) (.step (palloc_eq m _) (.pure ⟨hkept, ?_, ?_⟩))
  · exact .some ⟨Nat.le_refl _, cells_alloc_next m _⟩
  · exact showsWith_kept h hkept

/-- What comes behind the checks, if the engine raises one error at most. -/
theorem yields_restoredArray (E : RegexEngine) (rand : Nat → Nat)
    (h : Loaded (Option.Rel (ElementsHold m)) m p fc) {rule result : Varlena}
    (hrule : fc.argRule = some rule) (hresult : fc.argResult = some result)
    (helements : ElementsHold m elements values) (hraises : AtMostOneRaises E values) :
    Yields (do
      let (saved, fc) ← prepareArgsAt rand p
      let rule ← bufferOf fc.argRule
      let result ← bufferOf fc.argResult
      let (inserted, slots) ← processElementsAt E fc.keepsEmpty rule result elements none none
        { fc with argIn := none }
      let fc ← restoreArgsAt saved { slots with argIn := some elements }
      let ret ← palloc (.array inserted)
      pure (some ret, fc)) m fun r m' =>
        ArrayCallShows m r m'
          (let (saved, fc) := prepareArgs rand rule result fc
          let (inserted, slots) := processElements E fc.keepsEmpty fc.ruleText fc.resultText values
            { fc with argIn := none }
          (some inserted, restoreArgs saved { slots with argIn := some values })) := by
  refine (h.prepareArgsAt rand hrule hresult).bind ?_
  rintro ⟨saved, p₁⟩ m₁ ⟨hslots, hsaved, -⟩
  have hkeep : p₁.keepsEmpty = (prepareArgs rand rule result fc).2.keepsEmpty :=
    congrArg (fun o => Option.getD o false) hslots.keepEmpty
  refine (yields_bufferOf hslots.argRule).bind ?_
  rintro ruleBuf m₂ ⟨hkept₂, hruleWalks⟩
  refine (yields_bufferOf (hslots.argResult.kept hkept₂)).bind ?_
  rintro resultBuf k ⟨hkept₃, hresultWalks⟩
  have hslots₃ := hslots.mono (hkept₂.trans hkept₃)
  have hchunks : ChunkSlots m (saved.origRule ≠ none) (saved.origResult ≠ none) k
      { p₁ with argIn := none } { (prepareArgs rand rule result fc).2 with argIn := none } :=
    hslots₃.withInput trivial
  dsimp only
  rw [hkeep]
  refine (hchunks.processElementsAt E _ hslots₃.kept (hruleWalks.kept hkept₃) hresultWalks
    helements (.none k k _) (.refl k) hraises fun hne => absurd rfl hne).bind ?_
  rintro ⟨inserted, p₄⟩ m₄ ⟨-, hslots₄, hinserted⟩
  have harray : Slots (Option.Rel (ElementsHold m)) m _ _ m₄ { p₄ with argIn := some elements }
      _ := hslots₄.withInput (.some helements)
  refine (harray.restoreArgsAt hsaved).bind ?_
  rintro p₅ m₅ ⟨hkept, hloaded, -, -, -⟩
  have hkept₆ := (Kept.refl m₅).alloc (.array inserted)
  refine .step (palloc_eq m₅ _) (.pure ⟨hkept.trans hkept₆, ?_, ?_⟩)
  · obtain rfl := hinserted
    exact .some ⟨hkept.next_le, cells_alloc_next m₅ _⟩
  · exact showsWith_kept (hloaded.arrayShows hkept) hkept₆

end Calls

/-- An engine that raises an error on one text. -/
def raisingEngine : RegexEngine where
  regcomp := literalEngine.regcomp
  regexec := literalEngine.regexec
  textregexreplaceNoopt data pattern replacement :=
    if data = ascii "ca" then none
    else literalEngine.textregexreplaceNoopt data pattern replacement

/-- An array with this text, other texts and a `NULL`, and two pairs. -/
def arrayCall : FcInfo (List (Option Varlena)) where
  argIn := some [some (.short (ascii "cb")), none, some (.short (ascii "ca")),
    some (.short (ascii "b"))]
  argRule := some (.plain (ascii "a||b"))
  argResult := some (.plain (ascii "x||r(2)"))
  keepEmpty := some false
  vars := none

def arrayMemory : Memory Block :=
  .ofList [.text (.short (ascii "cb")), .text (.short (ascii "ca")), .text (.short (ascii "b")),
    .text (.plain (ascii "a||b")), .text (.plain (ascii "x||r(2)"))]

def arraySlots : ArgSlots (List (Option Ptr)) where
  argIn := some [some 0, none, some 1, some 2]
  argRule := some 3
  argResult := some 4
  keepEmpty := some false
  vars := none

theorem showsWith_array : ShowsWith (ElementsHold arrayMemory) arrayMemory arraySlots arrayCall :=
  ⟨.some (.cons (.some rfl) (.cons .none (.cons (.some rfl) (.cons (.some rfl) .nil)))),
    .some rfl, .some rfl, rfl, rfl⟩

theorem eq_of_raises_raisingEngine {element : Option Varlena}
    (h : ElementRaises raisingEngine element) : element.map Varlena.text = some (ascii "ca") := by
  obtain ⟨v, rfl, pattern, replacement, -, -, hnone⟩ := h
  by_contra hne
  have htext : v.text ≠ ascii "ca" := fun htext => hne (congrArg some htext)
  have hliteral : literalEngine.textregexreplaceNoopt v.text pattern replacement = none :=
    (if_neg htext).symm.trans hnone
  rw [literalEngine] at hliteral
  dsimp only at hliteral
  split at hliteral
  · cases hliteral
  · cases hliteral

theorem atMostOneRaises_array :
    ∀ values, arrayCall.argIn = some values → AtMostOneRaises raisingEngine values := by
  intro values h
  rw [← Option.some.inj h]
  -- no two of the elements have this text
  have htexts : List.Pairwise (fun v w : Option Varlena => ¬ (v.map Varlena.text =
      some (ascii "ca") ∧ w.map Varlena.text = some (ascii "ca")))
      [some (.short (ascii "cb")), none, some (.short (ascii "ca")),
        some (.short (ascii "b"))] := by
    decide
  refine htexts.imp ?_
  rintro v w hnot ⟨hv, hw⟩
  exact hnot ⟨eq_of_raises_raisingEngine hv, eq_of_raises_raisingEngine hw⟩

/-- With variables, the chunks of a second error are freed with it, and once more when the slots are
restored. -/
example : regexpReplaceRandArrayNooptAt raisingEngine (fun _ => 0)
    { arraySlots with
      argIn := some [some 1, some 1]
      vars := some ⟨true, fun _ => none⟩ } arrayMemory = none := by
  decide +kernel

end YetiPgExt.Regexp
