import YetiPgExt.Regexp.ChunkRun

/-!
# Arrays and scalars

The form for arrays should replace each element as the scalar form does. `arrayAgrees_iff` says when
it does: for every element, the leftover pair of the rule and the result, if there is one, is not
reached or changes nothing.
-/

set_option autoImplicit false

namespace YetiPgExt.Regexp

open YetiPgExt.Library YetiPgExt.Postgres

/-! ## The rule and the result that are split -/

/-- The text of a rule or result once the variables are put in. The placeholders are looked for in
the value as it is stored. -/
def effectiveText (vars : Option Jsonb) (v : Varlena) : Bytes :=
  match vars with
  | none => v.text
  | some values => if values.isObject then replacePlaceholders v values else v.text

theorem effectiveText_of_object {values : Jsonb} (hobject : values.isObject = true) (v : Varlena) :
    effectiveText (some values) v = replacePlaceholders v values := if_pos hobject

section Prepare

variable {ι : Type} {rule result : Varlena} {fc : FcInfo ι}

/-- Without random strings only the variables are put in. -/
theorem prepareArgs_of_placeholders_eq_nil (h : placeholders result.text = [])
    (rand : Nat → Nat) :
    prepareArgs rand rule result fc = expandVars rule ⟨none, none⟩ fc := by
  rw [prepareArgs, expandRandom, replace_of_placeholders_eq_nil h]
  rfl

variable (fc) in
theorem expandVars_texts (saved : Saved) (hrule : fc.argRule = some rule)
    (hresult : fc.argResult = some result) :
    (expandVars rule saved fc).2.ruleText = effectiveText fc.vars rule ∧
      (expandVars rule saved fc).2.resultText = effectiveText fc.vars result := by
  rw [expandVars]
  cases hvars : fc.vars with
  | none =>
    simp only [FcInfo.ruleText, FcInfo.resultText, hrule, hresult]
    exact ⟨rfl, rfl⟩
  | some values =>
    simp only [effectiveText]
    split
    · rw [hresult]
      exact ⟨rfl, rfl⟩
    · simp only [FcInfo.ruleText, FcInfo.resultText, hrule, hresult]
      exact ⟨rfl, rfl⟩

variable (rule fc) in
theorem sameInputs_expandVars (saved : Saved) : SameInputs fc (expandVars rule saved fc).2 := by
  rw [expandVars]
  cases hvars : fc.vars with
  | none => exact .refl fc
  | some values =>
    simp only
    split
    · exact ⟨rfl, rfl, rfl⟩
    · exact .refl fc

/-- The text of a result once the random strings and the variables are put in. -/
def effectiveResult (rand : Nat → Nat) (vars : Option Jsonb) (result : Varlena) : Bytes :=
  let t := replace rand result.text
  effectiveText vars (if t.replaced then .plain t.text else result)

theorem effectiveResult_of_placeholders_eq_nil (h : placeholders result.text = [])
    (rand : Nat → Nat) (vars : Option Jsonb) :
    effectiveResult rand vars result = effectiveText vars result := by
  rw [effectiveResult, replace_of_placeholders_eq_nil h]
  rfl

variable (fc) in
/-- The slots in which the chunks are looked for. -/
theorem prepareArgs_texts (rand : Nat → Nat) (hrule : fc.argRule = some rule)
    (hresult : fc.argResult = some result) :
    (prepareArgs rand rule result fc).2.ruleText = effectiveText fc.vars rule ∧
      (prepareArgs rand rule result fc).2.resultText = effectiveResult rand fc.vars result := by
  rw [prepareArgs, expandRandom, effectiveResult]
  by_cases hreplaced : (replace rand result.text).replaced = true
  · simp only [hreplaced, if_true]
    exact expandVars_texts (fc.replaceResult (replace rand result.text).text) _ hrule rfl
  · simp only [hreplaced]
    exact expandVars_texts fc _ hrule hresult

variable (rule result fc) in
theorem sameInputs_prepareArgs (rand : Nat → Nat) :
    SameInputs fc (prepareArgs rand rule result fc).2 := by
  have hrandom : SameInputs fc (expandRandom rand result fc).2 := by
    rw [expandRandom]
    split
    · exact ⟨rfl, rfl, rfl⟩
    · exact .refl fc
  rw [prepareArgs]
  exact hrandom.trans (sameInputs_expandVars rule _ _)

end Prepare

/-! ## The two forms -/

section Forms

variable {E : RegexEngine} {keepEmpty : Bool} {fc : FcInfo Varlena} {r s : Bytes}

theorem slotsFor_self {ι : Type} (fc : FcInfo ι) : SlotsFor fc.ruleText fc.resultText fc :=
  ⟨fun _ => rfl, fun _ => rfl⟩

theorem processChunks_getD (E : RegexEngine) (keepEmpty : Bool) (fc : FcInfo Varlena) :
    (processChunks E keepEmpty fc).1.getD (getInCopy fc) =
      applyFirst E keepEmpty (getInCopy fc)
        (scalarPairs (regexpSplitMaxTokens - 1) (chunks fc.ruleText) (chunks fc.resultText)) :=
  chunkLoop_applyFirst (regexpSplitMaxTokens - 1) (by decide) rfl fun _ => slotsFor_self fc

theorem processElement_getD (hslots : SlotsFor r s fc) :
    (processElement E keepEmpty r s fc).1.getD (getInCopy fc) =
      applyFirst E keepEmpty (getInCopy fc)
        (arrayPairs (regexpSplitMaxTokens - 1) (chunks r) (chunks s)) :=
  elementLoop_applyFirst (regexpSplitMaxTokens - 1) (by decide) rfl fun _ => hslots

/-- The lines behind the loop write the slot of the result, if it has a separator. -/
theorem tailArgs_zero_slots (hslots : SlotsFor r s fc) :
    SlotsFor r s (tailArgs 0 r s fc) := by
  rw [tailArgs]
  cases hs : searchSplitToken s with
  | none => exact hslots
  | some p =>
    refine ⟨hslots.rule, ?_⟩
    intro hnone
    rw [hs] at hnone
    cases hnone

variable (E keepEmpty) in
/-- An element leaves a rule or a result without a separator in its slot. -/
theorem processElement_slots (hslots : SlotsFor r s fc) :
    SlotsFor r s (processElement E keepEmpty r s fc).2 := by
  -- `SlotsFor` asks nothing of a slot whose text has a separator, so only one round matters
  rw [processElement, show regexpSplitMaxTokens = 9 + 1 from rfl]
  rcases hr : searchSplitToken r with _ | p
  · rw [elementLoop_of_no_rule hr]
    exact tailArgs_zero_slots hslots
  · have hrule : ∀ fc' : FcInfo Varlena, searchSplitToken r = none → fc'.ruleText = r := by
      intro fc' hnone
      rw [hr] at hnone
      cases hnone
    rcases hs : searchSplitToken s with _ | q
    · rw [elementLoop_of_no_result hr hs]
      exact ⟨hrule _, hslots.result⟩
    · refine ⟨hrule _, ?_⟩
      intro hnone
      rw [hs] at hnone
      cases hnone

variable (E keepEmpty) in
/-- The elements are replaced one by one. -/
theorem processElements_eq (elements : List (Option Varlena)) (hslots : SlotsFor r s fc) :
    (processElements E keepEmpty r s elements fc).1 =
      elements.map (Option.map fun v => applyFirst E keepEmpty v.text
        (arrayPairs (regexpSplitMaxTokens - 1) (chunks r) (chunks s))) := by
  -- on the elements: what one leaves in the slots is good enough for the next
  induction elements generalizing fc with
  | nil => rfl
  | cons element elements ih =>
    cases element with
    | none =>
      rw [processElements, List.map_cons, ← ih hslots]
      rfl
    | some v =>
      have hin : SlotsFor r s { fc with argIn := some v } := ⟨hslots.rule, hslots.result⟩
      have hret : (processElement E keepEmpty r s { fc with argIn := some v }).1.getD v.text =
          applyFirst E keepEmpty v.text
            (arrayPairs (regexpSplitMaxTokens - 1) (chunks r) (chunks s)) :=
        processElement_getD hin
      rw [processElements, List.map_cons, ← ih (processElement_slots E keepEmpty hin),
        Option.map_some, ← hret]

end Forms

/-! ## Agreement -/

/-- The form for arrays gives for each element what the scalar form gives for it, with the same
other arguments. -/
def ArrayAgrees (E : RegexEngine) (rand rand' : Nat → Nat) (elements : List (Option Varlena))
    (rule result : Varlena) (keepEmpty : Option Bool) (vars : Option Jsonb) : Prop :=
  (regexpReplaceRandArrayNoopt E rand
      ⟨some elements, some rule, some result, keepEmpty, vars⟩).1 =
    some (elements.map fun element =>
      (regexpReplaceRandNoopt E rand' ⟨element, some rule, some result, keepEmpty, vars⟩).1)

/-- The leftover pair, if there is one, is not reached or changes nothing. -/
def LeftoverHarmless (E : RegexEngine) (keepEmpty : Bool) (input : Bytes)
    (rules results : List Bytes) : Prop :=
  ∀ pair, leftoverPair (regexpSplitMaxTokens - 1) rules results = some pair →
    (∃ tried ∈ triedPairs (regexpSplitMaxTokens - 1) rules results, Fires E input tried.1) ∨
      applyFirst E keepEmpty input [pair] = input

/-- The lists of pairs give the same exactly if the leftover pair is harmless. -/
theorem applyFirst_pairs_iff (E : RegexEngine) (keepEmpty : Bool) (input : Bytes)
    (rules results : List Bytes) :
    applyFirst E keepEmpty input (arrayPairs (regexpSplitMaxTokens - 1) rules results) =
        applyFirst E keepEmpty input (scalarPairs (regexpSplitMaxTokens - 1) rules results) ↔
      LeftoverHarmless E keepEmpty input rules results := by
  rw [arrayPairs, scalarPairs, LeftoverHarmless]
  -- without a leftover pair the two lists are the same
  cases hleft : leftoverPair (regexpSplitMaxTokens - 1) rules results with
  | none => simp
  | some pair =>
    rw [if_neg (Option.some_ne_none pair), List.append_nil, Option.getD_some]
    have hall : (∀ pair', some pair = some pair' →
        (∃ tried ∈ triedPairs (regexpSplitMaxTokens - 1) rules results, Fires E input tried.1) ∨
          applyFirst E keepEmpty input [pair'] = input) ↔
        (∃ tried ∈ triedPairs (regexpSplitMaxTokens - 1) rules results, Fires E input tried.1) ∨
          applyFirst E keepEmpty input [pair] = input := by simp
    rw [hall]
    by_cases hfires : ∃ tried ∈ triedPairs (regexpSplitMaxTokens - 1) rules results,
        Fires E input tried.1
    · -- a pair before it fires, and both forms stop there
      rw [applyFirst_append_of_fires hfires]
      exact iff_of_true rfl (.inl hfires)
    · have hnone := applyFirst_append_of_not_fires keepEmpty [] hfires
      rw [List.append_nil] at hnone
      rw [applyFirst_append_of_not_fires keepEmpty _ hfires, hnone]
      exact ⟨fun h => .inr h, fun h => h.resolve_left hfires⟩

section Agreement

variable (E : RegexEngine) (rand : Nat → Nat) {rule result : Varlena}
  (keepEmpty : Option Bool) (vars : Option Jsonb)

/-- The scalar form on an input, for a rule that is not empty. -/
theorem regexpReplaceRandNoopt_eq (hrule : rule.dataAny.length ≠ 0) (v : Varlena) :
    (regexpReplaceRandNoopt E rand ⟨some v, some rule, some result, keepEmpty, vars⟩).1 =
      some (applyFirst E (keepEmpty.getD false) v.text
        (scalarPairs (regexpSplitMaxTokens - 1) (chunks (effectiveText vars rule))
          (chunks (effectiveResult rand vars result)))) := by
  have htexts := prepareArgs_texts ⟨some v, some rule, some result, keepEmpty, vars⟩ rand rfl rfl
  have hprepare := sameInputs_prepareArgs rule result
    (⟨some v, some rule, some result, keepEmpty, vars⟩ : FcInfo Varlena) rand
  rw [regexpReplaceRandNoopt]
  simp only
  rw [if_neg hrule]
  rcases hP : prepareArgs rand rule result
    (⟨some v, some rule, some result, keepEmpty, vars⟩ : FcInfo Varlena) with ⟨saved, fc₁⟩
  rw [hP] at htexts hprepare
  have hret := processChunks_getD E fc₁.keepsEmpty fc₁
  have hprocess := sameInputs_processChunks E fc₁.keepsEmpty fc₁
  rcases hproc : processChunks E fc₁.keepsEmpty fc₁ with ⟨ret, fc₂⟩
  rw [hproc] at hret hprocess
  have hkeeps : fc₁.keepsEmpty = keepEmpty.getD false := by
    rw [FcInfo.keepsEmpty, hprepare.keepEmpty]
  simp only
  rw [(sameInputs_restoreArgs saved fc₂).getInCopy_eq, hprocess.getInCopy_eq, hret, htexts.1,
    htexts.2, hkeeps, hprepare.getInCopy_eq]
  rfl

/-- The form for arrays. -/
theorem regexpReplaceRandArrayNoopt_eq (hrule : rule.dataAny.length ≠ 0)
    (elements : List (Option Varlena)) :
    (regexpReplaceRandArrayNoopt E rand
        ⟨some elements, some rule, some result, keepEmpty, vars⟩).1 =
      some (elements.map (Option.map fun v => applyFirst E (keepEmpty.getD false) v.text
        (arrayPairs (regexpSplitMaxTokens - 1) (chunks (effectiveText vars rule))
          (chunks (effectiveResult rand vars result))))) := by
  have htexts := prepareArgs_texts ⟨some elements, some rule, some result, keepEmpty, vars⟩
    rand rfl rfl
  have hprepare := sameInputs_prepareArgs rule result
    (⟨some elements, some rule, some result, keepEmpty, vars⟩ :
      FcInfo (List (Option Varlena))) rand
  rw [regexpReplaceRandArrayNoopt]
  simp only
  rw [if_neg hrule]
  rcases hP : prepareArgs rand rule result
    (⟨some elements, some rule, some result, keepEmpty, vars⟩ :
      FcInfo (List (Option Varlena))) with ⟨saved, fc₁⟩
  rw [hP] at htexts hprepare
  have hkeeps : fc₁.keepsEmpty = keepEmpty.getD false := by
    rw [FcInfo.keepsEmpty, hprepare.keepEmpty]
  have hslots : SlotsFor fc₁.ruleText fc₁.resultText
      ({ fc₁ with argIn := none } : FcInfo Varlena) := ⟨fun _ => rfl, fun _ => rfl⟩
  have hinserted := processElements_eq E fc₁.keepsEmpty elements hslots
  rw [hkeeps, htexts.1, htexts.2] at hinserted
  simp only
  rw [hkeeps, htexts.1, htexts.2, hinserted]

end Agreement

/-- An empty rule is empty for either form. -/
theorem effectiveText_of_length_eq_zero {rule : Varlena} (h : rule.dataAny.length = 0)
    (vars : Option Jsonb) : effectiveText vars rule = [] := by
  have hdata := List.length_eq_zero_iff.mp h
  have htext := rule.dataAny_eq_nil_iff.mp hdata
  cases vars with
  | none => exact htext
  | some values =>
    simp only [effectiveText]
    split
    · rw [replacePlaceholders, hdata]
      rfl
    · exact htext

/-- The two forms agree exactly if the leftover pair is harmless for every element. -/
theorem arrayAgrees_iff (E : RegexEngine) (rand rand' : Nat → Nat)
    (elements : List (Option Varlena)) (rule result : Varlena) (keepEmpty : Option Bool)
    (vars : Option Jsonb) (hresult : placeholders result.text = []) :
    ArrayAgrees E rand rand' elements rule result keepEmpty vars ↔
      ∀ v, some v ∈ elements →
        LeftoverHarmless E (keepEmpty.getD false) v.text (chunks (effectiveText vars rule))
          (chunks (effectiveText vars result)) := by
  rw [ArrayAgrees]
  by_cases hrule : rule.dataAny.length = 0
  · -- both return their input
    refine iff_of_true ?_ ?_
    · rw [regexpReplaceRandArrayNoopt]
      simp only
      rw [if_pos hrule, getInCopyArray]
      apply congrArg some
      apply List.map_congr_left
      intro element _
      rw [regexpReplaceRandNoopt]
      cases element with
      | none => rfl
      | some v =>
        simp only
        rw [if_pos hrule]
        rfl
    · intro v _ pair hpair
      obtain ⟨tail, hchunks⟩ := exists_chunks (effectiveText vars result)
      rw [effectiveText_of_length_eq_zero hrule, chunks_eq_nil_iff.mpr rfl, hchunks,
        leftoverPair_of_tail (.inl rfl)] at hpair
      cases hpair
  · have hsame : ∀ rand, effectiveResult rand vars result = effectiveText vars result :=
      fun rand => effectiveResult_of_placeholders_eq_nil hresult rand vars
    rw [regexpReplaceRandArrayNoopt_eq E rand keepEmpty vars hrule, hsame, Option.some.injEq,
      List.map_inj_left]
    constructor
    · intro h v hv
      have hv' := h (some v) hv
      rw [regexpReplaceRandNoopt_eq E rand' keepEmpty vars hrule, hsame, Option.map_some,
        Option.some.injEq] at hv'
      exact (applyFirst_pairs_iff _ _ _ _ _).mp hv'
    · intro h element helement
      cases element with
      | none => rfl
      | some v =>
        rw [regexpReplaceRandNoopt_eq E rand' keepEmpty vars hrule, hsame, Option.map_some,
          Option.some.injEq]
        exact (applyFirst_pairs_iff _ _ _ _ _).mpr (h v helement)

/-! ## A rule and a result with a separator at their end -/

/-- The engine on patterns and replacements without special characters. -/
def literalEngine : RegexEngine where
  regcomp _ := true
  regexec pattern data := (memmem pattern data).isSome
  textregexreplaceNoopt data pattern replacement :=
    match memmem pattern data with
    | none => some data
    | some i => some (data.take i ++ replacement ++ data.drop (i + pattern.length))

theorem emptyMatches_literalEngine : literalEngine.EmptyMatches := by
  refine ⟨rfl, ?_⟩
  intro data
  cases data with
  | nil => rfl
  | cons c data =>
    show (memmem [] (c :: data)).isSome = true
    rw [memmem, if_pos List.nil_prefix]
    rfl

/-- Without a leftover pair the two forms agree. -/
theorem arrayAgrees_iff_twoPairs :
    ArrayAgrees literalEngine (fun _ => 0) (fun _ => 0)
        [some (.plain (ascii "qwe")), none, some (.short (ascii "rty"))]
        (.plain (ascii "q||r")) (.plain (ascii "x||y")) (some false) none ↔
      ∀ v, some v ∈ [some (.plain (ascii "qwe")), none, some (Varlena.short (ascii "rty"))] →
        LeftoverHarmless literalEngine false v.text
          (chunks (effectiveText none (.plain (ascii "q||r"))))
          (chunks (effectiveText none (.plain (ascii "x||y")))) :=
  arrayAgrees_iff literalEngine (fun _ => 0) (fun _ => 0)
    [some (.plain (ascii "qwe")), none, some (.short (ascii "rty"))] (.plain (ascii "q||r"))
    (.plain (ascii "x||y")) (some false) none (by decide +kernel)

/-- Behind a rule that does not match, the form for arrays goes on with the empty rule. -/
theorem not_arrayAgrees :
    literalEngine.EmptyMatches ∧ placeholders (ascii "x||") = [] ∧
      ¬ ArrayAgrees literalEngine (fun _ => 0) (fun _ => 0) [some (.plain (ascii "b"))]
        (.plain (ascii "a||")) (.plain (ascii "x||")) (some false) none := by
  refine ⟨emptyMatches_literalEngine, by decide +kernel, ?_⟩
  have harray : (regexpReplaceRandArrayNoopt literalEngine (fun _ => 0)
      ⟨some [some (.plain (ascii "b"))], some (.plain (ascii "a||")),
        some (.plain (ascii "x||")), some false, none⟩).1 = some [some (ascii "xb")] := by
    decide +kernel
  have hscalar : (regexpReplaceRandNoopt literalEngine (fun _ => 0)
      ⟨some (.plain (ascii "b")), some (.plain (ascii "a||")), some (.plain (ascii "x||")),
        some false, none⟩).1 = some (ascii "b") := by
    decide +kernel
  rw [ArrayAgrees, harray, List.map_singleton, hscalar]
  decide +kernel

end YetiPgExt.Regexp
