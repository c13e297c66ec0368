import YetiPgExt.Regexp.FirstMatch
import YetiPgExt.Regexp.Segmentation

/-!
# Storage forms

`replace_placeholders` reads a template as it is stored: behind the header of a compressed value or
of a pointer out of line there are other bytes than those of the text. `storage_iff` says when the
form makes no difference to `process_templates`, whatever the variables are, and when it makes none,
whatever the engine and the other arguments are, to the rule and to the result of
`regexp_replace_rand_noopt`.
-/

set_option autoImplicit false

namespace YetiPgExt.Regexp

open YetiPgExt.Library YetiPgExt.Postgres

/-- The value with a plain header, as detoasting gives it. -/
def detoasted (v : Varlena) : Varlena := .plain v.text

/-- A text without braces is a template without placeholders. -/
theorem replacePlaceholders_of_memmem {v : Varlena} (h : memmem placeholderStart v.dataAny = none)
    (values : Jsonb) : replacePlaceholders v values = v.dataAny := by
  rw [replacePlaceholders, scanTemplate]
  split
  · rename_i hnil
    rw [hnil]
  · simp only [h, List.nil_append]

/-! ## Rules that find the same chunk -/

section Rules

variable {E : RegexEngine} {keepEmpty : Bool} {input : Bytes}

theorem idxOf?_cons_ne {c d : Bytes} (h : c ≠ d) (cs : List Bytes) :
    (c :: cs).idxOf? d = (cs.idxOf? d).map (· + 1) := by
  rw [List.idxOf?_cons, if_neg (by simpa using h)]

theorem idxOf?_cons_self (c : Bytes) (cs : List Bytes) : (c :: cs).idxOf? c = some 0 := by
  rw [List.idxOf?_cons, if_pos (by simp)]

theorem eq_of_idxOf?_eq_zero {c d : Bytes} {cs : List Bytes}
    (h : (c :: cs).idxOf? d = some 0) : d = c := by
  by_contra hne
  rw [idxOf?_cons_ne (Ne.symm hne)] at h
  cases hi : cs.idxOf? d with
  | none =>
    rw [hi] at h
    cases h
  | some i =>
    rw [hi] at h
    cases h

/-- No rule fires that comes at no place. -/
theorem applyFirst_zip_of_none {rules : List Bytes} (results : List Bytes)
    (h : ∀ c, Fires E input c → rules.idxOf? c = none) :
    applyFirst E keepEmpty input (rules.zip results) = input := by
  apply applyFirst_of_none
  intro pair hpair hfires
  exact List.idxOf?_eq_none_iff.mp (h pair.1 hfires) (List.of_mem_zip hpair).1

/-- Two lists of rules replace the same if every rule that fires comes first at the same place. -/
theorem applyFirst_zip_congr {rules rules' : List Bytes} (results : List Bytes)
    (h : ∀ c, Fires E input c → rules.idxOf? c = rules'.idxOf? c) :
    applyFirst E keepEmpty input (rules.zip results) =
      applyFirst E keepEmpty input (rules'.zip results) := by
  -- on the rules: the first ones fire together, as the same rule, or are passed over together
  induction rules generalizing rules' results with
  | nil =>
    rw [List.zip_nil_left, applyFirst]
    exact (applyFirst_zip_of_none results fun c hc => (h c hc).symm).symm
  | cons r rules ih =>
    cases rules' with
    | nil =>
      rw [List.zip_nil_left, applyFirst]
      exact applyFirst_zip_of_none results h
    | cons r' rules' =>
      cases results with
      | nil => rw [List.zip_nil_right, List.zip_nil_right]
      | cons s results =>
        rw [List.zip_cons_cons, List.zip_cons_cons]
        by_cases hfires : Fires E input r
        · have hsame := h r hfires
          rw [idxOf?_cons_self] at hsame
          rw [← eq_of_idxOf?_eq_zero hsame.symm, applyFirst_cons_of_fires hfires,
            applyFirst_cons_of_fires hfires]
        · have hfires' : ¬ Fires E input r' := by
            intro hr'
            have hsame := h r' hr'
            rw [idxOf?_cons_self] at hsame
            rw [eq_of_idxOf?_eq_zero hsame] at hr'
            exact hfires hr'
          rw [applyFirst_cons_of_not_fires hfires, applyFirst_cons_of_not_fires hfires']
          apply ih
          intro c hc
          have hsame := h c hc
          have hr : r ≠ c := by
            rintro rfl
            exact hfires hc
          have hr' : r' ≠ c := by
            rintro rfl
            exact hfires' hc
          rw [idxOf?_cons_ne hr, idxOf?_cons_ne hr'] at hsame
          exact Option.map_injective (add_left_injective 1) hsame

/-- An engine that knows one pattern, and replaces the whole input. -/
def onePattern (c : Bytes) (f : Bytes → Bytes) : RegexEngine where
  regcomp _ := true
  regexec pattern _ := pattern = c
  textregexreplaceNoopt _ _ replacement := some (f replacement)

theorem applyFirst_onePattern (c : Bytes) (f : Bytes → Bytes) (rules results : List Bytes) :
    applyFirst (onePattern c f) true input (rules.zip results) =
      (((rules.idxOf? c).bind fun i => results[i]?).map f).getD input := by
  induction rules generalizing results with
  | nil => rfl
  | cons r rules ih =>
    cases results with
    | nil =>
      rw [List.zip_nil_right]
      cases (r :: rules).idxOf? c with
      | none => rfl
      | some i => rfl
    | cons s results =>
      rw [List.zip_cons_cons]
      by_cases hr : r = c
      · subst hr
        rw [applyFirst_cons_of_fires ⟨rfl, decide_eq_true rfl⟩, idxOf?_cons_self, replacement]
        simp [onePattern]
      · have hfires : ¬ Fires (onePattern c f) input r := by
          rintro ⟨-, hexec⟩
          exact hr (of_decide_eq_true hexec)
        rw [applyFirst_cons_of_not_fires hfires, ih, idxOf?_cons_ne hr, Option.bind_map]
        rfl

end Rules

/-! ## Nine letters -/

/-- As many chunks as the limit admits, each of one letter. -/
def letters : List Bytes := (ascii "012345678").map fun c => [c]

/-- The letters as a rule or a result. -/
def lettersText : Varlena := .plain (splitToken.bytes.intercalate letters)

theorem effectiveText_lettersText (vars : Option Jsonb) :
    effectiveText vars lettersText = lettersText.text := by
  cases vars with
  | none => rfl
  | some values =>
    simp only [effectiveText]
    split
    · exact replacePlaceholders_of_memmem (by decide +kernel) values
    · rfl

theorem usedChunks_lettersText : usedChunks (chunks lettersText.text) = letters := by
  rw [lettersText, Varlena.text, chunks_intercalate (by decide) (by decide)]
  decide

theorem usedRules_lettersText (vars : Option Jsonb) : usedRules vars lettersText = letters := by
  rw [usedRules, effectiveText_lettersText, usedChunks_lettersText]

theorem usedResults_lettersText (rand : Nat → Nat) (vars : Option Jsonb) :
    usedResults rand vars lettersText = letters := by
  rw [usedResults, effectiveResult_of_placeholders_eq_nil (by decide +kernel),
    effectiveText_lettersText, usedChunks_lettersText]

theorem take_letters : letters.take (regexpSplitMaxTokens - 1) = letters := rfl

theorem letters_ne_nil (i : Nat) (hi : i < letters.length) : letters[i] ≠ [] := by
  have hall : ∀ l ∈ letters, l ≠ [] := by decide
  exact hall _ (List.getElem_mem hi)

theorem idxOf?_letters : ∀ i : Fin letters.length, letters.idxOf? letters[i] = some i.val := by
  decide

/-- Below the limit, the letter tells the place. -/
theorem letter_injective {o o' : Option Nat} (ho : ∀ i ∈ o, i < letters.length)
    (ho' : ∀ i ∈ o', i < letters.length)
    (h : ((o.bind fun i => letters[i]?).map id).getD [] =
      ((o'.bind fun i => letters[i]?).map id).getD []) : o = o' := by
  have hsome : ∀ i (hi : i < letters.length),
      (((some i).bind fun i => letters[i]?).map id).getD [] = letters[i] := by
    intro i hi
    rw [Option.bind_some, List.getElem?_eq_getElem hi]
    rfl
  cases o with
  | none =>
    cases o' with
    | none => rfl
    | some j =>
      rw [hsome j (ho' j rfl)] at h
      exact absurd h.symm (letters_ne_nil j (ho' j rfl))
  | some i =>
    rw [hsome i (ho i rfl)] at h
    cases o' with
    | none => exact absurd h (letters_ne_nil i (ho i rfl))
    | some j =>
      rw [hsome j (ho' j rfl)] at h
      have hnodup : letters.Nodup := by decide
      rw [hnodup.getElem_inj_iff] at h
      rw [h]

/-! ## Rules and results in any form -/

section Storage

variable (E : RegexEngine) (rand : Nat → Nat) (input : Varlena) (rule result : Varlena)
  (keepEmpty : Option Bool) (vars : Option Jsonb)

/-- The rules that can be reached. -/
def reachedRules (vars : Option Jsonb) (rule : Varlena) : List Bytes :=
  (usedRules vars rule).take (regexpSplitMaxTokens - 1)

/-- The results that can be reached. -/
def reachedResults (rand : Nat → Nat) (vars : Option Jsonb) (result : Varlena) : List Bytes :=
  (usedResults rand vars result).take (regexpSplitMaxTokens - 1)

variable {rule} in
theorem scalarOutput_reached (h : rule.dataAny.length ≠ 0) :
    scalarOutput E rand input keepEmpty rule result vars =
      some (applyFirst E (keepEmpty.getD false) input.text
        ((reachedRules vars rule).zip (reachedResults rand vars result))) := by
  rw [scalarOutput_eq_applyFirst E rand input keepEmpty h, List.zip, List.take_zipWith]
  rfl

variable {vars} in
theorem lt_of_idxOf?_reachedRules {c : Bytes} (i : Nat)
    (h : i ∈ (reachedRules vars rule).idxOf? c) :
    i < letters.length := by
  obtain ⟨hlt, -⟩ := List.idxOf?_eq_some_iff.mp h
  rw [reachedRules, List.length_take] at hlt
  exact Nat.lt_of_lt_of_le hlt (Nat.min_le_left _ _)

/-- The form of a rule makes no difference, whatever the engine and the other arguments are. -/
def RuleStorageHarmless : Prop :=
  ∀ (E : RegexEngine) (rand : Nat → Nat) (input result : Varlena) (keepEmpty : Option Bool),
    scalarOutput E rand input keepEmpty rule result vars =
      scalarOutput E rand input keepEmpty (detoasted rule) result vars

/-- The form of a result makes no difference. -/
def ResultStorageHarmless : Prop :=
  ∀ (E : RegexEngine) (rand : Nat → Nat) (input rule : Varlena) (keepEmpty : Option Bool),
    scalarOutput E rand input keepEmpty rule result vars =
      scalarOutput E rand input keepEmpty rule (detoasted result) vars

theorem ruleStorageHarmless_iff :
    RuleStorageHarmless rule vars ↔
      ∀ c, (reachedRules vars rule).idxOf? c = (reachedRules vars (detoasted rule)).idxOf? c := by
  have hlen : (detoasted rule).dataAny.length = 0 ↔ rule.dataAny.length = 0 := by
    rw [List.length_eq_zero_iff, List.length_eq_zero_iff, Varlena.dataAny_eq_nil_iff,
      Varlena.dataAny_eq_nil_iff]
    rfl
  by_cases hempty : rule.dataAny.length = 0
  · refine iff_of_true ?_ ?_
    · intro E rand input result keepEmpty
      rw [scalarOutput_of_empty E rand input result keepEmpty vars hempty,
        scalarOutput_of_empty E rand input result keepEmpty vars (hlen.mpr hempty)]
    · intro c
      rw [reachedRules, reachedRules, usedRules, usedRules,
        effectiveText_of_length_eq_zero hempty, effectiveText_of_length_eq_zero (hlen.mpr hempty)]
  · have hempty' : (detoasted rule).dataAny.length ≠ 0 := fun h => hempty (hlen.mp h)
    constructor
    · intro h c
      -- an engine that knows only `c` shows the place at which it comes first
      have hletters := h (onePattern c id) (fun _ => 0) (.plain []) lettersText (some true)
      rw [scalarOutput_reached _ _ _ _ _ _ hempty, scalarOutput_reached _ _ _ _ _ _ hempty',
        Option.some.injEq, Option.getD_some, applyFirst_onePattern, applyFirst_onePattern,
        reachedResults, usedResults_lettersText, take_letters] at hletters
      exact letter_injective (lt_of_idxOf?_reachedRules rule)
        (lt_of_idxOf?_reachedRules (detoasted rule)) hletters
    · intro h E rand input result keepEmpty
      rw [scalarOutput_reached _ _ _ _ _ _ hempty, scalarOutput_reached _ _ _ _ _ _ hempty',
        applyFirst_zip_congr _ fun c _ => h c]

theorem resultStorageHarmless_iff :
    ResultStorageHarmless result vars ↔
      ∀ rand, reachedResults rand vars result = reachedResults rand vars (detoasted result) := by
  constructor
  · intro h rand
    apply List.ext_getElem?
    intro i
    by_cases hi : i < letters.length
    · -- a rule of letters, the one at this place matched by the engine
      have hrule : lettersText.dataAny.length ≠ 0 := by decide
      have hplace : letters.idxOf? letters[i] = some i := idxOf?_letters ⟨i, hi⟩
      have hletters := h (onePattern letters[i] (List.cons 0)) rand (.plain []) lettersText
        (some true)
      rw [scalarOutput_reached _ _ _ _ _ _ hrule, scalarOutput_reached _ _ _ _ _ _ hrule,
        Option.some.injEq, Option.getD_some, applyFirst_onePattern, applyFirst_onePattern,
        reachedRules, usedRules_lettersText, take_letters, hplace, Option.bind_some,
        Option.bind_some] at hletters
      revert hletters
      cases (reachedResults rand vars result)[i]? with
      | none =>
        cases (reachedResults rand vars (detoasted result))[i]? with
        | none => exact fun _ => rfl
        | some s => exact fun h => absurd h.symm (List.cons_ne_nil _ _)
      | some s =>
        cases (reachedResults rand vars (detoasted result))[i]? with
        | none => exact fun h => absurd h (List.cons_ne_nil _ _)
        | some s' => exact fun h => congrArg some (List.cons.inj h).2
    · have hnone : ∀ result, (reachedResults rand vars result)[i]? = none := by
        intro result
        rw [reachedResults, List.getElem?_eq_none_iff, List.length_take]
        have hlen : letters.length = regexpSplitMaxTokens - 1 := rfl
        omega
      rw [hnone, hnone]
  · intro h E rand input rule keepEmpty
    by_cases hempty : rule.dataAny.length = 0
    · rw [scalarOutput_of_empty _ _ _ _ _ _ hempty, scalarOutput_of_empty _ _ _ _ _ _ hempty]
    · rw [scalarOutput_reached _ _ _ _ _ _ hempty, scalarOutput_reached _ _ _ _ _ _ hempty, h rand]

end Storage

/-- The form of a template makes no difference to `process_templates`. -/
def TemplateStorageHarmless (template : Varlena) : Prop :=
  ∀ values : Jsonb, values.isObject = true →
    processTemplates (some (.text template)) (some values) =
      processTemplates (some (.text (detoasted template))) (some values)

theorem templateStorageHarmless_iff (template : Varlena) :
    TemplateStorageHarmless template ↔
      templateWord template.dataAny = templateWord template.text := by
  have hplain : (detoasted template).dataAny = template.text := rfl
  rw [← hplain, ← replacePlaceholders_congr_iff]
  apply forall_congr'
  intro values
  apply forall_congr'
  intro hobject
  simp only [processTemplates]
  rw [if_pos hobject, if_pos hobject, Processed.text.injEq]

/-! ## The condition on the bytes -/

/-- A template with the values in the places of its variables. -/
def filledIn (values : Jsonb) (template : Bytes) : Bytes :=
  substitute (keyText values) (templateWord template)

/-- The chunks of a text that are tried. -/
def triedChunks (t : Bytes) : List Bytes := (usedChunks (chunks t)).take (regexpSplitMaxTokens - 1)

section Tried

variable {values : Jsonb}

theorem effectiveText_eq_filledIn (hobject : values.isObject = true) (v : Varlena) :
    effectiveText (some values) v = filledIn values v.dataAny := by
  rw [effectiveText_of_object hobject, replacePlaceholders_eq_substitute, filledIn]

theorem effectiveText_detoasted (hobject : values.isObject = false) (v : Varlena) :
    effectiveText (some values) v = effectiveText (some values) (detoasted v) := by
  have hne : ¬ values.isObject = true := Bool.eq_false_iff.mp hobject
  exact (if_neg hne).trans (if_neg hne).symm

theorem reachedRules_eq_triedChunks (hobject : values.isObject = true) (rule : Varlena) :
    reachedRules (some values) rule = triedChunks (filledIn values rule.dataAny) := by
  rw [reachedRules, usedRules, effectiveText_eq_filledIn hobject, triedChunks]

/-- A result with random strings is put together anew, from its text. -/
theorem effectiveResult_detoasted {result : Varlena} (h : placeholders result.text ≠ [])
    (rand : Nat → Nat) (vars : Option Jsonb) :
    effectiveResult rand vars result = effectiveResult rand vars (detoasted result) := by
  have hreplaced : (replace rand result.text).replaced = true := by
    have hlen : ¬ (placeholders result.text).length = 0 := by
      rwa [List.length_eq_zero_iff]
    rw [replace, if_neg hlen]
  have htext : (detoasted result).text = result.text := rfl
  rw [effectiveResult, effectiveResult, htext, if_pos hreplaced, if_pos hreplaced]

theorem reachedResults_eq_triedChunks (hobject : values.isObject = true) {result : Varlena}
    (h : placeholders result.text = []) (rand : Nat → Nat) :
    reachedResults rand (some values) result = triedChunks (filledIn values result.dataAny) := by
  rw [reachedResults, usedResults, effectiveResult_of_placeholders_eq_nil h,
    effectiveText_eq_filledIn hobject, triedChunks]

theorem ruleStorageHarmless_iff_tried (rule : Varlena) :
    RuleStorageHarmless rule (some values) ↔ values.isObject = false ∨
      ∀ c, (triedChunks (filledIn values rule.dataAny)).idxOf? c =
        (triedChunks (filledIn values rule.text)).idxOf? c := by
  rw [ruleStorageHarmless_iff]
  cases hobject : values.isObject with
  | false =>
    refine iff_of_true (fun c => ?_) (.inl rfl)
    rw [reachedRules, reachedRules, usedRules, usedRules, effectiveText_detoasted hobject]
  | true =>
    rw [or_iff_right (show ¬ true = false by decide), reachedRules_eq_triedChunks hobject,
      reachedRules_eq_triedChunks hobject]
    exact Iff.rfl

theorem resultStorageHarmless_iff_tried (result : Varlena) :
    ResultStorageHarmless result (some values) ↔
      values.isObject = false ∨ placeholders result.text ≠ [] ∨
        triedChunks (filledIn values result.dataAny) =
          triedChunks (filledIn values result.text) := by
  rw [resultStorageHarmless_iff]
  by_cases hrandom : placeholders result.text = []
  · rw [or_iff_right (not_not.mpr hrandom)]
    have hrandom' : placeholders (detoasted result).text = [] := hrandom
    cases hobject : values.isObject with
    | false =>
      refine iff_of_true (fun rand => ?_) (.inl rfl)
      rw [reachedResults, reachedResults, usedResults, usedResults,
        effectiveResult_of_placeholders_eq_nil hrandom,
        effectiveResult_of_placeholders_eq_nil hrandom', effectiveText_detoasted hobject]
    | true =>
      rw [or_iff_right (show ¬ true = false by decide)]
      simp only [reachedResults_eq_triedChunks hobject hrandom,
        reachedResults_eq_triedChunks hobject hrandom', forall_const]
      exact Iff.rfl
  · refine iff_of_true (fun rand => ?_) (.inr (.inl hrandom))
    rw [reachedResults, reachedResults, usedResults, usedResults,
      effectiveResult_detoasted hrandom]

end Tried

/-- When the form of an argument makes no difference. To `process_templates`: exactly if the bytes
that stand behind the header are the same template as the text, in the bytes that are kept and in
the variables. To the scalar form with an object of variables: exactly if the two, filled in, give a
rule in which each chunk comes first at the same place, or a result with the same chunks; a result
with random strings is put together from its text. -/
theorem storage_iff (template rule result : Varlena) (values : Jsonb) :
    (TemplateStorageHarmless template ↔
      templateWord template.dataAny = templateWord template.text) ∧
    (RuleStorageHarmless rule (some values) ↔ values.isObject = false ∨
      ∀ c, (triedChunks (filledIn values rule.dataAny)).idxOf? c =
        (triedChunks (filledIn values rule.text)).idxOf? c) ∧
    (ResultStorageHarmless result (some values) ↔
      values.isObject = false ∨ placeholders result.text ≠ [] ∨
        triedChunks (filledIn values result.dataAny) =
          triedChunks (filledIn values result.text)) :=
  ⟨templateStorageHarmless_iff template, ruleStorageHarmless_iff_tried rule,
    resultStorageHarmless_iff_tried result⟩

/-- Values with a plain or a short header are what their texts are. -/
theorem storage_of_dataAny {v : Varlena} (h : v.dataAny = v.text) (values : Jsonb) :
    TemplateStorageHarmless v ∧ RuleStorageHarmless v (some values) ∧
      ResultStorageHarmless v (some values) :=
  ⟨(templateStorageHarmless_iff v).mpr (congrArg templateWord h),
    (ruleStorageHarmless_iff_tried v).mpr (.inr fun c => by rw [h]),
    (resultStorageHarmless_iff_tried v).mpr (.inr (.inr (by rw [h])))⟩

/-! ## A text out of line -/

/-- Two thousand letters, stored out of line: the tag of the pointer, the two sizes, and the
beginning of the two numbers of the stored value. -/
def outOfLine : Varlena :=
  .external {
    raw := [18, 212, 7, 0, 0, 208, 7, 0, 0, 116, 64, 0, 0, 112, 64, 0]
    text := List.replicate 2000 120
    raw_ne_nil := by decide
    text_ne_nil := by decide }

/-- The bytes of the pointer are taken for the template. -/
theorem not_storage : ¬ ∀ template : Varlena, TemplateStorageHarmless template := by
  intro h
  have hsame := h outOfLine ⟨true, fun _ => none⟩ rfl
  simp only [processTemplates, if_true, Processed.text.injEq] at hsame
  have hraw : replacePlaceholders outOfLine ⟨true, fun _ => none⟩ = outOfLine.dataAny :=
    replacePlaceholders_of_memmem (by decide +kernel) _
  have htext : replacePlaceholders (detoasted outOfLine) ⟨true, fun _ => none⟩ =
      (detoasted outOfLine).dataAny := by
    apply replacePlaceholders_of_memmem
    rw [memmem_eq_none_iff]
    intro hinfix
    have hmem : (123 : UInt8) ∈ List.replicate 2000 120 := hinfix.subset List.mem_cons_self
    exact absurd (List.eq_of_mem_replicate hmem) (by decide)
  rw [hraw, htext] at hsame
  have hlen : outOfLine.dataAny.length = 2000 := by
    rw [hsame]
    exact List.length_replicate
  exact absurd hlen (by decide)

end YetiPgExt.Regexp
