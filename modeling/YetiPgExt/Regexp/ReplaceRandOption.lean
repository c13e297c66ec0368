import YetiPgExt.Regexp.FirstMatch

/-!
# `regexp_replace_rand`

The form with options: PostgreSQL's `textregexreplace` is called once, on the whole rule and the
whole result, whether or not the rule matches. `forms_agree` compares it, for empty options, with
the form without options where there is a single pair.
-/

set_option autoImplicit false

namespace YetiPgExt.Regexp

open YetiPgExt.Library YetiPgExt.Postgres

/-- The engine with the function that takes options. A call that raises an error has no result. -/
structure OptionEngine extends RegexEngine where
  textregexreplace : (data pattern replacement opt : Bytes) → Option Bytes

/-- What is returned for the result of the engine: the input where it raised an error, and where
the result is empty and may not be. -/
def orInput (keepEmpty : Bool) (input : Bytes) : Option Bytes → Bytes
  | some ret => if keepEmpty = false ∧ ret.length = 0 then input else ret
  | none => input

/-- `regexp_replace_rand`: what it returns (`none` is `NULL`), and the slots it leaves. The options
are read only. -/
def regexpReplaceRand (E : OptionEngine) (rand : Nat → Nat) (argOpt : Option Varlena)
    (fc : FcInfo Varlena) : Option Bytes × FcInfo Varlena :=
  match fc.argIn, fc.argRule, argOpt, fc.argResult with
  | none, _, _, _ => (none, fc)
  | some _, none, _, _ => (some (getInCopy fc), fc)
  | some _, some _, none, _ => (none, fc)
  | some _, some _, some _, none => (some (getInCopy fc), fc)
  | some _, some rule, some opt, some result =>
    if rule.dataAny.length = 0 then (some (getInCopy fc), fc)
    else
      let (saved, fc) := prepareArgs rand rule result fc
      let ret := orInput fc.keepsEmpty (getInCopy fc)
        (E.textregexreplace (slotText fc.argIn) fc.ruleText fc.resultText opt.text)
      (some ret, restoreArgs saved fc)

section

variable (E : OptionEngine) (rand : Nat → Nat) (opt input : Varlena) {rule result : Varlena}
  (keepEmpty : Option Bool) (vars : Option Jsonb)

/-- What the form with options returns for arguments that are not `NULL`. -/
def optionOutput (rule result : Varlena) : Option Bytes :=
  (regexpReplaceRand E rand (some opt)
    ⟨some input, some rule, some result, keepEmpty, vars⟩).1

theorem optionOutput_of_empty (h : rule.dataAny.length = 0) :
    optionOutput E rand opt input keepEmpty vars rule result = some input.text := by
  simp only [optionOutput, regexpReplaceRand]
  rw [if_pos h]
  rfl

/-- The engine is called on the texts with random strings and variables put in. -/
theorem optionOutput_eq (h : rule.dataAny.length ≠ 0) :
    optionOutput E rand opt input keepEmpty vars rule result =
      some (orInput (keepEmpty.getD false) input.text
        (E.textregexreplace input.text (effectiveText vars rule)
          (effectiveResult rand vars result) opt.text)) := by
  have htexts := prepareArgs_texts ⟨some input, some rule, some result, keepEmpty, vars⟩ rand
    rfl rfl
  have hprepare := sameInputs_prepareArgs rule result
    (⟨some input, some rule, some result, keepEmpty, vars⟩ : FcInfo Varlena) rand
  simp only [optionOutput, regexpReplaceRand]
  rw [if_neg h]
  simp only [FcInfo.keepsEmpty, hprepare.keepEmpty, hprepare.getInCopy_eq, hprepare.argIn, htexts.1,
    htexts.2]
  rfl

end

/-! ## Agreement on a single pair -/

/-- What is assumed of PostgreSQL: without flags the two functions are the same, a text that is not
matched is returned, and a pattern that does not compile raises an error. -/
structure OptionEngine.Documented (E : OptionEngine) : Prop where
  textregexreplace_nil : ∀ data pattern replacement,
    E.textregexreplace data pattern replacement [] =
      E.textregexreplaceNoopt data pattern replacement
  noopt_of_not_matched : ∀ data pattern replacement, E.regcomp pattern = true →
    E.regexec pattern data = false →
    E.textregexreplaceNoopt data pattern replacement = some data
  noopt_of_not_compiled : ∀ data pattern replacement, E.regcomp pattern = false →
    E.textregexreplaceNoopt data pattern replacement = none

theorem replacement_eq_orInput (E : RegexEngine) (keepEmpty : Bool) (input rule result : Bytes) :
    replacement E keepEmpty input rule result =
      orInput keepEmpty input (E.textregexreplaceNoopt input rule result) := by
  rw [replacement]
  cases E.textregexreplaceNoopt input rule result with
  | none => rfl
  | some ret =>
    simp only [orInput, List.length_eq_zero_iff]

/-- Whether the pattern is compiled and matched first makes no difference. -/
theorem applyFirst_singleton {E : OptionEngine} (hE : E.Documented) (keepEmpty : Bool)
    (input rule result : Bytes) :
    applyFirst E.toRegexEngine keepEmpty input [(rule, result)] =
      orInput keepEmpty input (E.textregexreplace input rule result []) := by
  rw [hE.textregexreplace_nil]
  by_cases hfires : Fires E.toRegexEngine input rule
  · rw [applyFirst_cons_of_fires hfires, replacement_eq_orInput]
  · rw [applyFirst_cons_of_not_fires hfires, applyFirst]
    cases hcomp : E.regcomp rule with
    | false =>
      -- the error of the engine stands for the pattern that does not compile
      rw [hE.noopt_of_not_compiled input rule result hcomp]
      rfl
    | true =>
      have hexec : E.regexec rule input = false := by
        rw [Bool.eq_false_iff]
        intro hexec
        exact hfires ⟨hcomp, hexec⟩
      rw [hE.noopt_of_not_matched input rule result hcomp hexec, orInput]
      split
      · rfl
      · rfl

theorem chunks_of_not_infix {s : Bytes} (h : ¬ splitToken.bytes <:+: s) : chunks s = [s] :=
  chunks_of_none (searchSplitToken_eq_none_iff.mpr h)

/-- With empty options, the form with options and the one without return the same for a rule and a
result that are a single pair. -/
theorem forms_agree {E : OptionEngine} (hE : E.Documented) (rand rand' : Nat → Nat)
    (input rule result opt : Varlena) (keepEmpty : Option Bool) (vars : Option Jsonb)
    (hopt : opt.text = []) (hplain : placeholders result.text = [])
    (hrule : ¬ splitToken.bytes <:+: effectiveText vars rule)
    (hresult : ¬ splitToken.bytes <:+: effectiveText vars result) :
    optionOutput E rand opt input keepEmpty vars rule result =
      scalarOutput E.toRegexEngine rand' input keepEmpty rule result vars := by
  by_cases hempty : rule.dataAny.length = 0
  · rw [optionOutput_of_empty E rand opt input keepEmpty vars hempty,
      scalarOutput_of_empty E.toRegexEngine rand' input result keepEmpty vars hempty]
  · rw [optionOutput_eq E rand opt input keepEmpty vars hempty, scalarOutput,
      regexpReplaceRandNoopt_eq E.toRegexEngine rand' keepEmpty vars hempty,
      effectiveResult_of_placeholders_eq_nil hplain, effectiveResult_of_placeholders_eq_nil hplain,
      chunks_of_not_infix hrule, chunks_of_not_infix hresult,
      scalarPairs_of_tail (Or.inl rfl), applyFirst_singleton hE, hopt]

/-- The engine on literal patterns, with the options that it knows: none. -/
def literalOptionEngine : OptionEngine where
  toRegexEngine := literalEngine
  textregexreplace data pattern replacement opt :=
    if opt = [] then literalEngine.textregexreplaceNoopt data pattern replacement else none

theorem documented_literalOptionEngine : literalOptionEngine.Documented := by
  refine ⟨?_, ?_, ?_⟩
  · intro data pattern replacement
    simp [literalOptionEngine]
  · intro data pattern replacement _ hexec
    have hnone : memmem pattern data = none := by
      rw [← Option.isNone_iff_eq_none, ← Option.isSome_eq_false_iff]
      exact hexec
    show literalEngine.textregexreplaceNoopt data pattern replacement = some data
    simp only [literalEngine, hnone]
  · intro data pattern replacement hcomp
    cases hcomp

theorem forms_agree_single :
    optionOutput literalOptionEngine (fun _ => 0) (.plain []) (.plain (ascii "abc")) (some false)
        none (.short (ascii "b")) (.plain []) =
      scalarOutput literalOptionEngine.toRegexEngine (fun k => k) (.plain (ascii "abc"))
        (some false) (.short (ascii "b")) (.plain []) none := by
  apply forms_agree documented_literalOptionEngine
  · rfl
  · decide +kernel
  · rw [← searchSplitToken_eq_none_iff]
    decide +kernel
  · rw [← searchSplitToken_eq_none_iff]
    decide +kernel

end YetiPgExt.Regexp
