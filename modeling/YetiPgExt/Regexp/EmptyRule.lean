import YetiPgExt.Library.Substitution
import YetiPgExt.Regexp.ReplaceRandOption

/-!
# Rules that are empty

A rule that is empty as it is passed returns the input. A rule that is empty only once the variables
are put in is a pattern that matches every text at its start, so that the result is put in front of
the input (`OptionEngine.EmptyReplaced`). `emptyRule_iff` says for the three forms when that makes
no difference.
-/

set_option autoImplicit false

namespace YetiPgExt.Regexp

open YetiPgExt.Library YetiPgExt.Postgres

/-- What is assumed of PostgreSQL: the empty pattern matches every text at its start, and with some
options also behind it, and the replacement with its references expanded is inserted there. -/
structure OptionEngine.EmptyReplaced (E : OptionEngine) (expand : Bytes → Bytes) : Prop extends
    E.toRegexEngine.EmptyMatches where
  textregexreplaceNoopt_nil : ∀ data replacement,
    E.textregexreplaceNoopt data [] replacement = some (expand replacement ++ data)
  textregexreplace_nil : ∀ data replacement opt out,
    E.textregexreplace data [] replacement opt = some out → Inserts (expand replacement) data out

/-- The fallback for an empty result hides no insertion. -/
theorem orInput_eq_iff {x input ret : Bytes} (keepEmpty : Bool) (h : Inserts x input ret) :
    orInput keepEmpty input (some ret) = input ↔ x = [] := by
  rw [orInput]
  split
  · rename_i hempty
    exact iff_of_true rfl (h.eq_nil_of_length_le (by omega))
  · exact h.eq_iff

section EmptyRule

variable (E : OptionEngine) (rand : Nat → Nat) {rule : Varlena} (result : Varlena)
  (keepEmpty : Option Bool) (vars : Option Jsonb) {expand : Bytes → Bytes}

/-- The chunk of the result that goes with an empty rule. -/
def firstResult : Bytes := (chunks (effectiveResult rand vars result)).headD []

theorem length_dataAny_eq_zero_iff : rule.dataAny.length = 0 ↔ rule.text = [] := by
  rw [List.length_eq_zero_iff, Varlena.dataAny_eq_nil_iff]

/-- The form for arrays, for an array that is not `NULL`. -/
def arrayOutput (elements : List (Option Varlena)) (rule : Varlena) :
    Option (List (Option Bytes)) :=
  (regexpReplaceRandArrayNoopt E.toRegexEngine rand
    ⟨some elements, some rule, some result, keepEmpty, vars⟩).1

/-- The only pair of an empty rule, in both forms that look for chunks. -/
theorem pairs_emptyRule (m : Nat) (s : Bytes) :
    scalarPairs m (chunks []) (chunks s) = [([], (chunks s).headD [])] ∧
      arrayPairs m (chunks []) (chunks s) = [([], (chunks s).headD [])] := by
  obtain ⟨c, cs, hs⟩ := List.exists_cons_of_ne_nil (chunks_ne_nil s)
  rw [chunks_eq_nil_iff.mpr rfl, hs]
  exact ⟨scalarPairs_of_tail (Or.inl rfl), arrayPairs_of_tail (Or.inl rfl)⟩

variable {E vars}

/-- The pair is applied, and leaves the input as it is exactly if it inserts nothing. -/
theorem applyFirst_emptyRule_iff (hE : E.EmptyReplaced expand) (keep : Bool) (input s : Bytes) :
    applyFirst E.toRegexEngine keep input [([], s)] = input ↔ expand s = [] := by
  have hfires : Fires E.toRegexEngine input [] := ⟨hE.regcomp_nil, hE.regexec_nil input⟩
  rw [applyFirst_cons_of_fires hfires, replacement_eq_orInput, hE.textregexreplaceNoopt_nil]
  exact orInput_eq_iff keep (inserts_singleton _ _)

theorem scalarOutput_emptyRule_iff (hE : E.EmptyReplaced expand)
    (hrule : effectiveText vars rule = []) (input : Varlena) :
    scalarOutput E.toRegexEngine rand input keepEmpty rule result vars = some input.text ↔
      rule.text = [] ∨ expand (firstResult rand result vars) = [] := by
  by_cases hempty : rule.dataAny.length = 0
  · refine iff_of_true ?_ (Or.inl (length_dataAny_eq_zero_iff.mp hempty))
    exact scalarOutput_of_empty E.toRegexEngine rand input result keepEmpty vars hempty
  · rw [scalarOutput, regexpReplaceRandNoopt_eq E.toRegexEngine rand keepEmpty vars hempty, hrule,
      (pairs_emptyRule _ _).1, Option.some.injEq, applyFirst_emptyRule_iff hE, firstResult]
    exact (or_iff_right (fun h => hempty (length_dataAny_eq_zero_iff.mpr h))).symm

theorem optionOutput_emptyRule_iff (hE : E.EmptyReplaced expand)
    (hrule : effectiveText vars rule = []) (input opt : Varlena) :
    optionOutput E rand opt input keepEmpty vars rule result = some input.text ↔
      rule.text = [] ∨
        E.textregexreplace input.text [] (effectiveResult rand vars result) opt.text = none ∨
        expand (effectiveResult rand vars result) = [] := by
  by_cases hempty : rule.dataAny.length = 0
  · refine iff_of_true ?_ (Or.inl (length_dataAny_eq_zero_iff.mp hempty))
    exact optionOutput_of_empty E rand opt input keepEmpty vars hempty
  · rw [optionOutput_eq E rand opt input keepEmpty vars hempty, hrule, Option.some.injEq,
      or_iff_right (fun h => hempty (length_dataAny_eq_zero_iff.mpr h))]
    cases hcall : E.textregexreplace input.text [] (effectiveResult rand vars result) opt.text with
    | none => exact iff_of_true rfl (Or.inl rfl)
    | some out =>
      rw [orInput_eq_iff _ (hE.textregexreplace_nil _ _ _ _ hcall)]
      exact (or_iff_right (Option.some_ne_none out)).symm

theorem arrayOutput_emptyRule_iff (hE : E.EmptyReplaced expand)
    (hrule : effectiveText vars rule = []) (elements : List (Option Varlena)) :
    arrayOutput E rand result keepEmpty vars elements rule = some (getInCopyArray elements) ↔
      rule.text = [] ∨ (∀ v, some v ∉ elements) ∨ expand (firstResult rand result vars) = [] := by
  by_cases hempty : rule.dataAny.length = 0
  · refine iff_of_true ?_ (Or.inl (length_dataAny_eq_zero_iff.mp hempty))
    rw [arrayOutput, regexpReplaceRandArrayNoopt]
    simp only
    rw [if_pos hempty]
  · rw [arrayOutput, regexpReplaceRandArrayNoopt_eq E.toRegexEngine rand keepEmpty vars hempty,
      hrule, (pairs_emptyRule _ _).2, Option.some.injEq, getInCopyArray, List.map_inj_left,
      or_iff_right (fun h => hempty (length_dataAny_eq_zero_iff.mpr h)), firstResult]
    constructor
    · intro h
      by_cases hnull : ∀ v, some v ∉ elements
      · exact Or.inl hnull
      · -- one element shows what is inserted
        push Not at hnull
        obtain ⟨v, hv⟩ := hnull
        have hsame := h (some v) hv
        rw [Option.map_some, Option.map_some, Option.some.injEq,
          applyFirst_emptyRule_iff hE] at hsame
        exact Or.inr hsame
    · rintro (hnull | hexpand) element helement
      · cases element with
        | none => rfl
        | some v => exact absurd helement (hnull v)
      · cases element with
        | none => rfl
        | some v =>
          rw [Option.map_some, Option.map_some, Option.some.injEq, applyFirst_emptyRule_iff hE]
          exact hexpand

/-- A rule whose effective text is empty returns the input, in each of the forms, exactly if the
rule is empty itself or the replacement expands to nothing; or there is nothing to replace in: the
call with options raises an error, or the array has no element that is not `NULL`. -/
theorem emptyRule_iff (hE : E.EmptyReplaced expand) (hrule : effectiveText vars rule = []) :
    (∀ input, scalarOutput E.toRegexEngine rand input keepEmpty rule result vars =
        some input.text ↔
      rule.text = [] ∨ expand (firstResult rand result vars) = []) ∧
    (∀ input opt, optionOutput E rand opt input keepEmpty vars rule result = some input.text ↔
      rule.text = [] ∨
        E.textregexreplace input.text [] (effectiveResult rand vars result) opt.text = none ∨
        expand (effectiveResult rand vars result) = []) ∧
    (∀ elements, arrayOutput E rand result keepEmpty vars elements rule =
        some (getInCopyArray elements) ↔
      rule.text = [] ∨ (∀ v, some v ∉ elements) ∨ expand (firstResult rand result vars) = []) :=
  ⟨scalarOutput_emptyRule_iff rand result keepEmpty hE hrule,
    optionOutput_emptyRule_iff rand result keepEmpty hE hrule,
    arrayOutput_emptyRule_iff rand result keepEmpty hE hrule⟩

end EmptyRule

/-! ## A rule of one variable -/

/-- An object without keys. -/
def noVariables : Jsonb := ⟨true, fun _ => none⟩

/-- The engine expands no references. -/
theorem emptyReplaced_literalOptionEngine : literalOptionEngine.EmptyReplaced id := by
  have hnoopt : ∀ data s, literalEngine.textregexreplaceNoopt data [] s = some (s ++ data) := by
    intro data s
    cases data with
    | nil => simp [literalEngine, memmem]
    | cons c data => simp [literalEngine, memmem]
  refine ⟨emptyMatches_literalEngine, hnoopt, ?_⟩
  intro data s opt out hout
  simp only [literalOptionEngine] at hout
  split at hout
  · rw [hnoopt, Option.some.injEq] at hout
    rw [← hout]
    exact inserts_singleton s data
  · cases hout

theorem emptyRule_iff_variable :
    scalarOutput literalOptionEngine.toRegexEngine (fun _ => 0) (.plain (ascii "b")) none
      (.plain (ascii "\x7b\x7bvars.a\x7d\x7d")) (.plain []) (some noVariables) =
        some (ascii "b") := by
  have hrule : effectiveText (some noVariables) (.plain (ascii "\x7b\x7bvars.a\x7d\x7d")) = [] := by
    decide +kernel
  apply ((emptyRule_iff (fun _ => 0) (.plain []) none emptyReplaced_literalOptionEngine hrule).1
    (.plain (ascii "b"))).mpr
  apply Or.inr
  have hresult : effectiveResult (fun _ => 0) (some noVariables) (.plain []) = [] := by
    decide +kernel
  rw [firstResult, hresult, chunks_eq_nil_iff.mpr rfl]
  rfl

/-- A rule of one variable without a value: the result is put in front of the input. -/
theorem not_emptyRule_returns_input :
    literalOptionEngine.EmptyReplaced id ∧
      ¬ ∀ (rand : Nat → Nat) (input rule result : Varlena) (keepEmpty : Option Bool)
        (vars : Option Jsonb), effectiveText vars rule = [] →
        scalarOutput literalOptionEngine.toRegexEngine rand input keepEmpty rule result vars =
          some input.text := by
  refine ⟨emptyReplaced_literalOptionEngine, ?_⟩
  intro h
  have hinput := h (fun _ => 0) (.plain (ascii "b")) (.plain (ascii "\x7b\x7bvars.a\x7d\x7d"))
    (.plain (ascii "x")) none (some noVariables) (by decide +kernel)
  revert hinput
  decide +kernel

end YetiPgExt.Regexp
