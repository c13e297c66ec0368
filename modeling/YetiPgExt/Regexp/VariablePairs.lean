import YetiPgExt.Library.WordPieces
import YetiPgExt.Regexp.FirstMatch
import YetiPgExt.Regexp.Segmentation

/-!
# Variables in pairs

The variables are put in before the rule and the result are split, so a value can bring separators
with it, or close the gap between two halves of one. `variables_keep_pairs` says exactly when the
chunks of a text are the chunks of its template with the variables put in. They are if no value is
empty or has the byte of the separator in it; then a call applies the first matching pair of the
pairs that were written.
-/

set_option autoImplicit false

namespace YetiPgExt.Regexp

open YetiPgExt.Library YetiPgExt.Postgres

/-- A template, with its variables. -/
abbrev Word := List (UInt8 ⊕ Bytes)

/-- The chunks of a template, which are cut at the separators outside of its placeholders. -/
def templateChunks (t : Bytes) : List Word := wordPieces regexpSplitToken1 (templateWord t)

/-- The variables put in. -/
def expand (values : Jsonb) (chunk : Word) : Bytes := substitute (keyText values) chunk

/-- Every variable of a template has a text, without the byte of the separator. -/
def SafeVariables (values : Jsonb) (t : Bytes) : Prop :=
  Safe regexpSplitToken1 (keyText values) (templateWord t)

/-- The chunks without an empty one behind the last separator. -/
def usedTemplateChunks (cs : List Word) : List Word :=
  if 2 ≤ cs.length ∧ cs.getLast? = some [] then cs.dropLast else cs

/-- The template that the result is, once the random strings are put in. -/
def resultTemplate (rand : Nat → Nat) (result : Varlena) : Bytes :=
  let t := replace rand result.text
  if t.replaced then t.text else result.dataAny

section Pairs

variable {values : Jsonb} {rule result : Varlena} {rand : Nat → Nat}

theorem effectiveText_eq_expand (hobject : values.isObject = true) (v : Varlena) :
    effectiveText (some values) v = expand values (templateWord v.dataAny) := by
  rw [effectiveText_of_object hobject, replacePlaceholders_eq_substitute, expand]

theorem effectiveResult_of_object (hobject : values.isObject = true) :
    effectiveResult rand (some values) result =
      expand values (templateWord (resultTemplate rand result)) := by
  rw [effectiveResult, effectiveText_eq_expand hobject, resultTemplate]
  split
  · rfl
  · rfl

/-- The chunks of a text are those of its template exactly if no other separator has come up. -/
theorem chunks_expand_iff (t : Bytes) :
    chunks (expand values (templateWord t)) = (templateChunks t).map (expand values) ↔
      Undivided splitToken ((templateChunks t).map (expand values)) :=
  pieces_substitute_iff rfl (templateWord t)

theorem chunks_expand_of_safe {t : Bytes} (h : SafeVariables values t) :
    chunks (expand values (templateWord t)) = (templateChunks t).map (expand values) :=
  (chunks_expand_iff t).mpr (undivided_of_safe rfl h)

/-- A chunk becomes empty only if it was written so. -/
theorem usedChunks_map_expand {t : Bytes} (h : SafeVariables values t) :
    usedChunks ((templateChunks t).map (expand values)) =
      (usedTemplateChunks (templateChunks t)).map (expand values) := by
  have hlast : ((templateChunks t).map (expand values)).getLast? = some [] ↔
      (templateChunks t).getLast? = some [] := by
    rw [List.getLast?_map]
    rcases hlast : (templateChunks t).getLast? with _ | p
    · exact iff_of_false (Option.some_ne_none _).symm (Option.some_ne_none _).symm
    · have hmem : p ∈ wordPieces regexpSplitToken1 (templateWord t) := List.mem_of_getLast? hlast
      rw [Option.map_some, Option.some_inj, Option.some_inj]
      exact substitute_eq_nil_iff (h.of_mem_wordPieces hmem)
  rw [usedChunks, usedTemplateChunks, List.length_map]
  simp only [hlast]
  split
  · rw [List.map_dropLast]
  · rfl

theorem usedChunks_of_safe {t : Bytes} (h : SafeVariables values t) :
    usedChunks (chunks (expand values (templateWord t))) =
      (usedTemplateChunks (templateChunks t)).map (expand values) := by
  rw [chunks_expand_of_safe h, usedChunks_map_expand h]

end Pairs

/-- The chunks of the rule, and of any text, are those of its template exactly if no separator has
come up in one of them, or at the end of one that is not the last; with safe variables a call
applies the first matching pair of the templates. -/
theorem variables_keep_pairs (E : RegexEngine) (rand : Nat → Nat) (input : Varlena)
    (keepEmpty : Option Bool) {rule result : Varlena} {values : Jsonb}
    (hobject : values.isObject = true) :
    (chunks (effectiveText (some values) rule) =
        (templateChunks rule.dataAny).map (expand values) ↔
      Undivided splitToken ((templateChunks rule.dataAny).map (expand values))) ∧
    (rule.dataAny.length ≠ 0 → SafeVariables values rule.dataAny →
      SafeVariables values (resultTemplate rand result) →
      scalarOutput E rand input keepEmpty rule result (some values) =
        some (applyFirst E (keepEmpty.getD false) input.text
          ((((usedTemplateChunks (templateChunks rule.dataAny)).zip
            (usedTemplateChunks (templateChunks (resultTemplate rand result)))).take
              (regexpSplitMaxTokens - 1)).map (Prod.map (expand values) (expand values))))) := by
  constructor
  · rw [effectiveText_eq_expand hobject]
    exact chunks_expand_iff rule.dataAny
  · intro hrule hsafeRule hsafeResult
    rw [scalarOutput_eq_applyFirst E rand input keepEmpty hrule, usedRules, usedResults,
      effectiveText_eq_expand hobject, effectiveResult_of_object hobject,
      usedChunks_of_safe hsafeRule, usedChunks_of_safe hsafeResult, List.zip_map, List.map_take]

/-- Every variable is the letter `b`. -/
def letterB : Jsonb where
  isObject := true
  lookup _ := some (.string (ascii "b"))

theorem safeVariables_letterB (t : Bytes) : SafeVariables letterB t := by
  rintro key -
  show ascii "b" ≠ [] ∧ regexpSplitToken1 ∉ ascii "b"
  decide

/-- The second of two pairs, whose rule is a variable. -/
theorem variables_keep_pairs_letterB :
    (chunks (effectiveText (some letterB) (.plain (ascii "a||{{vars.k}}"))) =
        (templateChunks (ascii "a||{{vars.k}}")).map (expand letterB) ↔
      Undivided splitToken ((templateChunks (ascii "a||{{vars.k}}")).map (expand letterB))) ∧
    scalarOutput literalEngine (fun _ => 0) (.plain (ascii "b")) none
      (.plain (ascii "a||{{vars.k}}")) (.plain (ascii "x||y")) (some letterB) =
        some (ascii "y") := by
  have h := @variables_keep_pairs literalEngine (fun _ => 0) (.plain (ascii "b")) none
    (.plain (ascii "a||{{vars.k}}")) (.plain (ascii "x||y")) letterB rfl
  refine ⟨h.1, (h.2 (by decide) (safeVariables_letterB _) (safeVariables_letterB _)).trans ?_⟩
  decide +kernel

end YetiPgExt.Regexp
