import YetiPgExt.Regexp.ArrayAgreement

/-!
# The first pair that matches

In terms of the chunks of the rule and the result, an empty chunk behind the last separator does not
count (`usedChunks`). As long as one of the two lists has at most nine chunks, the scalar form
replaces the input by the first pair whose rule matches it (`regexpReplaceRandNoopt_firstMatch`).
A tenth pair is not tried (`tenthPairHonoured_iff`).
-/

set_option autoImplicit false

namespace YetiPgExt.Regexp

open YetiPgExt.Library YetiPgExt.Postgres

/-! ## The chunks that count -/

/-- The chunks without an empty one behind the last separator. -/
def usedChunks (cs : List Bytes) : List Bytes :=
  if 2 ≤ cs.length ∧ cs.getLast? = some [] then cs.dropLast else cs

@[simp] theorem usedChunks_singleton (c : Bytes) : usedChunks [c] = [c] := rfl

theorem usedChunks_cons (c : Bytes) {cs : List Bytes} (h : cs ≠ []) :
    usedChunks (c :: cs) = if cs = [[]] then [c] else c :: usedChunks cs := by
  obtain ⟨d, ds, rfl⟩ := List.exists_cons_of_ne_nil h
  cases ds with
  | nil =>
    -- the last chunk is `d`
    rw [usedChunks, usedChunks_singleton]
    by_cases hd : d = []
    · subst hd
      simp
    · simp [hd]
  | cons e ds =>
    have hne : d :: e :: ds ≠ [[]] := by simp
    rw [if_neg hne, usedChunks, usedChunks, List.getLast?_cons_cons]
    simp only [List.length_cons]
    by_cases hlast : (d :: e :: ds).getLast? = some []
    · rw [if_pos ⟨by omega, hlast⟩, if_pos ⟨by omega, hlast⟩, List.dropLast_cons_of_ne_nil h]
    · rw [if_neg (fun hand => hlast hand.2), if_neg (fun hand => hlast hand.2)]

theorem getElem?_of_usedChunks {cs : List Bytes} {j : Nat} {c : Bytes}
    (h : (usedChunks cs)[j]? = some c) : cs[j]? = some c := by
  rw [usedChunks] at h
  split at h
  · obtain ⟨hi, hget⟩ := List.getElem?_eq_some_iff.mp h
    rw [List.getElem_dropLast] at hget
    exact List.getElem?_eq_some_iff.mpr ⟨_, hget⟩
  · exact h

theorem exists_usedChunks_cons (c : Bytes) (cs : List Bytes) :
    ∃ ds, usedChunks (c :: cs) = c :: ds := by
  by_cases hcs : cs = []
  · exact ⟨[], by rw [hcs, usedChunks_singleton]⟩
  · rw [usedChunks_cons c hcs]
    split
    · exact ⟨_, rfl⟩
    · exact ⟨_, rfl⟩

/-- Up to the limit, the pairs are those of the chunks that count. -/
theorem scalarPairs_eq_take_zip {m : Nat} {rules results : List Bytes} (hm : 0 < m)
    (hrules : rules ≠ []) (hresults : results ≠ []) :
    scalarPairs m rules results = ((usedChunks rules).zip (usedChunks results)).take m := by
  -- on the pairs that the limit admits; a list without a second chunk ends the search
  induction m generalizing rules results with
  | zero => exact absurd hm (Nat.lt_irrefl 0)
  | succ m ih =>
    obtain ⟨r, rules, rfl⟩ := List.exists_cons_of_ne_nil hrules
    obtain ⟨s, results, rfl⟩ := List.exists_cons_of_ne_nil hresults
    by_cases htail : rules = [] ∨ results = []
    · rw [scalarPairs_of_tail htail]
      obtain ⟨rs, hrs⟩ := exists_usedChunks_cons r rules
      obtain ⟨ss, hss⟩ := exists_usedChunks_cons s results
      rcases htail with rfl | rfl
      · rw [usedChunks_singleton, hss, List.zip_cons_cons, List.zip_nil_left, List.take_succ_cons,
          List.take_nil]
      · rw [usedChunks_singleton, hrs, List.zip_cons_cons, List.zip_nil_right, List.take_succ_cons,
          List.take_nil]
    · rw [not_or] at htail
      rw [scalarPairs_cons htail.1 htail.2, usedChunks_cons r htail.1, usedChunks_cons s htail.2]
      by_cases hrule : rules = [[]]
      · rw [if_pos (.inr (.inl hrule)), if_pos hrule]
        split
        · rw [List.zip_cons_cons, List.zip_nil_left, List.take_succ_cons, List.take_nil]
        · rw [List.zip_cons_cons, List.zip_nil_left, List.take_succ_cons, List.take_nil]
      · by_cases hresult : results = [[]]
        · rw [if_pos (.inr (.inr hresult)), if_neg hrule, if_pos hresult, List.zip_cons_cons,
            List.zip_nil_right, List.take_succ_cons, List.take_nil]
        · rw [if_neg hrule, if_neg hresult, List.zip_cons_cons, List.take_succ_cons]
          rcases Nat.eq_zero_or_pos m with rfl | hpos
          · rw [if_pos (.inl rfl), List.take_zero]
          · have hmore : ¬ (m = 0 ∨ rules = [[]] ∨ results = [[]]) := by
              rintro (h | h | h)
              · exact Nat.ne_of_gt hpos h
              · exact hrule h
              · exact hresult h
            rw [if_neg hmore, ih hpos htail.1 htail.2]

/-! ## Chunks without a separator -/

theorem chunks_append {c : Bytes} (h : regexpSplitToken1 ∉ c) (s : Bytes) :
    chunks (c ++ splitToken.bytes ++ s) = c :: chunks s := by
  have hat : (c ++ splitToken.bytes ++ s).drop c.length = splitToken.bytes ++ s := by
    rw [List.append_assoc, List.drop_left]
  have hchr : memchr regexpSplitToken1 (c ++ splitToken.bytes ++ s) = some c.length := by
    rw [memchr_eq_some_iff]
    constructor
    · rw [List.append_assoc, List.getElem?_append_right (Nat.le_refl _), Nat.sub_self]
      rfl
    · intro j hj hget
      rw [List.append_assoc, List.getElem?_append_left hj] at hget
      exact h (List.mem_of_getElem? hget)
  have hfind : searchSplitToken (c ++ splitToken.bytes ++ s) = some c.length := by
    rw [searchSplitToken_eq_memmem, memmem_of_memchr hchr, hat]
    cases hs : splitToken.bytes ++ s with
    | nil => cases hs
    | cons b rest =>
      rw [memmem, if_pos ⟨s, hs⟩]
      simp
  rw [chunks_of_some hfind, List.append_assoc, List.take_left, ← List.drop_drop, List.drop_left]
  rfl

/-- Chunks without a `|` in them are found again. -/
theorem chunks_intercalate {cs : List Bytes} (hne : cs ≠ [])
    (h : ∀ c ∈ cs, regexpSplitToken1 ∉ c) : chunks (splitToken.bytes.intercalate cs) = cs := by
  induction cs with
  | nil => exact absurd rfl hne
  | cons c cs ih =>
    have hc : regexpSplitToken1 ∉ c := h c List.mem_cons_self
    by_cases hcs : cs = []
    · subst hcs
      rw [List.intercalate_singleton]
      apply chunks_of_none
      rw [searchSplitToken_eq_memmem]
      apply memmem_of_memchr_eq_none
      exact memchr_eq_none_iff.mpr hc
    · rw [List.intercalate_cons_of_ne_nil hcs, chunks_append hc, ih hcs]
      intro d hd
      exact h d (List.mem_cons_of_mem _ hd)

/-! ## The first pair that fires -/

section FirstMatch

variable {E : RegexEngine} {keepEmpty : Bool} {input : Bytes} {pairs : List (Bytes × Bytes)}

/-- The search is `List.find?` of a pair that fires. -/
theorem applyFirst_eq_find (pairs : List (Bytes × Bytes)) :
    applyFirst E keepEmpty input pairs =
      (pairs.find? (fun pair => decide (Fires E input pair.1))).elim input
        (fun pair => replacement E keepEmpty input pair.1 pair.2) := by
  induction pairs with
  | nil => rfl
  | cons head pairs ih =>
    obtain ⟨rule, result⟩ := head
    by_cases hfires : Fires E input rule
    · rw [applyFirst_cons_of_fires hfires, List.find?_cons_of_pos (by simpa using hfires)]
      rfl
    · rw [applyFirst_cons_of_not_fires hfires, ih,
        List.find?_cons_of_neg (by simpa using hfires)]

theorem applyFirst_of_first {i : Nat} {rule result : Bytes} (hget : pairs[i]? = some (rule, result))
    (hfires : Fires E input rule)
    (hfirst : ∀ (j : Nat) pair, j < i → pairs[j]? = some pair → ¬ Fires E input pair.1) :
    applyFirst E keepEmpty input pairs = replacement E keepEmpty input rule result := by
  obtain ⟨hi, hpair⟩ := List.getElem?_eq_some_iff.mp hget
  have hfind : pairs.find? (fun pair => decide (Fires E input pair.1)) = some (rule, result) := by
    rw [List.find?_eq_some_iff_getElem]
    refine ⟨decide_eq_true hfires, i, hi, hpair, ?_⟩
    intro j hj
    have hlt := Nat.lt_trans hj hi
    simpa using hfirst j pairs[j] hj (List.getElem?_eq_getElem hlt)
  rw [applyFirst_eq_find, hfind]
  rfl

theorem applyFirst_of_none (h : ∀ pair ∈ pairs, ¬ Fires E input pair.1) :
    applyFirst E keepEmpty input pairs = input := by
  have hfind : pairs.find? (fun pair => decide (Fires E input pair.1)) = none := by
    rw [List.find?_eq_none]
    intro pair hpair
    simpa using h pair hpair
  rw [applyFirst_eq_find, hfind]
  rfl

end FirstMatch

/-! ## The scalar form -/

section Scalar

variable (E : RegexEngine) (rand : Nat → Nat) (input : Varlena) {rule result : Varlena}
  (keepEmpty : Option Bool) {vars : Option Jsonb}

/-- What the scalar form returns in a call whose slots nothing was written to. -/
def scalarOutput (rule result : Varlena) (vars : Option Jsonb) : Option Bytes :=
  (regexpReplaceRandNoopt E rand ⟨some input, some rule, some result, keepEmpty, vars⟩).1

variable (result vars) in
theorem scalarOutput_of_empty (h : rule.dataAny.length = 0) :
    scalarOutput E rand input keepEmpty rule result vars = some input.text := by
  rw [scalarOutput, regexpReplaceRandNoopt]
  simp only
  rw [if_pos h]
  rfl

/-- `R1`, …, `Rp'` -/
def usedRules (vars : Option Jsonb) (rule : Varlena) : List Bytes :=
  usedChunks (chunks (effectiveText vars rule))

/-- `S1`, …, `Sq'` -/
def usedResults (rand : Nat → Nat) (vars : Option Jsonb) (result : Varlena) : List Bytes :=
  usedChunks (chunks (effectiveResult rand vars result))

theorem dataAny_length_ne_zero (hrule : effectiveText vars rule ≠ []) :
    rule.dataAny.length ≠ 0 := by
  intro hlen
  exact hrule (effectiveText_of_length_eq_zero hlen vars)

/-- The scalar form tries the pairs of the chunks that count, up to the limit. -/
theorem scalarOutput_eq_applyFirst (hrule : rule.dataAny.length ≠ 0) :
    scalarOutput E rand input keepEmpty rule result vars =
      some (applyFirst E (keepEmpty.getD false) input.text
        (((usedRules vars rule).zip (usedResults rand vars result)).take
          (regexpSplitMaxTokens - 1))) := by
  rw [scalarOutput, regexpReplaceRandNoopt_eq E rand keepEmpty vars hrule,
    scalarPairs_eq_take_zip (by decide) (chunks_ne_nil _) (chunks_ne_nil _)]
  rfl

/-- The input is replaced by the first pair of chunks whose rule compiles and matches it, and it is
returned as it is if there is none. -/
theorem regexpReplaceRandNoopt_firstMatch (hrule : effectiveText vars rule ≠ [])
    (hlimit : (usedRules vars rule).length ≤ 9 ∨ (usedResults rand vars result).length ≤ 9) :
    (∀ (i : Nat) r s, (usedRules vars rule)[i]? = some r →
      (usedResults rand vars result)[i]? = some s → Fires E input.text r →
      (∀ (j : Nat) r', j < i → (usedRules vars rule)[j]? = some r' → ¬ Fires E input.text r') →
      scalarOutput E rand input keepEmpty rule result vars =
        some (replacement E (keepEmpty.getD false) input.text r s)) ∧
    ((∀ (i : Nat) r s, (usedRules vars rule)[i]? = some r →
      (usedResults rand vars result)[i]? = some s → ¬ Fires E input.text r) →
      scalarOutput E rand input keepEmpty rule result vars = some input.text) := by
  have hout : scalarOutput E rand input keepEmpty rule result vars =
      some (applyFirst E (keepEmpty.getD false) input.text
        ((usedRules vars rule).zip (usedResults rand vars result))) := by
    have htake : ((usedRules vars rule).zip (usedResults rand vars result)).length ≤
        regexpSplitMaxTokens - 1 := by
      rw [List.length_zip]
      exact min_le_iff.mpr hlimit
    rw [scalarOutput_eq_applyFirst E rand input keepEmpty (dataAny_length_ne_zero hrule),
      List.take_of_length_le htake]
  constructor
  · intro i r s hr hs hfires hfirst
    rw [hout]
    apply congrArg some
    apply applyFirst_of_first (i := i)
    · rw [List.getElem?_zip_eq_some]
      exact ⟨hr, hs⟩
    · exact hfires
    · intro j pair hj hpair
      rw [List.getElem?_zip_eq_some] at hpair
      exact hfirst j pair.1 hj hpair.1
  · intro hnone
    rw [hout]
    apply congrArg some
    apply applyFirst_of_none
    intro pair hpair
    obtain ⟨i, hi⟩ := List.getElem?_of_mem hpair
    rw [List.getElem?_zip_eq_some] at hi
    exact hnone i pair.1 pair.2 hi.1 hi.2

/-- The second pair of two. -/
theorem regexpReplaceRandNoopt_firstMatch_second :
    scalarOutput literalEngine (fun _ => 0) (.plain (ascii "rty")) (some false)
      (.plain (splitToken.bytes.intercalate [ascii "q", ascii "r"]))
      (.plain (splitToken.bytes.intercalate [ascii "x", ascii "y"])) none =
      some (ascii "yty") := by
  have hrules : usedRules none (.plain (splitToken.bytes.intercalate [ascii "q", ascii "r"])) =
      [ascii "q", ascii "r"] := by
    rw [usedRules, effectiveText, Varlena.text, chunks_intercalate (by decide) (by decide)]
    decide
  have hresults : usedResults (fun _ => 0) none
      (.plain (splitToken.bytes.intercalate [ascii "x", ascii "y"])) = [ascii "x", ascii "y"] := by
    rw [usedResults, effectiveResult_of_placeholders_eq_nil (by decide +kernel), effectiveText,
      Varlena.text, chunks_intercalate (by decide) (by decide)]
    decide
  have hfirst := (@regexpReplaceRandNoopt_firstMatch literalEngine (fun _ => 0)
    (.plain (ascii "rty")) (.plain (splitToken.bytes.intercalate [ascii "q", ascii "r"]))
    (.plain (splitToken.bytes.intercalate [ascii "x", ascii "y"])) (some false) none
    (by decide) (Or.inl (by rw [hrules]; decide))).1
  rw [hrules, hresults] at hfirst
  refine hfirst 1 (ascii "r") (ascii "y") rfl rfl (by decide +kernel) ?_
  intro j r hj hr
  have hj0 : j = 0 := by omega
  subst hj0
  rw [← Option.some.inj hr]
  decide +kernel

/-! ## The tenth pair -/

/-- That the tenth pair is applied. -/
def TenthPairHonoured (rule result : Varlena) (vars : Option Jsonb) : Prop :=
  scalarOutput E rand input keepEmpty rule result vars =
    some (replacement E (keepEmpty.getD false) input.text
      ((chunks (effectiveText vars rule)).getD 9 [])
      ((chunks (effectiveResult rand vars result)).getD 9 []))

/-- Where the first nine of at least ten rules do not match, the limit is reached and the input is
returned, whatever results there are: the tenth pair is honoured exactly if it leaves the input as
it is. -/
theorem tenthPairHonoured_iff
    (hrules : regexpSplitMaxTokens ≤ (chunks (effectiveText vars rule)).length)
    (hnone : ∀ (j : Nat) r, j < 9 → (chunks (effectiveText vars rule))[j]? = some r →
      ¬ Fires E input.text r) :
    TenthPairHonoured E rand input keepEmpty rule result vars ↔
      replacement E (keepEmpty.getD false) input.text
        ((chunks (effectiveText vars rule)).getD 9 [])
        ((chunks (effectiveResult rand vars result)).getD 9 []) = input.text := by
  have hrule : effectiveText vars rule ≠ [] := by
    intro hnil
    rw [chunks_eq_nil_iff.mpr hnil, List.length_singleton] at hrules
    exact absurd hrules (by decide)
  have hinput : applyFirst E (keepEmpty.getD false) input.text
      (((usedRules vars rule).zip (usedResults rand vars result)).take
        (regexpSplitMaxTokens - 1)) = input.text := by
    apply applyFirst_of_none
    intro pair hpair
    obtain ⟨j, hj⟩ := List.getElem?_of_mem hpair
    have hlt : j < regexpSplitMaxTokens - 1 := by
      have hlen := (List.getElem?_eq_some_iff.mp hj).1
      rw [List.length_take] at hlen
      exact Nat.lt_of_lt_of_le hlen (Nat.min_le_left _ _)
    rw [List.getElem?_take_of_lt hlt, List.getElem?_zip_eq_some] at hj
    exact hnone j pair.1 hlt (getElem?_of_usedChunks hj.1)
  rw [TenthPairHonoured,
    scalarOutput_eq_applyFirst E rand input keepEmpty (dataAny_length_ne_zero hrule), hinput,
    Option.some.injEq]
  exact eq_comm

end Scalar

/-- Ten rules and ten results of one letter each. -/
def tenRules : List Bytes := (ascii "abcdefghij").map fun c => [c]

def tenResults : List Bytes := (ascii "0123456789").map fun c => [c]

theorem tenRules_chunks :
    chunks (effectiveText none (.plain (splitToken.bytes.intercalate tenRules))) = tenRules := by
  rw [effectiveText, Varlena.text, chunks_intercalate (by decide) (by decide)]

theorem tenResults_chunks :
    chunks (effectiveResult (fun _ => 0) none
      (.plain (splitToken.bytes.intercalate tenResults))) = tenResults := by
  rw [effectiveResult_of_placeholders_eq_nil (by decide +kernel), effectiveText, Varlena.text,
    chunks_intercalate (by decide) (by decide)]

theorem tenRules_nine (j : Nat) (r : Bytes) (hj : j < 9) (hr : tenRules[j]? = some r) :
    ¬ Fires literalEngine (ascii "j") r := by
  have hfirst : ∀ r' ∈ tenRules.take 9, ¬ Fires literalEngine (ascii "j") r' := by
    decide +kernel
  apply hfirst
  apply List.mem_of_getElem? (i := j)
  rw [List.getElem?_take_of_lt hj]
  exact hr

theorem tenthPairHonoured_iff_letters :
    ¬ TenthPairHonoured literalEngine (fun _ => 0) (.plain (ascii "j")) none
      (.plain (splitToken.bytes.intercalate tenRules))
      (.plain (splitToken.bytes.intercalate tenResults)) none := by
  have hiff := @tenthPairHonoured_iff literalEngine (fun _ => 0) (.plain (ascii "j"))
    (.plain (splitToken.bytes.intercalate tenRules))
    (.plain (splitToken.bytes.intercalate tenResults)) none none
    (by rw [tenRules_chunks]; decide) (by rw [tenRules_chunks]; exact tenRules_nine)
  rw [hiff, tenRules_chunks, tenResults_chunks]
  decide +kernel

/-- The letter of the tenth rule is returned as it is. -/
theorem not_tenthPairHonoured :
    ¬ ∀ (E : RegexEngine) (rand : Nat → Nat) (input rule result : Varlena)
      (keepEmpty : Option Bool) (vars : Option Jsonb),
      10 ≤ (chunks (effectiveText vars rule)).length →
      10 ≤ (chunks (effectiveResult rand vars result)).length →
      (∀ c ∈ chunks (effectiveText vars rule), c ≠ []) →
      (∀ c ∈ chunks (effectiveResult rand vars result), c ≠ []) →
      (∀ (j : Nat) r, j < 9 → (chunks (effectiveText vars rule))[j]? = some r →
        ¬ Fires E input.text r) →
      Fires E input.text ((chunks (effectiveText vars rule)).getD 9 []) →
      TenthPairHonoured E rand input keepEmpty rule result vars := by
  intro h
  have htenth := h literalEngine (fun _ => 0) (.plain (ascii "j"))
    (.plain (splitToken.bytes.intercalate tenRules))
    (.plain (splitToken.bytes.intercalate tenResults)) none none
  rw [TenthPairHonoured, tenRules_chunks, tenResults_chunks] at htenth
  have hout : scalarOutput literalEngine (fun _ => 0) (.plain (ascii "j")) none
      (.plain (splitToken.bytes.intercalate tenRules))
      (.plain (splitToken.bytes.intercalate tenResults)) none = some (ascii "j") := by
    decide +kernel
  rw [hout] at htenth
  have hsame := htenth (by decide) (by decide) (by decide) (by decide) tenRules_nine
    (by decide +kernel)
  revert hsame
  decide +kernel

end YetiPgExt.Regexp
