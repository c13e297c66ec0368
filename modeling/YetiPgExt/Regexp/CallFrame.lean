import YetiPgExt.Regexp.ArrayAgreement

/-!
# One `fcinfo` for many rows

PostgreSQL's executor stores constant arguments in `fcinfo` once, and sets only the other slots
anew for each row. A function that leaves something else in a slot changes its later calls.
`unleaked_iff` says when `regexp_replace_rand_noopt` does not: it restores its slots if the
variables are an object, and writes none if the rule is empty or nothing is split.

What it leaves behind otherwise is a chunk, and a chunk is shorter than what it was taken from
(`chunkLoop_shortRule`).
-/

set_option autoImplicit false

namespace YetiPgExt.Regexp

open YetiPgExt.Library YetiPgExt.Postgres

/-! ## The rows -/

/-- A call for each row, on one `fcinfo` in which only `ARG_IN` is set anew: what each call returns
and the slots it leaves. -/
def rowCalls (E : RegexEngine) (rand : Nat → Nat) :
    FcInfo Varlena → List Varlena → List (Option Bytes × FcInfo Varlena)
  | _, [] => []
  | fc, v :: rows =>
    let call := regexpReplaceRandNoopt E rand { fc with argIn := some v }
    call :: rowCalls E rand call.2 rows

/-- A call leaves the rule and the result in their slots, and returns what a call on a fresh
`fcinfo` returns. -/
structure CallUnleaked (E : RegexEngine) (rand : Nat → Nat) (fc : FcInfo Varlena) (v : Varlena)
    (call : Option Bytes × FcInfo Varlena) : Prop where
  argRule : call.2.argRule = fc.argRule
  argResult : call.2.argResult = fc.argResult
  ret : call.1 = (regexpReplaceRandNoopt E rand { fc with argIn := some v }).1

/-- No call leaks into a later one. -/
def Unleaked (E : RegexEngine) (rand : Nat → Nat) (fc : FcInfo Varlena) (rows : List Varlena) :
    Prop :=
  List.Forall₂ (CallUnleaked E rand fc) rows (rowCalls E rand fc rows)

/-- The slots are restored, or not written: the variables are an object; or the rule is `NULL` or
empty, or the result is `NULL`; or neither the rule nor the result has a separator. -/
def KeepsSlots (fc : FcInfo Varlena) : Prop :=
  (∃ values, fc.vars = some values ∧ values.isObject = true) ∨
  ∀ rule result, fc.argRule = some rule → fc.argResult = some result →
    rule.text = [] ∨
      (¬ splitToken.bytes <:+: rule.text ∧ ¬ splitToken.bytes <:+: result.text)

/-! ## One call -/

section Call

variable {E : RegexEngine} {rand : Nat → Nat} {keepEmpty : Bool} {fc : FcInfo Varlena}
variable {v rule result : Varlena} {r s : Bytes} {L : Nat}

/-- A call that comes to the chunks. -/
theorem regexpReplaceRandNoopt_of_some (hin : fc.argIn = some v) (hrule : fc.argRule = some rule)
    (hresult : fc.argResult = some result) (hne : rule.dataAny.length ≠ 0)
    (hplain : placeholders result.text = []) :
    (regexpReplaceRandNoopt E rand fc).2 =
      restoreArgs (expandVars rule ⟨none, none⟩ fc).1
        (processChunks E (expandVars rule ⟨none, none⟩ fc).2.keepsEmpty
          (expandVars rule ⟨none, none⟩ fc).2).2 := by
  rw [regexpReplaceRandNoopt, hin, hrule, hresult]
  simp only
  rw [if_neg hne, prepareArgs_of_placeholders_eq_nil hplain]

theorem expandVars_of_object {values : Jsonb} (hvars : fc.vars = some values)
    (hobject : values.isObject = true) :
    (expandVars rule ⟨none, none⟩ fc).1 = ⟨some rule, fc.argResult⟩ := by
  rw [expandVars, hvars]
  simp only
  rw [if_pos hobject]
  rfl

theorem expandVars_of_not_object
    (h : ¬ ∃ values, fc.vars = some values ∧ values.isObject = true) (saved : Saved) :
    expandVars rule saved fc = (saved, fc) := by
  rw [expandVars]
  cases hvars : fc.vars with
  | none => rfl
  | some values =>
    simp only
    rw [if_neg]
    intro hobject
    exact h ⟨values, hvars, hobject⟩

/-- Without separators the slots are not written. -/
theorem processChunks_of_no_separators (hrule : searchSplitToken fc.ruleText = none)
    (hresult : searchSplitToken fc.resultText = none) :
    (processChunks E keepEmpty fc).2 = fc := by
  rw [processChunks, show regexpSplitMaxTokens = 9 + 1 from rfl, chunkLoop_of_no_rule hrule]
  show tailArgs 0 fc.ruleText fc.resultText fc = fc
  -- and `n` is zero, so the lines behind the loop write nothing either
  rw [tailArgs, hresult]
  rfl

variable (E rand fc) in
/-- A call that keeps the slots. -/
theorem argSlots_of_keepsSlots (hslots : KeepsSlots fc)
    (hplain : ∀ result, fc.argResult = some result → placeholders result.text = []) :
    (regexpReplaceRandNoopt E rand fc).2.argRule = fc.argRule ∧
      (regexpReplaceRandNoopt E rand fc).2.argResult = fc.argResult := by
  rcases hin : fc.argIn with _ | v
  · rw [regexpReplaceRandNoopt, hin]
    exact ⟨rfl, rfl⟩
  rcases hrule : fc.argRule with _ | rule
  · rw [regexpReplaceRandNoopt, hin, hrule]
    exact ⟨hrule, rfl⟩
  rcases hresult : fc.argResult with _ | result
  · rw [regexpReplaceRandNoopt, hin, hrule, hresult]
    exact ⟨hrule, hresult⟩
  -- three returns in front of `prepareArgs` are `NULL` arguments; the fourth is an empty rule
  by_cases hempty : rule.dataAny.length = 0
  · rw [regexpReplaceRandNoopt, hin, hrule, hresult]
    simp only
    rw [if_pos hempty]
    exact ⟨hrule, hresult⟩
  rw [regexpReplaceRandNoopt_of_some hin hrule hresult hempty (hplain result hresult)]
  by_cases hobject : ∃ values, fc.vars = some values ∧ values.isObject = true
  · -- the saved arguments are put back
    obtain ⟨values, hvars, hvalues⟩ := hobject
    rw [expandVars_of_object hvars hvalues, hresult]
    exact ⟨rfl, rfl⟩
  · rcases hslots.resolve_left hobject rule result hrule hresult with hnil | ⟨hr, hs⟩
    · exact absurd (List.length_eq_zero_iff.mpr (rule.dataAny_eq_nil_iff.mpr hnil)) hempty
    · have hruleText : fc.ruleText = rule.text := by
        rw [FcInfo.ruleText, hrule]
        rfl
      have hresultText : fc.resultText = result.text := by
        rw [FcInfo.resultText, hresult]
        rfl
      rw [← hruleText, ← searchSplitToken_eq_none_iff] at hr
      rw [← hresultText, ← searchSplitToken_eq_none_iff] at hs
      rw [expandVars_of_not_object hobject, processChunks_of_no_separators hr hs]
      exact ⟨hrule, hresult⟩

/-! ## What is left behind -/

/-- The slot of the rule holds a chunk of a rule of length `L`. -/
def ShortRule (L : Nat) (fc : FcInfo Varlena) : Prop :=
  ∃ c, fc.argRule = some (.plain c) ∧ c.length + regexpSplitTokenLen ≤ L

theorem tailArgs_shortRule (n : Nat) (h : ShortRule L fc)
    (hr : r.length + regexpSplitTokenLen ≤ L) : ShortRule L (tailArgs n r s fc) := by
  rw [tailArgs]
  cases searchSplitToken s with
  | none =>
    simp only
    split
    · exact ⟨r, rfl, hr⟩
    · exact h
  | some p =>
    simp only
    split
    · exact ⟨r, rfl, hr⟩
    · exact h

variable (E keepEmpty s) in
/-- Once a chunk of the rule is in its slot, there is always one; and a round that finds a
separator puts one there. -/
theorem chunkLoop_shortRule (fuel n : Nat)
    (h : ShortRule L fc ∧ r.length + regexpSplitTokenLen ≤ L ∨
      r.length ≤ L ∧ 0 < fuel ∧ (searchSplitToken r).isSome = true) :
    ShortRule L (finishChunks E true keepEmpty (chunkLoop E keepEmpty fuel n r s fc)).2 := by
  induction fuel generalizing n r s fc with
  | zero =>
    rcases h with ⟨hshort, -⟩ | ⟨-, hfuel, -⟩
    · exact hshort
    · exact absurd hfuel (lt_irrefl 0)
  | succ fuel ih =>
    have hlen : r.length ≤ L := by
      rcases h with ⟨-, hr⟩ | ⟨hr, -⟩
      · omega
      · exact hr
    rcases hr : searchSplitToken r with _ | p
    · rw [chunkLoop_of_no_rule hr]
      rcases h with ⟨hshort, hrest⟩ | ⟨-, -, hsome⟩
      · exact tailArgs_shortRule n hshort hrest
      · rw [hr] at hsome
        cases hsome
    · have hp := searchSplitToken_le hr
      have hchunk : (r.take p).length + regexpSplitTokenLen ≤ L := by
        rw [List.length_take]
        omega
      rcases hs : searchSplitToken s with _ | q
      · rw [chunkLoop_of_no_result hr hs]
        show ShortRule L (lastResultArgs n p r s fc)
        rw [lastResultArgs]
        split
        · exact ⟨r.take p, rfl, hchunk⟩
        · exact ⟨r.take p, rfl, hchunk⟩
      · have hpair : ShortRule L (pairArgs p q r s fc) := ⟨r.take p, rfl, hchunk⟩
        by_cases hfires : Fires E (getInCopy fc) (r.take p)
        · rw [(loops_of_fires hr hs hfires).1]
          exact hpair
        · rw [chunkLoop_of_not_fires hr hs hfires]
          split
          · exact hpair
          · -- the next round starts with a chunk in the slot and a rest that is shorter
            have hlenTwo : regexpSplitTokenLen = 2 := rfl
            refine ih _ _ (.inl ⟨hpair, ?_⟩)
            rw [List.length_drop]
            omega

/-- A rule with a separator does not stay in its slot. -/
theorem argRule_ne_of_separator (hrule : fc.argRule = some rule)
    (hsep : splitToken.bytes <:+: rule.text) :
    (processChunks E keepEmpty fc).2.argRule ≠ some rule := by
  have htext : fc.ruleText = rule.text := by
    rw [FcInfo.ruleText, hrule]
    rfl
  have hsome : (searchSplitToken fc.ruleText).isSome = true := by
    rw [Option.isSome_iff_ne_none, ne_eq, searchSplitToken_eq_none_iff, htext]
    exact not_not.mpr hsep
  obtain ⟨c, hslot, hlen⟩ := chunkLoop_shortRule E keepEmpty fc.resultText regexpSplitMaxTokens 0
    (.inr ⟨le_refl fc.ruleText.length, by decide, hsome⟩ :
      ShortRule fc.ruleText.length fc ∧ _ ∨ _)
  intro hkept
  -- the chunk would be as long as the rule it was cut from
  have hc : Varlena.plain c = rule := Option.some.inj (hslot.symm.trans hkept)
  have htwo : regexpSplitTokenLen = 2 := rfl
  rw [htext, ← hc] at hlen
  have hsame : (Varlena.plain c).text.length = c.length := rfl
  omega

/-- Nor does a result with a separator behind a rule without one. -/
theorem argResult_ne_of_separator (hresult : fc.argResult = some result)
    (hrule : searchSplitToken fc.ruleText = none) (hsep : splitToken.bytes <:+: result.text) :
    (processChunks E keepEmpty fc).2.argResult ≠ some result := by
  have htext : fc.resultText = result.text := by
    rw [FcInfo.resultText, hresult]
    rfl
  rcases hs : searchSplitToken fc.resultText with _ | p
  · rw [searchSplitToken_eq_none_iff, htext] at hs
    exact absurd hsep hs
  · have hp := searchSplitToken_le hs
    rw [processChunks, show regexpSplitMaxTokens = 9 + 1 from rfl, chunkLoop_of_no_rule hrule]
    show (tailArgs 0 fc.ruleText fc.resultText fc).argResult ≠ some result
    rw [tailArgs, hs]
    intro hkept
    have hc : Varlena.plain (fc.resultText.take p) = result := Option.some.inj hkept
    have hlen : (Varlena.plain (fc.resultText.take p)).text.length ≤ p := by
      show (fc.resultText.take p).length ≤ p
      exact List.length_take_le _ _
    have htwo : regexpSplitTokenLen = 2 := rfl
    rw [hc, ← htext] at hlen
    omega

variable (fc) in
/-- A call that leaves the rule and the result in their slots, and does not restore them, has found
no separator. -/
theorem no_separators_of_kept (hin : fc.argIn = some v) (hrule : fc.argRule = some rule)
    (hresult : fc.argResult = some result) (hne : rule.text ≠ [])
    (hplain : placeholders result.text = [])
    (hobject : ¬ ∃ values, fc.vars = some values ∧ values.isObject = true)
    (hkeptRule : (regexpReplaceRandNoopt E rand fc).2.argRule = some rule)
    (hkeptResult : (regexpReplaceRandNoopt E rand fc).2.argResult = some result) :
    ¬ splitToken.bytes <:+: rule.text ∧ ¬ splitToken.bytes <:+: result.text := by
  have hdata : rule.dataAny.length ≠ 0 := by
    intro hlen
    exact hne (rule.dataAny_eq_nil_iff.mp (List.length_eq_zero_iff.mp hlen))
  rw [regexpReplaceRandNoopt_of_some hin hrule hresult hdata hplain,
    expandVars_of_not_object hobject] at hkeptRule hkeptResult
  have hnoRule : ¬ splitToken.bytes <:+: rule.text := by
    intro hsep
    exact argRule_ne_of_separator hrule hsep hkeptRule
  refine ⟨hnoRule, ?_⟩
  intro hsep
  have hsearch : searchSplitToken fc.ruleText = none := by
    rw [searchSplitToken_eq_none_iff, FcInfo.ruleText, hrule]
    exact hnoRule
  exact argResult_ne_of_separator hresult hsearch hsep hkeptResult

end Call

/-! ## The sequence of calls -/

section Rows

variable (E : RegexEngine) (rand : Nat → Nat) {fc : FcInfo Varlena}

/-- A call writes no other slots. -/
theorem sameInputs_regexpReplaceRandNoopt (fc : FcInfo Varlena) :
    SameInputs fc (regexpReplaceRandNoopt E rand fc).2 := by
  rw [regexpReplaceRandNoopt]
  split
  · exact .refl fc
  · exact .refl fc
  · exact .refl fc
  · rename_i rule result _ _ _
    split
    · exact .refl fc
    · have hprepare := sameInputs_prepareArgs rule result fc rand
      have hprocess := sameInputs_processChunks E
        (prepareArgs rand rule result fc).2.keepsEmpty (prepareArgs rand rule result fc).2
      exact (hprepare.trans hprocess).trans (sameInputs_restoreArgs _ _)

/-- When each call keeps the slots, all calls are made on the same arguments. -/
theorem unleaked_of_keepsSlots (hslots : KeepsSlots fc)
    (hplain : ∀ result, fc.argResult = some result → placeholders result.text = [])
    (rows : List Varlena) {fc' : FcInfo Varlena} (hrule : fc'.argRule = fc.argRule)
    (hresult : fc'.argResult = fc.argResult) (hkeep : fc'.keepEmpty = fc.keepEmpty)
    (hvars : fc'.vars = fc.vars) :
    List.Forall₂ (CallUnleaked E rand fc) rows (rowCalls E rand fc' rows) := by
  -- on the rows: every call gets the slots of the first one
  induction rows generalizing fc' with
  | nil => exact .nil
  | cons v rows ih =>
    have hcall : ({ fc' with argIn := some v } : FcInfo Varlena) = { fc with argIn := some v } := by
      rw [hrule, hresult, hkeep, hvars]
    obtain ⟨hrule', hresult'⟩ := argSlots_of_keepsSlots E rand { fc with argIn := some v }
      hslots hplain
    have hsame := sameInputs_regexpReplaceRandNoopt E rand { fc with argIn := some v }
    rw [rowCalls, hcall]
    exact .cons ⟨hrule', hresult', rfl⟩ (ih hrule' hresult' hsame.keepEmpty hsame.vars)

end Rows

/-- No call leaks into a later one exactly if there is no call, or the slots are restored or not
written. -/
theorem unleaked_iff (E : RegexEngine) (rand : Nat → Nat) (fc : FcInfo Varlena)
    (rows : List Varlena)
    (hplain : ∀ result, fc.argResult = some result → placeholders result.text = []) :
    Unleaked E rand fc rows ↔ rows = [] ∨ KeepsSlots fc := by
  constructor
  · intro h
    cases rows with
    | nil => exact .inl rfl
    | cons v rows =>
      right
      rw [Unleaked, rowCalls] at h
      obtain ⟨hcall, -⟩ := List.forall₂_cons.mp h
      rw [KeepsSlots, or_iff_not_imp_left]
      intro hobject rule result hrule hresult
      rw [or_iff_not_imp_left]
      intro hne
      -- the first call would already leave a chunk in a slot
      have hkeptRule := hcall.argRule.trans hrule
      have hkeptResult := hcall.argResult.trans hresult
      exact no_separators_of_kept { fc with argIn := some v } rfl hrule hresult hne
        (hplain result hresult) hobject hkeptRule hkeptResult
  · rintro (rfl | hslots)
    · exact .nil
    · exact unleaked_of_keepsSlots E rand hslots hplain rows rfl rfl rfl rfl

/-! ## Two pairs and two rows -/

/-- A call with two pairs of chunks and no variables. -/
def twoPairs : FcInfo Varlena where
  argIn := none
  argRule := some (.plain (ascii "a||b"))
  argResult := some (.plain (ascii "x||y"))
  keepEmpty := some false
  vars := none

theorem placeholders_twoPairs (result : Varlena) (h : twoPairs.argResult = some result) :
    placeholders result.text = [] := by
  obtain rfl : Varlena.plain (ascii "x||y") = result := Option.some.inj h
  decide +kernel

/-- The result of the second row is that of a new call exactly if the slots are put back. -/
theorem unleaked_iff_twoPairs :
    Unleaked literalEngine (fun _ => 0) twoPairs
        [.plain (ascii "b"), .plain (ascii "a"), .plain (ascii "c")] ↔
      [Varlena.plain (ascii "b"), .plain (ascii "a"), .plain (ascii "c")] = [] ∨
        KeepsSlots twoPairs :=
  unleaked_iff literalEngine (fun _ => 0) twoPairs
    [.plain (ascii "b"), .plain (ascii "a"), .plain (ascii "c")] placeholders_twoPairs

/-- The second row is replaced by what the first one left in the slots. -/
theorem not_unleaked :
    ¬ Unleaked literalEngine (fun _ => 0) twoPairs [.plain (ascii "b"), .plain (ascii "a")] := by
  intro h
  have hrows : (rowCalls literalEngine (fun _ => 0) twoPairs
      [.plain (ascii "b"), .plain (ascii "a")]).map Prod.fst =
        [some (ascii "y"), some (ascii "a")] := by
    decide +kernel
  have hfresh : (regexpReplaceRandNoopt literalEngine (fun _ => 0)
      { twoPairs with argIn := some (.plain (ascii "a")) }).1 = some (ascii "x") := by
    decide +kernel
  rw [Unleaked, rowCalls, rowCalls, rowCalls] at h
  obtain ⟨-, hrest⟩ := List.forall₂_cons.mp h
  obtain ⟨hsecond, -⟩ := List.forall₂_cons.mp hrest
  have hret := hsecond.ret
  rw [rowCalls, rowCalls, rowCalls, List.map_cons, List.map_cons, List.cons_eq_cons,
    List.cons_eq_cons] at hrows
  rw [hrows.2.1, hfresh] at hret
  have hne : some (ascii "a") ≠ some (ascii "x") := by decide +kernel
  exact hne hret

end YetiPgExt.Regexp
