import YetiPgExt.Regexp.Pairs

/-!
# What the loops over the chunks compute

Both loops replace the input by the first of their pairs that fires: `chunkLoop_applyFirst` for the
scalar form, `elementLoop_applyFirst` for the form for arrays. The induction is on the number of
pairs that the limit still admits. The slots of the rule and the result are read before they are
written only in the first round, so nothing else is needed of them (`SlotsFor`).
-/

set_option autoImplicit false

namespace YetiPgExt.Regexp

open YetiPgExt.Library YetiPgExt.Postgres

/-! ## Slots -/

/-- Only the slots of the rule and the result differ. -/
structure SameInputs {ι : Type} (fc fc' : FcInfo ι) : Prop where
  argIn : fc'.argIn = fc.argIn
  keepEmpty : fc'.keepEmpty = fc.keepEmpty
  vars : fc'.vars = fc.vars

theorem SameInputs.refl {ι : Type} (fc : FcInfo ι) : SameInputs fc fc := ⟨rfl, rfl, rfl⟩

theorem SameInputs.trans {ι : Type} {fc fc' fc'' : FcInfo ι} (h : SameInputs fc fc')
    (h' : SameInputs fc' fc'') : SameInputs fc fc'' :=
  ⟨h'.argIn.trans h.argIn, h'.keepEmpty.trans h.keepEmpty, h'.vars.trans h.vars⟩

theorem SameInputs.getInCopy_eq {fc fc' : FcInfo Varlena} (h : SameInputs fc fc') :
    getInCopy fc' = getInCopy fc := congrArg slotText h.argIn

theorem sameInputs_restoreArgs {ι : Type} (saved : Saved) (fc : FcInfo ι) :
    SameInputs fc (restoreArgs saved fc) := ⟨rfl, rfl, rfl⟩

/-- A rule or a result without a separator is still in its slot. -/
structure SlotsFor {ι : Type} (rule result : Bytes) (fc : FcInfo ι) : Prop where
  rule : searchSplitToken rule = none → fc.ruleText = rule
  result : searchSplitToken result = none → fc.resultText = result

section Run

variable {E : RegexEngine} {keepEmpty : Bool} {fc : FcInfo Varlena} {r s : Bytes}

/-! ## One pair -/

theorem matched_iff (final : Bool) :
    (applyTextregexreplaceNoopt E fc final keepEmpty).matched = true ↔
      Fires E (getInCopy fc) fc.ruleText := by
  rw [applyTextregexreplaceNoopt, Fires, getInCopy]
  cases hcomp : E.regcomp fc.ruleText with
  | false => simp
  | true =>
    cases hexec : E.regexec fc.ruleText (slotText fc.argIn) with
    | false => simp
    | true =>
      cases E.textregexreplaceNoopt (slotText fc.argIn) fc.ruleText fc.resultText with
      | none => simp
      | some ret =>
        simp only [Bool.true_eq_false, if_false]
        split
        · simp
        · simp

variable (E keepEmpty fc) in
/-- Whether the input is put in for a missing result here or by the caller makes no difference. -/
theorem ret_getD (final : Bool) :
    (applyTextregexreplaceNoopt E fc final keepEmpty).ret.getD (getInCopy fc) =
      applyFirst E keepEmpty (getInCopy fc) [(fc.ruleText, fc.resultText)] := by
  have hcopy : (if final then some (getInCopy fc) else none).getD (getInCopy fc) =
      getInCopy fc := by
    cases final with
    | false => rfl
    | true => rfl
  by_cases hfires : Fires E (getInCopy fc) fc.ruleText
  · obtain ⟨hcomp, hexec⟩ := hfires
    rw [applyFirst_cons_of_fires ⟨hcomp, hexec⟩, replacement, applyTextregexreplaceNoopt]
    rw [getInCopy] at hexec hcopy ⊢
    rw [if_neg (by rw [hcomp]; decide), if_neg (by rw [hexec]; decide)]
    cases E.textregexreplaceNoopt (slotText fc.argIn) fc.ruleText fc.resultText with
    | none => exact hcopy
    | some ret =>
      simp only [List.length_eq_zero_iff]
      split
      · exact hcopy
      · rfl
  · rw [applyFirst_cons_of_not_fires hfires, applyFirst, applyTextregexreplaceNoopt]
    -- without `final` the result is missing, with it it is the input, and both mean the input
    cases hcomp : E.regcomp fc.ruleText with
    | false => rfl
    | true =>
      cases hexec : E.regexec fc.ruleText (slotText fc.argIn) with
      | false => exact hcopy
      | true => exact absurd ⟨hcomp, hexec⟩ hfires

theorem ret_of_not_matched
    (h : (applyTextregexreplaceNoopt E fc false keepEmpty).matched = false) :
    (applyTextregexreplaceNoopt E fc false keepEmpty).ret = none := by
  rw [applyTextregexreplaceNoopt] at h ⊢
  split
  · rfl
  · -- a rule that matched would have said so
    rename_i hcomp
    rw [if_neg hcomp] at h
    split
    · rfl
    · rename_i hexec
      rw [if_neg hexec] at h
      revert h
      cases E.textregexreplaceNoopt (slotText fc.argIn) fc.ruleText fc.resultText with
      | none => simp
      | some ret =>
        simp only
        split
        · simp
        · simp

/-! ## Behind the loop -/

theorem exists_chunks (s : Bytes) :
    ∃ tail, chunks s = (match searchSplitToken s with
      | none => s
      | some p => s.take p) :: tail := by
  cases h : searchSplitToken s with
  | none => exact ⟨[], chunks_of_none h⟩
  | some p => exact ⟨_, chunks_of_some h⟩

theorem sameInputs_tailArgs (n : Nat) (r s : Bytes) (fc : FcInfo Varlena) :
    SameInputs fc (tailArgs n r s fc) := by
  rw [tailArgs]
  cases searchSplitToken s with
  | none =>
    simp only
    split
    · exact ⟨rfl, rfl, rfl⟩
    · exact .refl fc
  | some p =>
    simp only
    split
    · exact ⟨rfl, rfl, rfl⟩
    · exact ⟨rfl, rfl, rfl⟩

/-- The lines behind the loop apply the rest of the rule and the next chunk of the result. -/
theorem finishChunks_tail (final : Bool) {n : Nat} (hslots : n = 0 → SlotsFor r s fc)
    (hrule : n = 0 → searchSplitToken r = none) :
    (finishChunks E final keepEmpty (.tail n r s, fc)).1.getD (getInCopy fc) =
      applyFirst E keepEmpty (getInCopy fc) [(r, (chunks s).headD [])] := by
  have hcopy := (sameInputs_tailArgs n r s fc).getInCopy_eq
  have htexts : (tailArgs n r s fc).ruleText = r ∧
      (tailArgs n r s fc).resultText = (chunks s).headD [] := by
    rw [tailArgs]
    -- in the first round the slots are as they came, later they are written here
    rcases Nat.eq_zero_or_pos n with hn | hn
    · have hr := (hslots hn).rule (hrule hn)
      subst hn
      cases hs : searchSplitToken s with
      | none =>
        rw [chunks_of_none hs]
        exact ⟨hr, (hslots rfl).result hs⟩
      | some p =>
        rw [chunks_of_some hs]
        exact ⟨hr, rfl⟩
    · have hne : n ≠ 0 := hn.ne'
      cases hs : searchSplitToken s with
      | none =>
        simp only [if_pos hne, if_true]
        rw [chunks_of_none hs]
        exact ⟨rfl, rfl⟩
      | some p =>
        simp only [if_pos hne]
        rw [chunks_of_some hs]
        exact ⟨rfl, rfl⟩
  have hret := ret_getD E keepEmpty (tailArgs n r s fc) final
  rw [hcopy, htexts.1, htexts.2] at hret
  exact hret

/-! ## The loops -/

variable {fuel n p q : Nat}

/-- The slots of a pair with a separator behind its rule only: the last chunk of the result. -/
def lastResultArgs (n p : Nat) (r s : Bytes) (fc : FcInfo Varlena) : FcInfo Varlena :=
  if n > 0 then (fc.replaceRule (r.take p)).replaceResult s else fc.replaceRule (r.take p)

/-- The slots of a pair with separators behind both. -/
def pairArgs (p q : Nat) (r s : Bytes) (fc : FcInfo Varlena) : FcInfo Varlena :=
  (fc.replaceRule (r.take p)).replaceResult (s.take q)

theorem chunkLoop_of_no_rule (hr : searchSplitToken r = none) :
    chunkLoop E keepEmpty (fuel + 1) n r s fc = (.tail n r s, fc) := by
  rw [chunkLoop, hr]

theorem elementLoop_of_no_rule (hr : searchSplitToken r = none) :
    elementLoop E keepEmpty (fuel + 1) n r s fc = (.tail n r s, fc) := by
  rw [elementLoop, hr]

theorem chunkLoop_of_no_result (hr : searchSplitToken r = some p)
    (hs : searchSplitToken s = none) :
    chunkLoop E keepEmpty (fuel + 1) n r s fc =
      (.out (applyTextregexreplaceNoopt E (lastResultArgs n p r s fc) true keepEmpty).ret,
        lastResultArgs n p r s fc) := by
  rw [chunkLoop, hr]
  simp only [hs]
  rfl

theorem elementLoop_of_no_result (hr : searchSplitToken r = some p)
    (hs : searchSplitToken s = none) :
    elementLoop E keepEmpty (fuel + 1) n r s fc =
      (.out (applyTextregexreplaceNoopt E (lastResultArgs n p r s fc) false keepEmpty).ret,
        lastResultArgs n p r s fc) := by
  rw [elementLoop, hr]
  simp only [hs]
  rfl

/-- A round with a pair that fires ends either loop. -/
theorem loops_of_fires (hr : searchSplitToken r = some p) (hs : searchSplitToken s = some q)
    (h : Fires E (getInCopy fc) (r.take p)) :
    chunkLoop E keepEmpty (fuel + 1) n r s fc =
        (.out (applyTextregexreplaceNoopt E (pairArgs p q r s fc) false keepEmpty).ret,
          pairArgs p q r s fc) ∧
      elementLoop E keepEmpty (fuel + 1) n r s fc =
        (.out (applyTextregexreplaceNoopt E (pairArgs p q r s fc) false keepEmpty).ret,
          pairArgs p q r s fc) := by
  have hmatched : (applyTextregexreplaceNoopt E
      ((fc.replaceRule (r.take p)).replaceResult (s.take q)) false keepEmpty).matched = true := by
    rw [matched_iff]
    exact h
  rw [chunkLoop, elementLoop, hr]
  simp only [hs]
  rw [if_pos hmatched, if_pos hmatched]
  exact ⟨rfl, rfl⟩

variable (keepEmpty s q) in
theorem not_matched (h : ¬ Fires E (getInCopy fc) (r.take p)) :
    (applyTextregexreplaceNoopt E ((fc.replaceRule (r.take p)).replaceResult (s.take q)) false
      keepEmpty).matched = false := by
  rw [Bool.eq_false_iff, ne_eq, matched_iff]
  exact h

/-- The scalar form gives up after a pair that does not fire, or goes on. -/
theorem chunkLoop_of_not_fires (hr : searchSplitToken r = some p)
    (hs : searchSplitToken s = some q) (h : ¬ Fires E (getInCopy fc) (r.take p)) :
    chunkLoop E keepEmpty (fuel + 1) n r s fc =
      if n + 1 ≥ regexpSplitMaxTokens - 1 ∨ r.drop (p + regexpSplitTokenLen) = [] ∨
          s.drop (q + regexpSplitTokenLen) = [] then
        (.out none, pairArgs p q r s fc)
      else
        chunkLoop E keepEmpty fuel (n + 1) (r.drop (p + regexpSplitTokenLen))
          (s.drop (q + regexpSplitTokenLen)) (pairArgs p q r s fc) := by
  have hmatched := not_matched keepEmpty s q h
  have hret := ret_of_not_matched hmatched
  rw [chunkLoop, hr]
  simp only [hs]
  rw [if_neg (by rw [hmatched]; decide), hret]
  split
  · rename_i hn
    rw [if_pos (.inl hn)]
    rfl
  · rename_i hn
    split
    · rename_i hrest
      rw [if_pos (.inr (.inl hrest))]
      rfl
    · rename_i hrest
      split
      · rename_i hrest'
        rw [if_pos (.inr (.inr hrest'))]
        rfl
      · rename_i hrest'
        rw [if_neg]
        · rfl
        · rintro (h | h | h)
          · exact hn h
          · exact hrest h
          · exact hrest' h

/-- The form for arrays goes on with what its pointers point to. -/
theorem elementLoop_of_not_fires (hr : searchSplitToken r = some p)
    (hs : searchSplitToken s = some q) (h : ¬ Fires E (getInCopy fc) (r.take p)) :
    elementLoop E keepEmpty (fuel + 1) n r s fc =
      if n + 1 ≥ regexpSplitMaxTokens - 1 then (.tail (n + 1) r s, pairArgs p q r s fc)
      else if r.drop (p + regexpSplitTokenLen) = [] then
        (.tail (n + 1) [] s, pairArgs p q r s fc)
      else if s.drop (q + regexpSplitTokenLen) = [] then
        (.tail (n + 1) (r.drop (p + regexpSplitTokenLen)) [], pairArgs p q r s fc)
      else
        elementLoop E keepEmpty fuel (n + 1) (r.drop (p + regexpSplitTokenLen))
          (s.drop (q + regexpSplitTokenLen)) (pairArgs p q r s fc) := by
  have hmatched := not_matched keepEmpty s q h
  rw [elementLoop, hr]
  simp only [hs]
  rw [if_neg (by rw [hmatched]; decide)]
  split
  · rfl
  · split
    · rename_i hrest
      rw [hrest]
      rfl
    · split
      · rename_i hrest
        rw [hrest]
        rfl
      · rfl

theorem sameInputs_lastResultArgs (n p : Nat) (r s : Bytes) (fc : FcInfo Varlena) :
    SameInputs fc (lastResultArgs n p r s fc) := by
  rw [lastResultArgs]
  split
  · exact ⟨rfl, rfl, rfl⟩
  · exact ⟨rfl, rfl, rfl⟩

variable (E keepEmpty) in
theorem sameInputs_chunkLoop (fuel n : Nat) (r s : Bytes) (fc : FcInfo Varlena) :
    SameInputs fc (chunkLoop E keepEmpty fuel n r s fc).2 := by
  -- every exit writes the two slots only, and so does a round that goes on
  induction fuel generalizing n r s fc with
  | zero => exact .refl fc
  | succ fuel ih =>
    rcases hr : searchSplitToken r with _ | p
    · rw [chunkLoop_of_no_rule hr]
      exact .refl fc
    · rcases hs : searchSplitToken s with _ | q
      · rw [chunkLoop_of_no_result hr hs]
        exact sameInputs_lastResultArgs n p r s fc
      · by_cases hfires : Fires E (getInCopy fc) (r.take p)
        · rw [(loops_of_fires hr hs hfires).1]
          exact ⟨rfl, rfl, rfl⟩
        · have hpair : SameInputs fc (pairArgs p q r s fc) := ⟨rfl, rfl, rfl⟩
          rw [chunkLoop_of_not_fires hr hs hfires]
          split
          · exact hpair
          · exact hpair.trans (ih _ _ _ _)

theorem sameInputs_processChunks (E : RegexEngine) (keepEmpty : Bool) (fc : FcInfo Varlena) :
    SameInputs fc (processChunks E keepEmpty fc).2 := by
  have hloop := sameInputs_chunkLoop E keepEmpty regexpSplitMaxTokens 0 fc.ruleText
    fc.resultText fc
  rw [processChunks]
  rcases hend : chunkLoop E keepEmpty regexpSplitMaxTokens 0 fc.ruleText fc.resultText fc with
    ⟨o, fc₁⟩
  rw [hend] at hloop
  cases o with
  | out ret => exact hloop
  | tail n r s => exact hloop.trans (sameInputs_tailArgs n r s fc₁)

/-- The last chunk of the result is applied with the chunk of the rule, by either form. -/
theorem lastResult_getD (final : Bool) (hs : searchSplitToken s = none)
    (hslots : n = 0 → SlotsFor r s fc) :
    (applyTextregexreplaceNoopt E (lastResultArgs n p r s fc) final keepEmpty).ret.getD
        (getInCopy fc) =
      applyFirst E keepEmpty (getInCopy fc) [(r.take p, s)] := by
  have hcopy := (sameInputs_lastResultArgs n p r s fc).getInCopy_eq
  have hrule : (lastResultArgs n p r s fc).ruleText = r.take p := by
    rw [lastResultArgs]
    split
    · rfl
    · rfl
  have hresult : (lastResultArgs n p r s fc).resultText = s := by
    rw [lastResultArgs]
    split
    · rfl
    · -- in the first round the slot still has the whole result
      rename_i hn
      exact (hslots (Nat.eq_zero_of_not_pos hn)).result hs
  have hret := ret_getD E keepEmpty (lastResultArgs n p r s fc) final
  rw [hcopy, hrule, hresult] at hret
  exact hret

theorem pair_getD (hfires : Fires E (getInCopy fc) (r.take p))
    (pairs : List (Bytes × Bytes)) :
    (applyTextregexreplaceNoopt E (pairArgs p q r s fc) false keepEmpty).ret.getD
        (getInCopy fc) =
      applyFirst E keepEmpty (getInCopy fc) ((r.take p, s.take q) :: pairs) := by
  rw [applyFirst_cons_of_fires hfires]
  have hret := ret_getD E keepEmpty (pairArgs p q r s fc) false
  exact hret.trans (applyFirst_cons_of_fires hfires)

/-- The scalar form, from a round that the limit admits on. -/
theorem chunkLoop_applyFirst (m : Nat) (hm : 0 < m) (hn : n + m = regexpSplitMaxTokens - 1)
    (hslots : n = 0 → SlotsFor r s fc) :
    (finishChunks E true keepEmpty (chunkLoop E keepEmpty (m + 1) n r s fc)).1.getD
        (getInCopy fc) =
      applyFirst E keepEmpty (getInCopy fc) (scalarPairs m (chunks r) (chunks s)) := by
  -- on the pairs that the limit still admits: each exit of a round is one way for the chunks to end
  induction m generalizing n r s fc with
  | zero => exact absurd hm (lt_irrefl 0)
  | succ m ih =>
    rcases hr : searchSplitToken r with _ | p
    · obtain ⟨tail, hchunks⟩ := exists_chunks s
      rw [chunkLoop_of_no_rule hr, finishChunks_tail true hslots fun _ => hr, chunks_of_none hr,
        hchunks, scalarPairs_of_tail (.inl rfl)]
      rfl
    · rcases hs : searchSplitToken s with _ | q
      · rw [chunkLoop_of_no_result hr hs, chunks_of_none hs, chunks_of_some hr,
          scalarPairs_of_tail (.inr rfl)]
        exact lastResult_getD true hs hslots
      · rw [chunks_of_some hr, chunks_of_some hs,
          scalarPairs_cons (chunks_ne_nil _) (chunks_ne_nil _)]
        by_cases hfires : Fires E (getInCopy fc) (r.take p)
        · rw [(loops_of_fires hr hs hfires).1]
          exact pair_getD hfires _
        · rw [chunkLoop_of_not_fires hr hs hfires, applyFirst_cons_of_not_fires hfires]
          have hlimit : n + 1 ≥ regexpSplitMaxTokens - 1 ↔ m = 0 := by omega
          simp only [chunks_eq_nil_iff, hlimit]
          split
          · rfl
          · -- another round, on what is behind the two separators
            rename_i hmore
            have hpos : 0 < m := Nat.pos_of_ne_zero fun h => hmore (.inl h)
            exact ih hpos (by omega) (fun h => absurd h (Nat.succ_ne_zero n))

/-- The form for arrays. -/
theorem elementLoop_applyFirst (m : Nat) (hm : 0 < m) (hn : n + m = regexpSplitMaxTokens - 1)
    (hslots : n = 0 → SlotsFor r s fc) :
    (finishChunks E false keepEmpty (elementLoop E keepEmpty (m + 1) n r s fc)).1.getD
        (getInCopy fc) =
      applyFirst E keepEmpty (getInCopy fc) (arrayPairs m (chunks r) (chunks s)) := by
  induction m generalizing n r s fc with
  | zero => exact absurd hm (lt_irrefl 0)
  | succ m ih =>
    rcases hr : searchSplitToken r with _ | p
    · obtain ⟨tail, hchunks⟩ := exists_chunks s
      rw [elementLoop_of_no_rule hr, finishChunks_tail false hslots fun _ => hr,
        chunks_of_none hr, hchunks, arrayPairs_of_tail (.inl rfl)]
      rfl
    · rcases hs : searchSplitToken s with _ | q
      · rw [elementLoop_of_no_result hr hs, chunks_of_none hs, chunks_of_some hr,
          arrayPairs_of_tail (.inr rfl)]
        exact lastResult_getD false hs hslots
      · have hwhole := intercalate_chunks r
        have hrest := intercalate_chunks (r.drop (p + regexpSplitTokenLen))
        have hhead : (chunks s).headD [] = s.take q := by
          rw [chunks_of_some hs]
          rfl
        rw [chunks_of_some hr] at hwhole ⊢
        rw [chunks_of_some hs, arrayPairs_cons (chunks_ne_nil _) (chunks_ne_nil _), hwhole, hrest]
        by_cases hfires : Fires E (getInCopy fc) (r.take p)
        · rw [(loops_of_fires hr hs hfires).2]
          exact pair_getD hfires _
        · rw [elementLoop_of_not_fires hr hs hfires, applyFirst_cons_of_not_fires hfires]
          have hlimit : n + 1 ≥ regexpSplitMaxTokens - 1 ↔ m = 0 := by omega
          have hlater : n + 1 ≠ 0 := Nat.succ_ne_zero n
          simp only [chunks_eq_nil_iff, hlimit]
          split
          · -- the limit: both pointers still point to the pair that was tried
            rw [← hhead]
            exact finishChunks_tail false (fun h => absurd h hlater) (fun h => absurd h hlater)
          · split
            · -- nothing behind the separator of the rule: the pointer of the result has not moved
              rw [← hhead]
              exact finishChunks_tail false (fun h => absurd h hlater) (fun h => absurd h hlater)
            · split
              · -- nothing behind the separator of the result: the rest of the rule is taken whole
                have htail : (finishChunks E false keepEmpty
                    (.tail (n + 1) (r.drop (p + regexpSplitTokenLen)) [],
                      pairArgs p q r s fc)).1.getD (getInCopy fc) =
                    applyFirst E keepEmpty (getInCopy fc)
                      [(r.drop (p + regexpSplitTokenLen), (chunks []).headD [])] :=
                  finishChunks_tail false (fun h => absurd h hlater) (fun h => absurd h hlater)
                rwa [chunks_eq_nil_iff.mpr rfl] at htail
              · rename_i hzero _ _
                exact ih (Nat.pos_of_ne_zero hzero) (by omega) (fun h => absurd h hlater)

end Run

end YetiPgExt.Regexp
