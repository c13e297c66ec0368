import YetiPgExt.Regexp.ArrayNoopt

/-!
# Pairs of chunks

What the two loops over the chunks are for: to replace the input by the first pair of chunks whose
rule matches it. In terms of the lists of chunks, both loops try the same pairs (`triedPairs`) and
then come to a last pair. They differ where the chunks run out just behind a separator, or where
the limit is reached: the scalar form gives up, and the form for arrays goes on with what its two
pointers point to (`leftoverPair`).
-/

set_option autoImplicit false

namespace YetiPgExt.Regexp

open YetiPgExt.Library YetiPgExt.Postgres

/-- The chunks of a rule or a result. -/
def chunks (s : Bytes) : List Bytes := pieces splitToken s

/-- A rule that compiles and matches the input. -/
def Fires (E : RegexEngine) (input rule : Bytes) : Prop :=
  E.regcomp rule = true ∧ E.regexec rule input = true

instance (E : RegexEngine) (input rule : Bytes) : Decidable (Fires E input rule) :=
  inferInstanceAs (Decidable (_ ∧ _))

/-- The replacement of an input that the rule matches. -/
def replacement (E : RegexEngine) (keepEmpty : Bool) (input rule result : Bytes) : Bytes :=
  match E.textregexreplaceNoopt input rule result with
  | some ret => if keepEmpty = false ∧ ret = [] then input else ret
  | none => input

/-- The replacement of the input by the first pair whose rule matches it. -/
def applyFirst (E : RegexEngine) (keepEmpty : Bool) (input : Bytes) :
    List (Bytes × Bytes) → Bytes
  | [] => input
  | (rule, result) :: pairs =>
    if Fires E input rule then replacement E keepEmpty input rule result
    else applyFirst E keepEmpty input pairs

/-- The pairs of chunks that both have a separator behind them, up to `m` of them. -/
def triedPairs (m : Nat) (rules results : List Bytes) : List (Bytes × Bytes) :=
  (rules.dropLast.zip results.dropLast).take m

/-- The pair behind those. -/
def lastPair (m : Nat) (rules results : List Bytes) : Bytes × Bytes :=
  (rules.getD (triedPairs m rules results).length [],
    results.getD (triedPairs m rules results).length [])

/-- The pair that the form for arrays goes on with when there is no last pair: the limit is
reached, or nothing follows a separator. -/
def leftoverPair (m : Nat) (rules results : List Bytes) : Option (Bytes × Bytes) :=
  let k := (triedPairs m rules results).length
  if k = 0 then none
  else if k = m then
    some (splitToken.bytes.intercalate (rules.drop (k - 1)), results.getD (k - 1) [])
  else if rules.drop k = [[]] then some ([], results.getD (k - 1) [])
  else if results.drop k = [[]] then some (splitToken.bytes.intercalate (rules.drop k), [])
  else none

/-- The pairs of the scalar form, in the order in which it tries them. -/
def scalarPairs (m : Nat) (rules results : List Bytes) : List (Bytes × Bytes) :=
  triedPairs m rules results ++
    if leftoverPair m rules results = none then [lastPair m rules results] else []

/-- The pairs of the form for arrays. -/
def arrayPairs (m : Nat) (rules results : List Bytes) : List (Bytes × Bytes) :=
  triedPairs m rules results ++ [(leftoverPair m rules results).getD (lastPair m rules results)]

/-! ## The first pair that fires -/

section ApplyFirst

variable {E : RegexEngine} {keepEmpty : Bool} {input : Bytes} {pairs pairs' : List (Bytes × Bytes)}

theorem applyFirst_cons_of_fires {rule result : Bytes} (h : Fires E input rule) :
    applyFirst E keepEmpty input ((rule, result) :: pairs) =
      replacement E keepEmpty input rule result := by
  rw [applyFirst, if_pos h]

theorem applyFirst_cons_of_not_fires {rule result : Bytes} (h : ¬ Fires E input rule) :
    applyFirst E keepEmpty input ((rule, result) :: pairs) =
      applyFirst E keepEmpty input pairs := by
  rw [applyFirst, if_neg h]

/-- Pairs behind one that fires are not tried. -/
theorem applyFirst_append_of_fires (h : ∃ pair ∈ pairs, Fires E input pair.1) :
    applyFirst E keepEmpty input (pairs ++ pairs') = applyFirst E keepEmpty input pairs := by
  -- on the pairs: either the head fires, or the pair that fires is further on
  induction pairs with
  | nil =>
    obtain ⟨pair, hmem, -⟩ := h
    cases hmem
  | cons head pairs ih =>
    obtain ⟨rule, result⟩ := head
    rw [List.cons_append]
    by_cases hfires : Fires E input rule
    · rw [applyFirst_cons_of_fires hfires, applyFirst_cons_of_fires hfires]
    · rw [applyFirst_cons_of_not_fires hfires, applyFirst_cons_of_not_fires hfires]
      apply ih
      obtain ⟨pair, hmem, hpair⟩ := h
      rcases List.mem_cons.mp hmem with rfl | hmem
      · exact absurd hpair hfires
      · exact ⟨pair, hmem, hpair⟩

variable (keepEmpty pairs') in
/-- Pairs that do not fire change nothing. -/
theorem applyFirst_append_of_not_fires (h : ¬ ∃ pair ∈ pairs, Fires E input pair.1) :
    applyFirst E keepEmpty input (pairs ++ pairs') = applyFirst E keepEmpty input pairs' := by
  induction pairs with
  | nil => rfl
  | cons head pairs ih =>
    obtain ⟨rule, result⟩ := head
    have hfires : ¬ Fires E input rule := by
      intro hrule
      exact h ⟨(rule, result), List.mem_cons_self, hrule⟩
    rw [List.cons_append, applyFirst_cons_of_not_fires hfires]
    apply ih
    rintro ⟨pair, hmem, hpair⟩
    exact h ⟨pair, List.mem_cons_of_mem _ hmem, hpair⟩

end ApplyFirst

/-! ## Chunk by chunk -/

section Chunks

variable {m : Nat} {r s : Bytes} {rules results : List Bytes}

theorem chunks_of_none (h : searchSplitToken s = none) : chunks s = [s] := by
  rw [searchSplitToken_eq_memmem] at h
  exact pieces_of_none h

theorem chunks_of_some {p : Nat} (h : searchSplitToken s = some p) :
    chunks s = s.take p :: chunks (s.drop (p + regexpSplitTokenLen)) := by
  rw [searchSplitToken_eq_memmem] at h
  exact pieces_of_some h

theorem chunks_ne_nil (s : Bytes) : chunks s ≠ [] := pieces_ne_nil splitToken s

theorem chunks_eq_nil_iff : chunks s = [[]] ↔ s = [] := pieces_eq_nil_iff

/-- The chunks, put together again. -/
theorem intercalate_chunks (s : Bytes) : splitToken.bytes.intercalate (chunks s) = s :=
  intercalate_pieces splitToken s

theorem triedPairs_cons (hrules : rules ≠ []) (hresults : results ≠ []) :
    triedPairs (m + 1) (r :: rules) (s :: results) = (r, s) :: triedPairs m rules results := by
  rw [triedPairs, List.dropLast_cons_of_ne_nil hrules, List.dropLast_cons_of_ne_nil hresults,
    List.zip_cons_cons, List.take_succ_cons, triedPairs]

/-- A last chunk is not tried in the loop. -/
theorem triedPairs_of_tail (h : rules = [] ∨ results = []) :
    triedPairs m (r :: rules) (s :: results) = [] := by
  rw [triedPairs]
  rcases h with rfl | rfl
  · rw [List.dropLast_singleton, List.zip_nil_left, List.take_nil]
  · rw [List.dropLast_singleton, List.zip_nil_right, List.take_nil]

theorem lastPair_cons (hrules : rules ≠ []) (hresults : results ≠ []) :
    lastPair (m + 1) (r :: rules) (s :: results) = lastPair m rules results := by
  rw [lastPair, triedPairs_cons hrules hresults]
  rfl

theorem lastPair_of_tail (h : rules = [] ∨ results = []) :
    lastPair m (r :: rules) (s :: results) = (r, s) := by
  rw [lastPair, triedPairs_of_tail h]
  rfl

theorem leftoverPair_of_tail (h : rules = [] ∨ results = []) :
    leftoverPair m (r :: rules) (s :: results) = none := by
  rw [leftoverPair, triedPairs_of_tail h]
  rfl

/-- Behind a pair that is tried there may be a leftover pair, or the search for one goes on. -/
theorem leftoverPair_cons (hrules : rules ≠ []) (hresults : results ≠ []) :
    leftoverPair (m + 1) (r :: rules) (s :: results) =
      if m = 0 then some (splitToken.bytes.intercalate (r :: rules), s)
      else if rules = [[]] then some ([], s)
      else if results = [[]] then some (splitToken.bytes.intercalate rules, [])
      else leftoverPair m rules results := by
  -- whether a pair is left over depends on how many pairs are tried behind this one
  rw [leftoverPair, triedPairs_cons hrules hresults, leftoverPair]
  simp only [List.length_cons]
  rcases hk : (triedPairs m rules results).length with _ | k
  · simp [eq_comm]
  · -- both lists go on behind a pair that is tried
    have hmore : ∀ l : List Bytes, (k + 1 ≤ l.dropLast.length) → l ≠ [[]] := by
      rintro l hl rfl
      simp at hl
    have hle : k + 1 ≤ rules.dropLast.length ∧ k + 1 ≤ results.dropLast.length ∧ k + 1 ≤ m := by
      rw [triedPairs, List.length_take, List.length_zip] at hk
      omega
    have hm : m ≠ 0 := by omega
    rw [if_neg hm, if_neg (hmore rules hle.1), if_neg (hmore results hle.2.1)]
    simp

theorem scalarPairs_of_tail (h : rules = [] ∨ results = []) :
    scalarPairs m (r :: rules) (s :: results) = [(r, s)] := by
  rw [scalarPairs, triedPairs_of_tail h, leftoverPair_of_tail h, lastPair_of_tail h]
  rfl

theorem arrayPairs_of_tail (h : rules = [] ∨ results = []) :
    arrayPairs m (r :: rules) (s :: results) = [(r, s)] := by
  rw [arrayPairs, triedPairs_of_tail h, leftoverPair_of_tail h, lastPair_of_tail h]
  rfl

/-- The scalar form gives up at the limit, and when nothing follows a separator. -/
theorem scalarPairs_cons (hrules : rules ≠ []) (hresults : results ≠ []) :
    scalarPairs (m + 1) (r :: rules) (s :: results) =
      (r, s) :: if m = 0 ∨ rules = [[]] ∨ results = [[]] then []
        else scalarPairs m rules results := by
  rw [scalarPairs, triedPairs_cons hrules hresults, leftoverPair_cons hrules hresults,
    lastPair_cons hrules hresults, List.cons_append]
  congr 1
  by_cases hm : m = 0
  · subst hm
    rw [if_pos rfl, if_neg (Option.some_ne_none _), if_pos (.inl rfl), triedPairs, List.take_zero]
    rfl
  · by_cases hrule : rules = [[]]
    · subst hrule
      rw [if_neg hm, if_pos rfl, if_neg (Option.some_ne_none _), if_pos (.inr (.inl rfl))]
      -- nothing is tried behind an empty last chunk
      obtain ⟨s', results, rfl⟩ := List.exists_cons_of_ne_nil hresults
      rw [triedPairs_of_tail (.inl rfl), List.append_nil]
    · by_cases hresult : results = [[]]
      · subst hresult
        rw [if_neg hm, if_neg hrule, if_pos rfl, if_neg (Option.some_ne_none _),
          if_pos (.inr (.inr rfl))]
        obtain ⟨r', rules, rfl⟩ := List.exists_cons_of_ne_nil hrules
        rw [triedPairs_of_tail (.inr rfl), List.append_nil]
      · have hnone : ¬ (m = 0 ∨ rules = [[]] ∨ results = [[]]) := by
          rintro (h | h | h)
          · exact hm h
          · exact hrule h
          · exact hresult h
        rw [if_neg hm, if_neg hrule, if_neg hresult, if_neg hnone, scalarPairs]

/-- The form for arrays goes on with what its pointers point to. -/
theorem arrayPairs_cons (hrules : rules ≠ []) (hresults : results ≠ []) :
    arrayPairs (m + 1) (r :: rules) (s :: results) =
      (r, s) :: if m = 0 then [(splitToken.bytes.intercalate (r :: rules), s)]
        else if rules = [[]] then [([], s)]
        else if results = [[]] then [(splitToken.bytes.intercalate rules, [])]
        else arrayPairs m rules results := by
  rw [arrayPairs, triedPairs_cons hrules hresults, leftoverPair_cons hrules hresults,
    lastPair_cons hrules hresults, List.cons_append]
  congr 1
  by_cases hm : m = 0
  · subst hm
    rw [if_pos rfl, if_pos rfl, triedPairs, List.take_zero]
    rfl
  · rw [if_neg hm, if_neg hm]
    by_cases hrule : rules = [[]]
    · subst hrule
      rw [if_pos rfl, if_pos rfl]
      obtain ⟨s', results, rfl⟩ := List.exists_cons_of_ne_nil hresults
      rw [triedPairs_of_tail (.inl rfl)]
      rfl
    · rw [if_neg hrule, if_neg hrule]
      by_cases hresult : results = [[]]
      · subst hresult
        rw [if_pos rfl, if_pos rfl]
        obtain ⟨r', rules, rfl⟩ := List.exists_cons_of_ne_nil hrules
        rw [triedPairs_of_tail (.inr rfl)]
        rfl
      · rw [if_neg hresult, if_neg hresult, arrayPairs]

end Chunks

end YetiPgExt.Regexp
