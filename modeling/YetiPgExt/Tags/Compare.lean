import YetiPgExt.Tags.ValueSet
import Mathlib.Data.Finset.Lattice.Basic

/-!
# `tag_compare`

The comparison of the tags of a call with the tags of an object, in three modes. The arguments are
arrays of `int4`, the mode is an `int2` that defaults to `MATCH_MODE_B_IN_A`.

`compareSets_eq_relation`: between two arrays with elements the result is the relation of their
sets of values, except that in the mode `MATCH_MODE_INTERSECTION` a second array of NULLs only is
not found disjoint (`compareSets_intersection_of_nulls`).
-/

set_option autoImplicit false

namespace YetiPgExt.Tags

open YetiPgExt.Library

/-- `enum result_code` -/
inductive ResultCode where
  | notMatched
  | matchedWithNull
  | matchedWithoutNull
  | matchedExactly
  deriving DecidableEq, Repr

/-- The `int4` of a result code. -/
def ResultCode.toInt32 : ResultCode → Int32
  | .notMatched => 0
  | .matchedWithNull => 1
  | .matchedWithoutNull => 2
  | .matchedExactly => 3

/-- `enum matching_mode` -/
inductive MatchingMode where
  | bInA
  | mutualMode
  | intersection
  deriving DecidableEq, Repr

/-- The `int2` of a matching mode. -/
def MatchingMode.toInt16 : MatchingMode → Int16
  | .bInA => 0
  | .mutualMode => 1
  | .intersection => 2

/-- The error of `tag_compare`. -/
def unknownMatchingMode (mode : Int16) : String :=
  "tag_compare(): unknown matching mode: " ++ toString mode.toInt

/-! ## The loops -/

/-- The loop over `a`: its set of values, and whether it has a NULL. -/
def fillASet : IntArray → List Int32 → Bool → List Int32 × Bool
  | [], aset, aHasNull => (aset, aHasNull)
  | none :: a, aset, _ => fillASet a aset true
  | some v :: a, aset, aHasNull =>
    if inSet aset v then fillASet a aset aHasNull else fillASet a (aset ++ [v]) aHasNull

/-- How the loop over `b` is left: by its `return`, or behind it with `ret` and `bset`. -/
inductive BLoopExit where
  | returned (ret : ResultCode)
  | done (ret : ResultCode) (bset : List Int32)
  deriving DecidableEq, Repr

/-- `if(!set_contains_value(bset,bpos,v)) bset[++bpos] = v;` -/
def pushB (bset : List Int32) (v : Int32) : List Int32 :=
  if !inSet bset v then bset ++ [v] else bset

/-- The loop over `b`. -/
def bLoop (mode : MatchingMode) (aset : List Int32) (aHasNull : Bool) :
    IntArray → ResultCode → List Int32 → BLoopExit
  | [], ret, bset => .done ret bset
  | none :: b, ret, bset => bLoop mode aset aHasNull b ret bset
  | some v :: b, ret, bset =>
    if !inSet aset v then
      if aHasNull then
        if mode = .bInA then .done .matchedWithNull bset
        else bLoop mode aset aHasNull b .matchedWithNull (pushB bset v)
      else
        if mode ≠ .intersection then .done .notMatched bset
        else bLoop mode aset aHasNull b .notMatched (pushB bset v)
    else if mode = .intersection then .returned .matchedExactly
    else bLoop mode aset aHasNull b ret (pushB bset v)

/-- The additional check of the mode `MATCH_MODE_MUTUAL`, from the entry at `d - 1` of `aset` down
to the first. A `continue` goes on with the condition, which steps `d` down. -/
def mutualCheck (aset bset : List Int32) : Nat → ResultCode → ResultCode
  | 0, ret => ret
  | d + 1, ret =>
    if inSet bset (aset.getD d 0) then mutualCheck aset bset d ret else .notMatched

/-- `tag_compare` behind the loop over `b`. -/
def afterBLoop (mode : MatchingMode) (aset : List Int32) : BLoopExit → ResultCode
  | .returned ret => ret
  | .done ret bset =>
    let ret :=
      if ret = .matchedWithoutNull ∧ aset.length = bset.length then .matchedExactly else ret
    if mode = .mutualMode ∧ 0 < aset.length then mutualCheck aset bset aset.length ret else ret

/-- `tag_compare` of a known mode. -/
def compareSets (mode : MatchingMode) (a b : IntArray) : ResultCode :=
  if a.length = 0 then
    if b.length = 0 then .matchedExactly else .notMatched
  else if b.length = 0 then .notMatched
  else
    let (aset, aHasNull) := fillASet a [] false
    afterBLoop mode aset (bLoop mode aset aHasNull b .matchedWithoutNull [])

/-- The mode of a call. `none` is a missing or NULL third argument. -/
def matchMode : Option Int16 → Except String MatchingMode
  | none => .ok .bInA
  | some mode =>
    if mode = MatchingMode.bInA.toInt16 then .ok .bInA
    else if mode = MatchingMode.mutualMode.toInt16 then .ok .mutualMode
    else if mode = MatchingMode.intersection.toInt16 then .ok .intersection
    else .error (unknownMatchingMode mode)

/-- `tag_compare`, with `none` for a NULL array. -/
def tagCompare (a b : Option IntArray) (mode : Option Int16) : Except String Int32 :=
  match a, b with
  | none, _ => .ok ResultCode.notMatched.toInt32
  | some _, none => .ok ResultCode.notMatched.toInt32
  | some a, some b => do
    let mode ← matchMode mode
    return (compareSets mode a b).toInt32

theorem matchMode_toInt16 (mode : MatchingMode) : matchMode (some mode.toInt16) = .ok mode := by
  cases mode <;> rfl

theorem tagCompare_toInt16 (a b : IntArray) (mode : MatchingMode) :
    tagCompare (some a) (some b) (some mode.toInt16) = .ok (compareSets mode a b).toInt32 := by
  simp only [tagCompare, matchMode_toInt16]
  rfl

/-! ## What the loops compute -/

theorem pushB_eq_addDistinct (bset : List Int32) (v : Int32) :
    pushB bset v = addDistinct bset v := by
  rw [pushB, addDistinct]
  by_cases hv : v ∈ bset
  · rw [if_pos hv, inSet_iff.mpr hv]
    rfl
  · rw [if_neg hv, inSet_eq_false_iff.mpr hv]
    rfl

theorem fillASet_eq (a : IntArray) (aset : List Int32) (aHasNull : Bool) :
    fillASet a aset aHasNull =
      (a.reduceOption.foldl addDistinct aset, aHasNull || decide (none ∈ a)) := by
  induction a generalizing aset aHasNull with
  | nil => simp [fillASet]
  | cons o a ih =>
    cases o with
    | none => simp [fillASet, ih]
    | some v =>
      rw [fillASet, ih, ih, List.reduceOption_cons_of_some, List.foldl_cons, addDistinct]
      by_cases hv : v ∈ aset
      · simp [hv, inSet_iff.mpr hv]
      · simp [hv, inSet_eq_false_iff.mpr hv]

theorem fillASet_nub (a : IntArray) : fillASet a [] false = (nub a, decide (none ∈ a)) := by
  rw [fillASet_eq, foldl_addDistinct_nil, Bool.false_or, nub]

section

variable {mode : MatchingMode} {aset : List Int32} {aHasNull : Bool} {b : IntArray}
  {ret : ResultCode} {bset : List Int32} {v : Int32}

theorem bLoop_of_mem (hv : v ∈ aset) :
    bLoop mode aset aHasNull (some v :: b) ret bset =
      if mode = .intersection then .returned .matchedExactly
      else bLoop mode aset aHasNull b ret (addDistinct bset v) := by
  rw [bLoop, inSet_iff.mpr hv, pushB_eq_addDistinct]
  rfl

theorem bLoop_of_not_mem (hv : v ∉ aset) :
    bLoop mode aset aHasNull (some v :: b) ret bset =
      if aHasNull then
        if mode = .bInA then .done .matchedWithNull bset
        else bLoop mode aset aHasNull b .matchedWithNull (addDistinct bset v)
      else
        if mode ≠ .intersection then .done .notMatched bset
        else bLoop mode aset aHasNull b .notMatched (addDistinct bset v) := by
  rw [bLoop, inSet_eq_false_iff.mpr hv, pushB_eq_addDistinct]
  rfl

/-- Where all of `b` is in the first set, the loop leaves `ret` alone and collects `b`. -/
theorem bLoop_of_subset (hmode : mode ≠ .intersection) (h : ∀ v, some v ∈ b → v ∈ aset) :
    bLoop mode aset aHasNull b ret bset = .done ret (b.reduceOption.foldl addDistinct bset) := by
  induction b generalizing bset with
  | nil => rfl
  | cons o b ih =>
    have hb : ∀ v, some v ∈ b → v ∈ aset := by
      intro v hv
      exact h v (List.mem_cons_of_mem _ hv)
    cases o with
    | none => exact ih hb
    | some v =>
      rw [bLoop_of_mem (h v List.mem_cons_self), if_neg hmode, ih hb]
      rfl

theorem mem_of_mem_some_cons {α : Type} {v w : α} {b : List (Option α)} (h : some v ∈ some w :: b)
    (hne : v ≠ w) : some v ∈ b := by
  apply List.mem_of_ne_of_mem _ h
  intro heq
  exact hne (Option.some.inj heq)

/-- What the loop sets `ret` to at a value that is not in the first set. -/
def missingCode (aHasNull : Bool) : ResultCode :=
  if aHasNull then .matchedWithNull else .notMatched

/-- A value that is not in the first set ends the loop in the mode `MATCH_MODE_B_IN_A`, and in the
mode `MATCH_MODE_MUTUAL` if the first array has no NULL. -/
theorem bLoop_ends_of_missing (hmode : mode ≠ .intersection) (hnull : aHasNull → mode = .bInA)
    (h : some v ∈ b) (hv : v ∉ aset) :
    ∃ bset', bLoop mode aset aHasNull b ret bset = .done (missingCode aHasNull) bset' := by
  induction b generalizing bset with
  | nil => cases h
  | cons o b ih =>
    cases o with
    | none => exact ih (List.mem_of_ne_of_mem (Option.some_ne_none v) h)
    | some w =>
      by_cases hw : w ∈ aset
      · have htail := mem_of_mem_some_cons h (ne_of_mem_of_not_mem hw hv).symm
        rw [bLoop_of_mem hw, if_neg hmode]
        exact ih htail
      · rw [bLoop_of_not_mem hw]
        cases aHasNull with
        | false => exact ⟨bset, if_pos hmode⟩
        | true => exact ⟨bset, if_pos (hnull rfl)⟩

/-- In the mode `MATCH_MODE_MUTUAL` a NULL in the first array keeps the loop going. -/
theorem bLoop_mutual_of_missing (h : some v ∈ b) (hv : v ∉ aset) :
    bLoop .mutualMode aset true b ret bset =
      .done .matchedWithNull (b.reduceOption.foldl addDistinct bset) := by
  induction b generalizing ret bset v with
  | nil => cases h
  | cons o b ih =>
    cases o with
    | none => exact ih (List.mem_of_ne_of_mem (Option.some_ne_none v) h) hv
    | some w =>
      by_cases hw : w ∈ aset
      · have htail := mem_of_mem_some_cons h (ne_of_mem_of_not_mem hw hv).symm
        rw [bLoop_of_mem hw]
        exact ih htail hv
      · rw [bLoop_of_not_mem hw]
        -- `ret` stays as it is set here, whether or not the rest of `b` is in the first set
        by_cases hall : ∀ w', some w' ∈ b → w' ∈ aset
        · exact bLoop_of_subset (by decide) hall
        · push Not at hall
          obtain ⟨w', hw', hout⟩ := hall
          exact ih hw' hout

/-- In the mode `MATCH_MODE_INTERSECTION` a common value is found. -/
theorem bLoop_intersection_of_common (h : some v ∈ b) (hv : v ∈ aset) :
    bLoop .intersection aset aHasNull b ret bset = .returned .matchedExactly := by
  induction b generalizing ret bset with
  | nil => cases h
  | cons o b ih =>
    cases o with
    | none => exact ih (List.mem_of_ne_of_mem (Option.some_ne_none v) h)
    | some w =>
      by_cases hw : w ∈ aset
      · exact bLoop_of_mem hw
      · have htail := mem_of_mem_some_cons h (ne_of_mem_of_not_mem hv hw)
        rw [bLoop_of_not_mem hw]
        cases aHasNull with
        | false => exact ih htail
        | true => exact ih htail

/-- Without one the loop goes to the end, and `ret` is set unless `b` has NULLs only. -/
theorem bLoop_intersection_of_disjoint (hret : b.reduceOption ≠ [] ∨ ret = missingCode aHasNull)
    (h : ∀ v, some v ∈ b → v ∉ aset) :
    bLoop .intersection aset aHasNull b ret bset =
      .done (missingCode aHasNull) (b.reduceOption.foldl addDistinct bset) := by
  induction b generalizing ret bset with
  | nil =>
    have hcode := hret.resolve_left (fun hne => hne rfl)
    rw [hcode]
    rfl
  | cons o b ih =>
    have hb : ∀ v, some v ∈ b → v ∉ aset := by
      intro v hv
      exact h v (List.mem_cons_of_mem _ hv)
    cases o with
    | none => exact ih hret hb
    | some w =>
      rw [bLoop_of_not_mem (h w List.mem_cons_self)]
      cases aHasNull with
      | false => exact ih (Or.inr rfl) hb
      | true => exact ih (Or.inr rfl) hb

theorem bLoop_of_nulls (h : ∀ v, some v ∉ b) :
    bLoop mode aset aHasNull b ret bset = .done ret bset := by
  induction b generalizing bset with
  | nil => rfl
  | cons o b ih =>
    cases o with
    | none =>
      apply ih
      intro v hv
      exact h v (List.mem_cons_of_mem _ hv)
    | some w => exact absurd List.mem_cons_self (h w)

end

/-- The additional check keeps `ret` exactly if all of the entries are in the second set. -/
theorem mutualCheck_eq (aset bset : List Int32) (ret : ResultCode) {d : Nat}
    (hd : d ≤ aset.length) :
    mutualCheck aset bset d ret = if aset.take d ⊆ bset then ret else .notMatched := by
  induction d with
  | zero => simp [mutualCheck]
  | succ d ih =>
    have hget : aset.getD d 0 = aset[d] := by
      rw [List.getD_eq_getElem?_getD, List.getElem?_eq_getElem hd]
      rfl
    have htake : aset.take (d + 1) ⊆ bset ↔ aset[d] ∈ bset ∧ aset.take d ⊆ bset := by
      rw [List.take_add_one, List.getElem?_eq_getElem hd, List.append_subset, Option.toList_some,
        List.cons_subset]
      simp [and_comm]
    rw [mutualCheck, hget, ih (Nat.le_of_succ_le hd)]
    simp only [htake, inSet_iff]
    by_cases hin : aset[d] ∈ bset
    · simp [hin]
    · simp [hin]

theorem mutualCheck_all (aset bset : List Int32) (ret : ResultCode) :
    mutualCheck aset bset aset.length ret = if aset ⊆ bset then ret else .notMatched := by
  simp only [mutualCheck_eq aset bset ret (Nat.le_refl _), List.take_length]

/-! ## The relation of the two sets -/

/-- What each mode tells about two sets of values, `A` of an array that has a NULL or has none. -/
def relationCode {α : Type} [DecidableEq α] (mode : MatchingMode) (A B : Finset α)
    (aHasNull : Bool) : ResultCode :=
  match mode with
  | .bInA =>
    if A = B then .matchedExactly
    else if B ⊂ A then .matchedWithoutNull
    else if ¬ B ⊆ A ∧ aHasNull then .matchedWithNull
    else .notMatched
  | .mutualMode =>
    if A = B then .matchedExactly
    else if A ⊂ B ∧ aHasNull then .matchedWithNull
    else .notMatched
  | .intersection =>
    if (A ∩ B).Nonempty then .matchedExactly
    else if Disjoint A B ∧ aHasNull then .matchedWithNull
    else .notMatched

/-- An array without elements matches another one only. -/
theorem compareSets_of_nil {mode : MatchingMode} {a b : IntArray} (h : a = [] ∨ b = []) :
    compareSets mode a b = if a = [] ∧ b = [] then .matchedExactly else .notMatched := by
  cases a with
  | nil =>
    cases b with
    | nil => rfl
    | cons o b => rfl
  | cons o a =>
    have hb : b = [] := h.resolve_left (List.cons_ne_nil o a)
    rw [hb]
    rfl

/-- Two arrays with elements go through the loops. -/
theorem compareSets_of_ne_nil {mode : MatchingMode} {a b : IntArray} (ha : a ≠ []) (hb : b ≠ []) :
    compareSets mode a b =
      afterBLoop mode (nub a)
        (bLoop mode (nub a) (decide (none ∈ a)) b .matchedWithoutNull []) := by
  have ha' : a.length ≠ 0 := fun h => ha (List.eq_nil_of_length_eq_zero h)
  have hb' : b.length ≠ 0 := fun h => hb (List.eq_nil_of_length_eq_zero h)
  rw [compareSets, if_neg ha', if_neg hb', fillASet_nub]

section

variable {mode : MatchingMode} {a b : IntArray}

/-- The first set has all values of `b`: the loop collects them. -/
theorem bLoop_collects (hmode : mode ≠ .intersection) (h : tagValues b ⊆ tagValues a) :
    bLoop mode (nub a) (decide (none ∈ a)) b .matchedWithoutNull [] =
      .done .matchedWithoutNull (nub b) := by
  rw [bLoop_of_subset hmode, foldl_addDistinct_nil, nub]
  intro v hv
  exact mem_nub.mpr (tagValues_subset_iff.mp h v hv)

/-- The first set misses a value of `b`. -/
theorem exists_missing (h : ¬ tagValues b ⊆ tagValues a) : ∃ v, some v ∈ b ∧ v ∉ nub a := by
  rw [tagValues_subset_iff] at h
  push Not at h
  obtain ⟨v, hv, hout⟩ := h
  exact ⟨v, hv, fun hin => hout (mem_nub.mp hin)⟩

theorem nub_subset_nub_iff : nub a ⊆ nub b ↔ tagValues a ⊆ tagValues b := by
  rw [tagValues_subset_iff]
  constructor
  · intro h v hv
    exact mem_nub.mp (h (mem_nub.mpr hv))
  · intro h v hv
    exact mem_nub.mpr (h v (mem_nub.mp hv))

/-- Behind the loop, all of `b` found in the first set. -/
theorem afterBLoop_of_subset (h : tagValues b ⊆ tagValues a) :
    afterBLoop mode (nub a) (.done .matchedWithoutNull (nub b)) =
      if tagValues a = tagValues b then .matchedExactly
      else if mode = .mutualMode then .notMatched
      else .matchedWithoutNull := by
  by_cases heq : tagValues a = tagValues b
  · have hlen := (length_nub_eq_iff h).mpr heq
    have hsub := nub_subset_nub_iff.mpr heq.subset
    simp only [afterBLoop, mutualCheck_all]
    simp [hlen, heq, hsub]
  · have hlen : (nub a).length ≠ (nub b).length := fun hlen => heq ((length_nub_eq_iff h).mp hlen)
    have hsub : ¬ nub a ⊆ nub b := fun hsub => heq ((nub_subset_nub_iff.mp hsub).antisymm h)
    have hpos : 0 < (nub a).length := by
      apply List.length_pos_iff.mpr
      intro hnil
      exact hsub (hnil ▸ List.nil_subset _)
    simp [afterBLoop, hlen, heq, hpos, mutualCheck_all, hsub]

/-- Behind the loop, a value of `b` not found in the first set. -/
theorem afterBLoop_of_missing (aset bset : List Int32) (aHasNull : Bool) :
    afterBLoop mode aset (.done (missingCode aHasNull) bset) =
      if mode = .mutualMode ∧ ¬ aset ⊆ bset then .notMatched else missingCode aHasNull := by
  have hne : missingCode aHasNull ≠ .matchedWithoutNull := by
    cases aHasNull with
    | false => decide
    | true => decide
  by_cases hmode : mode = .mutualMode
  · by_cases hsub : aset ⊆ bset
    · simp [afterBLoop, hne, hmode, mutualCheck_all, hsub]
    · have hpos : 0 < aset.length := by
        apply List.length_pos_iff.mpr
        intro hnil
        exact hsub (hnil ▸ List.nil_subset _)
      simp [afterBLoop, hne, hmode, hpos, mutualCheck_all, hsub]
  · simp [afterBLoop, hne, hmode]

theorem compareSets_bInA (ha : a ≠ []) (hb : b ≠ []) :
    compareSets .bInA a b =
      relationCode .bInA (tagValues a) (tagValues b) (decide (none ∈ a)) := by
  rw [compareSets_of_ne_nil ha hb, relationCode]
  by_cases hsub : tagValues b ⊆ tagValues a
  · rw [bLoop_collects (by decide) hsub, afterBLoop_of_subset hsub]
    by_cases heq : tagValues a = tagValues b
    · rw [if_pos heq, if_pos heq]
    · have hss : tagValues b ⊂ tagValues a := hsub.ssubset_of_ne (Ne.symm heq)
      rw [if_neg heq, if_neg heq, if_pos hss]
      rfl
  · obtain ⟨v, hv, hout⟩ := exists_missing hsub
    have hends : ∃ bset, bLoop .bInA (nub a) (decide (none ∈ a)) b .matchedWithoutNull [] =
        .done (missingCode (decide (none ∈ a))) bset :=
      bLoop_ends_of_missing (by decide) (fun _ => rfl) hv hout
    obtain ⟨bset, hloop⟩ := hends
    have hne : tagValues a ≠ tagValues b := fun heq => hsub heq.symm.subset
    have hss : ¬ tagValues b ⊂ tagValues a := fun h => hsub h.subset
    rw [hloop, afterBLoop_of_missing, if_neg hne, if_neg hss]
    simp [hsub, missingCode]

theorem compareSets_mutual (ha : a ≠ []) (hb : b ≠ []) :
    compareSets .mutualMode a b =
      relationCode .mutualMode (tagValues a) (tagValues b) (decide (none ∈ a)) := by
  rw [compareSets_of_ne_nil ha hb, relationCode]
  by_cases hsub : tagValues b ⊆ tagValues a
  · have hss : ¬ tagValues a ⊂ tagValues b := fun h => h.not_subset hsub
    rw [bLoop_collects (by decide) hsub, afterBLoop_of_subset hsub]
    simp [hss]
  · obtain ⟨v, hv, hout⟩ := exists_missing hsub
    have hne : tagValues a ≠ tagValues b := fun heq => hsub heq.symm.subset
    have hss : tagValues a ⊂ tagValues b ↔ nub a ⊆ nub b := by
      rw [nub_subset_nub_iff]
      exact ⟨fun h => h.subset, fun h => h.ssubset_of_ne hne⟩
    by_cases hnull : none ∈ a
    · rw [decide_eq_true hnull, bLoop_mutual_of_missing hv hout, foldl_addDistinct_nil, ← nub]
      rw [show ResultCode.matchedWithNull = missingCode true from rfl, afterBLoop_of_missing]
      simp [hne, hss, missingCode]
    · have hends : ∃ bset, bLoop .mutualMode (nub a) false b .matchedWithoutNull [] =
          .done (missingCode false) bset :=
        bLoop_ends_of_missing (by decide) (fun h => absurd h (by decide)) hv hout
      obtain ⟨bset, hloop⟩ := hends
      rw [decide_eq_false hnull, hloop, afterBLoop_of_missing]
      simp [hne, missingCode]

/-- In the mode `MATCH_MODE_INTERSECTION` the second array needs a value. -/
theorem compareSets_intersection (ha : a ≠ []) (hb : (tagValues b).Nonempty) :
    compareSets .intersection a b =
      relationCode .intersection (tagValues a) (tagValues b) (decide (none ∈ a)) := by
  obtain ⟨w, hw⟩ := tagValues_nonempty_iff.mp hb
  have hval : b.reduceOption ≠ [] := List.ne_nil_of_mem (List.reduceOption_mem_iff.mpr hw)
  rw [compareSets_of_ne_nil ha (List.ne_nil_of_mem hw), relationCode]
  by_cases hcommon : (tagValues a ∩ tagValues b).Nonempty
  · obtain ⟨v, hv⟩ := hcommon
    obtain ⟨hva, hvb⟩ := Finset.mem_inter.mp hv
    have hin : v ∈ nub a := mem_nub.mpr (mem_tagValues.mp hva)
    rw [bLoop_intersection_of_common (mem_tagValues.mp hvb) hin, if_pos ⟨v, hv⟩]
    rfl
  · have hdisj : Disjoint (tagValues a) (tagValues b) := by
      by_contra h
      exact hcommon (Finset.not_disjoint_iff_nonempty_inter.mp h)
    have hmissing : ∀ v, some v ∈ b → v ∉ nub a := by
      intro v hv hin
      apply Finset.disjoint_left.mp hdisj (mem_tagValues.mpr (mem_nub.mp hin))
      exact mem_tagValues.mpr hv
    rw [bLoop_intersection_of_disjoint (Or.inl hval) hmissing, afterBLoop_of_missing,
      if_neg hcommon]
    simp [hdisj, missingCode]

/-- A second array of NULLs only leaves `ret` as it is set in front of the loop. -/
theorem compareSets_intersection_of_nulls (ha : a ≠ []) (hb : b ≠ []) (h : ∀ v, some v ∉ b) :
    compareSets .intersection a b =
      if tagValues a = ∅ then .matchedExactly else .matchedWithoutNull := by
  have hnil : nub b = [] := nub_eq_nil_iff.mpr h
  have hempty : tagValues b = ∅ := by
    rw [← Finset.not_nonempty_iff_eq_empty, tagValues_nonempty_iff]
    exact fun ⟨v, hv⟩ => h v hv
  have hsub : tagValues b ⊆ tagValues a := hempty ▸ Finset.empty_subset _
  rw [compareSets_of_ne_nil ha hb, bLoop_of_nulls h, ← hnil, afterBLoop_of_subset hsub, hempty]
  rfl

/-- Where the second array has a value, every mode tells the relation of the two sets. -/
theorem compareSets_eq_relation (ha : a ≠ []) (hb : (tagValues b).Nonempty) :
    compareSets mode a b =
      relationCode mode (tagValues a) (tagValues b) (decide (none ∈ a)) := by
  obtain ⟨w, hw⟩ := tagValues_nonempty_iff.mp hb
  have hb' : b ≠ [] := List.ne_nil_of_mem hw
  cases mode with
  | bInA => exact compareSets_bInA ha hb'
  | mutualMode => exact compareSets_mutual ha hb'
  | intersection => exact compareSets_intersection ha hb

/-- The order of the elements, their number and further NULLs do not matter. -/
theorem compareSets_congr {a' b' : IntArray} (ha : ∀ o, o ∈ a' ↔ o ∈ a) (hb : ∀ o, o ∈ b' ↔ o ∈ b) :
    compareSets mode a' b' = compareSets mode a b := by
  have nil_iff : ∀ {x x' : IntArray}, (∀ o, o ∈ x' ↔ o ∈ x) → (x' = [] ↔ x = []) := by
    intro x x' h
    simp only [List.eq_nil_iff_forall_not_mem, h]
  have values_eq : ∀ {x x' : IntArray}, (∀ o, o ∈ x' ↔ o ∈ x) → tagValues x' = tagValues x := by
    intro x x' h
    ext v
    rw [mem_tagValues, mem_tagValues, h]
  have hnull : decide (none ∈ a') = decide (none ∈ a) := by simp only [ha]
  by_cases hnil : a = [] ∨ b = []
  · have hnil' : a' = [] ∨ b' = [] := by rwa [nil_iff ha, nil_iff hb]
    rw [compareSets_of_nil hnil, compareSets_of_nil hnil']
    simp only [nil_iff ha, nil_iff hb]
  · push Not at hnil
    obtain ⟨hane, hbne⟩ := hnil
    have hane' : a' ≠ [] := fun h => hane ((nil_iff ha).mp h)
    have hbne' : b' ≠ [] := fun h => hbne ((nil_iff hb).mp h)
    cases mode with
    | bInA => rw [compareSets_bInA hane hbne, compareSets_bInA hane' hbne', values_eq ha,
        values_eq hb, hnull]
    | mutualMode => rw [compareSets_mutual hane hbne, compareSets_mutual hane' hbne', values_eq ha,
        values_eq hb, hnull]
    | intersection =>
      by_cases hval : ∃ v, some v ∈ b
      · have hB := tagValues_nonempty_iff.mpr hval
        have hB' : (tagValues b').Nonempty := by rwa [values_eq hb]
        rw [compareSets_intersection hane hB, compareSets_intersection hane' hB', values_eq ha,
          values_eq hb, hnull]
      · push Not at hval
        have hval' : ∀ v, some v ∉ b' := fun v hv => hval v ((hb _).mp hv)
        rw [compareSets_intersection_of_nulls hane hbne hval,
          compareSets_intersection_of_nulls hane' hbne' hval', values_eq ha]

end

/-- `tag_compare` tells the relation of the sets of values of its arrays. -/
theorem tagCompare_eq_relation (a b : IntArray) (mode : MatchingMode) :
    (a = [] ∨ b = [] →
      tagCompare (some a) (some b) (some mode.toInt16) = .ok (if a = [] ∧ b = [] then 3 else 0)) ∧
    (a ≠ [] → (tagValues b).Nonempty →
      tagCompare (some a) (some b) (some mode.toInt16) =
        .ok (relationCode mode (tagValues a) (tagValues b) (decide (none ∈ a))).toInt32) ∧
    (∀ a' b' : IntArray, (∀ o, o ∈ a' ↔ o ∈ a) → (∀ o, o ∈ b' ↔ o ∈ b) →
      tagCompare (some a') (some b') (some mode.toInt16) =
        tagCompare (some a) (some b) (some mode.toInt16)) := by
  refine ⟨?_, ?_, ?_⟩
  · intro hnil
    rw [tagCompare_toInt16, compareSets_of_nil hnil]
    split
    · rfl
    · rfl
  · intro ha hb
    rw [tagCompare_toInt16, compareSets_eq_relation ha hb]
  · intro a' b' ha hb
    rw [tagCompare_toInt16, tagCompare_toInt16, compareSets_congr ha hb]

theorem tagCompare_with_null :
    tagCompare (some [some 2, none, some 1, some 2]) (some [some 3, none, some 1]) (some 0) =
      .ok 1 := by
  have h := (tagCompare_eq_relation [some 2, none, some 1, some 2] [some 3, none, some 1] .bInA).2.1
    (by decide) (by decide)
  rw [show MatchingMode.bInA.toInt16 = 0 from rfl] at h
  rw [h]
  decide

/-! ## NULLs in the second array -/

theorem ResultCode.toInt32_inj {r r' : ResultCode} : r.toInt32 = r'.toInt32 ↔ r = r' := by
  cases r <;> cases r' <;> decide

section

variable {mode : MatchingMode} {a b : IntArray}

theorem tagValues_filter_isSome : tagValues (b.filter Option.isSome) = tagValues b := by
  ext v
  simp

theorem filter_isSome_eq_nil_iff : b.filter Option.isSome = [] ↔ ∀ v, some v ∉ b := by
  rw [List.filter_eq_nil_iff]
  constructor
  · intro h v hv
    exact h (some v) hv rfl
  · intro h o ho
    cases o with
    | none => exact Bool.false_ne_true
    | some v => exact absurd ho (h v)

/-- As long as `b` keeps a value, its NULLs can go. -/
theorem compareSets_filter_of_value (h : ∃ v, some v ∈ b) :
    compareSets mode a (b.filter Option.isSome) = compareSets mode a b := by
  obtain ⟨v, hv⟩ := h
  have hb : b ≠ [] := List.ne_nil_of_mem hv
  have hb' : b.filter Option.isSome ≠ [] := fun hnil => filter_isSome_eq_nil_iff.mp hnil v hv
  by_cases ha : a = []
  · rw [compareSets_of_nil (Or.inl ha), compareSets_of_nil (Or.inl ha)]
    simp only [hb, hb', and_false]
  · have hB : (tagValues b).Nonempty := tagValues_nonempty_iff.mpr ⟨v, hv⟩
    have hB' : (tagValues (b.filter Option.isSome)).Nonempty := by rwa [tagValues_filter_isSome]
    rw [compareSets_eq_relation ha hB, compareSets_eq_relation ha hB', tagValues_filter_isSome]

/-- What is left of NULLs only has no elements, which tells the two arrays apart unless the mode is
`MATCH_MODE_MUTUAL` and `a` has a value. -/
theorem compareSets_filter_of_nulls (hb : b ≠ []) (h : ∀ v, some v ∉ b) :
    compareSets mode a (b.filter Option.isSome) = compareSets mode a b ↔
      mode = .mutualMode ∧ ∃ v, some v ∈ a := by
  have hnil : b.filter Option.isSome = [] := filter_isSome_eq_nil_iff.mpr h
  have hempty : tagValues b = ∅ := by
    rw [← Finset.not_nonempty_iff_eq_empty, tagValues_nonempty_iff]
    exact fun ⟨v, hv⟩ => h v hv
  have hvalues : (∃ v, some v ∈ a) ↔ tagValues a ≠ ∅ := by
    rw [← tagValues_nonempty_iff, Finset.nonempty_iff_ne_empty]
  rw [hnil, compareSets_of_nil (Or.inr rfl), hvalues]
  by_cases ha : a = []
  · rw [compareSets_of_nil (Or.inl ha), ha]
    simp [hb, tagValues]
  · rw [if_neg (fun hand => ha hand.1)]
    by_cases hA : tagValues a = ∅
    · cases mode with
      | bInA => simp [compareSets_bInA ha hb, relationCode, hA, hempty]
      | mutualMode => simp [compareSets_mutual ha hb, relationCode, hA, hempty]
      | intersection => simp [compareSets_intersection_of_nulls ha hb h, hA]
    · have hss : ∅ ⊂ tagValues a := (Finset.empty_subset _).ssubset_of_ne (Ne.symm hA)
      cases mode with
      | bInA => simp [compareSets_bInA ha hb, relationCode, hA, hempty, hss]
      | mutualMode => simp [compareSets_mutual ha hb, relationCode, hA, hempty]
      | intersection => simp [compareSets_intersection_of_nulls ha hb h, hA]

theorem common_or_null_of_matched (ha : a ≠ []) (h : none ∉ b ∨ ∃ v, some v ∈ b)
    (hmatched : compareSets .intersection a b ≠ .notMatched) :
    (∃ v, some v ∈ a ∧ some v ∈ b) ∨ none ∈ a := by
  by_cases hval : ∃ v, some v ∈ b
  · rw [compareSets_intersection ha (tagValues_nonempty_iff.mpr hval), relationCode] at hmatched
    by_cases hcommon : (tagValues a ∩ tagValues b).Nonempty
    · obtain ⟨v, hv⟩ := hcommon
      rw [Finset.mem_inter, mem_tagValues, mem_tagValues] at hv
      exact Or.inl ⟨v, hv⟩
    · rw [if_neg hcommon] at hmatched
      by_contra hnot
      push Not at hnot
      simp [hnot.2] at hmatched
  · -- an array without NULLs and without values has no elements
    have hnil : b = [] := by
      apply List.eq_nil_iff_forall_not_mem.mpr
      intro o ho
      cases o with
      | none => exact h.resolve_right hval ho
      | some v => exact hval ⟨v, ho⟩
    rw [compareSets_of_nil (Or.inr hnil), if_neg (fun hand => ha hand.1)] at hmatched
    exact absurd rfl hmatched

end

/-- That NULLs in `b` carry no information: without them the result is the same, and in the mode
`MATCH_MODE_INTERSECTION` only a common value or a NULL in `a` matches. -/
def NullsOfBIgnored (a b : IntArray) (mode : MatchingMode) : Prop :=
  tagCompare (some a) (some (b.filter Option.isSome)) (some mode.toInt16) =
      tagCompare (some a) (some b) (some mode.toInt16) ∧
    (mode = .intersection → a ≠ [] →
      tagCompare (some a) (some b) (some mode.toInt16) ≠ .ok 0 →
        (∃ v, some v ∈ a ∧ some v ∈ b) ∨ none ∈ a)

/-- This holds exactly if `b` is not made of NULLs only, or the mode is `MATCH_MODE_MUTUAL` and `a`
has a value: the length checks in front of the loops count NULLs. -/
theorem nullsOfBIgnored_iff (a b : IntArray) (mode : MatchingMode) :
    NullsOfBIgnored a b mode ↔
      none ∉ b ∨ (∃ v, some v ∈ b) ∨ (mode = .mutualMode ∧ ∃ v, some v ∈ a) := by
  have hok : ∀ r r' : ResultCode, (Except.ok r.toInt32 : Except String Int32) =
      .ok r'.toInt32 ↔ r = r' := by
    intro r r'
    rw [Except.ok.injEq, ResultCode.toInt32_inj]
  have hzero : (.ok 0 : Except String Int32) = .ok ResultCode.notMatched.toInt32 := rfl
  simp only [NullsOfBIgnored, tagCompare_toInt16, hzero, ne_eq, hok]
  constructor
  · rintro ⟨heq, -⟩
    by_contra hnot
    push Not at hnot
    obtain ⟨hnull, hval, hmode⟩ := hnot
    obtain ⟨hmutual, v, hv⟩ := (compareSets_filter_of_nulls (List.ne_nil_of_mem hnull) hval).mp heq
    exact hmode hmutual v hv
  · intro h
    constructor
    · by_cases hval : ∃ v, some v ∈ b
      · exact compareSets_filter_of_value hval
      · by_cases hnull : none ∈ b
        · push Not at hval
          apply (compareSets_filter_of_nulls (List.ne_nil_of_mem hnull) hval).mpr
          rcases h with hno | hsome | hmutual
          · exact absurd hnull hno
          · obtain ⟨v, hv⟩ := hsome
            exact absurd hv (hval v)
          · exact hmutual
        · have hself : b.filter Option.isSome = b := by
            apply List.filter_eq_self.mpr
            intro o ho
            cases o with
            | none => exact absurd ho hnull
            | some v => rfl
          rw [hself]
    · intro hmode ha hmatched
      have hb : none ∉ b ∨ ∃ v, some v ∈ b := by
        rcases h with hno | hsome | ⟨hmutual, -⟩
        · exact Or.inl hno
        · exact Or.inr hsome
        · rw [hmode] at hmutual
          cases hmutual
      rw [hmode] at hmatched
      exact common_or_null_of_matched ha hb hmatched

/-- A single NULL matches every array of values in the mode `MATCH_MODE_INTERSECTION`. -/
theorem not_nullsOfBIgnored : ¬ NullsOfBIgnored [some 1] [none] .intersection := by
  rintro ⟨heq, -⟩
  exact absurd heq (by decide)

end YetiPgExt.Tags
