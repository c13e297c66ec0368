import YetiPgExt.Dns.Draw
import Mathlib.Order.Interval.Finset.Nat

/-!
# Draws in proportion to the weights

With weights that are not negative and a total below `RAND_MAX`, a residue takes the first row
without a rank whose running sum is not below it. The running sums of these rows cut the residues
from zero to the total into intervals, one for each row and as long as its weight; the first
interval begins with the residue zero and has one residue more.
-/

set_option autoImplicit false

namespace YetiPgExt.Dns

/-! ## Running sums -/

theorem unrankedSum_append (xs ys : List RowStat) :
    unrankedSum (xs ++ ys) = unrankedSum xs + unrankedSum ys := by
  rw [unrankedSum, List.filter_append, List.map_append, List.sum_append, ← unrankedSum,
    ← unrankedSum]

theorem unrankedSum_eq_zero {xs : List RowStat} (h : ∀ s ∈ xs, s.rank ≠ 0) :
    unrankedSum xs = 0 := by
  induction xs with
  | nil => rfl
  | cons s xs ih =>
    rw [unrankedSum_cons_of_ranked (h s List.mem_cons_self)]
    apply ih
    intro t ht
    exact h t (List.mem_cons_of_mem _ ht)

theorem runningSum_eq {xs : List RowStat} {i : Nat} {s : RowStat} (hget : xs[i]? = some s)
    (hs : s.rank = 0) : runningSum xs i = unrankedSum (xs.take i) + s.w.toInt := by
  have hlast : unrankedSum [s] = s.w.toInt := by
    rw [unrankedSum_cons_of_unranked hs]
    exact Int.add_zero _
  rw [runningSum, List.take_add_one, hget, Option.toList_some, unrankedSum_append, hlast]

section

variable {xs : List RowStat}

theorem unrankedSum_take_le (hnonneg : ∀ s ∈ xs, 0 ≤ s.w.toInt) {i j : Nat} (h : i ≤ j) :
    unrankedSum (xs.take i) ≤ unrankedSum (xs.take j) := by
  have htake : xs.take i = (xs.take j).take i := by rw [List.take_take, Nat.min_eq_left h]
  have hrest : 0 ≤ unrankedSum ((xs.take j).drop i) := by
    apply unrankedSum_nonneg
    intro s hs
    exact hnonneg s (List.mem_of_mem_take (List.mem_of_mem_drop hs))
  have hsplit := congrArg unrankedSum (List.take_append_drop i (xs.take j))
  rw [unrankedSum_append, ← htake] at hsplit
  omega

theorem unrankedSum_take_le_total (hnonneg : ∀ s ∈ xs, 0 ≤ s.w.toInt) (i : Nat) :
    unrankedSum (xs.take i) ≤ unrankedSum xs := by
  rcases Nat.le_total i xs.length with hi | hi
  · have h := unrankedSum_take_le hnonneg hi
    rwa [List.take_length] at h
  · rw [List.take_of_length_le hi]

theorem unrankedSum_take_nonneg (hnonneg : ∀ s ∈ xs, 0 ≤ s.w.toInt) (i : Nat) :
    0 ≤ unrankedSum (xs.take i) := by
  apply unrankedSum_nonneg
  intro s hs
  exact hnonneg s (List.mem_of_mem_take hs)

/-- In 32 bits, the running sums are the sums. -/
theorem toInt_runningSum (hnonneg : ∀ s ∈ xs, 0 ≤ s.w.toInt) (htotal : unrankedSum xs ≤ 2 ^ 31 - 2)
    (i : Nat) : (Int32.ofInt (runningSum xs i)).toInt = runningSum xs i := by
  have hle := unrankedSum_take_le_total hnonneg (i + 1)
  apply toInt_ofInt
  · exact unrankedSum_take_nonneg hnonneg (i + 1)
  · rw [runningSum]
    omega

/-! ## The interval of a row -/

/-- A row without a rank is the first one that a residue reaches exactly if the residue lies behind
the running sum in front of it, if there is one, and not behind its own. -/
theorem first_reachedAt_iff (hnonneg : ∀ s ∈ xs, 0 ≤ s.w.toInt)
    (htotal : unrankedSum xs ≤ 2 ^ 31 - 2) {i : Nat} {s : RowStat} (hget : xs[i]? = some s)
    (hs : s.rank = 0) (r : Int) :
    (ReachedAt xs r i ∧ ∀ j, j < i → ¬ ReachedAt xs r j) ↔
      r ≤ unrankedSum (xs.take i) + s.w.toInt ∧
        ((∃ t ∈ xs.take i, t.rank = 0) → unrankedSum (xs.take i) < r) := by
  have hreached : ∀ j,
      ReachedAt xs r j ↔ ∃ t, xs[j]? = some t ∧ t.rank = 0 ∧ r ≤ runningSum xs j := by
    intro j
    rw [ReachedAt, toInt_runningSum hnonneg htotal]
  rw [hreached i, ← runningSum_eq hget hs]
  constructor
  · rintro ⟨⟨-, -, -, hr⟩, hnone⟩
    refine ⟨hr, fun hfree => ?_⟩
    -- the last row in front without a rank has this running sum
    obtain ⟨j, t, hj, ht, hrun⟩ := exists_runningSum_eq hfree
    have hji : j < i := by
      have hlt := (List.getElem?_eq_some_iff.mp hj).1
      rw [List.length_take] at hlt
      omega
    rw [List.getElem?_take_of_lt hji] at hj
    have hsum : runningSum xs j = unrankedSum (xs.take i) := by
      rw [← hrun, runningSum, runningSum, List.take_take, Nat.min_eq_left hji]
    have hnot := hnone j hji
    rw [hreached j, hsum] at hnot
    by_contra hle
    exact hnot ⟨t, hj, ht, not_lt.mp hle⟩
  · rintro ⟨hr, hfree⟩
    refine ⟨⟨s, hget, hs, hr⟩, ?_⟩
    intro j hj hat
    obtain ⟨t, ht, hrank, hle⟩ := (hreached j).mp hat
    have hmem : t ∈ xs.take i := by
      apply List.mem_of_getElem? (i := j)
      rw [List.getElem?_take_of_lt hj]
      exact ht
    have hlt := hfree ⟨t, hmem, hrank⟩
    have hmono := unrankedSum_take_le hnonneg (i := j + 1) (j := i) hj
    rw [runningSum] at hle
    omega

/-! ## Counting residues -/

/-- The row that a draw takes. -/
def rowOfDraw (xs rest : List RowStat) (draw : Int32) : Except RankFault Nat :=
  (getNextRow (xs ++ rest) xs.length draw).map Prod.fst

theorem rowOfDraw_eq_iff (rest : List RowStat) {draw : Int32} (hdraw : 0 ≤ draw.toInt)
    (hsum : unrankedSum xs + 1 ≠ 0) {i : Nat} (hi : i < xs.length) :
    rowOfDraw xs rest draw = .ok i ↔
      ReachedAt xs (residue xs draw) i ∧ ∀ j, j < i → ¬ ReachedAt xs (residue xs draw) j := by
  have hr : (Int32.ofInt (residue xs draw)).toInt = residue xs draw := toInt_residue hdraw
  have hlt : i < (withSums 0 xs).length := by rwa [length_withSums]
  have hat : ∀ j (h : j < (withSums 0 xs).length),
      reached (Int32.ofInt (residue xs draw)) (withSums 0 xs)[j] = true ↔
        ReachedAt xs (residue xs draw) j := by
    intro j h
    rw [reached_withSums_iff h, hr]
  rw [rowOfDraw, getNextRow_eq rest hsum, Except.map, Except.ok.injEq, List.findIdx_eq hlt,
    hat i hlt]
  apply and_congr_right
  intro _
  constructor
  · intro hnone j hj hreached
    have hfalse := hnone j hj
    rw [(hat j (Nat.lt_trans hj hlt)).mpr hreached] at hfalse
    cases hfalse
  · intro hnone j hj
    rw [Bool.eq_false_iff]
    intro htrue
    exact hnone j hj ((hat j (Nat.lt_trans hj hlt)).mp htrue)

/-- A draw counts by its residue only. -/
theorem getNextRow_residue (rest : List RowStat) (hpos : 0 ≤ unrankedSum xs)
    (htotal : unrankedSum xs ≤ 2 ^ 31 - 2) {draw : Int32} (hdraw : 0 ≤ draw.toInt) :
    getNextRow (xs ++ rest) xs.length draw =
      getNextRow (xs ++ rest) xs.length (Int32.ofInt (draw.toInt % (unrankedSum xs + 1))) := by
  have hne : unrankedSum xs + 1 ≠ 0 := by omega
  have hmod : residue xs draw = draw.toInt % (unrankedSum xs + 1) :=
    Int.tmod_eq_emod_of_nonneg hdraw
  have hlt : draw.toInt % (unrankedSum xs + 1) < unrankedSum xs + 1 :=
    Int.emod_lt_of_pos _ (by omega)
  have hnonneg : 0 ≤ draw.toInt % (unrankedSum xs + 1) := Int.emod_nonneg _ hne
  have hint : (Int32.ofInt (draw.toInt % (unrankedSum xs + 1))).toInt =
      draw.toInt % (unrankedSum xs + 1) := toInt_ofInt hnonneg (by omega)
  have hres : residue xs (Int32.ofInt (draw.toInt % (unrankedSum xs + 1))) =
      draw.toInt % (unrankedSum xs + 1) := by
    rw [residue, hint, Int.tmod_eq_emod_of_nonneg hnonneg, Int.emod_emod]
  rw [getNextRow_eq rest hne, getNextRow_eq rest hne, hres, hmod]

/-- The residues that take a row without a rank, as an interval. -/
theorem rowOfDraw_residue_iff (rest : List RowStat) (hnonneg : ∀ s ∈ xs, 0 ≤ s.w.toInt)
    (htotal : unrankedSum xs ≤ 2 ^ 31 - 2) {i : Nat} {s : RowStat} (hget : xs[i]? = some s)
    (hs : s.rank = 0) {r : Nat} (hr : r < (unrankedSum xs + 1).toNat) :
    rowOfDraw xs rest (Int32.ofInt r) = .ok i ↔
      (r : Int) ≤ unrankedSum (xs.take i) + s.w.toInt ∧
        ((∃ t ∈ xs.take i, t.rank = 0) → unrankedSum (xs.take i) < r) := by
  have hint : (Int32.ofInt (r : Int)).toInt = r := toInt_ofInt (by omega) (by omega)
  have hdraw : 0 ≤ (Int32.ofInt (r : Int)).toInt := by omega
  have hres : residue xs (Int32.ofInt (r : Int)) = r := by
    rw [residue_eq hdraw, hint, Int.toNat_natCast, Nat.mod_eq_of_lt (by omega)]
  rw [rowOfDraw_eq_iff rest hdraw (by omega) (List.getElem?_eq_some_iff.mp hget).1, hres]
  exact first_reachedAt_iff hnonneg htotal hget hs r

/-- The residues that take the first row without a rank are the least ones. -/
theorem filter_residues_of_first (rest : List RowStat) (hnonneg : ∀ s ∈ xs, 0 ≤ s.w.toInt)
    (htotal : unrankedSum xs ≤ 2 ^ 31 - 2) {i : Nat} {s : RowStat} (hget : xs[i]? = some s)
    (hs : s.rank = 0) (hfirst : ∀ t ∈ xs.take i, t.rank ≠ 0) :
    (Finset.range (unrankedSum xs + 1).toNat).filter
      (fun r : Nat => rowOfDraw xs rest (Int32.ofInt r) = .ok i) =
      Finset.range (s.w.toInt.toNat + 1) := by
  have hw : 0 ≤ s.w.toInt := hnonneg s (List.mem_of_getElem? hget)
  have hlast := unrankedSum_take_le_total hnonneg (i + 1)
  have hrun := runningSum_eq hget hs
  rw [runningSum] at hrun
  have hzero : unrankedSum (xs.take i) = 0 := unrankedSum_eq_zero hfirst
  ext r
  rw [Finset.mem_filter, Finset.mem_range, Finset.mem_range]
  constructor
  · rintro ⟨hr, hrow⟩
    have hle := ((rowOfDraw_residue_iff rest hnonneg htotal hget hs hr).mp hrow).1
    omega
  · intro hr
    have hr' : r < (unrankedSum xs + 1).toNat := by omega
    refine ⟨hr', ?_⟩
    apply (rowOfDraw_residue_iff rest hnonneg htotal hget hs hr').mpr
    refine ⟨by omega, ?_⟩
    rintro ⟨t, ht, hrank⟩
    exact absurd hrank (hfirst t ht)

/-- Those that take a later row are the interval behind the sum in front of it. -/
theorem filter_residues_of_later (rest : List RowStat) (hnonneg : ∀ s ∈ xs, 0 ≤ s.w.toInt)
    (htotal : unrankedSum xs ≤ 2 ^ 31 - 2) {i : Nat} {s : RowStat} (hget : xs[i]? = some s)
    (hs : s.rank = 0) (hfree : ∃ t ∈ xs.take i, t.rank = 0) :
    (Finset.range (unrankedSum xs + 1).toNat).filter
      (fun r : Nat => rowOfDraw xs rest (Int32.ofInt r) = .ok i) =
      Finset.Ioc (unrankedSum (xs.take i)).toNat
        ((unrankedSum (xs.take i)).toNat + s.w.toInt.toNat) := by
  have hw : 0 ≤ s.w.toInt := hnonneg s (List.mem_of_getElem? hget)
  have hfront := unrankedSum_take_nonneg hnonneg i
  have hlast := unrankedSum_take_le_total hnonneg (i + 1)
  have hrun := runningSum_eq hget hs
  rw [runningSum] at hrun
  ext r
  rw [Finset.mem_filter, Finset.mem_range, Finset.mem_Ioc]
  constructor
  · rintro ⟨hr, hrow⟩
    obtain ⟨hle, hlt⟩ := (rowOfDraw_residue_iff rest hnonneg htotal hget hs hr).mp hrow
    have hlt' := hlt hfree
    omega
  · rintro ⟨hlt, hle⟩
    have hr' : r < (unrankedSum xs + 1).toNat := by omega
    refine ⟨hr', ?_⟩
    apply (rowOfDraw_residue_iff rest hnonneg htotal hget hs hr').mpr
    exact ⟨by omega, fun _ => by omega⟩

/-- Of the residues, as many take a row as its weight says, and one more if it is the first one
without a rank. -/
theorem getNextRow_proportional (rest : List RowStat) (hnonneg : ∀ s ∈ xs, 0 ≤ s.w.toInt)
    (htotal : unrankedSum xs ≤ 2 ^ 31 - 2) :
    (∀ draw : Int32, 0 ≤ draw.toInt → getNextRow (xs ++ rest) xs.length draw =
      getNextRow (xs ++ rest) xs.length (Int32.ofInt (draw.toInt % (unrankedSum xs + 1)))) ∧
    ∀ i s, xs[i]? = some s → s.rank = 0 →
      ((Finset.range (unrankedSum xs + 1).toNat).filter
        (fun r : Nat => rowOfDraw xs rest (Int32.ofInt r) = .ok i)).card =
        s.w.toInt.toNat + if ∀ t ∈ xs.take i, t.rank ≠ 0 then 1 else 0 := by
  refine ⟨fun draw hdraw => getNextRow_residue rest (unrankedSum_nonneg hnonneg) htotal hdraw, ?_⟩
  intro i s hget hs
  split
  · rename_i hfirst
    rw [filter_residues_of_first rest hnonneg htotal hget hs hfirst, Finset.card_range]
  · rename_i hfirst
    have hfree : ∃ t ∈ xs.take i, t.rank = 0 := by
      by_contra hnone
      apply hfirst
      intro t ht hrank
      exact hnone ⟨t, ht, hrank⟩
    rw [filter_residues_of_later rest hnonneg htotal hget hs hfree, Nat.card_Ioc,
      Nat.add_sub_cancel_left, Nat.add_zero]

theorem getNextRow_proportional_ranked :
    ((Finset.range 6).filter (fun r : Nat =>
      rowOfDraw [⟨0, 3, 0⟩, ⟨1, 5, 0⟩, ⟨0, 2, 0⟩] [] (Int32.ofInt r) = .ok 2)).card = 2 := by
  have hnonneg : ∀ s ∈ [RowStat.mk 0 3 0, ⟨1, 5, 0⟩, ⟨0, 2, 0⟩], 0 ≤ s.w.toInt := by
    intro s hs
    simp only [List.mem_cons, List.not_mem_nil, or_false] at hs
    rcases hs with rfl | rfl | rfl
    · decide
    · decide
    · decide
  exact (getNextRow_proportional [] hnonneg (by decide)).2 2 ⟨0, 2, 0⟩ rfl rfl

end

end YetiPgExt.Dns
