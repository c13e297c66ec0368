import YetiPgExt.Dns.Proportion
import YetiPgExt.Dns.Ranking
import Mathlib.Data.Fintype.BigOperators
import Mathlib.Data.List.GetD

/-!
# The order in which rows are drawn

A ranking of a partition is the order in which its rows are drawn, and the statistics of the rows at
any time are told by the rows drawn so far (`rowsOf`). `Draws` says that a sequence of values of
`rand_r` draws the rows in a given order.

`weightless_row_waits`: a row of weight zero is never ranked before a row in front of it. And of the
sequences of residues on the way to a ranking, as many lead to it as the product of the weights
says, with one more residue for a row that is the first one left (`ranking_distribution`).
-/

set_option autoImplicit false

namespace YetiPgExt.Dns

open YetiPgExt.Library

/-! ## The rows after some draws -/

/-- The rank of a row once the rows `order` were drawn. -/
def rankIn (order : List Nat) (i : Nat) : Int32 :=
  if i ∈ order then Int32.ofNat (order.idxOf i + 1) else 0

/-- The statistics of the rows once the rows `order` were drawn. -/
def rowsOf (weights : List (Option Int32)) (order : List Nat) : List RowStat :=
  weights.mapIdx fun i w => { rank := rankIn order i, w := w.getD 0, wSum := 0 }

/-- The ranks of a partition of `n` rows. -/
def ranksOf (n : Nat) (order : List Nat) : List Int32 := (List.range n).map (rankIn order)

/-- A row without the running sum that the last draw left in it. -/
def bare (s : RowStat) : RowStat := { s with wSum := 0 }

/-- The values of `rand_r` draw the rows in this order. -/
def Draws (weights : List (Option Int32)) (draws : Nat → Int32) (order : List Nat) : Prop :=
  ∀ k row, order[k]? = some row →
    rowOfDraw (rowsOf weights (order.take k)) [] (draws k) = .ok row

section Rows

variable {weights : List (Option Int32)} {order : List Nat}

@[simp] theorem length_rowsOf (weights : List (Option Int32)) (order : List Nat) :
    (rowsOf weights order).length = weights.length := List.length_mapIdx

theorem getElem?_rowsOf (weights : List (Option Int32)) (order : List Nat) (i : Nat) :
    (rowsOf weights order)[i]? =
      weights[i]?.map fun w => { rank := rankIn order i, w := w.getD 0, wSum := 0 } :=
  List.getElem?_mapIdx

theorem map_bare_rowsOf (weights : List (Option Int32)) (order : List Nat) :
    (rowsOf weights order).map bare = rowsOf weights order := by
  rw [List.map_congr_left (g := id), List.map_id]
  intro s hs
  obtain ⟨i, hi⟩ := List.mem_iff_getElem?.mp hs
  rw [getElem?_rowsOf] at hi
  obtain ⟨w, -, rfl⟩ := Option.map_eq_some_iff.mp hi
  rfl

theorem map_rank_rowsOf (weights : List (Option Int32)) (order : List Nat) :
    (rowsOf weights order).map RowStat.rank = ranksOf weights.length order := by
  apply List.ext_getElem?
  intro i
  rw [List.getElem?_map, getElem?_rowsOf, ranksOf, List.getElem?_map, Option.map_map]
  by_cases hi : i < weights.length
  · rw [List.getElem?_eq_getElem hi, List.getElem?_range hi]
    rfl
  · rw [List.getElem?_eq_none (not_lt.mp hi), List.getElem?_eq_none (by simpa using hi)]
    rfl

theorem rankIn_of_notMem {i : Nat} (h : i ∉ order) : rankIn order i = 0 := if_neg h

/-- A row that was drawn has a rank: there are only few rows. -/
theorem toInt_rankIn {i : Nat} (h : i ∈ order) (hlen : order.length ≤ ctxMaxRows) :
    (rankIn order i).toInt = order.idxOf i + 1 := by
  have hidx : order.idxOf i < order.length := List.idxOf_lt_length_of_mem h
  have hmax : ctxMaxRows = 20 := rfl
  rw [rankIn, if_pos h]
  have hint : (Int32.ofNat (order.idxOf i + 1)).toInt = ((order.idxOf i + 1 : Nat) : Int) :=
    Int32.toInt_ofNat_of_lt (by omega)
  rw [hint]
  push_cast
  rfl

theorem rankIn_eq_zero_iff {i : Nat} (hlen : order.length ≤ ctxMaxRows) :
    rankIn order i = 0 ↔ i ∉ order := by
  constructor
  · intro hzero hmem
    have hint := toInt_rankIn hmem hlen
    rw [hzero] at hint
    have hzero' : (0 : Int32).toInt = 0 := rfl
    omega
  · exact rankIn_of_notMem

theorem rankIn_concat {row i : Nat} (hnew : row ∉ order) :
    rankIn (order ++ [row]) i =
      if i = row then Int32.ofNat (order.length + 1) else rankIn order i := by
  by_cases hi : i = row
  · subst hi
    rw [if_pos rfl, rankIn, if_pos (List.mem_append_right _ List.mem_cons_self),
      List.idxOf_append_of_notMem hnew, List.idxOf_cons_self, Nat.add_zero]
  · rw [if_neg hi, rankIn, rankIn]
    by_cases hmem : i ∈ order
    · rw [if_pos hmem, if_pos (List.mem_append_left _ hmem), List.idxOf_append_of_mem hmem]
    · have hmem' : i ∉ order ++ [row] := by
        rw [List.mem_append, List.mem_singleton]
        rintro (h | h)
        · exact hmem h
        · exact hi h
      rw [if_neg hmem, if_neg hmem']

/-- The rank of the next row. -/
theorem rowsOf_concat {row : Nat} {w : Option Int32} (hrow : weights[row]? = some w)
    (hnew : row ∉ order) :
    (rowsOf weights order).set row
        { rank := Int32.ofNat (order.length + 1), w := w.getD 0, wSum := 0 } =
      rowsOf weights (order ++ [row]) := by
  have hlt : row < (rowsOf weights order).length := by
    rw [length_rowsOf]
    exact (List.getElem?_eq_some_iff.mp hrow).1
  apply List.ext_getElem?
  intro i
  rw [getElem?_rowsOf]
  simp only [rankIn_concat hnew]
  by_cases hi : i = row
  · subst hi
    rw [List.getElem?_set_self hlt, hrow, if_pos rfl]
    rfl
  · rw [List.getElem?_set_ne (Ne.symm hi), getElem?_rowsOf, if_neg hi]

end Rows

/-! ## Draws -/

section Draws

variable {weights : List (Option Int32)} {draws : Nat → Int32} {order : List Nat}
variable {xs ys : List RowStat}

theorem unrankedSum_bare (xs : List RowStat) : unrankedSum (xs.map bare) = unrankedSum xs := by
  induction xs with
  | nil => rfl
  | cons s xs ih =>
    rw [List.map_cons]
    by_cases hs : s.rank = 0
    · rw [unrankedSum_cons_of_unranked hs, unrankedSum_cons_of_unranked (s := bare s) hs, ih]
      rfl
    · rw [unrankedSum_cons_of_ranked hs, unrankedSum_cons_of_ranked (s := bare s) hs, ih]

/-- A draw does not see the running sums of earlier ones. -/
theorem map_reached_bare (r : Int32) (sum : Int) (xs : List RowStat) :
    (withSums sum (xs.map bare)).map (reached r) = (withSums sum xs).map (reached r) := by
  induction xs generalizing sum with
  | nil => rfl
  | cons s xs ih =>
    rw [List.map_cons, withSums, withSums]
    by_cases hs : s.rank = 0
    · have hbare : ¬(bare s).rank ≠ 0 := not_not.mpr hs
      rw [if_neg hbare, if_neg (not_not.mpr hs), List.map_cons, List.map_cons]
      exact congrArg (_ :: ·) (ih _)
    · have hbare : (bare s).rank ≠ 0 := hs
      have hreached : reached r (bare s) = reached r s := by simp [reached, hs, hbare]
      rw [if_pos hbare, if_pos hs, List.map_cons, List.map_cons, ih, hreached]

theorem rowOfDraw_bare (rest rest' : List RowStat) {draw : Int32} (h : xs.map bare = ys.map bare)
    (hne : unrankedSum xs + 1 ≠ 0) : rowOfDraw xs rest draw = rowOfDraw ys rest' draw := by
  have hsum : unrankedSum xs = unrankedSum ys := by
    rw [← unrankedSum_bare xs, h, unrankedSum_bare]
  have hne' : unrankedSum ys + 1 ≠ 0 := by rwa [← hsum]
  have hreached : ∀ r, (withSums 0 xs).map (reached r) = (withSums 0 ys).map (reached r) := by
    intro r
    rw [← map_reached_bare, h, map_reached_bare]
  have hfind : ∀ r, (withSums 0 xs).findIdx (reached r) = (withSums 0 ys).findIdx (reached r) := by
    intro r
    have hid := congrArg (List.findIdx id) (hreached r)
    rwa [List.findIdx_map, List.findIdx_map] at hid
  rw [rowOfDraw, rowOfDraw, getNextRow_eq rest hne, getNextRow_eq rest' hne', Except.map,
    Except.map, residue, residue, hsum, hfind]

/-- One round of the loop, told by the row that it draws. -/
theorem rankStep_bare {k row : Nat} {w : Option Int32} {draw : Int32} (rest : List RowStat)
    (hxs : xs.map bare = rowsOf weights order) (hk : order.length = k)
    (hne : unrankedSum xs + 1 ≠ 0) (hrow : weights[row]? = some w) (hnew : row ∉ order)
    (hdraw : rowOfDraw (rowsOf weights order) [] draw = .ok row) :
    ∃ ys, rankStep weights.length draw k (xs ++ rest) = .ok (ys ++ rest) ∧
      ys.map bare = rowsOf weights (order ++ [row]) := by
  have hlen : xs.length = weights.length := by
    have hmap := congrArg List.length hxs
    rwa [List.length_map, length_rowsOf] at hmap
  have hsame : xs.map bare = (rowsOf weights order).map bare := hxs.trans (map_bare_rowsOf _ _).symm
  rw [← rowOfDraw_bare rest [] hsame hne, rowOfDraw, getNextRow_eq rest hne, Except.map,
    Except.ok.injEq] at hdraw
  have hsums : (withSums 0 xs).map bare = rowsOf weights order := by
    rw [map_withSums (fun _ _ => rfl), hxs]
  -- the row of the draw, with its running sum
  have hget : ((withSums 0 xs).map bare)[row]? =
      some { rank := rankIn order row, w := w.getD 0, wSum := 0 } := by
    rw [hsums, getElem?_rowsOf, hrow]
    rfl
  rw [List.getElem?_map] at hget
  obtain ⟨t, ht, hbare⟩ := Option.map_eq_some_iff.mp hget
  have hw : t.w = w.getD 0 := congrArg RowStat.w hbare
  refine ⟨(withSums 0 xs).set row { t with rank := Int32.ofNat (k + 1) }, ?_, ?_⟩
  · rw [rankStep, ← hlen, getNextRow_eq rest hne]
    change setRank _ (List.findIdx _ _) _ = _
    rw [show List.findIdx _ _ = row from hdraw]
    exact setRank_append ht rest _
  · rw [List.map_set, hsums, ← rowsOf_concat hrow hnew, ← hk, ← hw]
    rfl

end Draws

/-! ## Partitions that fit -/

section Fits

variable {weights : List (Option Int32)} {draws : Nat → Int32} {order : List Nat}

/-- What a partition that fits the context is: few rows, and weights that are not negative, with a
total that fits 31 bits. -/
structure FitsContext (weights : List (Option Int32)) : Prop where
  length_le : weights.length ≤ ctxMaxRows
  nonneg : ∀ w ∈ weights, 0 ≤ (w.getD 0).toInt
  total : (weights.map (fun w => (w.getD 0).toInt)).sum ≤ 2 ^ 31 - 1

theorem map_w_rowsOf (weights : List (Option Int32)) (order : List Nat) :
    (rowsOf weights order).map (fun s => s.w.toInt) = weights.map fun w => (w.getD 0).toInt := by
  apply List.ext_getElem?
  intro i
  rw [List.getElem?_map, getElem?_rowsOf, List.getElem?_map, Option.map_map]
  rfl

theorem FitsContext.nonneg_rowsOf (h : FitsContext weights) (order : List Nat) :
    ∀ s ∈ rowsOf weights order, 0 ≤ s.w.toInt := by
  intro s hs
  have hmem : s.w.toInt ∈ (rowsOf weights order).map (fun s => s.w.toInt) := List.mem_map_of_mem hs
  rw [map_w_rowsOf] at hmem
  obtain ⟨w, hw, heq⟩ := List.mem_map.mp hmem
  rw [← heq]
  exact h.nonneg w hw

theorem FitsContext.sum_rowsOf (h : FitsContext weights) (order : List Nat) :
    0 ≤ unrankedSum (rowsOf weights order) ∧ unrankedSum (rowsOf weights order) ≤ 2 ^ 31 - 1 := by
  have hle := unrankedSum_le (h.nonneg_rowsOf order)
  rw [map_w_rowsOf] at hle
  exact ⟨unrankedSum_nonneg (h.nonneg_rowsOf order), hle.trans h.total⟩

/-- A row of the partition that was not drawn has no rank. -/
theorem exists_unranked (hlt : order.length < weights.length) :
    ∃ s ∈ rowsOf weights order, s.rank = 0 := by
  obtain ⟨i, hi, hnew⟩ : ∃ i ∈ List.range weights.length, i ∉ order := by
    by_contra hall
    push Not at hall
    have hle := (List.nodup_range.subperm hall).length_le
    rw [List.length_range] at hle
    omega
  rw [List.mem_range] at hi
  refine ⟨⟨rankIn order i, weights[i].getD 0, 0⟩, ?_, rankIn_of_notMem hnew⟩
  apply List.mem_of_getElem? (i := i)
  rw [getElem?_rowsOf, List.getElem?_eq_getElem hi]
  rfl

theorem draws_concat {row : Nat} :
    Draws weights draws (order ++ [row]) ↔
      Draws weights draws order ∧
        rowOfDraw (rowsOf weights order) [] (draws order.length) = .ok row := by
  constructor
  · intro h
    constructor
    · intro k i hget
      have hk : k < order.length := (List.getElem?_eq_some_iff.mp hget).1
      have hrow := h k i (by rwa [List.getElem?_append_left hk])
      rwa [List.take_append_of_le_length (Nat.le_of_lt hk)] at hrow
    · have hrow := h order.length row List.getElem?_concat_length
      rwa [List.take_left] at hrow
  · rintro ⟨h, hlast⟩ k i hget
    rcases Nat.lt_or_ge k order.length with hk | hk
    · rw [List.getElem?_append_left hk] at hget
      rw [List.take_append_of_le_length (Nat.le_of_lt hk)]
      exact h k i hget
    · have hlt := (List.getElem?_eq_some_iff.mp hget).1
      rw [List.length_append, List.length_singleton] at hlt
      obtain rfl : k = order.length := by omega
      rw [List.getElem?_concat_length, Option.some.injEq] at hget
      rw [List.take_left, ← hget]
      exact hlast

/-- Every sequence of values of `rand_r` draws the rows in some order. -/
theorem exists_draws (h : FitsContext weights) (hdraws : ∀ k, 0 ≤ (draws k).toInt) {k : Nat}
    (hk : k ≤ weights.length) :
    ∃ order : List Nat, order.length = k ∧ order.Nodup ∧ (∀ i ∈ order, i < weights.length) ∧
      Draws weights draws order := by
  induction k with
  | zero =>
    refine ⟨[], rfl, List.nodup_nil, ?_, ?_⟩
    · intro i hi
      cases hi
    · intro k row hget
      cases hget
  | succ k ih =>
    obtain ⟨order, hlen, hnodup, hrows, hdraw⟩ := ih (Nat.le_of_succ_le hk)
    have htotal : ((rowsOf weights order).map (fun s => s.w.toInt)).sum ≤ 2 ^ 31 - 1 := by
      rw [map_w_rowsOf]
      exact h.total
    obtain ⟨row, s, hnext, hget, hs⟩ := getNextRow_append [] (h.nonneg_rowsOf order) htotal
      (hdraws k) (exists_unranked (by omega))
    rw [getElem?_rowsOf] at hget
    obtain ⟨w, hw, rfl⟩ := Option.map_eq_some_iff.mp hget
    have hmax := h.length_le
    have hnew : row ∉ order := (rankIn_eq_zero_iff (by omega)).mp hs
    refine ⟨order ++ [row], ?_, ?_, ?_, draws_concat.mpr ⟨hdraw, ?_⟩⟩
    · rw [List.length_append, hlen, List.length_singleton]
    · rw [← List.concat_eq_append, List.nodup_concat]
      exact ⟨hnew, hnodup⟩
    · intro i hi
      rcases List.mem_append.mp hi with hi | hi
      · exact hrows i hi
      · rw [List.mem_singleton.mp hi]
        exact (List.getElem?_eq_some_iff.mp hw).1
    · rw [rowOfDraw, hlen, hnext]
      rfl

theorem exists_full_draws (h : FitsContext weights) (hdraws : ∀ k, 0 ≤ (draws k).toInt) :
    ∃ order : List Nat, order.Perm (List.range weights.length) ∧ Draws weights draws order := by
  obtain ⟨order, hlen, hnodup, hrows, hdraw⟩ := exists_draws h hdraws (Nat.le_refl _)
  refine ⟨order, ?_, hdraw⟩
  apply List.Subperm.perm_of_length_le
  · apply hnodup.subperm
    intro i hi
    exact List.mem_range.mpr (hrows i hi)
  · rw [List.length_range, hlen]

/-- The loop gives the ranks in the order of the draws. -/
theorem drawn_of_draws (h : FitsContext weights) (hnodup : order.Nodup)
    (hrows : ∀ i ∈ order, i < weights.length) (hdraws : Draws weights draws order) :
    ∃ xs, drawn draws weights order.length =
        .ok (xs ++ List.replicate (ctxMaxRows - weights.length) ⟨0, 0, 0⟩) ∧
      xs.map bare = rowsOf weights order := by
  induction order using List.reverseRecOn with
  | nil =>
    refine ⟨weights.map (fun w => ⟨0, w.getD 0, 0⟩), ?_, ?_⟩
    · have hctx : initialCtx = List.replicate weights.length ⟨0, 0, 0⟩ ++
          List.replicate (ctxMaxRows - weights.length) ⟨0, 0, 0⟩ := by
        rw [initialCtx, List.replicate_append_replicate, Nat.add_sub_cancel' h.length_le]
      rw [List.length_nil, drawn, hctx, fillWeights_replicate]
    · apply List.ext_getElem?
      intro i
      rw [getElem?_rowsOf, List.map_map, List.getElem?_map]
      rfl
  | append_singleton order row ih =>
    rw [← List.concat_eq_append, List.nodup_concat] at hnodup
    obtain ⟨hnew, hnodup⟩ := hnodup
    obtain ⟨hdraws, hlast⟩ := draws_concat.mp hdraws
    obtain ⟨xs, hctx, hxs⟩ := ih hnodup (fun i hi => hrows i (List.mem_append_left _ hi)) hdraws
    have hlt : row < weights.length := hrows row (List.mem_append_right _ List.mem_cons_self)
    have hne : unrankedSum xs + 1 ≠ 0 := by
      have hnonneg := (h.sum_rowsOf order).1
      rw [← hxs, unrankedSum_bare] at hnonneg
      omega
    obtain ⟨ys, hstep, hys⟩ := rankStep_bare
      (List.replicate (ctxMaxRows - weights.length) ⟨0, 0, 0⟩) hxs rfl hne
      (List.getElem?_eq_getElem hlt) hnew hlast
    refine ⟨ys, ?_, hys⟩
    rw [List.length_append, List.length_singleton, drawn, hctx]
    exact hstep

/-- The ranking is the order of the draws. -/
theorem rankPartition_of_draws (h : FitsContext weights)
    (horder : order.Perm (List.range weights.length)) (hdraws : Draws weights draws order)
    {fuel : Nat} (hfuel : weights.length < fuel) :
    rankPartition fuel draws weights = .ok (ranksOf weights.length order) := by
  have hlen : order.length = weights.length := by rw [horder.length_eq, List.length_range]
  have hnodup : order.Nodup := horder.nodup_iff.mpr List.nodup_range
  have hrows : ∀ i ∈ order, i < weights.length := by
    intro i hi
    exact List.mem_range.mp (horder.mem_iff.mp hi)
  have hsteps : ∀ j ≤ weights.length, ∃ ctx, drawn draws weights j = .ok ctx := by
    intro j hj
    have htake : (order.take j).length = j := by rw [List.length_take]; omega
    have hfront : Draws weights draws (order.take j) := by
      intro k row hget
      have hk := (List.getElem?_eq_some_iff.mp hget).1
      rw [htake] at hk
      rw [List.getElem?_take_of_lt hk] at hget
      rw [List.take_take, Nat.min_eq_left (Nat.le_of_lt hk)]
      exact hdraws k row hget
    obtain ⟨xs, hctx, -⟩ := drawn_of_draws h (hnodup.sublist (List.take_sublist j order))
      (fun i hi => hrows i (List.mem_of_mem_take hi)) hfront
    rw [htake] at hctx
    exact ⟨_, hctx⟩
  obtain ⟨first, hfirst⟩ := hsteps 0 (Nat.zero_le _)
  obtain ⟨xs, hlast, hxs⟩ := drawn_of_draws h hnodup hrows hdraws
  rw [hlen] at hlast
  have hloop := rankLoop_of_drawn (Nat.zero_add _) hfuel hfirst hlast
    (fun j hj => hsteps (j + 1) hj)
  have hfill : fillDistribution fuel draws weights initialCtx =
      .ok (xs ++ List.replicate (ctxMaxRows - weights.length) ⟨0, 0, 0⟩) := by
    rw [drawn] at hfirst
    rw [fillDistribution, hfirst]
    exact hloop
  have hxsLen : xs.length = weights.length := by
    have hmap := congrArg List.length hxs
    rwa [List.length_map, length_rowsOf] at hmap
  rw [rankPartition_of_filled h.length_le hxsLen hfill, ← map_rank_rowsOf, ← hxs, List.map_map]
  rfl

/-- The ranks tell the order. -/
theorem ranksOf_injective {n : Nat} {order' : List Nat} (hmax : n ≤ ctxMaxRows)
    (horder : order.Perm (List.range n)) (horder' : order'.Perm (List.range n))
    (h : ranksOf n order = ranksOf n order') : order = order' := by
  have hidx : ∀ i < n, order.idxOf i = order'.idxOf i := by
    intro i hi
    have hrank : rankIn order i = rankIn order' i :=
      (List.map_inj_left.mp h) i (List.mem_range.mpr hi)
    have hmem : i ∈ order := horder.mem_iff.mpr (List.mem_range.mpr hi)
    have hmem' : i ∈ order' := horder'.mem_iff.mpr (List.mem_range.mpr hi)
    have hlen : order.length ≤ ctxMaxRows := by rwa [horder.length_eq, List.length_range]
    have hlen' : order'.length ≤ ctxMaxRows := by rwa [horder'.length_eq, List.length_range]
    have hint := toInt_rankIn hmem hlen
    rw [hrank, toInt_rankIn hmem' hlen'] at hint
    omega
  have hlen : order.length = order'.length := by rw [horder.length_eq, horder'.length_eq]
  apply List.ext_getElem hlen
  intro k hk hk'
  have hrow : order[k] < n := List.mem_range.mp (horder.mem_iff.mp (List.getElem_mem hk))
  have hat : order'.idxOf order[k] = k := by
    rw [← hidx _ hrow, (horder.nodup_iff.mpr List.nodup_range).idxOf_getElem]
  have hget : order'.idxOf order[k] < order'.length := by rwa [hat]
  have hfound := List.getElem_idxOf hget
  simp only [hat] at hfound
  exact hfound.symm

/-- A ranking comes of the draws of its order only. -/
theorem rankPartition_eq_iff (h : FitsContext weights) (hdraws : ∀ k, 0 ≤ (draws k).toInt)
    (horder : order.Perm (List.range weights.length)) {fuel : Nat} (hfuel : weights.length < fuel) :
    rankPartition fuel draws weights = .ok (ranksOf weights.length order) ↔
      Draws weights draws order := by
  constructor
  · intro hranks
    obtain ⟨order', horder', hdraws'⟩ := exists_full_draws h hdraws
    rw [rankPartition_of_draws h horder' hdraws' hfuel, Except.ok.injEq] at hranks
    rwa [← ranksOf_injective h.length_le horder' horder hranks]
  · intro hdraw
    exact rankPartition_of_draws h horder hdraw hfuel

end Fits

/-! ## Rows of weight zero -/

section Weightless

/-- A row of weight zero has the running sum of the last row in front of it, which a draw reaches
first. -/
theorem ReachedAt.exists_front {xs : List RowStat} {r : Int} {i : Nat} (h : ReachedAt xs r i)
    {s : RowStat} (hget : xs[i]? = some s) (hw : s.w.toInt = 0)
    (hfront : ∃ t ∈ xs.take i, t.rank = 0) : ∃ j < i, ReachedAt xs r j := by
  obtain ⟨s', hget', hs, hr⟩ := h
  obtain rfl : s' = s := Option.some.inj (hget'.symm.trans hget)
  obtain ⟨j, t, hj, ht, hsum⟩ := exists_runningSum_eq hfront
  have hji : j < i := by
    have hlt := (List.getElem?_eq_some_iff.mp hj).1
    rw [List.length_take] at hlt
    omega
  rw [List.getElem?_take_of_lt hji] at hj
  have hsame : runningSum xs j = runningSum xs i := by
    rw [runningSum_eq hget hs, hw, Int.add_zero, ← hsum, runningSum, runningSum, List.take_take,
      Nat.min_eq_left hji]
  refine ⟨j, hji, t, hj, ht, ?_⟩
  rwa [hsame]

/-- When a row of weight zero is drawn, the rows in front of it have their ranks. -/
theorem idxOf_lt_of_weightless {weights : List (Option Int32)} {draws : Nat → Int32}
    {order : List Nat} (h : FitsContext weights) (hdraws : ∀ k, 0 ≤ (draws k).toInt)
    (hdraw : Draws weights draws order) {i j : Nat} {w : Option Int32} (hij : i < j)
    (hi : i ∈ order) (hj : j ∈ order) (hw : weights[j]? = some w) (hzero : w.getD 0 = 0) :
    order.idxOf i < order.idxOf j := by
  by_contra hle
  have hnew : i ∉ order.take (order.idxOf j) := by
    rw [List.mem_take_iff_idxOf_lt hi]
    omega
  have hlt : order.idxOf j < order.length := List.idxOf_lt_length_of_mem hj
  have hrow := hdraw (order.idxOf j) j
    (by rw [List.getElem?_eq_getElem hlt, List.getElem_idxOf hlt])
  generalize order.take (order.idxOf j) = front at hnew hrow
  have hjlt : j < weights.length := (List.getElem?_eq_some_iff.mp hw).1
  have hsum : unrankedSum (rowsOf weights front) + 1 ≠ 0 := by
    have hnonneg := (h.sum_rowsOf front).1
    omega
  rw [rowOfDraw_eq_iff [] (hdraws _) hsum (by rwa [length_rowsOf])] at hrow
  obtain ⟨hreached, hfirst⟩ := hrow
  have hget : (rowsOf weights front)[j]? = some ⟨rankIn front j, w.getD 0, 0⟩ := by
    rw [getElem?_rowsOf, hw]
    rfl
  have hfront : ((rowsOf weights front).take j)[i]? =
      some ⟨rankIn front i, weights[i].getD 0, 0⟩ := by
    rw [List.getElem?_take_of_lt hij, getElem?_rowsOf,
      List.getElem?_eq_getElem (Nat.lt_trans hij hjlt)]
    rfl
  obtain ⟨k, hk, hreached'⟩ := hreached.exists_front hget (congrArg Int32.toInt hzero)
    ⟨_, List.mem_of_getElem? hfront, rankIn_of_notMem hnew⟩
  exact hfirst k hk hreached'

/-- In every ranking of a partition that fits the context, the rows in front of a row of weight zero
or without a weight have smaller ranks. -/
theorem weightless_row_waits (weights : List (Option Int32)) (draws : Nat → Int32)
    (h : FitsContext weights) (hdraws : ∀ k, 0 ≤ (draws k).toInt) {fuel : Nat}
    (hfuel : weights.length < fuel) :
    ∃ ranks, rankPartition fuel draws weights = .ok ranks ∧ ranks.length = weights.length ∧
      ∀ (i j : Nat) (w : Option Int32) (a b : Int32), i < j → weights[j]? = some w →
        w.getD 0 = 0 → ranks[i]? = some a → ranks[j]? = some b → a.toInt < b.toInt := by
  obtain ⟨order, horder, hdraw⟩ := exists_full_draws h hdraws
  refine ⟨_, rankPartition_of_draws h horder hdraw hfuel, ?_, ?_⟩
  · rw [ranksOf, List.length_map, List.length_range]
  · intro i j w a b hij hw hzero ha hb
    have hj : j < weights.length := (List.getElem?_eq_some_iff.mp hw).1
    have hi : i < weights.length := Nat.lt_trans hij hj
    have hmemi : i ∈ order := horder.mem_iff.mpr (List.mem_range.mpr hi)
    have hmemj : j ∈ order := horder.mem_iff.mpr (List.mem_range.mpr hj)
    have hmax : order.length ≤ ctxMaxRows := by
      rw [horder.length_eq, List.length_range]
      exact h.length_le
    have hbefore := idxOf_lt_of_weightless h hdraws hdraw hij hmemi hmemj hw hzero
    rw [ranksOf, List.getElem?_map, List.getElem?_range hi, Option.map_some,
      Option.some.injEq] at ha
    rw [ranksOf, List.getElem?_map, List.getElem?_range hj, Option.map_some,
      Option.some.injEq] at hb
    rw [← ha, ← hb, toInt_rankIn hmemi hmax, toInt_rankIn hmemj hmax]
    omega

/-- Three records, the first and the last of which have no weight. -/
def threeRecords : List (Option Int32) := [none, some 5, some 0]

theorem fitsContext_threeRecords : FitsContext threeRecords := by
  constructor
  · decide
  · intro w hw
    have hmem : w = none ∨ w = some 5 ∨ w = some 0 := by simpa [threeRecords] using hw
    rcases hmem with rfl | rfl | rfl
    · decide
    · decide
    · decide
  · decide

theorem weightless_row_waits_threeRecords :
    ∃ ranks, rankPartition 4 (fun _ => 3) threeRecords = .ok ranks ∧ ranks.length = 3 ∧
      ∀ (i j : Nat) (w : Option Int32) (a b : Int32), i < j → threeRecords[j]? = some w →
        w.getD 0 = 0 → ranks[i]? = some a → ranks[j]? = some b → a.toInt < b.toInt :=
  weightless_row_waits threeRecords (fun _ => 3) fitsContext_threeRecords (fun _ => by decide)
    (by decide)

end Weightless

/-! ## How likely a ranking is -/

section Distribution

variable {weights : List (Option Int32)} {order : List Nat}

/-- The number of residues that the next draw has. -/
def residuesLeft (weights : List (Option Int32)) (order : List Nat) : Nat :=
  (unrankedSum (rowsOf weights order) + 1).toNat

/-- The number of them that draw a row: its weight, and one more for the first row left. -/
def share (weights : List (Option Int32)) (order : List Nat) (row : Nat) : Nat :=
  ((weights[row]?.join).getD 0).toInt.toNat + if ∀ i < row, i ∈ order then 1 else 0

/-- The rows are drawn by these residues. -/
def drawsOf {n : Nat} (residues : Fin n → Nat) (k : Nat) : Int32 :=
  if h : k < n then Int32.ofInt (residues ⟨k, h⟩) else 0

/-- Of the residues of a draw, `share` take a row. -/
theorem card_residues (h : FitsContext weights)
    (htotal : (weights.map (fun w => (w.getD 0).toInt)).sum ≤ 2 ^ 31 - 2) {row : Nat}
    (hrow : row < weights.length) (hlen : order.length ≤ ctxMaxRows) (hnew : row ∉ order) :
    ((Finset.range (residuesLeft weights order)).filter (fun r : Nat =>
      rowOfDraw (rowsOf weights order) [] (Int32.ofInt r) = .ok row)).card =
      share weights order row := by
  have hnonneg := h.nonneg_rowsOf order
  have hsum : unrankedSum (rowsOf weights order) ≤ 2 ^ 31 - 2 := by
    have hle := unrankedSum_le hnonneg
    rw [map_w_rowsOf] at hle
    exact hle.trans htotal
  have hget : (rowsOf weights order)[row]? = some ⟨rankIn order row, weights[row].getD 0, 0⟩ := by
    rw [getElem?_rowsOf, List.getElem?_eq_getElem hrow]
    rfl
  have hs : rankIn order row = 0 := rankIn_of_notMem hnew
  have hfirst : (∀ t ∈ (rowsOf weights order).take row, t.rank ≠ 0) ↔ ∀ i < row, i ∈ order := by
    constructor
    · intro hall i hi
      by_contra hmem
      have hfront : ((rowsOf weights order).take row)[i]? =
          some ⟨rankIn order i, weights[i].getD 0, 0⟩ := by
        rw [List.getElem?_take_of_lt hi, getElem?_rowsOf,
          List.getElem?_eq_getElem (Nat.lt_trans hi hrow)]
        rfl
      exact hall _ (List.mem_of_getElem? hfront) (rankIn_of_notMem hmem)
    · intro hall t ht hzero
      obtain ⟨i, hi⟩ := List.mem_iff_getElem?.mp ht
      have hlt : i < row := by
        have hlt := (List.getElem?_eq_some_iff.mp hi).1
        rw [List.length_take] at hlt
        omega
      rw [List.getElem?_take_of_lt hlt, getElem?_rowsOf] at hi
      obtain ⟨w, -, rfl⟩ := Option.map_eq_some_iff.mp hi
      exact (rankIn_eq_zero_iff hlen).mp hzero (hall i hlt)
  have hweight : (weights[row]?.join).getD 0 = weights[row].getD 0 := by
    rw [List.getElem?_eq_getElem hrow, Option.join_some]
  rw [residuesLeft, share, hweight]
  by_cases hall : ∀ i < row, i ∈ order
  · rw [if_pos hall, filter_residues_of_first [] hnonneg hsum hget hs (hfirst.mpr hall),
      Finset.card_range]
  · have hfree : ∃ t ∈ (rowsOf weights order).take row, t.rank = 0 := by
      by_contra hnone
      apply hall
      rw [← hfirst]
      intro t ht hzero
      exact hnone ⟨t, ht, hzero⟩
    rw [if_neg hall, filter_residues_of_later [] hnonneg hsum hget hs hfree, Nat.card_Ioc,
      Nat.add_sub_cancel_left, Nat.add_zero]

theorem residuesLeft_le (h : FitsContext weights)
    (htotal : (weights.map (fun w => (w.getD 0).toInt)).sum ≤ 2 ^ 31 - 2) (order : List Nat) :
    residuesLeft weights order ≤ 2 ^ 31 - 1 := by
  have hle := unrankedSum_le (h.nonneg_rowsOf order)
  rw [map_w_rowsOf] at hle
  rw [residuesLeft]
  omega

theorem drawsOf_nonneg {n : Nat} {residues : Fin n → Nat} (h : ∀ k, residues k < 2 ^ 31) (k : Nat) :
    0 ≤ (drawsOf residues k).toInt := by
  rw [drawsOf]
  split
  · rename_i hk
    have hlt := h ⟨k, hk⟩
    rw [toInt_ofInt (Int.natCast_nonneg _) (by omega)]
    exact Int.natCast_nonneg _
  · exact Int.le_refl 0

theorem drawsOf_draws {n : Nat} {residues : Fin n → Nat} (hlen : order.length = n) :
    Draws weights (drawsOf residues) order ↔
      ∀ k : Fin n, rowOfDraw (rowsOf weights (order.take k)) [] (Int32.ofInt (residues k)) =
        .ok (order.getD k 0) := by
  have hat : ∀ k : Fin n, drawsOf residues k = Int32.ofInt (residues k) := by
    intro k
    rw [drawsOf, dif_pos k.isLt]
  constructor
  · intro hdraws k
    have hk : (k : Nat) < order.length := by rw [hlen]; exact k.isLt
    rw [← hat, List.getD_eq_getElem _ _ hk]
    exact hdraws k _ (List.getElem?_eq_getElem hk)
  · intro hall k row hget
    obtain ⟨hk, hrow⟩ := List.getElem?_eq_some_iff.mp hget
    have hdraw := hall ⟨k, by rwa [← hlen]⟩
    rw [← hat, List.getD_eq_getElem _ _ hk, hrow] at hdraw
    exact hdraw

/-- Of the sequences of residues on the way to a ranking, as many lead to it as the product of the
shares says. -/
theorem ranking_distribution (h : FitsContext weights)
    (htotal : (weights.map (fun w => (w.getD 0).toInt)).sum ≤ 2 ^ 31 - 2)
    (horder : order.Perm (List.range weights.length)) {fuel : Nat} (hfuel : weights.length < fuel) :
    ((Fintype.piFinset fun k : Fin weights.length =>
        Finset.range (residuesLeft weights (order.take k))).filter fun residues =>
      rankPartition fuel (drawsOf residues) weights = .ok (ranksOf weights.length order)).card =
      ∏ k : Fin weights.length, share weights (order.take k) (order.getD k 0) := by
  have hlen : order.length = weights.length := by rw [horder.length_eq, List.length_range]
  have hnodup : order.Nodup := horder.nodup_iff.mpr List.nodup_range
  -- the draws are independent of each other on the way to this ranking
  have hfilter : ((Fintype.piFinset fun k : Fin weights.length =>
        Finset.range (residuesLeft weights (order.take k))).filter fun residues =>
      rankPartition fuel (drawsOf residues) weights = .ok (ranksOf weights.length order)) =
      Fintype.piFinset fun k : Fin weights.length =>
        (Finset.range (residuesLeft weights (order.take k))).filter fun r : Nat =>
          rowOfDraw (rowsOf weights (order.take k)) [] (Int32.ofInt r) = .ok (order.getD k 0) := by
    ext residues
    rw [Finset.mem_filter, Fintype.mem_piFinset, Fintype.mem_piFinset]
    simp only [Finset.mem_filter]
    rw [forall_and]
    apply and_congr_right
    intro hmem
    have hsmall : ∀ k, residues k < 2 ^ 31 := by
      intro k
      have hlt := Finset.mem_range.mp (hmem k)
      have hle := residuesLeft_le h htotal (order.take k)
      omega
    rw [rankPartition_eq_iff h (drawsOf_nonneg hsmall) horder hfuel, drawsOf_draws hlen]
  rw [hfilter, Fintype.card_piFinset]
  apply Finset.prod_congr rfl
  intro k _
  have hk : (k : Nat) < order.length := by rw [hlen]; exact k.isLt
  have hrow : order.getD k 0 < weights.length := by
    rw [List.getD_eq_getElem _ _ hk]
    exact List.mem_range.mp (horder.mem_iff.mp (List.getElem_mem hk))
  have hmax : (order.take k).length ≤ ctxMaxRows := by
    have hle := h.length_le
    rw [List.length_take]
    omega
  apply card_residues h htotal hrow hmax
  rw [List.getD_eq_getElem _ _ hk, List.mem_take_iff_idxOf_lt (List.getElem_mem hk),
    hnodup.idxOf_getElem]
  exact Nat.lt_irrefl _

theorem ranking_distribution_threeRecords :
    ((Fintype.piFinset fun k : Fin 3 =>
        Finset.range (residuesLeft threeRecords ([1, 0, 2].take k))).filter fun residues =>
      rankPartition 4 (drawsOf residues) threeRecords = .ok (ranksOf 3 [1, 0, 2])).card =
      ∏ k : Fin 3, share threeRecords ([1, 0, 2].take k) ([1, 0, 2].getD k 0) :=
  ranking_distribution fitsContext_threeRecords (by decide) (by decide) (by decide)

/-- Three records of which two have no weight: five of the six residues draw the second one
first, and then the others come in order. -/
example : ∏ k : Fin 3, share threeRecords ([1, 0, 2].take k) ([1, 0, 2].getD k 0) = 5 := by
  decide

end Distribution

end YetiPgExt.Dns
