import YetiPgExt.Dns.SortSrv

/-!
# The ranks of a partition

The states of `fill_distribution` after each draw, for a partition that fits the context. `Ranking`
is what holds after `k` draws: the weights are in place, the ranks given so far are `1..k`, and the
other rows have none.
-/

set_option autoImplicit false

namespace YetiPgExt.Dns

open YetiPgExt.Library

/-- The context of `fill_distribution` after `k` rounds of its loop. -/
def drawn (draws : Nat → Int32) (weights : List (Option Int32)) :
    Nat → Except RankFault RankDnsSrvCtx
  | 0 => fillWeights weights initialCtx
  | k + 1 => do
    let ctx ← drawn draws weights k
    rankStep weights.length (draws k) k ctx

/-- The loop goes through these contexts and ends. -/
theorem rankLoop_of_drawn {draws : Nat → Int32} {weights : List (Option Int32)} {left k fuel : Nat}
    {ctx last : RankDnsSrvCtx} (hk : k + left = weights.length) (hfuel : left < fuel)
    (hctx : drawn draws weights k = .ok ctx) (hlast : drawn draws weights weights.length = .ok last)
    (hsteps : ∀ j < weights.length, ∃ ctx, drawn draws weights (j + 1) = .ok ctx) :
    rankLoop draws weights.length fuel k ctx = .ok last := by
  induction left generalizing k fuel ctx with
  | zero =>
    obtain ⟨fuel, rfl⟩ := Nat.exists_eq_succ_of_ne_zero (Nat.ne_of_gt hfuel)
    have hend : ctx = last := by
      rw [← hk, Nat.add_zero] at hlast
      rw [hctx] at hlast
      exact Except.ok.inj hlast
    rw [rankLoop, if_neg (by omega), hend]
  | succ left ih =>
    obtain ⟨fuel, rfl⟩ := Nat.exists_eq_succ_of_ne_zero (Nat.ne_of_gt (Nat.zero_lt_of_lt hfuel))
    obtain ⟨next, hnext⟩ := hsteps k (by omega)
    have hstep : rankStep weights.length (draws k) k ctx = .ok next := by
      rw [drawn, hctx] at hnext
      exact hnext
    rw [rankLoop, if_pos (by omega), hstep]
    exact ih (by omega) (Nat.lt_of_succ_lt_succ hfuel) hnext

/-! ## The invariant -/

/-- The rows of the partition after `k` draws. -/
structure Ranking (weights : List (Option Int32)) (k : Nat) (xs : List RowStat) : Prop where
  weights_eq : xs.map RowStat.w = weights.map (fun w => w.getD 0)
  ranks : PartlyFilled 0 (xs.map RowStat.rank) (ranksUpTo k) (weights.length - k)

theorem ranksUpTo_succ (k : Nat) : ranksUpTo (k + 1) = ranksUpTo k ++ [Int32.ofNat (k + 1)] := by
  rw [ranksUpTo, List.range'_concat, List.map_append, Nat.one_mul, Nat.add_comm 1 k]
  rfl

theorem fillWeights_replicate (weights : List (Option Int32)) (s : RowStat) (rest : List RowStat) :
    fillWeights weights (List.replicate weights.length s ++ rest) =
      .ok (weights.map (fun w => { s with w := w.getD 0 }) ++ rest) := by
  induction weights with
  | nil => rfl
  | cons weight weights ih =>
    rw [List.length_cons, List.replicate_succ, List.cons_append, fillWeights, ih]
    rfl

section

variable {weights : List (Option Int32)} {k : Nat} {xs : List RowStat}

theorem Ranking.length_eq (h : Ranking weights k xs) : xs.length = weights.length := by
  have hlen := congrArg List.length h.weights_eq
  rwa [List.length_map, List.length_map] at hlen

theorem Ranking.toInt_eq (h : Ranking weights k xs) :
    xs.map (fun s => s.w.toInt) = weights.map (fun w => (w.getD 0).toInt) := by
  have hmap := congrArg (List.map Int32.toInt) h.weights_eq
  rwa [List.map_map, List.map_map] at hmap

theorem Ranking.nonneg (h : Ranking weights k xs) (hnonneg : ∀ w ∈ weights, 0 ≤ (w.getD 0).toInt) :
    ∀ s ∈ xs, 0 ≤ s.w.toInt := by
  intro s hs
  have hmem : s.w.toInt ∈ xs.map (fun s => s.w.toInt) := List.mem_map_of_mem hs
  rw [h.toInt_eq] at hmem
  obtain ⟨w, hw, heq⟩ := List.mem_map.mp hmem
  rw [← heq]
  exact hnonneg w hw

/-- The rows that `fill_weights` leaves. -/
theorem Ranking.start (weights : List (Option Int32)) :
    Ranking weights 0 (weights.map (fun w => ⟨0, w.getD 0, 0⟩)) := by
  constructor
  · rw [List.map_map]
    rfl
  · rw [List.map_map, Nat.sub_zero]
    have hranks : weights.map (RowStat.rank ∘ fun w => ⟨0, w.getD 0, 0⟩) =
        List.replicate weights.length 0 := List.map_const'
    rw [hranks]
    exact PartlyFilled.start 0 weights.length

/-- As long as there are ranks to give, some row has none. -/
theorem Ranking.exists_free (h : Ranking weights k xs) (hk : k < weights.length) :
    ∃ s ∈ xs, s.rank = 0 := by
  have hleft : weights.length - k = weights.length - (k + 1) + 1 := by omega
  have hranks := h.ranks
  rw [hleft] at hranks
  exact List.mem_map.mp hranks.free_mem

/-- The running sums change no weight and no rank. -/
theorem Ranking.withSums (h : Ranking weights k xs) (sum : Int) :
    Ranking weights k (withSums sum xs) := by
  constructor
  · rw [withSums_weights]
    exact h.weights_eq
  · rw [withSums_ranks]
    exact h.ranks

/-- Giving the next rank to a row without one. -/
theorem Ranking.set (h : Ranking weights k xs) (hk : k < weights.length) {row : Nat} {s : RowStat}
    (hget : xs[row]? = some s) (hs : s.rank = 0) :
    Ranking weights (k + 1) (xs.set row { s with rank := Int32.ofNat (k + 1) }) := by
  have hleft : weights.length - k = weights.length - (k + 1) + 1 := by omega
  have hranks := h.ranks
  rw [hleft] at hranks
  have hfree : (xs.map RowStat.rank)[row]? = some 0 := by
    rw [List.getElem?_map, hget, Option.map_some, hs]
  obtain ⟨hlt, hrow⟩ := List.getElem?_eq_some_iff.mp hget
  constructor
  · have hlt' : row < (xs.map RowStat.w).length := by rwa [List.length_map]
    have hw : (xs.map RowStat.w)[row] = s.w := by rw [List.getElem_map, hrow]
    rw [List.map_set, ← hw, List.set_getElem_self]
    exact h.weights_eq
  · rw [List.map_set, ranksUpTo_succ]
    exact hranks.set hfree _

theorem setRank_append {row : Nat} {s : RowStat} (hget : xs[row]? = some s) (rest : List RowStat)
    (rank : Int32) :
    setRank (xs ++ rest) row rank = .ok (xs.set row { s with rank := rank } ++ rest) := by
  obtain ⟨hlt, -⟩ := List.getElem?_eq_some_iff.mp hget
  rw [setRank, List.getElem?_append_left hlt, hget]
  change Except.ok _ = _
  rw [List.set_append_left row _ hlt]

/-- One round of the loop. -/
theorem Ranking.step (h : Ranking weights k xs) (hk : k < weights.length)
    (hnonneg : ∀ w ∈ weights, 0 ≤ (w.getD 0).toInt)
    (htotal : (weights.map (fun w => (w.getD 0).toInt)).sum ≤ 2 ^ 31 - 1) {draw : Int32}
    (hdraw : 0 ≤ draw.toInt) (rest : List RowStat) :
    (∃ row s ctx, getNextRow (xs ++ rest) weights.length draw = .ok (row, ctx) ∧
      row < weights.length ∧ (xs ++ rest)[row]? = some s ∧ s.rank = 0) ∧
    ∃ ys, rankStep weights.length draw k (xs ++ rest) = .ok (ys ++ rest) ∧
      Ranking weights (k + 1) ys := by
  have htotal' : (xs.map (fun s => s.w.toInt)).sum ≤ 2 ^ 31 - 1 := by rwa [h.toInt_eq]
  obtain ⟨row, s, hnext, hget, hs⟩ :=
    getNextRow_append rest (h.nonneg hnonneg) htotal' hdraw (h.exists_free hk)
  rw [h.length_eq] at hnext
  obtain ⟨hlt, -⟩ := List.getElem?_eq_some_iff.mp hget
  constructor
  · refine ⟨row, s, _, hnext, ?_, ?_, hs⟩
    · rw [← h.length_eq]
      exact hlt
    · rw [List.getElem?_append_left hlt]
      exact hget
  · -- the rank goes to the row with its running sum
    have hrank : ((Dns.withSums 0 xs).map RowStat.rank)[row]? = some 0 := by
      rw [withSums_ranks, List.getElem?_map, hget, Option.map_some, hs]
    rw [List.getElem?_map] at hrank
    obtain ⟨t, ht, htrank⟩ := Option.map_eq_some_iff.mp hrank
    refine ⟨_, ?_, (h.withSums 0).set hk ht htrank⟩
    rw [rankStep, hnext]
    exact setRank_append ht rest _

end

/-! ## The run -/

section

variable {weights : List (Option Int32)} {draws : Nat → Int32}

theorem drawn_ranking (hlen : weights.length ≤ ctxMaxRows)
    (hnonneg : ∀ w ∈ weights, 0 ≤ (w.getD 0).toInt)
    (htotal : (weights.map (fun w => (w.getD 0).toInt)).sum ≤ 2 ^ 31 - 1)
    (hdraws : ∀ k, 0 ≤ (draws k).toInt) {k : Nat} (hk : k ≤ weights.length) :
    ∃ xs, drawn draws weights k =
        .ok (xs ++ List.replicate (ctxMaxRows - weights.length) ⟨0, 0, 0⟩) ∧
      Ranking weights k xs := by
  induction k with
  | zero =>
    refine ⟨_, ?_, Ranking.start weights⟩
    have hctx : initialCtx = List.replicate weights.length ⟨0, 0, 0⟩ ++
        List.replicate (ctxMaxRows - weights.length) ⟨0, 0, 0⟩ := by
      rw [initialCtx, List.replicate_append_replicate, Nat.add_sub_cancel' hlen]
    rw [drawn, hctx, fillWeights_replicate]
  | succ k ih =>
    obtain ⟨xs, hctx, hxs⟩ := ih (Nat.le_of_succ_le hk)
    obtain ⟨-, ys, hstep, hys⟩ := hxs.step hk hnonneg htotal (hdraws k)
      (List.replicate (ctxMaxRows - weights.length) ⟨0, 0, 0⟩)
    refine ⟨ys, ?_, hys⟩
    rw [drawn, hctx]
    exact hstep

theorem fillDistribution_ranking (hlen : weights.length ≤ ctxMaxRows)
    (hnonneg : ∀ w ∈ weights, 0 ≤ (w.getD 0).toInt)
    (htotal : (weights.map (fun w => (w.getD 0).toInt)).sum ≤ 2 ^ 31 - 1)
    (hdraws : ∀ k, 0 ≤ (draws k).toInt) {fuel : Nat} (hfuel : weights.length < fuel) :
    ∃ xs, fillDistribution fuel draws weights initialCtx =
        .ok (xs ++ List.replicate (ctxMaxRows - weights.length) ⟨0, 0, 0⟩) ∧
      xs.length = weights.length ∧ (xs.map RowStat.rank).Perm (ranksUpTo weights.length) := by
  obtain ⟨first, hfirst, -⟩ := drawn_ranking hlen hnonneg htotal hdraws (Nat.zero_le _)
  obtain ⟨xs, hlast, hxs⟩ := drawn_ranking hlen hnonneg htotal hdraws (Nat.le_refl _)
  have hsteps : ∀ j < weights.length, ∃ ctx, drawn draws weights (j + 1) = .ok ctx := by
    intro j hj
    obtain ⟨ys, hys, -⟩ := drawn_ranking hlen hnonneg htotal hdraws hj
    exact ⟨_, hys⟩
  have hranks := hxs.ranks
  rw [Nat.sub_self] at hranks
  refine ⟨xs, ?_, hxs.length_eq, hranks.full⟩
  have hloop := rankLoop_of_drawn (Nat.zero_add _) hfuel hfirst hlast hsteps
  rw [drawn] at hfirst
  rw [fillDistribution, hfirst]
  exact hloop

/-- Behind the first row the calls read the ranks. -/
theorem rankRows_filled {fuel left row : Nat} {xs rest : List RowStat}
    (hrow : row + left = xs.length) (hpos : 0 < row) (hlen : xs.length ≤ ctxMaxRows) :
    rankRows fuel draws weights left row (xs ++ rest) =
      .ok ((xs.map RowStat.rank).drop row) := by
  induction left generalizing row with
  | zero =>
    rw [List.drop_eq_nil_of_le (by rw [List.length_map]; omega)]
    rfl
  | succ left ih =>
    have hlt : row < xs.length := by omega
    have hcall : rankDnsSrv fuel draws weights row (xs ++ rest) =
        .ok (xs[row].rank, xs ++ rest) := by
      rw [rankDnsSrv, if_neg (Nat.ne_of_gt hpos)]
      change (if row ≥ ctxMaxRows then _ else _) = _
      rw [if_neg (by omega), List.getElem?_append_left hlt, List.getElem?_eq_getElem hlt]
      rfl
    have hlt' : row < (xs.map RowStat.rank).length := by rwa [List.length_map]
    rw [rankRows, hcall, List.drop_eq_getElem_cons hlt', List.getElem_map]
    change (rankRows fuel draws weights left (row + 1) (xs ++ rest) >>= _) = _
    rw [ih (by omega) (Nat.succ_pos row)]
    rfl

theorem rankPartition_of_filled {fuel : Nat} {xs rest : List RowStat}
    (hlen : weights.length ≤ ctxMaxRows) (hxs : xs.length = weights.length)
    (hfill : fillDistribution fuel draws weights initialCtx = .ok (xs ++ rest)) :
    rankPartition fuel draws weights = .ok (xs.map RowStat.rank) := by
  cases xs with
  | nil =>
    rw [rankPartition, ← hxs]
    rfl
  | cons s xs =>
    have hcall : rankDnsSrv fuel draws weights 0 initialCtx = .ok (s.rank, s :: xs ++ rest) := by
      rw [rankDnsSrv, if_pos rfl, hfill]
      rfl
    rw [rankPartition, ← hxs, List.length_cons, rankRows, hcall]
    change (rankRows fuel draws weights xs.length 1 (s :: xs ++ rest) >>= _) = _
    rw [rankRows_filled (by rw [List.length_cons, Nat.add_comm]) Nat.one_pos (by rwa [hxs])]
    rfl

end

/-- A partition that fits the context: each draw takes a row below `n` without a rank, the loop
ends, and the rows get a permutation of the ranks up to `n`. -/
theorem rankDnsSrv_permutation (weights : List (Option Int32)) (draws : Nat → Int32)
    (hlen : weights.length ≤ ctxMaxRows) (hnonneg : ∀ w ∈ weights, 0 ≤ (w.getD 0).toInt)
    (htotal : (weights.map (fun w => (w.getD 0).toInt)).sum ≤ 2 ^ 31 - 1)
    (hdraws : ∀ k, 0 ≤ (draws k).toInt) :
    (∀ k < weights.length, ∃ ctx row s ctx', drawn draws weights k = .ok ctx ∧
      getNextRow ctx weights.length (draws k) = .ok (row, ctx') ∧ row < weights.length ∧
      ctx[row]? = some s ∧ s.rank = 0) ∧
    (∀ fuel, weights.length < fuel → ∃ ctx,
      fillDistribution fuel draws weights initialCtx = .ok ctx ∧
      ((ctx.take weights.length).map RowStat.rank).Perm (ranksUpTo weights.length)) ∧
    (∀ fuel, weights.length < fuel → ∃ ranks, rankPartition fuel draws weights = .ok ranks ∧
      ranks.Perm (ranksUpTo weights.length)) := by
  refine ⟨?_, ?_, ?_⟩
  · intro k hk
    obtain ⟨xs, hctx, hxs⟩ := drawn_ranking hlen hnonneg htotal hdraws (Nat.le_of_lt hk)
    obtain ⟨⟨row, s, ctx', hnext, hrow, hget, hs⟩, -⟩ :=
      hxs.step hk hnonneg htotal (hdraws k) _
    exact ⟨_, row, s, ctx', hctx, hnext, hrow, hget, hs⟩
  · intro fuel hfuel
    obtain ⟨xs, hfill, hxs, hranks⟩ := fillDistribution_ranking hlen hnonneg htotal hdraws hfuel
    refine ⟨_, hfill, ?_⟩
    rw [← hxs, List.take_left, hxs]
    exact hranks
  · intro fuel hfuel
    obtain ⟨xs, hfill, hxs, hranks⟩ := fillDistribution_ranking hlen hnonneg htotal hdraws hfuel
    exact ⟨_, rankPartition_of_filled hlen hxs hfill, hranks⟩

theorem rankDnsSrv_permutation_three :
    ∃ ranks, rankPartition 4 (fun _ => 3) [some 10, none, some 5] = .ok ranks ∧
      ranks.Perm [1, 2, 3] := by
  have hdraw : 0 ≤ (3 : Int32).toInt := by decide
  have hnonneg : ∀ w ∈ [some (10 : Int32), none, some 5], 0 ≤ (w.getD 0).toInt := by
    intro w hw
    have hmem : w = some 10 ∨ w = none ∨ w = some 5 := by simpa using hw
    rcases hmem with rfl | rfl | rfl
    · decide
    · decide
    · decide
  exact (rankDnsSrv_permutation [some 10, none, some 5] (fun _ => 3) (by decide) hnonneg
    (by decide) (fun _ => hdraw)).2.2 4 (by decide)

end YetiPgExt.Dns
