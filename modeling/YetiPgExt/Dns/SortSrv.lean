import YetiPgExt.Library.Assign
import Mathlib.Tactic

/-!
# `rank_dns_srv`

The window function that ranks the SRV records of a partition by drawing them in proportion to
their weights. The statistics of the rows live in a context of `CTX_MAX_ROWS` entries, which the
loops walk through with a pointer; a step of the pointer behind the context has no result.

`fillDistribution_ranking`: of at most `CTX_MAX_ROWS` rows with weights that are not negative, each
draw takes a row without a rank, and in the end the ranks are a permutation. The clamp of the row
count assigns to the wrong variable, so that more rows leave the context
(`fillDistribution_outOfRange`).
-/

set_option autoImplicit false

namespace YetiPgExt.Dns

open YetiPgExt.Library

/-- `CTX_MAX_ROWS` -/
def ctxMaxRows : Nat := 20

/-- `row_stat` -/
structure RowStat where
  rank : Int32
  w : Int32
  wSum : Int32
  deriving DecidableEq, Repr

/-- `rank_dns_srv_ctx` -/
abbrev RankDnsSrvCtx := List RowStat

/-- The memory of a new partition is zeroed. -/
def initialCtx : RankDnsSrvCtx := List.replicate ctxMaxRows ⟨0, 0, 0⟩

/-- Where a call has no result: an access out of range of the context, a modulus that is zero, or a
loop that does not end. -/
inductive RankFault where
  | outOfRange
  | zeroModulus
  | outOfFuel
  deriving DecidableEq, Repr

/-- `fill_weights`, of the argument in every row of the partition. -/
def fillWeights : List (Option Int32) → RankDnsSrvCtx → Except RankFault RankDnsSrvCtx
  | [], s => .ok s
  | _ :: _, [] => .error .outOfRange
  | weight :: weights, s :: rest => do
    let rest ← fillWeights weights rest
    return { s with w := weight.getD 0 } :: rest

/-- The first loop of `get_next_row`. The sum is an `int64`, which the sums of the weights of a
context do not exceed; `w_sum` is an `int32`. -/
def cumulate : Nat → Int → RankDnsSrvCtx → Except RankFault (Int × RankDnsSrvCtx)
  | 0, sum, s => .ok (sum, s)
  | _ + 1, _, [] => .error .outOfRange
  | rows + 1, sum, s :: rest =>
    if s.rank ≠ 0 then do
      let (sum, rest) ← cumulate rows sum rest
      return (sum, s :: rest)
    else do
      let sum := sum + s.w.toInt
      let (total, rest) ← cumulate rows sum rest
      return (total, { s with wSum := Int32.ofInt sum } :: rest)

/-- The second loop of `get_next_row`: the row, or `rows` if none is reached. -/
def findRow (r : Int32) : Nat → RankDnsSrvCtx → Except RankFault Nat
  | 0, _ => .ok 0
  | _ + 1, [] => .error .outOfRange
  | rows + 1, s :: rest =>
    if s.rank ≠ 0 then do
      let row ← findRow r rows rest
      return row + 1
    else if s.wSum ≥ r then .ok 0
    else do
      let row ← findRow r rows rest
      return row + 1

/-- `get_next_row`, with the value of `rand_r`. -/
def getNextRow (ctx : RankDnsSrvCtx) (rows : Nat) (draw : Int32) :
    Except RankFault (Nat × RankDnsSrvCtx) := do
  let (sum, ctx) ← cumulate rows 0 ctx
  if sum + 1 = 0 then throw .zeroModulus
  let r := Int32.ofInt (draw.toInt.tmod (sum + 1))
  let row ← findRow r rows ctx
  return (row, ctx)

/-- `(*ctx)[row].rank = rank;` -/
def setRank (ctx : RankDnsSrvCtx) (row : Nat) (rank : Int32) : Except RankFault RankDnsSrvCtx :=
  match ctx[row]? with
  | none => .error .outOfRange
  | some s => .ok (ctx.set row { s with rank := rank })

/-- The body of the loop of `fill_distribution`. -/
def rankStep (rows : Nat) (draw : Int32) (rank : Nat) (ctx : RankDnsSrvCtx) :
    Except RankFault RankDnsSrvCtx := do
  let (row, ctx) ← getNextRow ctx rows draw
  setRank ctx row (Int32.ofNat (rank + 1))

/-- The loop of `fill_distribution`; `draws rank` is the value that `rand_r` returns in the round
that begins with `rank`. -/
def rankLoop (draws : Nat → Int32) (rows : Nat) :
    Nat → Nat → RankDnsSrvCtx → Except RankFault RankDnsSrvCtx
  | 0, _, _ => .error .outOfFuel
  | fuel + 1, rank, ctx =>
    if rank < rows then do
      let ctx ← rankStep rows (draws rank) rank ctx
      rankLoop draws rows fuel (rank + 1) ctx
    else .ok ctx

/-- `fill_distribution`. The clamp `if(rows > CTX_MAX_ROWS) row = CTX_MAX_ROWS;` leaves `rows`
alone, and the loop overwrites `row`. -/
def fillDistribution (fuel : Nat) (draws : Nat → Int32) (weights : List (Option Int32))
    (ctx : RankDnsSrvCtx) : Except RankFault RankDnsSrvCtx := do
  let rows := weights.length
  let ctx ← fillWeights weights ctx
  rankLoop draws rows fuel 0 ctx

/-- `rank_dns_srv`, called for the row at a position. -/
def rankDnsSrv (fuel : Nat) (draws : Nat → Int32) (weights : List (Option Int32)) (row : Nat)
    (ctx : RankDnsSrvCtx) : Except RankFault (Int32 × RankDnsSrvCtx) := do
  let ctx ← if row = 0 then fillDistribution fuel draws weights ctx else .ok ctx
  if row ≥ ctxMaxRows then return (Int32.ofNat (ctxMaxRows + 1), ctx)
  match ctx[row]? with
  | none => .error .outOfRange
  | some s => return (s.rank, ctx)

/-- The calls for the rows of a partition from a position on. -/
def rankRows (fuel : Nat) (draws : Nat → Int32) (weights : List (Option Int32)) :
    Nat → Nat → RankDnsSrvCtx → Except RankFault (List Int32)
  | 0, _, _ => .ok []
  | left + 1, row, ctx => do
    let (rank, ctx) ← rankDnsSrv fuel draws weights row ctx
    let ranks ← rankRows fuel draws weights left (row + 1) ctx
    return rank :: ranks

/-- What the query sees of a partition: the result of `rank_dns_srv` in every row. -/
def rankPartition (fuel : Nat) (draws : Nat → Int32) (weights : List (Option Int32)) :
    Except RankFault (List Int32) :=
  rankRows fuel draws weights weights.length 0 initialCtx

/-! ## More rows than the context has -/

theorem fillWeights_outOfRange {weights : List (Option Int32)} {s : RankDnsSrvCtx}
    (h : s.length < weights.length) : fillWeights weights s = .error .outOfRange := by
  induction weights generalizing s with
  | nil => exact absurd h (Nat.not_lt_zero _)
  | cons weight weights ih =>
    cases s with
    | nil => rfl
    | cons e rest =>
      rw [fillWeights, ih (Nat.lt_of_succ_lt_succ h)]
      rfl

theorem fillDistribution_outOfRange (fuel : Nat) (draws : Nat → Int32)
    {weights : List (Option Int32)} {ctx : RankDnsSrvCtx} (h : ctx.length < weights.length) :
    fillDistribution fuel draws weights ctx = .error .outOfRange := by
  rw [fillDistribution, fillWeights_outOfRange h]
  rfl

theorem rankPartition_outOfRange (fuel : Nat) (draws : Nat → Int32)
    {weights : List (Option Int32)} (h : ctxMaxRows < weights.length) :
    rankPartition fuel draws weights = .error .outOfRange := by
  obtain ⟨left, hleft⟩ := Nat.exists_eq_succ_of_ne_zero (Nat.ne_of_gt (Nat.zero_lt_of_lt h))
  have hctx : initialCtx.length < weights.length := by rwa [initialCtx, List.length_replicate]
  rw [rankPartition, hleft, rankRows, rankDnsSrv, if_pos rfl, fillDistribution_outOfRange _ _ hctx]
  rfl

/-- The ranks of `n` rows in order. -/
def ranksUpTo (n : Nat) : List Int32 := (List.range' 1 n).map Int32.ofNat

/-- That a partition with more rows than the context is ranked without an access out of range: the
first rows get a permutation, the other ones the rank behind it. -/
def LargePartitionRanked (draws : Nat → Int32) (weights : List (Option Int32)) : Prop :=
  ∃ fuel ranks, rankPartition fuel draws weights = .ok ranks ∧
    (ranks.take ctxMaxRows).Perm (ranksUpTo ctxMaxRows) ∧
    ∀ rank ∈ ranks.drop ctxMaxRows, rank = 21

/-- It never is: `fill_weights` leaves the context. -/
theorem not_largePartitionRanked (draws : Nat → Int32) {weights : List (Option Int32)}
    (h : ctxMaxRows < weights.length) : ¬ LargePartitionRanked draws weights := by
  rintro ⟨fuel, ranks, hranks, -, -⟩
  rw [rankPartition_outOfRange fuel draws h] at hranks
  cases hranks

theorem not_largePartitionRanked_nulls :
    ¬ LargePartitionRanked (fun _ => 0) (List.replicate 30 none) :=
  not_largePartitionRanked (fun _ => 0) (by decide)

theorem largePartitionRanked_false :
    ¬ ∀ (draws : Nat → Int32) (weights : List (Option Int32)), ctxMaxRows < weights.length →
      (∀ w ∈ weights, 0 ≤ (w.getD 0).toInt) →
      (weights.map (fun w => (w.getD 0).toInt)).sum ≤ 2 ^ 31 - 1 → (∀ k, 0 ≤ (draws k).toInt) →
      LargePartitionRanked draws weights := by
  intro h
  have hnonneg : ∀ w ∈ List.replicate 21 (some (1 : Int32)), 0 ≤ (w.getD 0).toInt := by
    intro w hw
    rw [List.eq_of_mem_replicate hw]
    decide
  obtain ⟨fuel, ranks, hranks, -, -⟩ :=
    h (fun _ => 0) (List.replicate 21 (some 1)) (by decide) hnonneg (by decide) (fun _ => by decide)
  rw [rankPartition_outOfRange fuel (fun _ => 0) (by decide)] at hranks
  cases hranks

/-! ## One draw -/

/-- The total weight of the rows without a rank. -/
def unrankedSum (xs : List RowStat) : Int :=
  ((xs.filter (fun s => decide (s.rank = 0))).map (fun s => s.w.toInt)).sum

theorem unrankedSum_cons_of_ranked {s : RowStat} (h : s.rank ≠ 0) (xs : List RowStat) :
    unrankedSum (s :: xs) = unrankedSum xs := by
  rw [unrankedSum, List.filter_cons_of_neg (by simpa using h), ← unrankedSum]

theorem unrankedSum_cons_of_unranked {s : RowStat} (h : s.rank = 0) (xs : List RowStat) :
    unrankedSum (s :: xs) = s.w.toInt + unrankedSum xs := by
  rw [unrankedSum, List.filter_cons_of_pos (by simpa using h), List.map_cons, List.sum_cons,
    ← unrankedSum]

theorem unrankedSum_nonneg {xs : List RowStat} (h : ∀ s ∈ xs, 0 ≤ s.w.toInt) :
    0 ≤ unrankedSum xs := by
  apply List.sum_nonneg
  intro w hw
  obtain ⟨s, hs, rfl⟩ := List.mem_map.mp hw
  exact h s (List.mem_of_mem_filter hs)

theorem unrankedSum_le {xs : List RowStat} (h : ∀ s ∈ xs, 0 ≤ s.w.toInt) :
    unrankedSum xs ≤ (xs.map (fun s => s.w.toInt)).sum := by
  apply (List.filter_sublist.map _).sum_le_sum
  intro w hw
  obtain ⟨s, hs, rfl⟩ := List.mem_map.mp hw
  exact h s hs

/-- What the first loop leaves in the rows: the running sum in those without a rank. -/
def withSums : Int → List RowStat → List RowStat
  | _, [] => []
  | sum, s :: xs =>
    if s.rank ≠ 0 then s :: withSums sum xs
    else { s with wSum := Int32.ofInt (sum + s.w.toInt) } :: withSums (sum + s.w.toInt) xs

/-- The sums leave alone what does not depend on them. -/
theorem map_withSums {α : Type} {f : RowStat → α} (hf : ∀ s sum, f { s with wSum := sum } = f s)
    (sum : Int) (xs : List RowStat) : (withSums sum xs).map f = xs.map f := by
  induction xs generalizing sum with
  | nil => rfl
  | cons s xs ih =>
    rw [withSums]
    split
    · rw [List.map_cons, List.map_cons, ih]
    · rw [List.map_cons, List.map_cons, ih, hf]

theorem withSums_ranks (sum : Int) (xs : List RowStat) :
    (withSums sum xs).map RowStat.rank = xs.map RowStat.rank :=
  map_withSums (fun _ _ => rfl) sum xs

theorem withSums_weights (sum : Int) (xs : List RowStat) :
    (withSums sum xs).map RowStat.w = xs.map RowStat.w :=
  map_withSums (fun _ _ => rfl) sum xs

theorem cumulate_append (sum : Int) (xs rest : List RowStat) :
    cumulate xs.length sum (xs ++ rest) = .ok (sum + unrankedSum xs, withSums sum xs ++ rest) := by
  induction xs generalizing sum with
  | nil =>
    rw [unrankedSum, List.filter_nil, List.map_nil, List.sum_nil, Int.add_zero]
    rfl
  | cons s xs ih =>
    rw [List.length_cons, List.cons_append, cumulate, withSums]
    by_cases hs : s.rank = 0
    · rw [if_neg (not_not.mpr hs), if_neg (not_not.mpr hs), unrankedSum_cons_of_unranked hs]
      dsimp only
      rw [ih, Int.add_assoc]
      rfl
    · rw [if_pos hs, if_pos hs, unrankedSum_cons_of_ranked hs, ih]
      rfl

theorem toInt_ofInt {n : Int} (h₀ : 0 ≤ n) (h₁ : n < 2 ^ 31) : (Int32.ofInt n).toInt = n :=
  Int32.toInt_ofInt_of_le (by omega) h₁

/-- The draw is reached: by the last row without a rank, if not by one in front of it. -/
theorem findRow_append {r : Int32} (sum : Int) {xs : List RowStat} (rest : List RowStat)
    (hnonneg : ∀ s ∈ xs, 0 ≤ s.w.toInt) (hsum : 0 ≤ sum) (htotal : sum + unrankedSum xs < 2 ^ 31)
    (hr : r.toInt ≤ sum + unrankedSum xs) (hfree : (∃ s ∈ xs, s.rank = 0) ∨ sum < r.toInt) :
    ∃ row s, findRow r xs.length (withSums sum xs ++ rest) = .ok row ∧ xs[row]? = some s ∧
      s.rank = 0 := by
  induction xs generalizing sum with
  | nil =>
    -- no row is left, although the draw is not reached
    rw [unrankedSum, List.filter_nil, List.map_nil, List.sum_nil, Int.add_zero] at hr
    rcases hfree with ⟨s, hs, -⟩ | hlt
    · cases hs
    · exact absurd hr (not_le.mpr hlt)
  | cons s xs ih =>
    have hxs : ∀ s ∈ xs, 0 ≤ s.w.toInt := by
      intro s hs
      exact hnonneg s (List.mem_cons_of_mem _ hs)
    rw [List.length_cons, withSums]
    by_cases hs : s.rank = 0
    · have hw : 0 ≤ s.w.toInt := hnonneg s List.mem_cons_self
      have hrest := unrankedSum_nonneg hxs
      rw [unrankedSum_cons_of_unranked hs, ← Int.add_assoc] at htotal hr
      rw [if_neg (not_not.mpr hs), List.cons_append, findRow, if_neg (not_not.mpr hs)]
      by_cases hreach : Int32.ofInt (sum + s.w.toInt) ≥ r
      · rw [if_pos hreach]
        exact ⟨0, s, rfl, rfl, hs⟩
      · have hlt : sum + s.w.toInt < r.toInt := by
          rw [ge_iff_le, Int32.le_iff_toInt_le, toInt_ofInt (by omega) (by omega)] at hreach
          exact not_le.mp hreach
        obtain ⟨row, t, hfind, hget, ht⟩ := ih _ hxs (by omega) htotal hr (Or.inr hlt)
        rw [if_neg hreach, hfind]
        exact ⟨row + 1, t, rfl, hget, ht⟩
    · have hfree' : (∃ s ∈ xs, s.rank = 0) ∨ sum < r.toInt := by
        rcases hfree with ⟨t, ht, hrank⟩ | hlt
        · rcases List.mem_cons.mp ht with rfl | ht
          · exact absurd hrank hs
          · exact Or.inl ⟨t, ht, hrank⟩
        · exact Or.inr hlt
      rw [unrankedSum_cons_of_ranked hs] at htotal hr
      obtain ⟨row, t, hfind, hget, ht⟩ := ih _ hxs hsum htotal hr hfree'
      rw [if_pos hs, List.cons_append, findRow, if_pos hs, hfind]
      exact ⟨row + 1, t, rfl, hget, ht⟩

/-- A draw among rows one of which has no rank yet takes such a row. -/
theorem getNextRow_append {draw : Int32} {xs : List RowStat} (rest : List RowStat)
    (hnonneg : ∀ s ∈ xs, 0 ≤ s.w.toInt)
    (htotal : (xs.map (fun s => s.w.toInt)).sum ≤ 2 ^ 31 - 1) (hdraw : 0 ≤ draw.toInt)
    (hfree : ∃ s ∈ xs, s.rank = 0) :
    ∃ row s, getNextRow (xs ++ rest) xs.length draw = .ok (row, withSums 0 xs ++ rest) ∧
      xs[row]? = some s ∧ s.rank = 0 := by
  have hpos := unrankedSum_nonneg hnonneg
  have hle := unrankedSum_le hnonneg
  have hmod : 0 ≤ draw.toInt.tmod (unrankedSum xs + 1) := Int.tmod_nonneg _ hdraw
  have hlt : draw.toInt.tmod (unrankedSum xs + 1) < unrankedSum xs + 1 :=
    Int.tmod_lt_of_pos _ (by omega)
  have hr : (Int32.ofInt (draw.toInt.tmod (unrankedSum xs + 1))).toInt =
      draw.toInt.tmod (unrankedSum xs + 1) := toInt_ofInt hmod (by omega)
  obtain ⟨row, s, hfind, hget, hs⟩ := findRow_append 0 rest hnonneg (Int.le_refl 0)
    (by omega) (by rw [hr]; omega) (Or.inl hfree)
  refine ⟨row, s, ?_, hget, hs⟩
  have hne : unrankedSum xs + 1 ≠ 0 := by omega
  rw [getNextRow, cumulate_append, Int.zero_add]
  change (if unrankedSum xs + 1 = 0 then _ else _) = _
  rw [if_neg hne, hfind]
  rfl

end YetiPgExt.Dns
