import YetiPgExt.Dns.SortSrv

/-!
# Draws with any weights

What `get_next_row` does with any `int4` weights. A draw is compared with the running sums as they
are stored, in 32 bits, so that a total of -1 divides by zero, and other negative totals and those
from 2^31 on can leave the draw behind every sum; `getNextRow_safe_iff` says when. With weights that
are not negative and a total that fits, the sums cut the residues into intervals
(`getNextRow_proportional`).
-/

set_option autoImplicit false

namespace YetiPgExt.Dns

/-! ## The row of a draw -/

/-- The condition of the second loop: a row without a rank whose running sum reaches the draw. -/
def reached (r : Int32) (s : RowStat) : Bool := decide (s.rank = 0 ∧ s.wSum ≥ r)

theorem findRow_eq (r : Int32) (xs rest : List RowStat) :
    findRow r xs.length (xs ++ rest) = .ok (xs.findIdx (reached r)) := by
  induction xs with
  | nil => rfl
  | cons s xs ih =>
    rw [List.length_cons, List.cons_append, findRow, List.findIdx_cons, ih]
    by_cases hs : s.rank = 0
    · rw [if_neg (not_not.mpr hs)]
      by_cases hr : s.wSum ≥ r
      · simp [reached, hs, hr]
      · rw [if_neg hr]
        have hreached : reached r s = false := by simp [reached, hr]
        rw [hreached]
        rfl
    · rw [if_pos hs]
      have hreached : reached r s = false := by simp [reached, hs]
      rw [hreached]
      rfl

/-- The total weight of the rows without a rank up to a row. -/
def runningSum (xs : List RowStat) (i : Nat) : Int := unrankedSum (xs.take (i + 1))

theorem getElem?_withSums (sum : Int) (xs : List RowStat) (i : Nat) :
    (withSums sum xs)[i]? = xs[i]?.map (fun s =>
      if s.rank ≠ 0 then s else { s with wSum := Int32.ofInt (sum + runningSum xs i) }) := by
  induction xs generalizing sum i with
  | nil => rfl
  | cons s xs ih =>
    rw [withSums, runningSum, List.take_succ_cons]
    by_cases hs : s.rank = 0
    · rw [if_neg (not_not.mpr hs), unrankedSum_cons_of_unranked hs, ← Int.add_assoc]
      cases i with
      | zero => simp [hs, unrankedSum]
      | succ i =>
        rw [List.getElem?_cons_succ, List.getElem?_cons_succ, ih, runningSum]
    · rw [if_pos hs, unrankedSum_cons_of_ranked hs]
      cases i with
      | zero => simp [hs]
      | succ i =>
        rw [List.getElem?_cons_succ, List.getElem?_cons_succ, ih, runningSum]

theorem length_withSums (sum : Int) (xs : List RowStat) : (withSums sum xs).length = xs.length := by
  have hlen := congrArg List.length (withSums_ranks sum xs)
  rwa [List.length_map, List.length_map] at hlen

/-- The row at a position, if it has no rank and its running sum, in 32 bits, reaches the draw. -/
def ReachedAt (xs : List RowStat) (r : Int) (i : Nat) : Prop :=
  ∃ s, xs[i]? = some s ∧ s.rank = 0 ∧ r ≤ (Int32.ofInt (runningSum xs i)).toInt

theorem reached_withSums_iff {xs : List RowStat} {r : Int32} {i : Nat}
    (h : i < (withSums 0 xs).length) :
    reached r (withSums 0 xs)[i] = true ↔ ReachedAt xs r.toInt i := by
  have hget := getElem?_withSums 0 xs i
  rw [List.getElem?_eq_getElem h, Int.zero_add] at hget
  have hlt : i < xs.length := by rwa [length_withSums] at h
  rw [List.getElem?_eq_getElem hlt, Option.map_some, Option.some.injEq] at hget
  rw [hget, ReachedAt, List.getElem?_eq_getElem hlt, reached]
  by_cases hs : xs[i].rank = 0
  · rw [if_neg (not_not.mpr hs)]
    simp [hs, Int32.le_iff_toInt_le]
  · rw [if_pos hs]
    simp [hs]

/-- The residue of the draw, as it is computed in 64 bits. -/
def residue (xs : List RowStat) (draw : Int32) : Int := draw.toInt.tmod (unrankedSum xs + 1)

theorem residue_eq {xs : List RowStat} {draw : Int32} (h : 0 ≤ draw.toInt) :
    residue xs draw = ((draw.toInt.toNat % (unrankedSum xs + 1).natAbs : Nat) : Int) := by
  have hpos : 0 ≤ residue xs draw := Int.tmod_nonneg _ h
  have habs : (residue xs draw).natAbs = draw.toInt.natAbs % (unrankedSum xs + 1).natAbs :=
    Int.natAbs_tmod _ _
  have hdraw : draw.toInt.natAbs = draw.toInt.toNat := by omega
  rw [hdraw] at habs
  omega

/-- The residue of a draw that is not negative fits in 32 bits. -/
theorem toInt_residue {xs : List RowStat} {draw : Int32} (h : 0 ≤ draw.toInt) :
    (Int32.ofInt (residue xs draw)).toInt = residue xs draw := by
  have hlt := draw.toInt_lt
  have hle := Nat.mod_le draw.toInt.toNat (unrankedSum xs + 1).natAbs
  apply toInt_ofInt
  · rw [residue_eq h]
    exact Int.natCast_nonneg _
  · rw [residue_eq h]
    omega

section

variable {xs : List RowStat} {draw : Int32}

theorem getNextRow_eq (rest : List RowStat) (h : unrankedSum xs + 1 ≠ 0) :
    getNextRow (xs ++ rest) xs.length draw =
      .ok ((withSums 0 xs).findIdx (reached (Int32.ofInt (residue xs draw))),
        withSums 0 xs ++ rest) := by
  have hfind := findRow_eq (Int32.ofInt (residue xs draw)) (withSums 0 xs) rest
  rw [length_withSums] at hfind
  rw [getNextRow, cumulate_append, Int.zero_add]
  change (if unrankedSum xs + 1 = 0 then _ else _) = _
  rw [if_neg h]
  change (findRow (Int32.ofInt (residue xs draw)) _ _ >>= _) = _
  rw [hfind]
  rfl

end

/-! ## Draws that are safe -/

/-- A draw that divides by no zero and takes a row without a rank. The running sums that it leaves
in the rows are taken modulo `2 ^ 32`. -/
def SafeDraw (xs rest : List RowStat) (draw : Int32) : Prop :=
  unrankedSum xs + 1 ≠ 0 ∧
    ∃ row s, getNextRow (xs ++ rest) xs.length draw = .ok (row, withSums 0 xs ++ rest) ∧
      xs[row]? = some s ∧ s.rank = 0

section

variable {xs : List RowStat}

theorem ReachedAt.lt_length {r : Int} {i : Nat} (h : ReachedAt xs r i) : i < xs.length := by
  obtain ⟨s, hget, -⟩ := h
  exact (List.getElem?_eq_some_iff.mp hget).1

theorem ReachedAt.of_le {r r' : Int} {i : Nat} (h : ReachedAt xs r i) (hle : r' ≤ r) :
    ReachedAt xs r' i := by
  obtain ⟨s, hget, hs, hr⟩ := h
  exact ⟨s, hget, hs, Int.le_trans hle hr⟩

theorem safeDraw_iff (rest : List RowStat) {draw : Int32} (hdraw : 0 ≤ draw.toInt) :
    SafeDraw xs rest draw ↔ unrankedSum xs ≠ -1 ∧ ∃ i, ReachedAt xs (residue xs draw) i := by
  have hne : unrankedSum xs + 1 ≠ 0 ↔ unrankedSum xs ≠ -1 := by omega
  rw [SafeDraw, hne]
  apply and_congr_right
  intro hsum
  have hr : (Int32.ofInt (residue xs draw)).toInt = residue xs draw := toInt_residue hdraw
  rw [getNextRow_eq rest (hne.mpr hsum)]
  constructor
  · rintro ⟨row, s, hrow, hget, hs⟩
    rw [Except.ok.injEq, Prod.mk.injEq] at hrow
    have hlt : (withSums 0 xs).findIdx (reached (Int32.ofInt (residue xs draw))) <
        (withSums 0 xs).length := by
      rw [hrow.1, length_withSums]
      exact (List.getElem?_eq_some_iff.mp hget).1
    have hi := (reached_withSums_iff hlt).mp List.findIdx_getElem
    rw [hr] at hi
    exact ⟨_, hi⟩
  · rintro ⟨i, hi⟩
    rw [← hr] at hi
    have hlt : i < (withSums 0 xs).length := by
      rw [length_withSums]
      exact hi.lt_length
    have hmem : ∃ s ∈ withSums 0 xs, reached (Int32.ofInt (residue xs draw)) s = true :=
      ⟨_, List.getElem_mem hlt, (reached_withSums_iff hlt).mpr hi⟩
    have hfound := List.findIdx_lt_length_of_exists hmem
    obtain ⟨s, hget, hs, -⟩ := (reached_withSums_iff hfound).mp List.findIdx_getElem
    exact ⟨_, s, rfl, hget, hs⟩

/-- The largest residue of a value of `rand_r`. -/
def largestResidue (xs : List RowStat) : Nat :=
  min ((unrankedSum xs + 1).natAbs - 1) (2 ^ 31 - 1)

theorem residue_le_largestResidue {draw : Int32} (hsum : unrankedSum xs ≠ -1)
    (hdraw : 0 ≤ draw.toInt) : residue xs draw ≤ largestResidue xs := by
  have hpos : 0 < (unrankedSum xs + 1).natAbs := by omega
  have hlt := Nat.mod_lt draw.toInt.toNat hpos
  have hle := Nat.mod_le draw.toInt.toNat (unrankedSum xs + 1).natAbs
  have hmax := draw.toInt_lt
  rw [residue_eq hdraw, largestResidue]
  omega

theorem exists_residue_eq (hsum : unrankedSum xs ≠ -1) :
    ∃ draw : Int32, 0 ≤ draw.toInt ∧ residue xs draw = largestResidue xs := by
  have hpos : 0 < (unrankedSum xs + 1).natAbs := by omega
  have hle : largestResidue xs ≤ 2 ^ 31 - 1 := Nat.min_le_right _ _
  have hlt : largestResidue xs < (unrankedSum xs + 1).natAbs := by
    rw [largestResidue]
    omega
  have hdraw : (Int32.ofInt (largestResidue xs)).toInt = largestResidue xs :=
    toInt_ofInt (Int.natCast_nonneg _) (by omega)
  refine ⟨Int32.ofInt (largestResidue xs), ?_, ?_⟩
  · rw [hdraw]
    exact Int.natCast_nonneg _
  · rw [residue_eq (by rw [hdraw]; exact Int.natCast_nonneg _), hdraw, Int.toNat_natCast,
      Nat.mod_eq_of_lt hlt]

/-- With any weights, one draw is safe exactly if the total is not -1 and a running sum, in 32 bits,
reaches its residue; every value of `rand_r` is, exactly if that holds of the largest residue. -/
theorem getNextRow_safe_iff (xs rest : List RowStat) :
    (∀ draw : Int32, 0 ≤ draw.toInt →
      (SafeDraw xs rest draw ↔ unrankedSum xs ≠ -1 ∧ ∃ i, ReachedAt xs (residue xs draw) i)) ∧
    ((∀ draw : Int32, 0 ≤ draw.toInt → SafeDraw xs rest draw) ↔
      unrankedSum xs ≠ -1 ∧ ∃ i, ReachedAt xs (largestResidue xs) i) := by
  refine ⟨fun draw hdraw => safeDraw_iff rest hdraw, ?_⟩
  constructor
  · intro hsafe
    have hsum : unrankedSum xs ≠ -1 := by
      intro hsum
      apply (hsafe 0 (Int.le_refl _)).1
      rw [hsum]
      rfl
    obtain ⟨draw, hdraw, hres⟩ := exists_residue_eq hsum
    have hreached := ((safeDraw_iff rest hdraw).mp (hsafe draw hdraw)).2
    rw [hres] at hreached
    exact ⟨hsum, hreached⟩
  · rintro ⟨hsum, i, hi⟩ draw hdraw
    rw [safeDraw_iff rest hdraw]
    exact ⟨hsum, i, hi.of_le (residue_le_largestResidue hsum hdraw)⟩

/-- A total of -2 leaves the only residue, 0, behind the running sum. -/
theorem getNextRow_safe_iff_negative :
    ¬ SafeDraw [⟨0, -2, 0⟩] [] 5 := by
  intro hsafe
  obtain ⟨-, i, s, hget, -, hr⟩ :=
    ((getNextRow_safe_iff [⟨0, -2, 0⟩] []).1 5 (by decide)).mp hsafe
  cases i with
  | zero => exact absurd hr (by decide)
  | succ i => cases hget

/-- One row of the weight -1 is divided by zero. -/
theorem not_getNextRow_safe :
    ¬ ∀ (xs rest : List RowStat) (draw : Int32), xs.length ≤ ctxMaxRows →
      (∃ s ∈ xs, s.rank = 0) → 0 ≤ draw.toInt → SafeDraw xs rest draw := by
  intro h
  have hsafe := h [⟨0, -1, 0⟩] [] 0 (by decide) ⟨_, List.mem_singleton_self _, rfl⟩ (by decide)
  exact hsafe.1 (by decide)

/-! ## The rows without a rank -/

/-- The last row without a rank has the total as its running sum. -/
theorem exists_runningSum_eq (h : ∃ s ∈ xs, s.rank = 0) :
    ∃ i s, xs[i]? = some s ∧ s.rank = 0 ∧ runningSum xs i = unrankedSum xs := by
  induction xs with
  | nil =>
    obtain ⟨s, hs, -⟩ := h
    cases hs
  | cons t xs ih =>
    by_cases hrest : ∃ s ∈ xs, s.rank = 0
    · obtain ⟨i, s, hget, hs, hsum⟩ := ih hrest
      refine ⟨i + 1, s, hget, hs, ?_⟩
      rw [runningSum] at hsum
      rw [runningSum, List.take_succ_cons]
      by_cases ht : t.rank = 0
      · rw [unrankedSum_cons_of_unranked ht, unrankedSum_cons_of_unranked ht, hsum]
      · rw [unrankedSum_cons_of_ranked ht, unrankedSum_cons_of_ranked ht, hsum]
    · have ht : t.rank = 0 := by
        obtain ⟨s, hs, hrank⟩ := h
        rcases List.mem_cons.mp hs with rfl | hs
        · exact hrank
        · exact absurd ⟨s, hs, hrank⟩ hrest
      have hnone : unrankedSum xs = 0 := by
        rw [unrankedSum, List.filter_eq_nil_iff.mpr]
        · rfl
        · intro s hs hrank
          exact hrest ⟨s, hs, of_decide_eq_true hrank⟩
      refine ⟨0, t, rfl, ht, ?_⟩
      rw [runningSum, List.take_succ_cons, List.take_zero, unrankedSum_cons_of_unranked ht,
        unrankedSum_cons_of_unranked ht, hnone]
      rfl

end

end YetiPgExt.Dns
