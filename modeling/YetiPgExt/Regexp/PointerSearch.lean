import YetiPgExt.Regexp.Pairs

/-!
# `search_split_token` between two pointers

The search once more on a buffer with a pointer into it and one behind the text, with every access
checked: a read of a byte at or behind `end`, a difference `end-p` that wraps, and a loop that does
not end have no result. `checkedSearchSplitToken_eq` says that none of them happens and that the
result is the one of `searchSplitToken`.

Resumed behind each token, the search finds the leftmost tokens that do not overlap, and what
stands between them are the chunks (`tokenPositions_eq`).
-/

set_option autoImplicit false

namespace YetiPgExt.Regexp

open YetiPgExt.Library

section

variable (buf : Bytes) (stop : Nat)

/-- `*p` in front of `stop`. -/
def readBelow (p : Nat) : Option UInt8 := if p < stop then buf[p]? else none

/-- `memchr(p, c, n)`, which reads up to the byte it looks for. -/
def checkedMemchr (c : UInt8) : Nat → Nat → Option (Option Nat)
  | _, 0 => some none
  | p, n + 1 => do
    let b ← readBelow buf stop p
    if b = c then some (some p) else checkedMemchr c (p + 1) n

/-- The loop of `search_split_token`. -/
def checkedSearchLoop : Nat → Nat → Option (Option Nat)
  | 0, _ => none
  | fuel + 1, p =>
    -- `end-p` is converted to a `size_t`
    if stop < p then none
    else do
      match ← checkedMemchr buf stop regexpSplitToken1 p (stop - p) with
      | none => some none
      | some p =>
        if p + regexpSplitTokenLen > stop then some none
        else do
          let b ← readBelow buf stop (p + 1)
          if b = regexpSplitToken2 then some (some p)
          else if p + 2 < stop then checkedSearchLoop fuel (p + 2)
          else some none

/-- `search_split_token`, of the pointers `s` and `stop`. -/
def checkedSearchSplitToken (s : Nat) : Option (Option Nat) :=
  checkedSearchLoop buf stop (stop - s + 1) s

/-- The tokens that are found when the search is resumed behind each of them. -/
def tokenPositions : Nat → Nat → Option (List Nat)
  | 0, _ => none
  | fuel + 1, s => do
    match ← checkedSearchSplitToken buf stop s with
    | none => some []
    | some p => do
      let ps ← tokenPositions fuel (p + regexpSplitTokenLen)
      some (p :: ps)

/-- What stands in front of the tokens, between them, and behind the last. -/
def cutAt : Nat → List Nat → List Bytes
  | s, [] => [slice buf s (stop - s)]
  | s, p :: ps => slice buf s (p - s) :: cutAt (p + regexpSplitTokenLen) ps

/-- The two bytes at `p` are a token in front of `stop`. -/
def TokenAt (p : Nat) : Prop :=
  p + regexpSplitTokenLen ≤ stop ∧ buf[p]? = some regexpSplitToken1 ∧
    buf[p + 1]? = some regexpSplitToken2

end

section

variable {buf : Bytes} {stop fuel p s : Nat}

/-! ## No read behind the end -/

theorem readBelow_eq (hp : p < stop) (hstop : stop ≤ buf.length) :
    readBelow buf stop p = some buf[p] := by
  rw [readBelow, if_pos hp, List.getElem?_eq_getElem (by omega)]

theorem checkedMemchr_eq (c : UInt8) {n : Nat} (hn : p + n ≤ stop) (hstop : stop ≤ buf.length) :
    checkedMemchr buf stop c p n = some ((memchr c (slice buf p n)).map (p + ·)) := by
  induction n generalizing p with
  | zero =>
    rw [slice, List.take_zero]
    rfl
  | succ n ih =>
    have hlt : p < buf.length := by omega
    rw [checkedMemchr, readBelow_eq (by omega) hstop, slice_succ hlt, memchr_cons]
    dsimp only [Option.bind_eq_bind, Option.bind_some]
    by_cases hc : buf[p] = c
    · rw [if_pos hc, if_pos hc]
      rfl
    · rw [if_neg hc, if_neg hc, ih (by omega), Option.map_map]
      congr 2
      funext i
      simp only [Function.comp]
      omega

/-- The loop ends, stays in front of `stop`, and computes what the loop on the text computes. -/
theorem checkedSearchLoop_eq (hp : p ≤ stop) (hstop : stop ≤ buf.length) (hfuel : stop - p < fuel) :
    checkedSearchLoop buf stop fuel p = some (searchLoop fuel p (slice buf p (stop - p))) := by
  induction fuel generalizing p with
  | zero => exact absurd hfuel (Nat.not_lt_zero _)
  | succ fuel ih =>
    have hlen : (slice buf p (stop - p)).length = stop - p := length_slice (by omega)
    rw [checkedSearchLoop, if_neg (Nat.not_lt_of_le hp), searchLoop,
      checkedMemchr_eq _ (by omega) hstop, hlen]
    dsimp only [Option.bind_eq_bind, Option.bind_some]
    rcases hchr : memchr regexpSplitToken1 (slice buf p (stop - p)) with _ | i
    · rfl
    · have htwo : regexpSplitTokenLen = 2 := rfl
      dsimp only [Option.map_some]
      by_cases hlast : i + regexpSplitTokenLen > stop - p
      · rw [if_pos hlast, if_pos (by omega)]
      · have hlt : p + i + 1 < buf.length := by omega
        have hread : (slice buf p (stop - p)).getD (i + 1) 0 = buf[p + i + 1] := by
          rw [List.getD_eq_getElem?_getD, getElem?_slice (by omega), ← Nat.add_assoc,
            List.getElem?_eq_getElem hlt, Option.getD_some]
        rw [if_neg hlast, if_neg (by omega), hread, readBelow_eq (by omega) hstop]
        dsimp only [Option.bind_some]
        by_cases hc : buf[p + i + 1] = regexpSplitToken2
        · rw [if_pos hc, if_pos hc]
        · -- the rest behind the two bytes is where the pointer goes on
          have hrest : (slice buf p (stop - p)).drop (i + 2) =
              slice buf (p + i + 2) (stop - (p + i + 2)) := by
            rw [drop_slice, Nat.sub_sub, ← Nat.add_assoc]
          have hempty : slice buf (p + i + 2) (stop - (p + i + 2)) = [] ↔ ¬ p + i + 2 < stop := by
            rw [← List.length_eq_zero_iff, length_slice (by omega)]
            omega
          rw [if_neg hc, if_neg hc, hrest]
          by_cases hmore : p + i + 2 < stop
          · rw [if_pos hmore, if_neg (by rwa [hempty, not_not]), ih (by omega) (by omega)]
          · rw [if_neg hmore, if_pos (hempty.mpr hmore)]

theorem checkedSearchSplitToken_eq (hs : s ≤ stop) (hstop : stop ≤ buf.length) :
    checkedSearchSplitToken buf stop s =
      some ((searchSplitToken (slice buf s (stop - s))).map (s + ·)) := by
  have hlen : (slice buf s (stop - s)).length = stop - s := length_slice (by omega)
  rw [checkedSearchSplitToken, checkedSearchLoop_eq hs hstop (Nat.lt_succ_self _),
    searchLoop_eq _ _ _ (by omega), searchSplitToken_eq_memmem]

/-! ## The least token -/

theorem tokenAt_iff : TokenAt buf stop p ↔ splitToken.bytes <+: slice buf p (stop - p) := by
  have htwo : regexpSplitTokenLen = 2 := rfl
  rw [TokenAt, List.prefix_iff_getElem?]
  constructor
  · rintro ⟨hfit, hfirst, hsecond⟩ i hi
    have hi : i < 2 := hi
    rw [getElem?_slice (by omega)]
    rcases Nat.lt_succ_iff_lt_or_eq.mp hi with hzero | rfl
    · obtain rfl : i = 0 := by omega
      exact hfirst
    · exact hsecond
  · intro h
    have hfirst := h 0 (by decide)
    have hsecond := h 1 (by decide)
    have hfit : 1 < (slice buf p (stop - p)).length := (List.getElem?_eq_some_iff.mp hsecond).1
    have hlen : (slice buf p (stop - p)).length ≤ stop - p := List.length_take_le _ _
    rw [getElem?_slice (by omega)] at hfirst hsecond
    exact ⟨by omega, hfirst, hsecond⟩

theorem tokenAt_drop_iff {j : Nat} :
    splitToken.bytes <+: (slice buf s (stop - s)).drop j ↔ TokenAt buf stop (s + j) := by
  rw [tokenAt_iff, drop_slice, Nat.sub_sub]

/-- The search returns the least token from `s` on. -/
theorem searchSplitToken_isLeast_iff (hstop : stop ≤ buf.length) :
    (searchSplitToken (slice buf s (stop - s))).map (s + ·) = some p ↔
      IsLeast {q | s ≤ q ∧ TokenAt buf stop q} p := by
  rw [searchSplitToken_eq_memmem, Option.map_eq_some_iff]
  constructor
  · rintro ⟨i, hi, rfl⟩
    obtain ⟨-, hpre, hfirst⟩ := memmem_eq_some_iff.mp hi
    refine ⟨⟨Nat.le_add_right _ _, tokenAt_drop_iff.mp hpre⟩, ?_⟩
    rintro q ⟨hq, htoken⟩
    by_contra hlt
    apply hfirst (q - s) (by omega)
    rwa [tokenAt_drop_iff, Nat.add_sub_cancel' hq]
  · rintro ⟨⟨hp, htoken⟩, hleast⟩
    refine ⟨p - s, ?_, Nat.add_sub_cancel' hp⟩
    rw [memmem_eq_some_iff, tokenAt_drop_iff, Nat.add_sub_cancel' hp]
    refine ⟨?_, htoken, ?_⟩
    · have hfit := htoken.1
      rw [length_slice (by omega)]
      omega
    · intro j hj hpre
      have hle : p ≤ s + j := hleast ⟨Nat.le_add_right _ _, tokenAt_drop_iff.mp hpre⟩
      omega

theorem searchSplitToken_none_iff :
    searchSplitToken (slice buf s (stop - s)) = none ↔ ∀ q, s ≤ q → ¬ TokenAt buf stop q := by
  rw [searchSplitToken_eq_none_iff]
  constructor
  · intro hnone q hq htoken
    rw [← Nat.add_sub_cancel' hq, ← tokenAt_drop_iff] at htoken
    exact hnone (htoken.isInfix.trans (List.drop_suffix _ _).isInfix)
  · rintro hnone ⟨pre, post, hs⟩
    apply hnone (s + pre.length) (Nat.le_add_right _ _)
    rw [← tokenAt_drop_iff, ← hs, List.append_assoc, List.drop_left]
    exact List.prefix_append _ _

/-! ## The tokens in a row -/

/-- The search resumed behind each token finds the leftmost tokens that do not overlap, with the
chunks between them. -/
theorem tokenPositions_eq (hs : s ≤ stop) (hstop : stop ≤ buf.length) (hfuel : stop - s < fuel) :
    ∃ ps, tokenPositions buf stop fuel s = some ps ∧
      Greedy (TokenAt buf stop) regexpSplitTokenLen s ps ∧
      cutAt buf stop s ps = chunks (slice buf s (stop - s)) := by
  induction fuel generalizing s with
  | zero => exact absurd hfuel (Nat.not_lt_zero _)
  | succ fuel ih =>
    rw [tokenPositions, checkedSearchSplitToken_eq hs hstop]
    dsimp only [Option.bind_eq_bind, Option.bind_some]
    rcases hfound : searchSplitToken (slice buf s (stop - s)) with _ | i
    · refine ⟨[], rfl, .done (searchSplitToken_none_iff.mp hfound), ?_⟩
      rw [chunks_of_none hfound]
      rfl
    · have hle := searchSplitToken_le hfound
      rw [length_slice (by omega)] at hle
      have htwo : regexpSplitTokenLen = 2 := rfl
      have hleast : IsLeast {q | s ≤ q ∧ TokenAt buf stop q} (s + i) := by
        rw [← searchSplitToken_isLeast_iff hstop, hfound]
        rfl
      obtain ⟨ps, hps, hgreedy, hcut⟩ := ih (s := s + i + regexpSplitTokenLen) (by omega) (by omega)
      refine ⟨(s + i) :: ps, ?_, .next hleast hgreedy, ?_⟩
      · dsimp only [Option.map_some]
        rw [hps]
        rfl
      · rw [cutAt, hcut, chunks_of_some hfound, take_slice (by omega), drop_slice, Nat.sub_sub,
          Nat.add_sub_cancel_left, Nat.add_assoc]

end

/-- Between any two pointers `search_split_token` ends without a read behind the text, and returns
the least token, or `NULL` exactly if there is none. Resumed behind each token it finds the leftmost
tokens that do not overlap and no others, and the pieces between them with `||` put back are the
text. -/
theorem checkedSearchSplitToken_spec (buf : Bytes) {s stop : Nat} (hs : s ≤ stop)
    (hstop : stop ≤ buf.length) :
    (∃ found, checkedSearchSplitToken buf stop s = some found ∧
      (∀ p, found = some p ↔ IsLeast {q | s ≤ q ∧ TokenAt buf stop q} p) ∧
      (found = none ↔ ∀ q, s ≤ q → ¬ TokenAt buf stop q)) ∧
    ∃ ps, tokenPositions buf stop (stop - s + 1) s = some ps ∧
      (∀ qs, Greedy (TokenAt buf stop) regexpSplitTokenLen s qs ↔ qs = ps) ∧
      splitToken.bytes.intercalate (cutAt buf stop s ps) = slice buf s (stop - s) := by
  constructor
  · refine ⟨_, checkedSearchSplitToken_eq hs hstop, fun p => searchSplitToken_isLeast_iff hstop, ?_⟩
    rw [Option.map_eq_none_iff]
    exact searchSplitToken_none_iff
  · obtain ⟨ps, hps, hgreedy, hcut⟩ := tokenPositions_eq hs hstop (Nat.lt_succ_self (stop - s))
    refine ⟨ps, hps, fun qs => ⟨fun h => h.unique hgreedy, ?_⟩, ?_⟩
    · rintro rfl
      exact hgreedy
    · rw [hcut]
      exact intercalate_chunks _

/-- The text `a|b||c`, with another byte behind it in the buffer. -/
theorem checkedSearchSplitToken_spec_lonePipe :
    (∃ found, checkedSearchSplitToken (ascii "a|b||cX") 6 0 = some found ∧
      (∀ p, found = some p ↔ IsLeast {q | 0 ≤ q ∧ TokenAt (ascii "a|b||cX") 6 q} p) ∧
      (found = none ↔ ∀ q, 0 ≤ q → ¬ TokenAt (ascii "a|b||cX") 6 q)) ∧
    ∃ ps, tokenPositions (ascii "a|b||cX") 6 (6 - 0 + 1) 0 = some ps ∧
      (∀ qs, Greedy (TokenAt (ascii "a|b||cX") 6) regexpSplitTokenLen 0 qs ↔ qs = ps) ∧
      splitToken.bytes.intercalate (cutAt (ascii "a|b||cX") 6 0 ps) =
        slice (ascii "a|b||cX") 0 (6 - 0) :=
  checkedSearchSplitToken_spec (ascii "a|b||cX") (by decide) (by decide)

end YetiPgExt.Regexp
