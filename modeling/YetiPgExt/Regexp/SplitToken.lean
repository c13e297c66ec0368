import YetiPgExt.Library.Split

/-!
# `search_split_token`

The rule and the result of a replacement are lists of chunks, separated by `||`. The loop of
`search_split_token` looks for the first separator; `searchSplitToken_eq_memmem` says that it finds
the leftmost one.
-/

set_option autoImplicit false

namespace YetiPgExt.Regexp

open YetiPgExt.Library

/-- `REGEXP_SPLIT_TOKEN_1` -/
def regexpSplitToken1 : UInt8 := 124
/-- `REGEXP_SPLIT_TOKEN_2` -/
def regexpSplitToken2 : UInt8 := 124
/-- `REGEXP_SPLIT_TOKEN_LEN` -/
def regexpSplitTokenLen : Nat := 2
/-- `REGEXP_SPLIT_MAX_TOKENS` -/
def regexpSplitMaxTokens : Nat := 10

/-- The loop of `search_split_token`: `p` is the offset of the rest `rest`. Each round moves over
two bytes or ends. -/
def searchLoop : Nat → Nat → Bytes → Option Nat
  | 0, _, _ => none
  | fuel + 1, p, rest =>
    match memchr regexpSplitToken1 rest with
    | none => none
    | some i =>
      if i + regexpSplitTokenLen > rest.length then none
      else if rest.getD (i + 1) 0 = regexpSplitToken2 then some (p + i)
      else
        -- the byte behind the `|` is passed over too: it is not a `|`
        let rest := rest.drop (i + 2)
        if rest = [] then none else searchLoop fuel (p + i + 2) rest

/-- `search_split_token`, of the text between its two pointers: the offset of the token. -/
def searchSplitToken (s : Bytes) : Option Nat := searchLoop (s.length + 1) 0 s

/-- The separator `||`. -/
def splitToken : Separator where
  bytes := [regexpSplitToken1, regexpSplitToken2]
  ne_nil := by decide

/-! ## The leftmost separator -/

/-- Up to the first `|` there is no separator. -/
theorem memmem_of_memchr {s : Bytes} {i : Nat} (h : memchr regexpSplitToken1 s = some i) :
    memmem splitToken.bytes s = (memmem splitToken.bytes (s.drop i)).map (· + i) := by
  -- no byte in front of the first `|` begins a separator
  induction s generalizing i with
  | nil => cases h
  | cons c s ih =>
    cases i with
    | zero => simp
    | succ i =>
      obtain ⟨hi, hbefore⟩ := memchr_eq_some_iff.mp h
      have hc : c ≠ regexpSplitToken1 := by
        intro hc
        exact hbefore 0 (Nat.succ_pos i) (congrArg some hc)
      have hrest : memchr regexpSplitToken1 s = some i := by
        rw [memchr_eq_some_iff]
        refine ⟨hi, ?_⟩
        intro j hj
        exact hbefore (j + 1) (Nat.succ_lt_succ hj)
      have hpre : ¬ splitToken.bytes <+: c :: s := by
        rintro ⟨rest, hrest⟩
        exact hc (List.cons_eq_cons.mp hrest).1.symm
      rw [memmem, if_neg hpre, ih hrest, Option.map_map]
      rfl

theorem memmem_of_memchr_eq_none {s : Bytes} (h : memchr regexpSplitToken1 s = none) :
    memmem splitToken.bytes s = none := by
  rw [memmem_eq_none_iff]
  intro hocc
  exact memchr_eq_none_iff.mp h (hocc.subset List.mem_cons_self)

/-- At a `|` with another byte behind it there is no separator, nor at that byte. -/
theorem memmem_skip {c : UInt8} (hc : c ≠ regexpSplitToken2) (s : Bytes) :
    memmem splitToken.bytes (regexpSplitToken1 :: c :: s) =
      (memmem splitToken.bytes s).map (· + 2) := by
  have hfirst : ¬ splitToken.bytes <+: regexpSplitToken1 :: c :: s := by
    rintro ⟨rest, hrest⟩
    exact hc (List.cons_eq_cons.mp (List.cons_eq_cons.mp hrest).2).1.symm
  have hsecond : ¬ splitToken.bytes <+: c :: s := by
    rintro ⟨rest, hrest⟩
    exact hc (List.cons_eq_cons.mp hrest).1.symm
  rw [memmem, if_neg hfirst, memmem, if_neg hsecond, Option.map_map]
  rfl

/-- The loop finds the leftmost separator of the rest. -/
theorem searchLoop_eq (fuel p : Nat) (rest : Bytes) (hfuel : rest.length < fuel) :
    searchLoop fuel p rest = (memmem splitToken.bytes rest).map (p + ·) := by
  induction fuel generalizing p rest with
  | zero => exact absurd hfuel (Nat.not_lt_zero _)
  | succ fuel ih =>
    rw [searchLoop]
    rcases hchr : memchr regexpSplitToken1 rest with _ | i
    · rw [memmem_of_memchr_eq_none hchr]
      rfl
    · have hdrop : rest.drop i = regexpSplitToken1 :: rest.drop (i + 1) := by
        obtain ⟨hi, -⟩ := memchr_eq_some_iff.mp hchr
        obtain ⟨hlt, hi⟩ := List.getElem?_eq_some_iff.mp hi
        rw [List.drop_eq_getElem_cons hlt, hi]
      rw [memmem_of_memchr hchr, hdrop]
      simp only
      split
      · -- the `|` is the last byte
        rename_i hlast
        have hlen : regexpSplitTokenLen = 2 := rfl
        have hnil : rest.drop (i + 1) = [] := List.drop_eq_nil_of_le (by omega)
        rw [hnil]
        rfl
      · rename_i hlen
        have htwo : regexpSplitTokenLen = 2 := rfl
        have hlt : i + 1 < rest.length := by omega
        have hget : rest.getD (i + 1) 0 = rest[i + 1] := by
          rw [List.getD_eq_getElem?_getD, List.getElem?_eq_getElem hlt, Option.getD_some]
        rw [List.drop_eq_getElem_cons hlt, hget]
        split
        · rename_i hc
          rw [hc, memmem, if_pos ⟨_, rfl⟩]
          simp
        · rename_i hc
          -- the round moves over both bytes, and the rest is shorter than the fuel
          rw [memmem_skip hc]
          split
          · rename_i hnil
            rw [hnil]
            rfl
          · rw [ih (p + i + 2) (rest.drop (i + 2)) (by rw [List.length_drop]; omega),
              Option.map_map, Option.map_map]
            congr 1
            funext k
            simp only [Function.comp]
            omega

/-- `search_split_token` returns the leftmost separator. -/
theorem searchSplitToken_eq_memmem (s : Bytes) :
    searchSplitToken s = memmem splitToken.bytes s := by
  rw [searchSplitToken, searchLoop_eq _ _ _ (Nat.lt_succ_self _)]
  simp

theorem searchSplitToken_eq_none_iff {s : Bytes} :
    searchSplitToken s = none ↔ ¬ splitToken.bytes <:+: s := by
  rw [searchSplitToken_eq_memmem, memmem_eq_none_iff]

theorem searchSplitToken_le {s : Bytes} {p : Nat} (h : searchSplitToken s = some p) :
    p + regexpSplitTokenLen ≤ s.length := by
  rw [searchSplitToken_eq_memmem] at h
  exact memmem_add_length_le h

end YetiPgExt.Regexp
