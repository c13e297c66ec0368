import YetiPgExt.Library.CString

/-!
# Decimal integers in front of a text

`BeginsWithInteger` says by its parts what a text with a decimal integer at its start is: white
space, a sign, digits, and what follows them. `scanLong` finds these parts
(`scanLong_of_beginsWithInteger`, `beginsWithInteger_of_scanLong`), and a byte that can be in none
of them ends the text for it (`beginsWithInteger_append_iff`). `atoi` reads a printed number back
(`atoi_printNat`).
-/

set_option autoImplicit false

namespace YetiPgExt.Library

/-- A sign, and the factor that it stands for. -/
inductive SignOf : Bytes → Int → Prop where
  | absent : SignOf [] 1
  | plus : SignOf [43] 1
  | minus : SignOf [45] (-1)

/-- After optional white space the text has a decimal integer, which ends where the digits do. -/
def BeginsWithInteger (s : Bytes) (v : Int) : Prop :=
  ∃ (space sign digits rest : Bytes) (factor : Int),
    s = space ++ (sign ++ (digits ++ rest)) ∧ (∀ b ∈ space, isSpace b = true) ∧
      SignOf sign factor ∧ digits ≠ [] ∧ (∀ d ∈ digits, isDigit d = true) ∧
      (∀ d ∈ rest.head?, isDigit d = false) ∧ v = factor * digitsValue digits

/-- The range of a `long`. -/
def saturateLong (v : Int) : Int := max (-2 ^ 63) (min (2 ^ 63 - 1) v)

/-! ## Signs and digits -/

theorem isDigit_toNat {d : UInt8} (h : isDigit d = true) : 48 ≤ d.toNat ∧ d.toNat ≤ 57 := by
  rw [isDigit, Bool.and_eq_true, decide_eq_true_iff, decide_eq_true_iff] at h
  exact ⟨UInt8.le_iff_toNat_le.mp h.1, UInt8.le_iff_toNat_le.mp h.2⟩

theorem isSpace_eq_false_of_digit {d : UInt8} (h : isDigit d = true) : isSpace d = false := by
  have hd := isDigit_toNat h
  rw [isSpace, Bool.or_eq_false_iff, Bool.and_eq_false_iff]
  refine ⟨?_, Or.inr ?_⟩
  · rw [beq_eq_false_iff_ne]
    rintro rfl
    exact absurd hd.1 (by decide)
  · rw [decide_eq_false_iff_not, UInt8.le_iff_toNat_le]
    have h13 : (13 : UInt8).toNat = 13 := rfl
    omega

/-- A digit is no sign. -/
theorem scanSign_of_digit {d : UInt8} (h : isDigit d = true) (s : Bytes) :
    scanSign (d :: s) = (1, d :: s) := by
  have hd := isDigit_toNat h
  rw [scanSign]
  · rintro s' hs
    rw [(List.cons_eq_cons.mp hs).1] at hd
    exact absurd hd.1 (by decide)
  · rintro s' hs
    rw [(List.cons_eq_cons.mp hs).1] at hd
    exact absurd hd.1 (by decide)

theorem exists_sign (s : Bytes) :
    ∃ sign, SignOf sign (scanSign s).1 ∧ s = sign ++ (scanSign s).2 := by
  unfold scanSign
  split
  · exact ⟨[45], SignOf.minus, rfl⟩
  · exact ⟨[43], SignOf.plus, rfl⟩
  · exact ⟨[], SignOf.absent, rfl⟩

theorem takeWhile_digits {digits rest : Bytes} (h : ∀ d ∈ digits, isDigit d = true)
    (hrest : ∀ d ∈ rest.head?, isDigit d = false) :
    (digits ++ rest).takeWhile isDigit = digits := by
  rw [List.takeWhile_append_of_pos h]
  cases rest with
  | nil => rw [List.takeWhile_nil, List.append_nil]
  | cons d rest =>
    rw [List.takeWhile_cons_of_neg, List.append_nil]
    rw [hrest d rfl]
    decide

/-! ## The scan -/

/-- A sign in front of a digit, or the digit itself, ends the white space and is read as the
sign. -/
theorem scanSign_append {sign digits rest : Bytes} {factor : Int} (hsign : SignOf sign factor)
    (hne : digits ≠ []) (hdigits : ∀ d ∈ digits, isDigit d = true) :
    scanSign (sign ++ (digits ++ rest)) = (factor, digits ++ rest) ∧
      (sign ++ (digits ++ rest)).dropWhile isSpace = sign ++ (digits ++ rest) := by
  cases hsign with
  | plus => exact ⟨rfl, List.dropWhile_cons_of_neg (by decide)⟩
  | minus => exact ⟨rfl, List.dropWhile_cons_of_neg (by decide)⟩
  | absent =>
    obtain ⟨d, ds, rfl⟩ := List.exists_cons_of_ne_nil hne
    have hd : isDigit d = true := hdigits d List.mem_cons_self
    refine ⟨scanSign_of_digit hd _, List.dropWhile_cons_of_neg ?_⟩
    rw [isSpace_eq_false_of_digit hd]
    decide

theorem scanLong_of_beginsWithInteger {s : Bytes} {v : Int} (h : BeginsWithInteger s v) :
    scanLong s = some (saturateLong v) := by
  obtain ⟨space, sign, digits, rest, factor, rfl, hspace, hsign, hne, hdigits, hrest, rfl⟩ := h
  obtain ⟨hscan, hdrop⟩ := @scanSign_append sign digits rest factor hsign hne hdigits
  rw [scanLong, List.dropWhile_append_of_pos hspace, hdrop, hscan]
  simp only [takeWhile_digits hdigits hrest]
  rw [if_neg hne, saturateLong]

theorem beginsWithInteger_of_scanLong {s : Bytes} {v : Int} (h : scanLong s = some v) :
    ∃ n, BeginsWithInteger s n ∧ v = saturateLong n := by
  obtain ⟨sign, hsign, hsplit⟩ := exists_sign (s.dropWhile isSpace)
  rw [scanLong] at h
  simp only at h
  split at h
  · cases h
  · rename_i hne
    let t := (scanSign (s.dropWhile isSpace)).2
    refine ⟨_, ⟨s.takeWhile isSpace, sign, t.takeWhile isDigit, t.dropWhile isDigit, _, ?_, ?_,
      hsign, hne, ?_, ?_, rfl⟩, (Option.some.inj h).symm⟩
    · rw [List.takeWhile_append_dropWhile, ← hsplit, List.takeWhile_append_dropWhile]
    · intro b hb
      exact List.all_eq_true.mp List.all_takeWhile b hb
    · intro d hd
      exact List.all_eq_true.mp List.all_takeWhile d hd
    · intro d hd
      have hnot := List.head?_dropWhile_not isDigit t
      rw [Option.mem_def.mp hd] at hnot
      simpa using hnot

/-- Without an integer the scan has no result. -/
theorem scanLong_eq_none_iff {s : Bytes} :
    scanLong s = none ↔ ∀ v, ¬ BeginsWithInteger s v := by
  constructor
  · intro h v hv
    rw [scanLong_of_beginsWithInteger hv] at h
    cases h
  · intro h
    cases hs : scanLong s with
    | none => rfl
    | some v =>
      obtain ⟨n, hn, -⟩ := beginsWithInteger_of_scanLong hs
      exact absurd hn (h n)

/-! ## What ends the text -/

/-- A byte that is in no part of an integer. -/
structure EndsInteger (c : UInt8) : Prop where
  not_space : isSpace c = false
  not_plus : c ≠ 43
  not_minus : c ≠ 45
  not_digit : isDigit c = false

theorem EndsInteger.not_mem_sign {c : UInt8} (h : EndsInteger c) {sign : Bytes} {factor : Int}
    (hsign : SignOf sign factor) : c ∉ sign := by
  cases hsign with
  | absent => exact List.not_mem_nil
  | plus =>
    rw [List.mem_singleton]
    exact h.not_plus
  | minus =>
    rw [List.mem_singleton]
    exact h.not_minus

theorem beginsWithInteger_append_iff {c : UInt8} (hc : EndsInteger c) (s tail : Bytes) (v : Int) :
    BeginsWithInteger (s ++ c :: tail) v ↔ BeginsWithInteger s v := by
  constructor
  · rintro ⟨space, sign, digits, rest, factor, hs, hspace, hsign, hne, hdigits, hrest, rfl⟩
    have hmem : c ∉ space ++ (sign ++ digits) := by
      rw [List.mem_append, List.mem_append]
      rintro (h | h | h)
      · exact absurd (hspace c h) (by rw [hc.not_space]; decide)
      · exact hc.not_mem_sign hsign h
      · exact absurd (hdigits c h) (by rw [hc.not_digit]; decide)
    rw [← List.append_assoc sign, ← List.append_assoc space, List.append_eq_append_iff] at hs
    rcases hs with ⟨more, hparts, htail⟩ | ⟨rest', hs, hrest'⟩
    · -- the parts would go on behind the byte
      cases more with
      | nil =>
        rw [List.append_nil] at hparts
        refine ⟨space, sign, digits, [], factor, ?_, hspace, hsign, hne, hdigits, ?_, rfl⟩
        · rw [List.append_nil, hparts]
        · intro d hd
          cases hd
      | cons b more =>
        rw [List.cons_append, List.cons.injEq] at htail
        rw [hparts, htail.1] at hmem
        exact absurd (List.mem_append_right _ List.mem_cons_self) hmem
    · refine ⟨space, sign, digits, rest', factor, ?_, hspace, hsign, hne, hdigits, ?_, rfl⟩
      · rw [hs, List.append_assoc, List.append_assoc]
      · intro d hd
        apply hrest d
        rw [hrest', List.head?_append, Option.mem_def.mp hd]
        rfl
  · rintro ⟨space, sign, digits, rest, factor, rfl, hspace, hsign, hne, hdigits, hrest, rfl⟩
    refine ⟨space, sign, digits, rest ++ c :: tail, factor, ?_, hspace, hsign, hne, hdigits, ?_,
      rfl⟩
    · simp only [List.append_assoc]
    · intro d hd
      cases rest with
      | nil =>
        rw [← Option.some.inj (Option.mem_def.mp hd)]
        exact hc.not_digit
      | cons b rest => exact hrest d hd

/-! ## Printed numbers -/

/-- A natural number as it is printed. -/
def printNat (n : Nat) : Bytes := ascii (toString n)

/-- The last digit comes off the end. -/
theorem printNat_eq (n : Nat) :
    printNat n = (if n < 10 then [] else printNat (n / 10)) ++ [UInt8.ofNat (48 + n % 10)] := by
  have hdigits (m : Nat) : printNat m = (Nat.toDigits 10 m).map fun c => UInt8.ofNat c.toNat := by
    rw [printNat, ascii, ← Nat.toList_repr]
    rfl
  rw [hdigits, Nat.toDigits_eq_if (by omega)]
  split
  · rename_i h
    rw [List.map_singleton, Nat.toNat_digitChar_of_lt_ten h, Nat.mod_eq_of_lt h, List.nil_append]
  · rw [List.map_append, List.map_singleton, hdigits,
      Nat.toNat_digitChar_of_lt_ten (Nat.mod_lt n (by omega))]

theorem printNat_ne_nil (n : Nat) : printNat n ≠ [] := by
  rw [printNat_eq]
  exact List.append_ne_nil_of_right_ne_nil _ (List.cons_ne_nil _ _)

theorem toNat_digit {d : Nat} (h : d < 10) : (UInt8.ofNat (48 + d)).toNat = 48 + d := by
  rw [UInt8.toNat_ofNat']
  exact Nat.mod_eq_of_lt (by omega)

theorem isDigit_digit {d : Nat} (h : d < 10) : isDigit (UInt8.ofNat (48 + d)) = true := by
  have hval := toNat_digit h
  have h48 : (48 : UInt8).toNat = 48 := rfl
  have h57 : (57 : UInt8).toNat = 57 := rfl
  rw [isDigit, Bool.and_eq_true, decide_eq_true_iff, decide_eq_true_iff, UInt8.le_iff_toNat_le,
    UInt8.le_iff_toNat_le, hval]
  omega

theorem isDigit_of_mem_printNat (n : Nat) : ∀ d ∈ printNat n, isDigit d = true := by
  induction n using Nat.strongRecOn with
  | ind n ih =>
    intro d hd
    rw [printNat_eq, List.mem_append, List.mem_singleton] at hd
    rcases hd with hd | rfl
    · by_cases hn : n < 10
      · rw [if_pos hn] at hd
        cases hd
      · rw [if_neg hn] at hd
        exact ih (n / 10) (by omega) d hd
    · exact isDigit_digit (Nat.mod_lt n (by omega))

theorem digitsValue_append_singleton (ds : Bytes) (d : UInt8) :
    digitsValue (ds ++ [d]) = 10 * digitsValue ds + (d.toNat - 48) := by
  rw [digitsValue, List.foldl_append]
  rfl

theorem digitsValue_printNat (n : Nat) : digitsValue (printNat n) = n := by
  induction n using Nat.strongRecOn with
  | ind n ih =>
    rw [printNat_eq, digitsValue_append_singleton, toNat_digit (Nat.mod_lt n (by omega))]
    by_cases hn : n < 10
    · rw [if_pos hn, digitsValue, List.foldl_nil]
      omega
    · rw [if_neg hn, ih (n / 10) (by omega)]
      omega

theorem length_printNat_le {n k : Nat} (hk : 0 < k) (h : n < 10 ^ k) :
    (printNat n).length ≤ k := by
  rw [printNat, ascii, List.length_map]
  have hlen := (Nat.length_toDigits_le_iff (n := n) (b := 10) (by omega) hk).mpr h
  rwa [← Nat.toList_repr] at hlen

/-- A text of digits alone. -/
theorem beginsWithInteger_digits {ds : Bytes} (hne : ds ≠ []) (h : ∀ d ∈ ds, isDigit d = true) :
    BeginsWithInteger ds (digitsValue ds) := by
  refine ⟨[], [], ds, [], 1, ?_, ?_, SignOf.absent, hne, h, ?_, ?_⟩
  · rw [List.append_nil, List.nil_append, List.nil_append]
  · intro b hb
    cases hb
  · intro d hd
    cases hd
  · rw [one_mul]

/-- `atoi` of digits is their value, as far as it is an `int`. -/
theorem atoi_digits {ds : Bytes} (hne : ds ≠ []) (h : ∀ d ∈ ds, isDigit d = true)
    (hlt : digitsValue ds < 2 ^ 31) : atoi ds = digitsValue ds := by
  rw [atoi, scanLong_of_beginsWithInteger (beginsWithInteger_digits hne h), Option.getD_some,
    saturateLong]
  have hsat : max (-2 ^ 63) (min (2 ^ 63 - 1) (digitsValue ds : Int)) = digitsValue ds := by omega
  rw [hsat, Int.bmod_def]
  split <;> omega

/-- `atoi` reads a printed number back. -/
theorem atoi_printNat {n : Nat} (h : n < 2 ^ 31) : atoi (printNat n) = n := by
  have hvalue := digitsValue_printNat n
  rw [atoi_digits (printNat_ne_nil n) (isDigit_of_mem_printNat n) (by rwa [hvalue]), hvalue]

end YetiPgExt.Library
