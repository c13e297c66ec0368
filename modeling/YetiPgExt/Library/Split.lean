import YetiPgExt.Library.Bytes
import Mathlib.Order.Bounds.Basic

/-!
# Splitting at a separator

`pieces` cuts a byte string at the leftmost occurrences of a separator that do not overlap;
`intercalate_pieces` puts it together again. `Greedy` says of a list of positions that they are the
leftmost occurrences that do not overlap; there is one such list (`Greedy.unique`).
-/

set_option autoImplicit false

namespace YetiPgExt.Library

/-- A byte string that can separate: it is not empty. -/
structure Separator where
  bytes : Bytes
  ne_nil : bytes ≠ []

theorem Separator.length_pos (sep : Separator) : 0 < sep.bytes.length :=
  List.length_pos_iff.mpr sep.ne_nil

/-- An occurrence lies inside the string. -/
theorem memmem_add_length_le {pat s : Bytes} {i : Nat} (h : memmem pat s = some i) :
    i + pat.length ≤ s.length := by
  obtain ⟨hi, hpre, -⟩ := memmem_eq_some_iff.mp h
  have hlen := hpre.length_le
  rw [List.length_drop] at hlen
  omega

theorem memmem_eq_none_iff {pat s : Bytes} : memmem pat s = none ↔ ¬ pat <:+: s := by
  constructor
  · rintro h ⟨pre, post, hs⟩
    -- on the string: at its first byte the occurrence is found, or it lies further on
    induction s generalizing pre with
    | nil =>
      simp only [List.append_assoc, List.append_eq_nil_iff] at hs
      rw [memmem, if_pos hs.2.1] at h
      cases h
    | cons c s ih =>
      rw [memmem] at h
      split at h
      · cases h
      · rename_i hpre
        cases pre with
        | nil => exact hpre ⟨post, hs⟩
        | cons c' pre =>
          obtain ⟨-, hs⟩ := List.cons_eq_cons.mp hs
          exact ih (Option.map_eq_none_iff.mp h) pre hs
  · intro h
    rcases hfind : memmem pat s with _ | i
    · rfl
    · obtain ⟨-, hpre, -⟩ := memmem_eq_some_iff.mp hfind
      exact absurd (hpre.isInfix.trans (List.drop_suffix i s).isInfix) h

/-- The parts of a string in front of an occurrence and behind it. -/
theorem take_append_memmem {pat s : Bytes} {i : Nat} (h : memmem pat s = some i) :
    s.take i ++ pat ++ s.drop (i + pat.length) = s := by
  obtain ⟨-, ⟨rest, hrest⟩, -⟩ := memmem_eq_some_iff.mp h
  have hdrop : s.drop (i + pat.length) = rest := by
    rw [← List.drop_drop, ← hrest, List.drop_left]
  rw [hdrop, List.append_assoc, hrest, List.take_append_drop]

section Pieces

variable (sep : Separator)

/-- The pieces of `s` between the separators. -/
def pieces (s : Bytes) : List Bytes :=
  match _h : memmem sep.bytes s with
  | none => [s]
  | some p => s.take p :: pieces (s.drop (p + sep.bytes.length))
termination_by s.length
decreasing_by
  have hle := memmem_add_length_le _h
  have hpos := sep.length_pos
  rw [List.length_drop]
  omega

variable {sep} {s : Bytes}

theorem pieces_of_none (h : memmem sep.bytes s = none) : pieces sep s = [s] := by
  rw [pieces]
  split
  · rfl
  · rename_i p hp
    rw [h] at hp
    cases hp

theorem pieces_of_some {p : Nat} (h : memmem sep.bytes s = some p) :
    pieces sep s = s.take p :: pieces sep (s.drop (p + sep.bytes.length)) := by
  rw [pieces]
  split
  · rename_i hp
    rw [h] at hp
    cases hp
  · rename_i p' hp
    obtain rfl : p = p' := Option.some.inj (h.symm.trans hp)
    rfl

variable (sep s) in
theorem pieces_ne_nil : pieces sep s ≠ [] := by
  rcases h : memmem sep.bytes s with _ | p
  · rw [pieces_of_none h]
    exact List.cons_ne_nil _ _
  · rw [pieces_of_some h]
    exact List.cons_ne_nil _ _

variable (sep) in
/-- The separator between the pieces gives the string back. -/
theorem intercalate_pieces (s : Bytes) : sep.bytes.intercalate (pieces sep s) = s := by
  rcases h : memmem sep.bytes s with _ | p
  · rw [pieces_of_none h, List.intercalate_singleton]
  · have hrest := intercalate_pieces (s.drop (p + sep.bytes.length))
    rw [pieces_of_some h, List.intercalate_cons_of_ne_nil (pieces_ne_nil _ _), hrest,
      take_append_memmem h]
termination_by s.length
decreasing_by
  have hle := memmem_add_length_le h
  have hpos := sep.length_pos
  rw [List.length_drop]
  omega

/-- Only the empty string has a single, empty piece. -/
theorem pieces_eq_nil_iff : pieces sep s = [[]] ↔ s = [] := by
  constructor
  · intro h
    rw [← intercalate_pieces sep s, h]
    exact List.intercalate_singleton
  · rintro rfl
    have hnone : memmem sep.bytes [] = none := by
      rw [memmem, if_neg sep.ne_nil]
    exact pieces_of_none hnone

end Pieces

/-! ## Occurrences that do not overlap -/

/-- The positions are chosen from the left: from `s` on, each is the least occurrence behind the
one before, where an occurrence is `len` long. -/
inductive Greedy (occurs : Nat → Prop) (len : Nat) : Nat → List Nat → Prop where
  | done {s : Nat} : (∀ p, s ≤ p → ¬ occurs p) → Greedy occurs len s []
  | next {s p : Nat} {ps : List Nat} : IsLeast {q | s ≤ q ∧ occurs q} p →
      Greedy occurs len (p + len) ps → Greedy occurs len s (p :: ps)

/-- There is no choice. -/
theorem Greedy.unique {occurs : Nat → Prop} {len s : Nat} {ps qs : List Nat}
    (h : Greedy occurs len s ps) (h' : Greedy occurs len s qs) : ps = qs := by
  induction h generalizing qs with
  | done hnone =>
    cases h' with
    | done _ => rfl
    | next hleast _ => exact absurd hleast.1.2 (hnone _ hleast.1.1)
  | next hleast _ ih =>
    cases h' with
    | done hnone => exact absurd hleast.1.2 (hnone _ hleast.1.1)
    | next hleast' hrest =>
      obtain rfl := hleast.unique hleast'
      rw [ih hrest]

end YetiPgExt.Library
