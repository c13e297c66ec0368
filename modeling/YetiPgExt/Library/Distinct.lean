import Mathlib.Data.List.Perm.Subperm
import Mathlib.Data.List.Induction
import Mathlib.Data.List.Nodup

/-!
# Collecting distinct values

A loop that appends a value to a list unless it is there already collects the values in the order
of their first occurrence. `foldl_addDistinct` says so, in terms of `List.eraseDups`;
`length_eraseDups_eq_iff` compares two such collections by their lengths.
-/

set_option autoImplicit false

namespace YetiPgExt.Library

universe u

variable {α : Type u} [DecidableEq α]

/-- Append a value that is not in the list yet. -/
def addDistinct (s : List α) (v : α) : List α := if v ∈ s then s else s ++ [v]

theorem eraseDups_concat (s : List α) (v : α) :
    (s ++ [v]).eraseDups = addDistinct s.eraseDups v := by
  rw [List.eraseDups_append, addDistinct]
  by_cases hv : v ∈ s
  · have hnone : [v].removeAll s = [] := by simp [List.cons_removeAll, hv]
    rw [if_pos (List.mem_eraseDups.mpr hv), hnone, List.eraseDups_nil, List.append_nil]
  · have hone : [v].removeAll s = [v] := by simp [List.cons_removeAll, hv]
    rw [if_neg (fun hmem => hv (List.mem_eraseDups.mp hmem)), hone]
    rfl

theorem foldl_addDistinct (s xs : List α) :
    xs.foldl addDistinct s.eraseDups = (s ++ xs).eraseDups := by
  induction xs generalizing s with
  | nil => rw [List.foldl_nil, List.append_nil]
  | cons v xs ih =>
    rw [List.foldl_cons, ← eraseDups_concat, ih, List.append_assoc]
    rfl

theorem foldl_addDistinct_nil (xs : List α) : xs.foldl addDistinct [] = xs.eraseDups :=
  foldl_addDistinct [] xs

theorem nodup_addDistinct {s : List α} (h : s.Nodup) (v : α) : (addDistinct s v).Nodup := by
  rw [addDistinct]
  split
  · exact h
  · rename_i hv
    apply h.append (List.nodup_singleton v)
    rw [List.disjoint_singleton]
    exact hv

theorem nodup_eraseDups (xs : List α) : xs.eraseDups.Nodup := by
  induction xs using List.reverseRecOn with
  | nil => exact List.nodup_nil
  | append_singleton xs v ih =>
    rw [eraseDups_concat]
    exact nodup_addDistinct ih v

/-- Each round adds one value at most. -/
theorem length_foldl_addDistinct_le (xs s : List α) :
    (xs.foldl addDistinct s).length ≤ s.length + xs.length := by
  induction xs generalizing s with
  | nil => exact Nat.le_refl _
  | cons v xs ih =>
    have hstep : (addDistinct s v).length ≤ s.length + 1 := by
      rw [addDistinct]
      split
      · exact Nat.le_succ _
      · exact Nat.le_of_eq List.length_append
    have hrest := ih (addDistinct s v)
    rw [List.foldl_cons, List.length_cons]
    omega

theorem length_le_foldl_addDistinct (xs s : List α) :
    s.length ≤ (xs.foldl addDistinct s).length := by
  induction xs generalizing s with
  | nil => exact Nat.le_refl _
  | cons v xs ih =>
    have hstep : s.length ≤ (addDistinct s v).length := by
      rw [addDistinct]
      split
      · exact Nat.le_refl _
      · rw [List.length_append]
        exact Nat.le_add_right _ _
    rw [List.foldl_cons]
    exact Nat.le_trans hstep (ih _)

/-- Collecting and selecting commute. -/
theorem eraseDups_filter (p : α → Bool) (xs : List α) :
    (xs.filter p).eraseDups = xs.eraseDups.filter p := by
  induction xs using List.reverseRecOn with
  | nil => rfl
  | append_singleton xs v ih =>
    rw [List.filter_append, eraseDups_concat, addDistinct]
    by_cases hp : p v = true
    · rw [List.filter_singleton, hp, cond_true, eraseDups_concat, ih, addDistinct]
      by_cases hv : v ∈ xs.eraseDups
      · rw [if_pos hv, if_pos (List.mem_filter.mpr ⟨hv, hp⟩)]
      · rw [if_neg hv, if_neg (fun h => hv (List.mem_filter.mp h).1), List.filter_append,
          List.filter_singleton, hp, cond_true]
    · have hp' : p v = false := Bool.eq_false_iff.mpr hp
      rw [List.filter_singleton, hp', cond_false, List.append_nil, ih]
      split
      · rfl
      · rw [List.filter_append, List.filter_singleton, hp', cond_false, List.append_nil]

/-- Of two collections, one inside the other, the lengths tell whether they have the same values. -/
theorem length_eraseDups_eq_iff {xs ys : List α} (h : ys ⊆ xs) :
    xs.eraseDups.length = ys.eraseDups.length ↔ xs ⊆ ys := by
  have hsub : ys.eraseDups ⊆ xs.eraseDups := by
    intro v hv
    exact List.mem_eraseDups.mpr (h (List.mem_eraseDups.mp hv))
  have hsubperm := (nodup_eraseDups ys).subperm hsub
  constructor
  · intro hlen v hv
    have hperm := hsubperm.perm_of_length_le (Nat.le_of_eq hlen)
    exact List.mem_eraseDups.mp (hperm.mem_iff.mpr (List.mem_eraseDups.mpr hv))
  · intro hle
    have hsub' : xs.eraseDups ⊆ ys.eraseDups := by
      intro v hv
      exact List.mem_eraseDups.mpr (hle (List.mem_eraseDups.mp hv))
    have hlen := ((nodup_eraseDups xs).subperm hsub').length_le
    exact Nat.le_antisymm hlen hsubperm.length_le

end YetiPgExt.Library
