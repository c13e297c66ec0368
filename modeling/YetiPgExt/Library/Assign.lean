import Mathlib.Data.List.Perm.Basic

/-!
# Places that are filled one at a time

A list of places, each of which is free (it holds the value `z`) or filled. When every step fills a
free place, the list is always a permutation of what was assigned so far and the free places
(`PartlyFilled.set`), and in the end of what was assigned (`PartlyFilled.full`).
-/

set_option autoImplicit false

namespace YetiPgExt.Library

universe u

variable {α : Type u} {z x : α} {places done : List α} {m i : Nat}

/-- Up to their order, the places hold the values `done`, and `m` of them are free. -/
def PartlyFilled (z : α) (places done : List α) (m : Nat) : Prop :=
  places.Perm (done ++ List.replicate m z)

namespace PartlyFilled

theorem start (z : α) (m : Nat) : PartlyFilled z (List.replicate m z) [] m :=
  List.Perm.refl _

/-- Filling a free place. -/
theorem set (h : PartlyFilled z places done (m + 1)) (hi : places[i]? = some z) (x : α) :
    PartlyFilled z (places.set i x) (done ++ [x]) m := by
  obtain ⟨hlt, hz⟩ := List.getElem?_eq_some_iff.mp hi
  have hfree : (z :: places.eraseIdx i).Perm (z :: (done ++ List.replicate m z)) := by
    have hget := List.getElem_cons_eraseIdx_perm hlt
    rw [hz] at hget
    apply (hget.trans h).trans
    rw [List.replicate_succ]
    exact List.perm_middle
  have hrest := (List.perm_cons z).mp hfree
  apply (List.set_perm_cons_eraseIdx hlt x).trans
  apply (hrest.cons x).trans
  rw [List.append_assoc]
  exact List.perm_middle.symm

/-- As long as it counts one, there is a free place. -/
theorem free_mem (h : PartlyFilled z places done (m + 1)) : z ∈ places := by
  apply h.mem_iff.mpr
  apply List.mem_append_right
  rw [List.replicate_succ]
  exact List.mem_cons_self

theorem full (h : PartlyFilled z places done 0) : places.Perm done := by
  have hperm : places.Perm (done ++ []) := h
  rwa [List.append_nil] at hperm

end PartlyFilled

end YetiPgExt.Library
