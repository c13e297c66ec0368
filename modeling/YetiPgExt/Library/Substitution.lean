import Mathlib.Data.List.Basic
import Mathlib.Logic.Nontrivial.Basic

/-!
# Words with variables

A word of letters and variables, and the word of letters that it becomes when every variable is
replaced by a word. Two words that become the same under all substitutions are the same
(`eq_of_substitute_eq`).

`Inserts` is what a global replacement of an empty match does: a word in front of each part of
another one.
-/

set_option autoImplicit false

namespace YetiPgExt.Library

universe u v

section

variable {α : Type u} {β : Type v}

/-- What a letter or a variable becomes. -/
def image (σ : β → List α) : α ⊕ β → List α
  | .inl a => [a]
  | .inr x => σ x

/-- Replace every variable in place. -/
def substitute (σ : β → List α) (w : List (α ⊕ β)) : List α := w.flatMap (image σ)

@[simp] theorem substitute_nil (σ : β → List α) : substitute σ [] = [] := rfl

@[simp] theorem substitute_cons (σ : β → List α) (x : α ⊕ β) (w : List (α ⊕ β)) :
    substitute σ (x :: w) = image σ x ++ substitute σ w := rfl

@[simp] theorem substitute_append (σ : β → List α) (w w' : List (α ⊕ β)) :
    substitute σ (w ++ w') = substitute σ w ++ substitute σ w' := List.flatMap_append

/-- Letters stand for themselves. -/
@[simp] theorem substitute_letters (σ : β → List α) (as : List α) :
    substitute σ (as.map Sum.inl) = as := by
  induction as with
  | nil => rfl
  | cons a as ih =>
    rw [List.map_cons, substitute_cons, ih]
    rfl

/-- A word that is not empty does not become empty under all substitutions. -/
theorem exists_substitute_ne_nil [Nonempty α] (x : α ⊕ β) (w : List (α ⊕ β)) :
    ∃ σ : β → List α, substitute σ (x :: w) ≠ [] := by
  obtain ⟨a⟩ := ‹Nonempty α›
  refine ⟨fun _ => [a], ?_⟩
  cases x with
  | inl b => exact List.cons_ne_nil _ _
  | inr k => exact List.cons_ne_nil _ _

/-- The first letter or variable can be told from the words. -/
theorem head_eq_of_substitute_eq [Nontrivial α] {x y : α ⊕ β} {w w' : List (α ⊕ β)}
    (h : ∀ σ : β → List α, substitute σ (x :: w) = substitute σ (y :: w')) : x = y := by
  classical
  cases x with
  | inl a =>
    cases y with
    | inl b =>
      have hhead := h fun _ => []
      rw [(List.cons_eq_cons.mp hhead).1]
    | inr k =>
      obtain ⟨b, hb⟩ := exists_ne a
      have hhead := h fun _ => [b]
      exact absurd (List.cons_eq_cons.mp hhead).1.symm hb
  | inr k =>
    cases y with
    | inl b =>
      obtain ⟨a, ha⟩ := exists_ne b
      have hhead := h fun _ => [a]
      exact absurd (List.cons_eq_cons.mp hhead).1 ha
    | inr l =>
      by_contra hne
      have hkl : l ≠ k := fun heq => hne (congrArg Sum.inr heq.symm)
      obtain ⟨a, b, hab⟩ := exists_pair_ne α
      have hhead := h fun m => if m = k then [a] else [b]
      rw [substitute_cons, substitute_cons, image, image, if_pos rfl, if_neg hkl] at hhead
      exact hab (List.cons_eq_cons.mp hhead).1

theorem eq_of_substitute_eq [Nontrivial α] {w w' : List (α ⊕ β)}
    (h : ∀ σ : β → List α, substitute σ w = substitute σ w') : w = w' := by
  induction w generalizing w' with
  | nil =>
    cases w' with
    | nil => rfl
    | cons y w' =>
      obtain ⟨σ, hσ⟩ := exists_substitute_ne_nil y w'
      exact absurd (h σ).symm hσ
  | cons x w ih =>
    cases w' with
    | nil =>
      obtain ⟨σ, hσ⟩ := exists_substitute_ne_nil x w
      exact absurd (h σ) hσ
    | cons y w' =>
      obtain rfl := head_eq_of_substitute_eq h
      rw [ih]
      intro σ
      have hσ := h σ
      rw [substitute_cons, substitute_cons] at hσ
      exact List.append_cancel_left hσ

/-! ## Insertion -/

/-- `x` is inserted in front of each part of the word, and there is at least one part. -/
def Inserts (x w out : List α) : Prop :=
  ∃ parts : List (List α), parts ≠ [] ∧ parts.flatten = w ∧ out = (parts.map (x ++ ·)).flatten

theorem length_flatten_map_append (x : List α) (parts : List (List α)) :
    (parts.map (x ++ ·)).flatten.length = parts.length * x.length + parts.flatten.length := by
  induction parts with
  | nil => simp
  | cons part parts ih =>
    rw [List.map_cons, List.flatten_cons, List.flatten_cons, List.length_append, List.length_append,
      List.length_append, ih, List.length_cons, Nat.succ_mul]
    omega

theorem inserts_singleton (x w : List α) : Inserts x w (x ++ w) :=
  ⟨[w], List.cons_ne_nil _ _, List.append_nil w, (List.append_nil _).symm⟩

/-- What is inserted makes the word longer. -/
theorem Inserts.eq_nil_of_length_le {x w out : List α} (h : Inserts x w out)
    (hle : out.length ≤ w.length) : x = [] := by
  obtain ⟨parts, hne, rfl, rfl⟩ := h
  rw [length_flatten_map_append] at hle
  have hzero : parts.length * x.length = 0 := by omega
  rcases Nat.mul_eq_zero.mp hzero with hparts | hx
  · exact absurd (List.length_eq_zero_iff.mp hparts) hne
  · exact List.length_eq_zero_iff.mp hx

/-- The word stays as it is exactly if nothing is inserted. -/
theorem Inserts.eq_iff {x w out : List α} (h : Inserts x w out) : out = w ↔ x = [] := by
  constructor
  · rintro rfl
    exact h.eq_nil_of_length_le (Nat.le_refl _)
  · rintro rfl
    obtain ⟨parts, -, rfl, rfl⟩ := h
    simp

end

end YetiPgExt.Library
