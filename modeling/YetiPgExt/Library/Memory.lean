import Mathlib.Logic.Function.Basic
import Mathlib.Data.Option.Basic

/-!
# Memory that is allocated and freed

Programs over a memory of objects. An address is given out once; what reads or frees an address
that holds nothing has no result. `Yields` is the rule of programs that have a result: from a
memory, the program gives a value and a memory of which a postcondition holds.

`Kept` is the frame of a program: it leaves alone all that was there before, and frees only what it
has allocated itself.
-/

set_option autoImplicit false

namespace YetiPgExt.Library

/-- A memory of objects. The addresses from `next` on were never given out. -/
structure Memory (α : Type) where
  cells : Nat → Option α
  next : Nat
  cells_of_le : ∀ a, next ≤ a → cells a = none

namespace Memory

variable {α : Type}

/-- The objects of a list, from the address 0 on. -/
def ofList (xs : List α) : Memory α where
  cells a := xs[a]?
  next := xs.length
  cells_of_le _ h := List.getElem?_eq_none h

/-- A new object. -/
def alloc (m : Memory α) (x : α) : Memory α where
  cells := Function.update m.cells m.next (some x)
  next := m.next + 1
  cells_of_le := by
    intro a ha
    rw [Function.update_of_ne (Nat.ne_of_gt ha)]
    exact m.cells_of_le a (Nat.le_of_succ_le ha)

/-- The object at an address is gone. -/
def free (m : Memory α) (a : Nat) : Memory α where
  cells := Function.update m.cells a none
  next := m.next
  cells_of_le := by
    intro b hb
    by_cases hab : b = a
    · rw [hab, Function.update_self]
    · rw [Function.update_of_ne hab]
      exact m.cells_of_le b hb

/-- All objects from an address on are gone. -/
def release (m : Memory α) (n : Nat) : Memory α where
  cells a := if a < n then m.cells a else none
  next := m.next
  cells_of_le := by
    intro a ha
    split
    · exact m.cells_of_le a ha
    · rfl

variable {m m' m'' : Memory α} {a n : Nat} {x : α}

theorem lt_next (h : m.cells a = some x) : a < m.next := by
  by_contra hle
  rw [m.cells_of_le a (Nat.le_of_not_lt hle)] at h
  cases h

@[simp] theorem next_alloc (m : Memory α) (x : α) : (m.alloc x).next = m.next + 1 := rfl

@[simp] theorem next_free (m : Memory α) (a : Nat) : (m.free a).next = m.next := rfl

@[simp] theorem next_release (m : Memory α) (n : Nat) : (m.release n).next = m.next := rfl

@[simp] theorem cells_alloc_next (m : Memory α) (x : α) : (m.alloc x).cells m.next = some x :=
  Function.update_self ..

theorem cells_alloc_of_lt (x : α) (h : a < m.next) : (m.alloc x).cells a = m.cells a :=
  Function.update_of_ne (Nat.ne_of_lt h) ..

theorem cells_free_of_ne {b : Nat} (h : b ≠ a) : (m.free a).cells b = m.cells b :=
  Function.update_of_ne h ..

theorem cells_release_of_lt (m : Memory α) (h : a < n) : (m.release n).cells a = m.cells a :=
  if_pos h

theorem cells_release_of_le (m : Memory α) (h : n ≤ a) : (m.release n).cells a = none :=
  if_neg (Nat.not_lt.mpr h)

/-- There is nothing behind the last object. -/
theorem release_next (m : Memory α) : m.release m.next = m := by
  have hcells : (m.release m.next).cells = m.cells := by
    funext a
    by_cases ha : a < m.next
    · exact cells_release_of_lt m ha
    · rw [cells_release_of_le m (Nat.le_of_not_lt ha), m.cells_of_le a (Nat.le_of_not_lt ha)]
  cases m
  simp only [release] at hcells ⊢
  congr

/-! ## Frames -/

/-- What was there is there. -/
structure Kept (m m' : Memory α) : Prop where
  next_le : m.next ≤ m'.next
  cells_eq : ∀ a, a < m.next → m'.cells a = m.cells a

theorem Kept.refl (m : Memory α) : Kept m m := ⟨Nat.le_refl _, fun _ _ => rfl⟩

theorem Kept.trans (h : Kept m m') (h' : Kept m' m'') : Kept m m'' :=
  ⟨Nat.le_trans h.next_le h'.next_le, fun a ha =>
    (h'.cells_eq a (Nat.lt_of_lt_of_le ha h.next_le)).trans (h.cells_eq a ha)⟩

theorem Kept.live (h : Kept m m') (hx : m.cells a = some x) : m'.cells a = some x :=
  (h.cells_eq a (lt_next hx)).trans hx

theorem Kept.alloc (h : Kept m m') (x : α) : Kept m (m'.alloc x) :=
  ⟨Nat.le_succ_of_le h.next_le, fun a ha =>
    (cells_alloc_of_lt x (Nat.lt_of_lt_of_le ha h.next_le)).trans (h.cells_eq a ha)⟩

/-- Freeing what is new. -/
theorem Kept.free (h : Kept m m') (ha : m.next ≤ a) : Kept m (m'.free a) :=
  ⟨h.next_le, fun b hb =>
    (cells_free_of_ne (Nat.ne_of_lt (Nat.lt_of_lt_of_le hb ha))).trans (h.cells_eq b hb)⟩

/-- Freeing all that is new. -/
theorem Kept.release (h : Kept m m') : Kept m (m'.release m.next) :=
  ⟨h.next_le, fun a ha => (cells_release_of_lt m' ha).trans (h.cells_eq a ha)⟩

end Memory

/-! ## Programs -/

/-- A program over a memory; it has no result where it reads or frees what is not there. -/
abbrev Mem (α : Type) := StateT (Memory α) Option

section Programs

variable {α : Type}

/-- A new object. -/
def palloc (x : α) : Mem α Nat := fun m => some (m.next, m.alloc x)

/-- Free the object at an address, which is there. -/
def pfree (a : Nat) : Mem α Unit := fun m => (m.cells a).map fun _ => ((), m.free a)

/-- The first address that was not given out. -/
def mark : Mem α Nat := fun m => some (m.next, m)

/-- Free all objects from an address on. -/
def reset (n : Nat) : Mem α Unit := fun m => some ((), m.release n)

/-- The object at an address. -/
def load (a : Nat) : Mem α α := fun m => (m.cells a).map fun x => (x, m)

/-- The program has a result, with this postcondition. -/
def Yields {β : Type} (p : Mem α β) (m : Memory α) (Q : β → Memory α → Prop) : Prop :=
  ∃ b m', p m = some (b, m') ∧ Q b m'

end Programs

section Rules

variable {α β γ : Type} {m : Memory α} {Q : β → Memory α → Prop} {R : γ → Memory α → Prop}

/-- A program goes on from the result of its first step. -/
theorem bind_eq_some {p : Mem α β} {f : β → Mem α γ} {b : β} {m' : Memory α}
    (hp : p m = some (b, m')) : (p >>= f) m = f b m' := by
  show (p m).bind (fun x => f x.1 x.2) = _
  rw [hp]
  rfl

theorem Yields.pure {b : β} (h : Q b m) : Yields (Pure.pure b) m Q := ⟨b, m, rfl, h⟩

theorem Yields.bind {p : Mem α β} {f : β → Mem α γ} (hp : Yields p m Q)
    (hf : ∀ b m', Q b m' → Yields (f b) m' R) : Yields (p >>= f) m R := by
  obtain ⟨b, m', hb, hQ⟩ := hp
  obtain ⟨c, m'', hc, hR⟩ := hf b m' hQ
  exact ⟨c, m'', (bind_eq_some hb).trans hc, hR⟩

theorem Yields.mono {Q' : β → Memory α → Prop} {p : Mem α β} (hp : Yields p m Q)
    (h : ∀ b m', Q b m' → Q' b m') : Yields p m Q' := by
  obtain ⟨b, m', hb, hQ⟩ := hp
  exact ⟨b, m', hb, h b m' hQ⟩

/-- A first step whose result is known. -/
theorem Yields.step {p : Mem α β} {f : β → Mem α γ} {b : β} {m' : Memory α}
    (hp : p m = some (b, m')) (hf : Yields (f b) m' R) : Yields (p >>= f) m R := by
  obtain ⟨c, m'', hc, hR⟩ := hf
  exact ⟨c, m'', (bind_eq_some hp).trans hc, hR⟩

theorem Yields.of_eq {p : Mem α β} {b : β} {m' : Memory α} (hp : p m = some (b, m'))
    (h : Q b m') : Yields p m Q := ⟨b, m', hp, h⟩

theorem Yields.isSome {p : Mem α β} (h : Yields p m Q) : (p m).isSome = true := by
  obtain ⟨b, m', hb, -⟩ := h
  rw [hb]
  rfl

/-- There is one result only. -/
theorem Yields.result {p : Mem α β} {b : β} {m' : Memory α} (h : Yields p m Q)
    (hp : p m = some (b, m')) : Q b m' := by
  obtain ⟨b', m'', hb, hQ⟩ := h
  obtain ⟨rfl, rfl⟩ := Prod.ext_iff.mp (Option.some.inj (hb.symm.trans hp))
  exact hQ

theorem palloc_eq (m : Memory α) (x : α) : palloc x m = some (m.next, m.alloc x) := rfl

theorem pfree_eq {a : Nat} {x : α} (hx : m.cells a = some x) :
    pfree a m = some ((), m.free a) := by
  rw [pfree, hx]
  rfl

theorem mark_eq (m : Memory α) : mark m = some (m.next, m) := rfl

theorem reset_eq (m : Memory α) (n : Nat) : reset n m = some ((), m.release n) := rfl

theorem load_eq {a : Nat} {x : α} (hx : m.cells a = some x) : load a m = some (x, m) := by
  rw [load, hx]
  rfl

theorem load_eq_none {a : Nat} (hx : m.cells a = none) : load a m = none := by
  rw [load, hx]
  rfl

/-- A program that has no result at its first step has none. -/
theorem bind_eq_none {p : Mem α β} {f : β → Mem α γ} (h : p m = none) : (p >>= f) m = none := by
  show (p m).bind (fun x => f x.1 x.2) = _
  rw [h]
  rfl

end Rules

end YetiPgExt.Library
