import Mathlib.Logic.Function.Basic

/-!
# The last store under a key

A sequence of stores into a map, each under its key. A lookup gives the value of the most recent
store under the key, or what the map held before (`replay_apply`).
-/

set_option autoImplicit false

namespace YetiPgExt.Library

universe u v w x

variable {σ : Type u} {κ : Type v} {ν : Type w} [DecidableEq κ] (key : σ → κ) (value : σ → ν)

/-- The map after a sequence of stores. -/
def replay (table : κ → Option ν) (stores : List σ) : κ → Option ν :=
  stores.foldl (fun t s => Function.update t (key s) (some (value s))) table

/-- The most recent store under a key. -/
def lastStore (stores : List σ) (k : κ) : Option σ :=
  stores.reverse.find? (fun s => decide (key s = k))

variable {key value} {table : κ → Option ν}

theorem replay_cons (s : σ) (stores : List σ) :
    replay key value table (s :: stores) =
      replay key value (Function.update table (key s) (some (value s))) stores := rfl

theorem lastStore_cons (s : σ) (stores : List σ) (k : κ) :
    lastStore key (s :: stores) k =
      (lastStore key stores k).or (if key s = k then some s else none) := by
  rw [lastStore, List.reverse_cons, List.find?_append, ← lastStore, List.find?_singleton]
  simp only [decide_eq_true_eq]

theorem replay_apply (stores : List σ) (k : κ) :
    replay key value table stores k = ((lastStore key stores k).map value).or (table k) := by
  induction stores generalizing table with
  | nil => rfl
  | cons s stores ih =>
    rw [replay_cons, ih, lastStore_cons]
    cases lastStore key stores k with
    | some last => rfl
    | none =>
      by_cases hk : key s = k
      · rw [if_pos hk, hk, Function.update_self]
        rfl
      · rw [if_neg hk, Function.update_of_ne (Ne.symm hk)]
        rfl

/-- Two views of the keys that single out the same stores have the same most recent one. -/
theorem lastStore_congr {κ' : Type x} [DecidableEq κ'] {key' : σ → κ'} {stores : List σ} {k : κ}
    {k' : κ'} (h : ∀ s ∈ stores, key s = k ↔ key' s = k') :
    lastStore key stores k = lastStore key' stores k' := by
  induction stores with
  | nil => rfl
  | cons s stores ih =>
    have hrest : ∀ s ∈ stores, key s = k ↔ key' s = k' := by
      intro t ht
      exact h t (List.mem_cons_of_mem _ ht)
    rw [lastStore_cons, lastStore_cons, ih hrest]
    simp only [h s List.mem_cons_self]

theorem lastStore_eq_none_iff {stores : List σ} {k : κ} :
    lastStore key stores k = none ↔ ∀ s ∈ stores, key s ≠ k := by
  rw [lastStore, List.find?_eq_none]
  constructor
  · intro h s hs hk
    exact h s (List.mem_reverse.mpr hs) (decide_eq_true hk)
  · intro h s hs hk
    exact h s (List.mem_reverse.mp hs) (of_decide_eq_true hk)

end YetiPgExt.Library
