import Mathlib.Data.List.AList

/-!
# The live stores of a table

A finite table that is filled with stores, each under its key. Of every key only the last store is
live, and none after the key was removed. The table holds the live stores (`Holds`), in whatever
order it lists its entries, and every operation of the table is told by them.
-/

set_option autoImplicit false

namespace YetiPgExt.Library

universe u v w

variable {σ : Type u} {κ : Type v} {ν : Type w} [DecidableEq κ]

/-- The stores under other keys. -/
def without (key : σ → κ) (k : κ) (live : List σ) : List σ :=
  live.filter (fun s => decide (key s ≠ k))

/-- The entry of a store. -/
def entryAt (key : σ → κ) (value : σ → ν) (s : σ) : Σ _ : κ, ν := ⟨key s, value s⟩

/-- The entries of the table are the live stores. -/
def Holds (key : σ → κ) (value : σ → ν) (table : AList fun _ : κ => ν) (live : List σ) : Prop :=
  table.entries.Perm (live.map (entryAt key value))

section

variable {key : σ → κ} {value : σ → ν}

theorem mem_without {k : κ} {live : List σ} {s : σ} :
    s ∈ without key k live ↔ s ∈ live ∧ key s ≠ k := by
  rw [without, List.mem_filter, decide_eq_true_iff]

theorem dlookup_entryAt (k : κ) (live : List σ) :
    (live.map (entryAt key value)).dlookup k =
      (live.find? (fun s => decide (key s = k))).map value := by
  induction live with
  | nil => rfl
  | cons s live ih =>
    rw [List.map_cons, List.find?_cons]
    by_cases hk : key s = k
    · rw [decide_eq_true hk]
      subst hk
      exact List.dlookup_cons_eq _ _ _
    · rw [decide_eq_false hk, List.dlookup_cons_ne _ _ (Ne.symm hk)]
      exact ih

/-- Only one entry of a table has the erased key. -/
theorem kerase_eq_filter {k : κ} {l : List (Σ _ : κ, ν)} (h : l.NodupKeys) :
    l.kerase k = l.filter (fun e => decide (e.1 ≠ k)) := by
  induction l with
  | nil => rfl
  | cons e l ih =>
    obtain ⟨hnotMem, hl⟩ := List.nodupKeys_cons.mp h
    by_cases hk : k = e.1
    · have hrest : l.filter (fun e => decide (e.1 ≠ k)) = l := by
        rw [List.filter_eq_self]
        intro e' he'
        rw [decide_eq_true_iff, hk]
        rintro heq
        exact hnotMem (heq ▸ List.mem_keys_of_mem he')
      rw [List.kerase_cons_eq hk, List.filter_cons_of_neg (by simp [hk]), hrest]
    · rw [List.kerase_cons_ne hk, List.filter_cons_of_pos (by simp [Ne.symm hk]), ih hl]

theorem filter_entryAt (k : κ) (live : List σ) :
    (live.map (entryAt key value)).filter (fun e => decide (e.1 ≠ k)) =
      (without key k live).map (entryAt key value) := by
  rw [List.filter_map]
  rfl

namespace Holds

variable {table : AList fun _ : κ => ν} {live : List σ}

omit [DecidableEq κ] in
theorem empty : Holds key value ∅ [] := List.Perm.nil

theorem erase (h : Holds key value table live) (k : κ) :
    Holds key value (table.erase k) (without key k live) := by
  have hfilter := h.filter (fun e => decide (e.1 ≠ k))
  rw [filter_entryAt, ← kerase_eq_filter table.nodupKeys] at hfilter
  exact hfilter

/-- A store replaces what was stored under its key. -/
theorem insert (h : Holds key value table live) (s : σ) :
    Holds key value (table.insert (key s) (value s)) (without key (key s) live ++ [s]) := by
  have herase : (table.entries.kerase (key s)).Perm
      ((without key (key s) live).map (entryAt key value)) := h.erase (key s)
  rw [Holds, AList.entries_insert, List.map_append]
  exact (herase.cons _).trans (List.perm_append_singleton _ _).symm

theorem lookup (h : Holds key value table live) (k : κ) :
    table.lookup k = (live.find? (fun s => decide (key s = k))).map value := by
  rw [AList.lookup, List.perm_dlookup k table.nodupKeys h, dlookup_entryAt]

theorem mem_iff (h : Holds key value table live) (k : κ) :
    k ∈ table ↔ ∃ s ∈ live, key s = k := by
  rw [← AList.lookup_isSome, h.lookup, Option.isSome_map, List.find?_isSome]
  simp only [decide_eq_true_eq]

omit [DecidableEq κ] in
theorem length (h : Holds key value table live) : table.entries.length = live.length := by
  rw [List.Perm.length_eq h, List.length_map]

end Holds

end

/-! ## Scans of the entries -/

section Scan

variable {α : Type u} {β : Type v} {f : α → Option β}

/-- A scan in any order gives the results in some order. -/
theorem exists_mapM_of_perm {g : σ → α} {r : σ → β} {scan : List α} {live : List σ}
    (hperm : scan.Perm (live.map g)) (hall : ∀ s ∈ live, f (g s) = some (r s)) :
    ∃ results, scan.mapM f = some results ∧ results.Perm (live.map r) := by
  induction scan generalizing live with
  | nil =>
    rw [List.map_eq_nil_iff.mp hperm.nil_eq.symm]
    exact ⟨[], rfl, .nil⟩
  | cons a scan ih =>
    obtain ⟨s, hs, rfl⟩ := List.mem_map.mp (hperm.mem_iff.mp List.mem_cons_self)
    obtain ⟨front, back, rfl⟩ := List.append_of_mem hs
    have hmiddle := hperm.trans (List.perm_middle.map g)
    have hrest : ∀ s ∈ front ++ back, f (g s) = some (r s) := by
      intro t ht
      exact hall t (List.perm_middle.mem_iff.mpr (List.mem_cons_of_mem _ ht))
    obtain ⟨results, hscan, hresults⟩ := ih hmiddle.cons_inv hrest
    refine ⟨r s :: results, ?_, ?_⟩
    · rw [List.mapM_cons, hall s hs, hscan]
      rfl
    · exact (hresults.cons (r s)).trans (List.perm_middle.map r).symm

/-- A scan fails at an element without a result. -/
theorem mapM_eq_none_of_mem {a : α} {scan : List α} (ha : a ∈ scan) (hnone : f a = none) :
    scan.mapM f = none := by
  induction scan with
  | nil => exact absurd ha List.not_mem_nil
  | cons b scan ih =>
    rw [List.mapM_cons]
    rcases List.mem_cons.mp ha with rfl | ha
    · rw [hnone]
      rfl
    · rw [ih ha]
      cases f b <;> rfl

end Scan

end YetiPgExt.Library
