import YetiPgExt.Library.Distinct
import Mathlib.Data.List.ReduceOption
import Mathlib.Data.Finset.Basic
import Mathlib.Data.Finset.Dedup

/-!
# Sets of tags

`tag_compare` and `tag_action` keep a set of tags in a buffer of datums with the position of its
last entry, which is -1 as long as the set is empty. The set is the list of the entries up to that
position, so that the position is one less than the length.
-/

set_option autoImplicit false

namespace YetiPgExt.Tags

open YetiPgExt.Library

/-- The elements of an `int[]` in the order of `array_iterate`, NULL as `none`. -/
abbrev IntArray := List (Option Int32)

/-- The loop of `set_contains_value`. The argument is `end_pos + 1`: the entries below it are
compared, the last one first. -/
def setContainsValue (s : List Int32) : Nat → Int32 → Bool
  | 0, _ => false
  | endPos + 1, value =>
    if s[endPos]? = some value then true else setContainsValue s endPos value

theorem setContainsValue_iff {s : List Int32} {n : Nat} (h : n ≤ s.length) (value : Int32) :
    setContainsValue s n value = true ↔ value ∈ s.take n := by
  induction n with
  | zero => simp [setContainsValue]
  | succ endPos ih =>
    have hlast : s[endPos]? = some s[endPos] := List.getElem?_eq_getElem h
    rw [setContainsValue, List.take_add_one, hlast, List.mem_append, ← ih (Nat.le_of_succ_le h)]
    split
    · rename_i hv
      simp [Option.some.inj hv]
    · rename_i hv
      have hne : value ≠ s[endPos] := by
        intro heq
        exact hv (congrArg some heq.symm)
      simp [hne]

/-- `set_contains_value` of a whole set. -/
def inSet (s : List Int32) (value : Int32) : Bool := setContainsValue s s.length value

@[simp] theorem inSet_iff {s : List Int32} {value : Int32} : inSet s value = true ↔ value ∈ s := by
  rw [inSet, setContainsValue_iff (Nat.le_refl _), List.take_length]

theorem inSet_eq_false_iff {s : List Int32} {value : Int32} :
    inSet s value = false ↔ value ∉ s := by
  rw [← inSet_iff, Bool.not_eq_true]

/-! ## The values of an array -/

/-- The elements that are not NULL, in order of their first occurrence. -/
def nub (a : IntArray) : List Int32 := a.reduceOption.eraseDups

theorem mem_nub {a : IntArray} {v : Int32} : v ∈ nub a ↔ some v ∈ a := by
  rw [nub, List.mem_eraseDups, List.reduceOption_mem_iff]

theorem nodup_nub (a : IntArray) : (nub a).Nodup := nodup_eraseDups _

theorem nub_eq_nil_iff {a : IntArray} : nub a = [] ↔ ∀ v, some v ∉ a := by
  rw [List.eq_nil_iff_forall_not_mem]
  simp only [mem_nub]

/-- The set of the elements that are not NULL. -/
def tagValues (a : IntArray) : Finset Int32 := a.reduceOption.toFinset

@[simp] theorem mem_tagValues {a : IntArray} {v : Int32} : v ∈ tagValues a ↔ some v ∈ a := by
  rw [tagValues, List.mem_toFinset, List.reduceOption_mem_iff]

theorem tagValues_nonempty_iff {a : IntArray} : (tagValues a).Nonempty ↔ ∃ v, some v ∈ a := by
  constructor
  · rintro ⟨v, hv⟩
    exact ⟨v, mem_tagValues.mp hv⟩
  · rintro ⟨v, hv⟩
    exact ⟨v, mem_tagValues.mpr hv⟩

theorem tagValues_subset_iff {a b : IntArray} :
    tagValues b ⊆ tagValues a ↔ ∀ v, some v ∈ b → some v ∈ a := by
  constructor
  · intro h v hv
    exact mem_tagValues.mp (h (mem_tagValues.mpr hv))
  · intro h v hv
    exact mem_tagValues.mpr (h v (mem_tagValues.mp hv))

/-- Where one set of values lies in the other, they are equal exactly if the collections have the
same number of entries. -/
theorem length_nub_eq_iff {a b : IntArray} (h : tagValues b ⊆ tagValues a) :
    (nub a).length = (nub b).length ↔ tagValues a = tagValues b := by
  have hsub : b.reduceOption ⊆ a.reduceOption := by
    intro v hv
    rw [List.reduceOption_mem_iff] at hv ⊢
    exact tagValues_subset_iff.mp h v hv
  rw [nub, nub, length_eraseDups_eq_iff hsub]
  constructor
  · intro hle
    apply Finset.Subset.antisymm _ h
    intro v hv
    rw [tagValues, List.mem_toFinset] at hv ⊢
    exact hle hv
  · intro heq v hv
    rw [← List.mem_toFinset] at hv ⊢
    exact heq.subset hv

end YetiPgExt.Tags
