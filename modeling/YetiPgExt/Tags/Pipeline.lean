import YetiPgExt.Tags.Action
import YetiPgExt.Tags.Compare

/-!
# Tags through a sequence of actions

Calls of `tag_action` one after the other, each on the result of the one before, and `tag_compare`
on what comes out. What an array of tags means is a set of values and whether there is a NULL
(`TagSet`); `tagActions_refines` says that a sequence of calls computes the sequence of set
operations, errors and NULL arguments included, and that `tag_compare` sees no more than the sets.
-/

set_option autoImplicit false

namespace YetiPgExt.Tags

open YetiPgExt.Library

/-! ## Sequences of calls -/

/-- The SQL value of a result. -/
def ActionResult.toArray : ActionResult → Option IntArray
  | .null => none
  | .copy a => some a
  | .empty => some []
  | .array elems => some (elems.map some)

/-- A call of `tag_action` without its first array. -/
structure ActionCall where
  op : Option Int32
  b : Option IntArray

/-- The calls on an array, each on the result of the one before. -/
def tagActions (alloc : Nat → Nat) :
    Option IntArray → List ActionCall → Except ActionFault (Option IntArray)
  | a, [] => .ok a
  | a, c :: calls => do
    let r ← tagAction alloc c.op a c.b
    tagActions alloc r.toArray calls

/-! ## What an array means -/

/-- A set of tags, and whether there is a NULL beside them. -/
@[ext] structure TagSet where
  values : Finset Int32
  hasNull : Bool
  deriving DecidableEq

def tagSetOf (a : IntArray) : TagSet where
  values := tagValues a
  hasNull := a.contains none

/-- Only values. -/
def TagSet.ofValues (values : Finset Int32) : TagSet where
  values := values
  hasNull := false

/-- `tag_action` on sets. -/
def setAction (op : Option Int32) (A B : Option TagSet) : Except ActionFault (Option TagSet) :=
  match A, B with
  | none, _ => .ok none
  | some _, none => .ok none
  | some A, some B =>
    match op with
    | none => .ok (some A)
    | some op =>
      if op = Operation.clear.toInt32 then .ok (some (.ofValues ∅))
      else if op = Operation.replace.toInt32 then .ok (some B)
      else if op = Operation.remove.toInt32 then .ok (some (.ofValues (A.values \ B.values)))
      else if op = Operation.append.toInt32 then .ok (some (.ofValues (A.values ∪ B.values)))
      else if op = Operation.intersection.toInt32 then .ok (some (.ofValues (A.values ∩ B.values)))
      else .error (.raised (unknownOperation op))

def setActions : Option TagSet → List ActionCall → Except ActionFault (Option TagSet)
  | A, [] => .ok A
  | A, c :: calls => do
    let A ← setAction c.op A (c.b.map tagSetOf)
    setActions A calls

/-! ## The results as sets -/

theorem tagSetOf_map_some (r : List Int32) : tagSetOf (r.map some) = .ofValues r.toFinset := by
  ext v
  · rw [tagSetOf, mem_tagValues, TagSet.ofValues, List.mem_toFinset, List.mem_map]
    constructor
    · rintro ⟨w, hw, heq⟩
      rwa [← Option.some.inj heq]
    · intro hv
      exact ⟨v, hv, rfl⟩
  · have hnone : ¬ (r.map some).contains none = true := by
      intro hmem
      obtain ⟨w, -, heq⟩ := List.mem_map.mp (List.contains_iff_mem.mp hmem)
      cases heq
    rw [tagSetOf, TagSet.ofValues, Bool.eq_false_iff.mpr hnone]

theorem toArray_resultOf (r : List Int32) : (resultOf r).toArray = some (r.map some) := by
  rw [resultOf]
  split
  · rename_i hnil
    rw [hnil]
    rfl
  · rfl

theorem toFinset_removed (a b : IntArray) :
    (removed a b).toFinset = tagValues a \ tagValues b := by
  ext v
  rw [List.mem_toFinset, removed, List.mem_filter, decide_eq_true_iff, mem_nub, Finset.mem_sdiff,
    mem_tagValues, mem_tagValues]

theorem toFinset_appended (a b : IntArray) :
    (appended a b).toFinset = tagValues a ∪ tagValues b := by
  ext v
  rw [List.mem_toFinset, appended, mem_nub, List.mem_append, Finset.mem_union, mem_tagValues,
    mem_tagValues]

theorem toFinset_common (a b : IntArray) :
    (common a b).toFinset = tagValues a ∩ tagValues b := by
  ext v
  rw [List.mem_toFinset, common, List.mem_filter, decide_eq_true_iff, mem_nub, Finset.mem_inter,
    mem_tagValues, mem_tagValues, and_comm]

/-- The result of a set operation. -/
theorem tagSet_resultOf {r : List Int32} {values : Finset Int32} (h : r.toFinset = values) :
    (resultOf r).toArray.map tagSetOf = some (.ofValues values) := by
  rw [toArray_resultOf, Option.map_some, tagSetOf_map_some, h]

/-- One call computes one operation on sets. -/
theorem tagAction_refines {alloc : Nat → Nat} (h : ∀ n, n * sizeofDatum ≤ alloc n)
    (op : Option Int32) (a b : Option IntArray) :
    (tagAction alloc op a b).map (fun r => r.toArray.map tagSetOf) =
      setAction op (a.map tagSetOf) (b.map tagSetOf) := by
  have hbytes : ∀ n, n ≤ alloc n := fun n =>
    Nat.le_trans (Nat.le_mul_of_pos_right n (by decide)) (h n)
  cases a with
  | none => cases b <;> rfl
  | some a =>
    cases b with
    | none => rfl
    | some b =>
      cases op with
      | none => rfl
      | some op =>
        rw [tagAction, Option.map_some, Option.map_some, setAction]
        split
        · rfl
        · split
          · rfl
          · split
            · rw [fillSet_palloc hbytes]
              change (actionRemove alloc _ b).map _ = _
              rw [actionRemove_eq hbytes]
              exact congrArg Except.ok (tagSet_resultOf (toFinset_removed a b))
            · split
              · rw [fillSet_palloc hbytes]
                change (actionAppend alloc _ b).map _ = _
                rw [actionAppend_eq h]
                exact congrArg Except.ok (tagSet_resultOf (toFinset_appended a b))
              · split
                · rw [fillSet_palloc hbytes]
                  change (actionIntersection alloc _ b).map _ = _
                  rw [actionIntersection_eq hbytes]
                  exact congrArg Except.ok (tagSet_resultOf (toFinset_common a b))
                · rfl

/-- A sequence of calls computes the sequence of operations. -/
theorem tagActions_eq_setActions {alloc : Nat → Nat} (h : ∀ n, n * sizeofDatum ≤ alloc n)
    (a : Option IntArray) (calls : List ActionCall) :
    (tagActions alloc a calls).map (Option.map tagSetOf) = setActions (a.map tagSetOf) calls := by
  induction calls generalizing a with
  | nil => rfl
  | cons c calls ih =>
    have hstep := tagAction_refines h c.op a c.b
    rw [tagActions, setActions]
    cases hr : tagAction alloc c.op a c.b with
    | error fault =>
      rw [hr] at hstep
      rw [← hstep]
      rfl
    | ok r =>
      rw [hr] at hstep
      rw [← hstep]
      exact ih r.toArray

/-- Arrays with the same set of tags have the same elements. -/
theorem mem_iff_of_tagSetOf_eq {a a' : IntArray} (h : tagSetOf a = tagSetOf a')
    (o : Option Int32) : o ∈ a ↔ o ∈ a' := by
  obtain ⟨hvalues, hnull⟩ := TagSet.ext_iff.mp h
  cases o with
  | none =>
    rw [← List.contains_iff_mem, ← List.contains_iff_mem,
      show a.contains none = a'.contains none from hnull]
  | some v => rw [← mem_tagValues, ← mem_tagValues, show tagValues a = tagValues a' from hvalues]

/-- `tag_compare` sees the sets only. -/
theorem tagCompare_congr {a a' : Option IntArray} (ha : a.map tagSetOf = a'.map tagSetOf)
    (c : Option IntArray) (mode : Option Int16) :
    tagCompare a c mode = tagCompare a' c mode ∧ tagCompare c a mode = tagCompare c a' mode := by
  cases a with
  | none =>
    have ha' : a' = none := Option.map_eq_none_iff.mp ha.symm
    rw [ha']
    exact ⟨rfl, rfl⟩
  | some x =>
    obtain ⟨x', rfl, hx⟩ := Option.map_eq_some_iff.mp ha.symm
    have hmem := mem_iff_of_tagSetOf_eq hx.symm
    cases c with
    | none => exact ⟨rfl, rfl⟩
    | some c =>
      rw [tagCompare, tagCompare, tagCompare, tagCompare]
      cases matchMode mode with
      | error message => exact ⟨rfl, rfl⟩
      | ok m =>
        have hleft : compareSets m x c = compareSets m x' c :=
          compareSets_congr hmem (fun o => Iff.rfl (a := o ∈ c))
        have hright : compareSets m c x = compareSets m c x' :=
          compareSets_congr (fun o => Iff.rfl (a := o ∈ c)) hmem
        constructor
        · change Except.ok (compareSets m x c).toInt32 = .ok (compareSets m x' c).toInt32
          rw [hleft]
        · change Except.ok (compareSets m c x).toInt32 = .ok (compareSets m c x').toInt32
          rw [hright]

/-- Any sequence of calls of `tag_action`, with any operations and NULLs, computes the sequence of
set operations or fails with the first unknown operation; and `tag_compare` does not tell apart the
results of two sequences that mean the same set. -/
theorem tagActions_refines {alloc : Nat → Nat} (h : ∀ n, n * sizeofDatum ≤ alloc n)
    (a : Option IntArray) (calls : List ActionCall) :
    (tagActions alloc a calls).map (Option.map tagSetOf) = setActions (a.map tagSetOf) calls ∧
      ∀ (a' : Option IntArray) (calls' : List ActionCall) (r r' : Option IntArray),
        tagActions alloc a calls = .ok r → tagActions alloc a' calls' = .ok r' →
        setActions (a.map tagSetOf) calls = setActions (a'.map tagSetOf) calls' →
        ∀ c mode, tagCompare r c mode = tagCompare r' c mode ∧
          tagCompare c r mode = tagCompare c r' mode := by
  refine ⟨tagActions_eq_setActions h a calls, ?_⟩
  intro a' calls' r r' hr hr' hsame c mode
  have hsets := tagActions_eq_setActions h a calls
  rw [hsame, ← tagActions_eq_setActions h a' calls', hr, hr'] at hsets
  exact tagCompare_congr (Except.ok.inj hsets) c mode

/-- Appending a tag twice and removing it again. -/
def appendRemove : List ActionCall :=
  [⟨some 3, some [some 2]⟩, ⟨some 3, some [some 2, none]⟩, ⟨some 2, some [some 2]⟩]

theorem tagActions_refines_appendRemove :
    (tagActions (fun n => 8 * n) (some [some 1, none]) appendRemove).map (Option.map tagSetOf) =
      .ok (some (.ofValues {1})) := by
  have hlarge : ∀ n, n * sizeofDatum ≤ 8 * n := fun n => Nat.le_of_eq (Nat.mul_comm n 8)
  rw [(tagActions_refines hlarge (some [some 1, none]) appendRemove).1]
  rfl

end YetiPgExt.Tags
