import YetiPgExt.Tags.Action
import Mathlib.Data.Finset.Card

/-!
# The buffers of `tag_action`

The bounds of the stores of `tag_action` where a buffer has exactly the bytes that were requested
for it. `OP_REMOVE` and `OP_INTERSECTION` request enough. `OP_APPEND` asks `repalloc` for as many
bytes as there may be elements, so that it stays inside the buffer only where `b` has several times
more elements than there are values to keep.
-/

set_option autoImplicit false

namespace YetiPgExt.Tags

open YetiPgExt.Library

/-- No store and no array of a buffer's entries goes behind the end of the buffer. -/
def StaysInside (r : Except ActionFault ActionResult) : Prop := r ≠ .error .outOfBounds

theorem staysInside_ok (r : ActionResult) : StaysInside (.ok r) := by
  intro h
  cases h

/-! ## The loop without enough room -/

/-- The buffer after the loop, had it the room. -/
def DatumBuffer.filled (buf : DatumBuffer) (x : IntArray) : DatumBuffer :=
  { buf with entries := x.reduceOption.foldl addDistinct buf.entries }

/-- The loop collects the values, or it comes to a store for which there is no room; then there is
none for the whole set. -/
theorem fillSet_cases (x : IntArray) (buf : DatumBuffer) :
    fillSet x buf = .ok (buf.filled x) ∨
      (fillSet x buf = .error .outOfBounds ∧ ¬ (buf.filled x).Fits) := by
  induction x generalizing buf with
  | nil => exact Or.inl rfl
  | cons o x ih =>
    cases o with
    | none => exact ih buf
    | some v =>
      rw [fillSet, DatumBuffer.filled, List.reduceOption_cons_of_some, List.foldl_cons, addDistinct]
      by_cases hv : v ∈ buf.entries
      · rw [if_pos (inSet_iff.mpr hv), if_pos hv]
        exact ih buf
      · rw [inSet_eq_false_iff.mpr hv, if_neg Bool.false_ne_true, if_neg hv]
        by_cases hroom : (buf.entries.length + 1) * sizeofDatum ≤ buf.bytes
        · rw [push_of_room hroom]
          exact ih { buf with entries := buf.entries ++ [v] }
        · refine Or.inr ⟨?_, ?_⟩
          · have hpush : buf.push v = .error .outOfBounds := by
              apply if_neg
              rw [DatumBuffer.Fits, List.length_append, List.length_singleton]
              exact hroom
            rw [hpush]
            rfl
          · intro hfits
            apply hroom
            have hlen := length_le_foldl_addDistinct x.reduceOption (buf.entries ++ [v])
            rw [List.length_append, List.length_singleton] at hlen
            exact Nat.le_trans (Nat.mul_le_mul_right _ hlen) hfits

/-- `case OP_APPEND` stays inside the buffer exactly if the whole result has room in it. -/
theorem actionAppend_staysInside_iff {alloc : Nat → Nat} {bytes : Nat} {a b : IntArray} :
    StaysInside (actionAppend alloc ⟨bytes, nub a⟩ b) ↔
      (appended a b).length * sizeofDatum ≤ alloc ((nub a).length + b.length) := by
  have hfilled : DatumBuffer.filled ⟨alloc ((nub a).length + b.length), nub a⟩ b =
      ⟨alloc ((nub a).length + b.length), appended a b⟩ := by
    rw [DatumBuffer.filled, ← appended_eq]
  have hcases := fillSet_cases b ⟨alloc ((nub a).length + b.length), nub a⟩
  rw [hfilled] at hcases
  rw [actionAppend, DatumBuffer.repalloc]
  constructor
  · intro hinside
    rcases hcases with hok | ⟨herr, -⟩
    · rw [hok] at hinside
      by_contra hroom
      have hne : appended a b ≠ [] := by
        intro hnil
        rw [hnil] at hroom
        exact hroom (by simp)
      apply hinside
      change (if appended a b = [] then _ else constructArray _) = _
      rw [if_neg hne]
      exact if_neg hroom
    · rw [herr] at hinside
      exact absurd rfl hinside
  · intro hroom
    rcases hcases with hok | ⟨-, hfits⟩
    · rw [hok]
      have hfits : DatumBuffer.Fits ⟨alloc ((nub a).length + b.length), appended a b⟩ := hroom
      have hfinish : (if appended a b = [] then .ok .empty else
          constructArray ⟨alloc ((nub a).length + b.length), appended a b⟩) =
          .ok (resultOf (appended a b)) := finish_eq hfits
      change StaysInside (if appended a b = [] then .ok .empty else constructArray _)
      rw [hfinish]
      exact staysInside_ok _
    · exact absurd hroom hfits

/-! ## The requests of the operations -/

theorem length_nub (a : IntArray) : (nub a).length = (tagValues a).card := by
  have hset : (nub a).toFinset = tagValues a := by
    ext v
    rw [List.mem_toFinset, mem_nub, mem_tagValues]
  rw [← hset, List.toFinset_card_of_nodup (nodup_nub a)]

theorem length_appended (a b : IntArray) :
    (appended a b).length = (tagValues a ∪ tagValues b).card := by
  have hset : tagValues (a ++ b) = tagValues a ∪ tagValues b := by
    ext v
    simp
  rw [appended, length_nub, hset]

/-- The set of `a` is in its buffer before the operation, whatever that is. -/
theorem fillSet_id (a : IntArray) :
    fillSet a (palloc id (a.length * sizeofDatum)) = .ok ⟨a.length * sizeofDatum, nub a⟩ :=
  fillSet_palloc (fun n => Nat.le_refl n) a

/-- With exact buffers, an operation leaves a buffer exactly where it is `OP_APPEND` and the datums
of its result need more bytes than there are values of `a` and elements of `b`. -/
theorem tagAction_staysInside_iff (op : Int32) (a b : IntArray) :
    StaysInside (tagAction id (some op) (some a) (some b)) ↔
      (op = Operation.append.toInt32 →
        (tagValues a ∪ tagValues b).card * sizeofDatum ≤ (tagValues a).card + b.length) := by
  have hbytes : ∀ n, n ≤ id n := fun n => Nat.le_refl n
  by_cases happend : op = Operation.append.toInt32
  · subst happend
    have hcall : tagAction id (some Operation.append.toInt32) (some a) (some b) =
        (fillSet a (palloc id (a.length * sizeofDatum)) >>= fun aset => actionAppend id aset b) :=
      rfl
    rw [hcall, fillSet_id, ← length_appended, ← length_nub]
    exact actionAppend_staysInside_iff.trans ⟨fun h _ => h, fun h => h rfl⟩
  · refine ⟨fun _ h => absurd h happend, fun _ => ?_⟩
    rw [tagAction]
    split
    · exact staysInside_ok _
    · split
      · exact staysInside_ok _
      · split
        · rw [fillSet_id]
          change StaysInside (actionRemove id ⟨id (a.length * sizeofDatum), nub a⟩ b)
          rw [actionRemove_eq hbytes]
          exact staysInside_ok _
        · split
          · rw [fillSet_id]
            change StaysInside (actionIntersection id ⟨a.length * sizeofDatum, nub a⟩ b)
            rw [actionIntersection_eq hbytes]
            exact staysInside_ok _
          · intro h
            cases h

/-- One tag appended to one other: the two datums need sixteen bytes of the two requested. -/
theorem not_tagAction_staysInside :
    ¬ ∀ op : Operation, op = .remove ∨ op = .append ∨ op = .intersection →
      ∀ a b : IntArray, StaysInside (tagAction id (some op.toInt32) (some a) (some b)) := by
  intro h
  apply h .append (Or.inr (Or.inl rfl)) [some 1] [some 2]
  decide

end YetiPgExt.Tags
