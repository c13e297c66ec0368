import YetiPgExt.Tags.ValueSet

/-!
# `tag_action`

The operations on arrays of tags. The sets are kept in buffers from `palloc`, one of which
`OP_APPEND` requests anew; a store into a buffer and the array that is made of it are checked
against the bytes that the buffer has. How many bytes a request gives is a parameter.
-/

set_option autoImplicit false

namespace YetiPgExt.Tags

open YetiPgExt.Library

/-- `enum opts` -/
inductive Operation where
  | clear
  | remove
  | append
  | intersection
  | replace
  deriving DecidableEq, Repr

/-- The `int4` of an operation. -/
def Operation.toInt32 : Operation → Int32
  | .clear => 1
  | .remove => 2
  | .append => 3
  | .intersection => 4
  | .replace => 5

/-- How `tag_action` fails: by an error, or by an access behind the end of a buffer. -/
inductive ActionFault where
  | raised (message : String)
  | outOfBounds
  deriving DecidableEq, Repr

/-- The error of `tag_action`. -/
def unknownOperation (op : Int32) : String :=
  "tag_action(): unknown operation " ++ toString op.toInt

/-- What `tag_action` returns. -/
inductive ActionResult where
  | null
  | copy (a : IntArray)
  | empty
  | array (elems : List Int32)
  deriving DecidableEq, Repr

/-! ## Buffers -/

/-- `sizeof(Datum)` -/
def sizeofDatum : Nat := 8

/-- A buffer of datums: its bytes, and the entries up to the position of the last one. -/
structure DatumBuffer where
  bytes : Nat
  entries : List Int32
  deriving DecidableEq, Repr

/-- The entries lie inside the buffer. -/
def DatumBuffer.Fits (buf : DatumBuffer) : Prop := buf.entries.length * sizeofDatum ≤ buf.bytes

instance (buf : DatumBuffer) : Decidable buf.Fits :=
  inferInstanceAs (Decidable (buf.entries.length * sizeofDatum ≤ buf.bytes))

section

variable (alloc : Nat → Nat)

/-- `palloc`; the position of the last entry is set to -1. -/
def palloc (bytes : Nat) : DatumBuffer := ⟨alloc bytes, []⟩

/-- `repalloc` -/
def DatumBuffer.repalloc (buf : DatumBuffer) (bytes : Nat) : DatumBuffer :=
  { buf with bytes := alloc bytes }

end

/-- `buf[++pos] = v` -/
def DatumBuffer.push (buf : DatumBuffer) (v : Int32) : Except ActionFault DatumBuffer :=
  let buf := { buf with entries := buf.entries ++ [v] }
  if buf.Fits then .ok buf else .error .outOfBounds

/-- `construct_array` of the entries of a buffer. -/
def constructArray (buf : DatumBuffer) : Except ActionFault ActionResult :=
  if buf.Fits then .ok (.array buf.entries) else .error .outOfBounds

/-! ## The loops -/

/-- The loop that adds the values of an array to a set. -/
def fillSet : IntArray → DatumBuffer → Except ActionFault DatumBuffer
  | [], buf => .ok buf
  | none :: x, buf => fillSet x buf
  | some v :: x, buf =>
    if inSet buf.entries v then fillSet x buf else buf.push v >>= fillSet x

/-- The loop of `OP_REMOVE` over the entries of `aset`. -/
def removeLoop (bset : List Int32) : List Int32 → DatumBuffer → Except ActionFault DatumBuffer
  | [], rset => .ok rset
  | v :: aset, rset =>
    if inSet bset v then removeLoop bset aset rset else rset.push v >>= removeLoop bset aset

/-- The loop of `OP_INTERSECTION` over `b`. -/
def intersectionLoop (aset : List Int32) :
    IntArray → DatumBuffer → Except ActionFault DatumBuffer
  | [], rset => .ok rset
  | none :: b, rset => intersectionLoop aset b rset
  | some v :: b, rset =>
    if inSet rset.entries v then intersectionLoop aset b rset
    else if !inSet aset v then intersectionLoop aset b rset
    else rset.push v >>= intersectionLoop aset b

section

variable (alloc : Nat → Nat)

/-- `case OP_REMOVE` -/
def actionRemove (aset : DatumBuffer) (b : IntArray) : Except ActionFault ActionResult := do
  if aset.entries = [] then
    return .empty
  let bset ← fillSet b (palloc alloc (b.length * sizeofDatum))
  if bset.entries = [] then
    constructArray aset
  else
    let rset ← removeLoop bset.entries aset.entries
      (palloc alloc (aset.entries.length * sizeofDatum))
    if rset.entries = [] then return .empty
    constructArray rset

/-- `case OP_APPEND`. The new size of `aset` counts elements, not bytes. -/
def actionAppend (aset : DatumBuffer) (b : IntArray) : Except ActionFault ActionResult := do
  let aset ← fillSet b (aset.repalloc alloc (aset.entries.length + b.length))
  if aset.entries = [] then return .empty
  constructArray aset

/-- `case OP_INTERSECTION` -/
def actionIntersection (aset : DatumBuffer) (b : IntArray) : Except ActionFault ActionResult := do
  let rset ← intersectionLoop aset.entries b (palloc alloc (aset.entries.length * sizeofDatum))
  if rset.entries = [] then return .empty
  constructArray rset

/-- `tag_action`, with `none` for a NULL argument. -/
def tagAction (op : Option Int32) (a b : Option IntArray) : Except ActionFault ActionResult :=
  match a, b with
  | none, _ => .ok .null
  | some _, none => .ok .null
  | some a, some b =>
    match op with
    | none => .ok (.copy a)
    | some op =>
      if op = Operation.clear.toInt32 then .ok .empty
      else if op = Operation.replace.toInt32 then .ok (.copy b)
      else if op = Operation.remove.toInt32 then do
        let aset ← fillSet a (palloc alloc (a.length * sizeofDatum))
        actionRemove alloc aset b
      else if op = Operation.append.toInt32 then do
        let aset ← fillSet a (palloc alloc (a.length * sizeofDatum))
        actionAppend alloc aset b
      else if op = Operation.intersection.toInt32 then do
        let aset ← fillSet a (palloc alloc (a.length * sizeofDatum))
        actionIntersection alloc aset b
      else .error (.raised (unknownOperation op))

end

/-! ## What the loops compute -/

theorem push_of_room {buf : DatumBuffer} {v : Int32}
    (h : (buf.entries.length + 1) * sizeofDatum ≤ buf.bytes) :
    buf.push v = .ok { buf with entries := buf.entries ++ [v] } := by
  apply if_pos
  rw [DatumBuffer.Fits, List.length_append, List.length_singleton]
  exact h

/-- With room for one more entry for each element, the loop collects the values. -/
theorem fillSet_eq {x : IntArray} {buf : DatumBuffer}
    (h : (buf.entries.length + x.length) * sizeofDatum ≤ buf.bytes) :
    fillSet x buf = .ok { buf with entries := x.reduceOption.foldl addDistinct buf.entries } := by
  induction x generalizing buf with
  | nil => rfl
  | cons o x ih =>
    have hx : (buf.entries.length + x.length) * sizeofDatum ≤ buf.bytes := by
      rw [List.length_cons] at h
      exact Nat.le_trans (Nat.mul_le_mul_right _ (by omega)) h
    cases o with
    | none => exact ih hx
    | some v =>
      rw [fillSet, List.reduceOption_cons_of_some, List.foldl_cons, addDistinct]
      by_cases hv : v ∈ buf.entries
      · rw [if_pos (inSet_iff.mpr hv), if_pos hv]
        exact ih hx
      · have hroom : (buf.entries.length + 1) * sizeofDatum ≤ buf.bytes := by
          rw [List.length_cons] at h
          exact Nat.le_trans (Nat.mul_le_mul_right _ (by omega)) h
        rw [inSet_eq_false_iff.mpr hv, if_neg Bool.false_ne_true, if_neg hv, push_of_room hroom]
        apply ih
        rw [List.length_append, List.length_singleton]
        rw [List.length_cons] at h
        exact Nat.le_trans (Nat.mul_le_mul_right _ (by omega)) h

/-- With room for the entries that are left, the loop selects those that are not removed. -/
theorem removeLoop_eq {bset aset : List Int32} {rset : DatumBuffer}
    (h : (rset.entries.length + aset.length) * sizeofDatum ≤ rset.bytes) :
    removeLoop bset aset rset =
      .ok { rset with entries := rset.entries ++ aset.filter (fun v => decide (v ∉ bset)) } := by
  induction aset generalizing rset with
  | nil => simp [removeLoop]
  | cons v aset ih =>
    rw [List.length_cons] at h
    rw [removeLoop]
    by_cases hv : v ∈ bset
    · have hx : (rset.entries.length + aset.length) * sizeofDatum ≤ rset.bytes :=
        Nat.le_trans (Nat.mul_le_mul_right _ (by omega)) h
      rw [if_pos (inSet_iff.mpr hv), ih hx]
      simp [hv]
    · have hroom : (rset.entries.length + 1) * sizeofDatum ≤ rset.bytes :=
        Nat.le_trans (Nat.mul_le_mul_right _ (by omega)) h
      have hx : ((rset.entries ++ [v]).length + aset.length) * sizeofDatum ≤ rset.bytes := by
        rw [List.length_append, List.length_singleton]
        exact Nat.le_trans (Nat.mul_le_mul_right _ (by omega)) h
      rw [inSet_eq_false_iff.mpr hv, if_neg Bool.false_ne_true, push_of_room hroom]
      have hrest := @ih { rset with entries := rset.entries ++ [v] } hx
      apply hrest.trans
      simp [hv]

/-- The result of `OP_INTERSECTION` stays inside `aset`, so there is room for it. -/
theorem intersectionLoop_eq {aset : List Int32} {b : IntArray} {rset : DatumBuffer}
    (hroom : aset.length * sizeofDatum ≤ rset.bytes) (hsub : rset.entries ⊆ aset)
    (hnodup : rset.entries.Nodup) :
    intersectionLoop aset b rset =
      .ok { rset with
        entries := (b.reduceOption.filter (fun v => decide (v ∈ aset))).foldl addDistinct
          rset.entries } := by
  induction b generalizing rset with
  | nil => rfl
  | cons o b ih =>
    cases o with
    | none => exact ih hroom hsub hnodup
    | some v =>
      rw [intersectionLoop, List.reduceOption_cons_of_some, List.filter_cons]
      by_cases hv : v ∈ rset.entries
      · have hin : v ∈ aset := hsub hv
        rw [if_pos (inSet_iff.mpr hv), ih hroom hsub hnodup, if_pos (decide_eq_true hin),
          List.foldl_cons, addDistinct, if_pos hv]
      · rw [inSet_eq_false_iff.mpr hv, if_neg Bool.false_ne_true]
        by_cases hin : v ∈ aset
        · -- the entries with `v` are distinct entries of `aset`
          have hnodup' : (rset.entries ++ [v]).Nodup := by
            have hadd := nodup_addDistinct hnodup v
            rwa [addDistinct, if_neg hv] at hadd
          have hsub' : rset.entries ++ [v] ⊆ aset := by
            rw [List.append_subset]
            exact ⟨hsub, List.cons_subset.mpr ⟨hin, List.nil_subset _⟩⟩
          have hlen := (hnodup'.subperm hsub').length_le
          rw [List.length_append, List.length_singleton] at hlen
          have hpush := push_of_room (v := v)
            (Nat.le_trans (Nat.mul_le_mul_right sizeofDatum hlen) hroom)
          rw [inSet_iff.mpr hin, if_neg (by decide), hpush, if_pos (decide_eq_true hin),
            List.foldl_cons, addDistinct, if_neg hv]
          exact ih hroom hsub' hnodup'
        · rw [inSet_eq_false_iff.mpr hin, if_pos (by decide), ih hroom hsub hnodup,
            if_neg (by simpa using hin)]

/-! ## The operations on ordered sets -/

/-- What is left of `a` without the values of `b`. -/
def removed (a b : IntArray) : List Int32 := (nub a).filter (fun v => decide (some v ∉ b))

/-- The values of `a` and behind them the new ones of `b`. -/
def appended (a b : IntArray) : List Int32 := nub (a ++ b)

/-- The values of `b` that occur in `a`. -/
def common (a b : IntArray) : List Int32 := (nub b).filter (fun v => decide (some v ∈ a))

/-- The array of a list of values. -/
def resultOf (r : List Int32) : ActionResult := if r = [] then .empty else .array r

theorem nodup_removed (a b : IntArray) : (removed a b).Nodup := (nodup_nub a).filter _

theorem nodup_appended (a b : IntArray) : (appended a b).Nodup := nodup_nub _

theorem nodup_common (a b : IntArray) : (common a b).Nodup := (nodup_nub b).filter _

theorem appended_eq (a b : IntArray) :
    appended a b = b.reduceOption.foldl addDistinct (nub a) := by
  rw [appended, nub, nub, foldl_addDistinct, List.reduceOption_append]

theorem common_eq (a b : IntArray) :
    common a b =
      (b.reduceOption.filter (fun v => decide (v ∈ nub a))).foldl addDistinct [] := by
  rw [foldl_addDistinct_nil, eraseDups_filter, common, nub]
  simp only [mem_nub]

theorem removed_eq (a b : IntArray) :
    removed a b = (nub a).filter (fun v => decide (v ∉ nub b)) := by
  simp only [removed, mem_nub]

theorem finish_eq {buf : DatumBuffer} (h : buf.Fits) :
    (if buf.entries = [] then .ok .empty else constructArray buf) =
      .ok (resultOf buf.entries) := by
  rw [resultOf, constructArray, if_pos h]
  split
  · rfl
  · rfl

section

variable {alloc : Nat → Nat} {a b : IntArray}

/-- A buffer requested for `n` datums has room for them. -/
theorem palloc_room (h : ∀ n, n ≤ alloc n) (n : Nat) :
    ((palloc alloc (n * sizeofDatum)).entries.length + n) * sizeofDatum ≤
      (palloc alloc (n * sizeofDatum)).bytes := by
  change (0 + n) * sizeofDatum ≤ alloc (n * sizeofDatum)
  rw [Nat.zero_add]
  exact h _

theorem fillSet_palloc (h : ∀ n, n ≤ alloc n) (x : IntArray) :
    fillSet x (palloc alloc (x.length * sizeofDatum)) =
      .ok ⟨alloc (x.length * sizeofDatum), nub x⟩ := by
  rw [fillSet_eq (palloc_room h x.length), palloc, foldl_addDistinct_nil, nub]

theorem length_nub_le (x : IntArray) : (nub x).length ≤ x.length := by
  have hlen := length_foldl_addDistinct_le x.reduceOption []
  rw [foldl_addDistinct_nil, List.length_nil, Nat.zero_add] at hlen
  exact Nat.le_trans hlen x.reduceOption_length_le

/-- `case OP_REMOVE`, with the set of `a` in its buffer. -/
theorem actionRemove_eq (h : ∀ n, n ≤ alloc n) :
    actionRemove alloc ⟨alloc (a.length * sizeofDatum), nub a⟩ b =
      .ok (resultOf (removed a b)) := by
  have hfits : DatumBuffer.Fits ⟨alloc (a.length * sizeofDatum), nub a⟩ :=
    Nat.le_trans (Nat.mul_le_mul_right _ (length_nub_le a)) (h _)
  have hfits' : DatumBuffer.Fits ⟨alloc ((nub a).length * sizeofDatum), removed a b⟩ :=
    Nat.le_trans (Nat.mul_le_mul_right _ (List.length_filter_le _ _)) (h _)
  rw [actionRemove]
  by_cases hnil : nub a = []
  · have hremoved : removed a b = [] := by rw [removed, hnil, List.filter_nil]
    rw [if_pos hnil, hremoved]
    rfl
  · rw [if_neg hnil, fillSet_palloc h]
    change (if nub b = [] then _ else _) = _
    by_cases hb : nub b = []
    · have hremoved : removed a b = nub a := by
        rw [removed_eq, hb]
        simp
      rw [if_pos hb, hremoved, constructArray, if_pos hfits, resultOf, if_neg hnil]
    · rw [if_neg hb, removeLoop_eq (palloc_room h (nub a).length), ← removed_eq]
      exact finish_eq hfits'

/-- `case OP_APPEND` needs a larger buffer than the one that it requests. -/
theorem actionAppend_eq {bytes : Nat} (h : ∀ n, n * sizeofDatum ≤ alloc n) :
    actionAppend alloc ⟨bytes, nub a⟩ b = .ok (resultOf (appended a b)) := by
  have hroom := h ((nub a).length + b.length)
  have hlen : (appended a b).length ≤ (nub a).length + b.length := by
    rw [appended_eq]
    exact Nat.le_trans (length_foldl_addDistinct_le _ _)
      (Nat.add_le_add_left b.reduceOption_length_le _)
  have hfits : DatumBuffer.Fits ⟨alloc ((nub a).length + b.length), appended a b⟩ :=
    Nat.le_trans (Nat.mul_le_mul_right _ hlen) hroom
  have hfill := @fillSet_eq b ⟨alloc ((nub a).length + b.length), nub a⟩ hroom
  rw [actionAppend, DatumBuffer.repalloc, hfill, ← appended_eq]
  exact finish_eq hfits

/-- `case OP_INTERSECTION` -/
theorem actionIntersection_eq {bytes : Nat} (h : ∀ n, n ≤ alloc n) :
    actionIntersection alloc ⟨bytes, nub a⟩ b = .ok (resultOf (common a b)) := by
  have hlen : (common a b).length ≤ (nub a).length := by
    apply ((nodup_common a b).subperm _).length_le
    intro v hv
    exact mem_nub.mpr (of_decide_eq_true (List.mem_filter.mp hv).2)
  have hfits : DatumBuffer.Fits ⟨alloc ((nub a).length * sizeofDatum), common a b⟩ :=
    Nat.le_trans (Nat.mul_le_mul_right _ hlen) (h _)
  rw [actionIntersection, palloc, intersectionLoop_eq (h _) (List.nil_subset _) List.nodup_nil,
    ← common_eq]
  exact finish_eq hfits

/-- Buffers that are large enough: `OP_REMOVE`, `OP_APPEND` and `OP_INTERSECTION` compute the
ordered sets, as an empty array where they have no value. -/
theorem tagAction_ordered_sets (h : ∀ n, n * sizeofDatum ≤ alloc n) (a b : IntArray) :
    (tagAction alloc (some 2) (some a) (some b) = .ok (resultOf (removed a b)) ∧
      (removed a b).Nodup) ∧
    (tagAction alloc (some 3) (some a) (some b) = .ok (resultOf (appended a b)) ∧
      (appended a b).Nodup) ∧
    (tagAction alloc (some 4) (some a) (some b) = .ok (resultOf (common a b)) ∧
      (common a b).Nodup) := by
  have hbytes : ∀ n, n ≤ alloc n := by
    intro n
    exact Nat.le_trans (Nat.le_mul_of_pos_right n (by decide)) (h n)
  refine ⟨⟨?_, nodup_removed a b⟩, ⟨?_, nodup_appended a b⟩, ⟨?_, nodup_common a b⟩⟩
  · change (fillSet a _ >>= fun aset => actionRemove alloc aset b) = _
    rw [fillSet_palloc hbytes]
    exact actionRemove_eq hbytes
  · change (fillSet a _ >>= fun aset => actionAppend alloc aset b) = _
    rw [fillSet_palloc hbytes]
    exact actionAppend_eq h
  · change (fillSet a _ >>= fun aset => actionIntersection alloc aset b) = _
    rw [fillSet_palloc hbytes]
    exact actionIntersection_eq hbytes

theorem tagAction_ordered_sets_duplicates :
    tagAction (fun n => 8 * n) (some 4) (some [some 1, none, some 2, some 1])
      (some [some 2, some 5, none, some 2, some 1]) = .ok (.array [2, 1]) := by
  have hlarge : ∀ n, n * sizeofDatum ≤ 8 * n := by
    intro n
    exact Nat.le_of_eq (Nat.mul_comm n 8)
  have h := (tagAction_ordered_sets hlarge [some 1, none, some 2, some 1]
    [some 2, some 5, none, some 2, some 1]).2.2.1
  have hcommon : resultOf (common [some 1, none, some 2, some 1]
      [some 2, some 5, none, some 2, some 1]) = .array [2, 1] := by decide
  exact h.trans (congrArg Except.ok hcommon)

end

end YetiPgExt.Tags
