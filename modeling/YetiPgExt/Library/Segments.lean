import YetiPgExt.Library.Split

/-!
# Segments between an opening and a closing separator

A text with parts that stand between an opening and a closing separator, cut at the leftmost
occurrences. Every text has exactly one such segmentation (`existsUnique_segmentation`), which
`segment` computes. The last part may be unclosed.

What it means to be cut at the leftmost occurrence depends on the separator:
`leads_iff_of_unbordered` says it for one that does not overlap itself, `leads_pair_iff` for two
equal bytes.
-/

set_option autoImplicit false

namespace YetiPgExt.Library

/-- `part` reaches up to the first occurrence of the separator behind it. -/
def Leads (sep : Separator) (part : Bytes) : Prop :=
  memmem sep.bytes (part ++ sep.bytes) = some part.length

instance (sep : Separator) (part : Bytes) : Decidable (Leads sep part) :=
  inferInstanceAs (Decidable (memmem sep.bytes (part ++ sep.bytes) = some part.length))

/-- What stands behind the occurrence does not matter. -/
theorem Leads.memmem_append {sep : Separator} {part : Bytes} (h : Leads sep part) (rest : Bytes) :
    memmem sep.bytes (part ++ (sep.bytes ++ rest)) = some part.length := by
  obtain ⟨-, -, hfirst⟩ := memmem_eq_some_iff.mp h
  rw [memmem_eq_some_iff, List.drop_left]
  refine ⟨List.length_append ▸ Nat.le_add_right _ _, List.prefix_append _ _, ?_⟩
  intro j hj hpre
  apply hfirst j hj
  -- an occurrence in front of the separator ends inside of it
  have hdrop : (part ++ (sep.bytes ++ rest)).drop j = (part ++ sep.bytes).drop j ++ rest := by
    rw [← List.append_assoc, List.drop_append_of_le_length]
    rw [List.length_append]
    omega
  rw [hdrop] at hpre
  apply List.prefix_of_prefix_length_le hpre (List.prefix_append _ _)
  rw [List.length_drop, List.length_append]
  omega

/-- The part in front of the first occurrence. -/
theorem leads_take {sep : Separator} {s : Bytes} {i : Nat} (h : memmem sep.bytes s = some i) :
    Leads sep (s.take i) := by
  obtain ⟨hi, -, hfirst⟩ := memmem_eq_some_iff.mp h
  have hlen : (s.take i).length = i := List.length_take_of_le hi
  have hs := take_append_memmem h
  rw [Leads, memmem_eq_some_iff, List.drop_left, hlen]
  refine ⟨?_, List.prefix_refl _, ?_⟩
  · rw [List.length_append, hlen]
    exact Nat.le_add_right _ _
  · intro j hj hpre
    apply hfirst j hj
    rw [← hs, List.drop_append_of_le_length]
    · exact hpre.trans (List.prefix_append _ _)
    · rw [List.length_append, hlen]
      omega

/-- A part that leads to a separator has none inside. -/
theorem Leads.not_infix {sep : Separator} {part : Bytes} (h : Leads sep part) :
    ¬ sep.bytes <:+: part := by
  rintro ⟨pre, post, hpart⟩
  obtain ⟨-, -, hfirst⟩ := memmem_eq_some_iff.mp h
  have hpos := sep.length_pos
  have hlt : pre.length < part.length := by
    rw [← hpart, List.length_append, List.length_append]
    omega
  apply hfirst pre.length hlt
  rw [← hpart, List.append_assoc, List.append_assoc, List.drop_left]
  exact List.prefix_append _ _

/-- No proper end of the separator is a beginning of it. -/
def Unbordered (sep : Separator) : Prop :=
  ∀ k < sep.bytes.length, 0 < k → sep.bytes.drop k ≠ sep.bytes.take (sep.bytes.length - k)

/-- An unbordered separator is first found where it was put, if it does not occur in front. -/
theorem leads_iff_of_unbordered {sep : Separator} (hsep : Unbordered sep) {part : Bytes} :
    Leads sep part ↔ ¬ sep.bytes <:+: part := by
  refine ⟨Leads.not_infix, fun h => ?_⟩
  rw [Leads, memmem_eq_some_iff, List.drop_left]
  refine ⟨List.length_append ▸ Nat.le_add_right _ _, List.prefix_refl _, ?_⟩
  intro j hj hpre
  rw [List.drop_append_of_le_length (Nat.le_of_lt hj)] at hpre
  by_cases hfit : sep.bytes.length ≤ (part.drop j).length
  · -- the occurrence lies in the part
    have hinside := List.prefix_of_prefix_length_le hpre (List.prefix_append _ _) hfit
    exact h (hinside.isInfix.trans (List.drop_suffix j part).isInfix)
  · -- it begins with an end of the part and goes on with a beginning of the separator
    have hlt : (part.drop j).length < sep.bytes.length := not_le.mp hfit
    have hpos : 0 < (part.drop j).length := by
      rw [List.length_drop]
      omega
    obtain ⟨rest, hrest⟩ :=
      List.prefix_of_prefix_length_le (List.prefix_append _ _) hpre (Nat.le_of_lt hlt)
    have hdrop : sep.bytes.drop (part.drop j).length = rest := by
      rw [← hrest, List.drop_left]
    have hbegin : rest <+: sep.bytes := by
      rw [← List.prefix_append_right_inj (part.drop j), hrest]
      exact hpre
    have hlen : rest.length = sep.bytes.length - (part.drop j).length := by
      rw [← hdrop, List.length_drop]
    apply hsep _ hlt hpos
    rw [hdrop, ← hlen]
    exact List.prefix_iff_eq_take.mp hbegin

/-- For a separator of two equal bytes: it does not occur in the part, and the part does not end in
its byte. -/
theorem leads_pair_iff {sep : Separator} {c : UInt8} (hsep : sep.bytes = [c, c]) {part : Bytes} :
    Leads sep part ↔ ¬ [c, c] <:+: part ∧ ¬ [c] <:+ part := by
  constructor
  · intro h
    constructor
    · rw [← hsep]
      exact h.not_infix
    · rintro ⟨pre, hpart⟩
      obtain ⟨-, -, hfirst⟩ := memmem_eq_some_iff.mp h
      have hlt : pre.length < part.length := by
        rw [← hpart, List.length_append, List.length_singleton]
        exact Nat.lt_succ_self _
      apply hfirst pre.length hlt
      rw [← hpart, hsep, List.append_assoc, List.drop_left]
      exact ⟨[c], rfl⟩
  · rintro ⟨hinside, hsuffix⟩
    rw [Leads, memmem_eq_some_iff, List.drop_left]
    refine ⟨List.length_append ▸ Nat.le_add_right _ _, List.prefix_refl _, ?_⟩
    intro j hj hpre
    have hcons : part.drop j = part[j] :: part.drop (j + 1) := List.drop_eq_getElem_cons hj
    rw [List.drop_append_of_le_length (Nat.le_of_lt hj), hcons, hsep] at hpre
    obtain ⟨rest, hrest⟩ := hpre
    obtain ⟨hc, hrest⟩ := List.cons_eq_cons.mp hrest
    -- the second byte of the occurrence is in the part too, or the part ends with the first
    cases hnext : part.drop (j + 1) with
    | nil =>
      apply hsuffix
      rw [hnext, ← hc] at hcons
      exact ⟨part.take j, hcons ▸ List.take_append_drop j part⟩
    | cons d tail =>
      rw [hnext] at hrest hcons
      obtain ⟨hd, -⟩ := List.cons_eq_cons.mp hrest
      rw [← hc, ← hd] at hcons
      apply hinside
      exact ⟨part.take j, tail, by
        rw [List.append_assoc, List.cons_append, List.cons_append, List.nil_append, ← hcons,
          List.take_append_drop]⟩

/-! ## Segmentations -/

/-- The parts of a text: the closed ones, each with the literal part in front of it, the literal
part behind them, and what is behind an opening separator that is not closed. -/
structure Segmentation where
  closed : List (Bytes × Bytes)
  last : Bytes
  unclosed : Option Bytes
  deriving DecidableEq

namespace Segmentation

/-- The text with the given parts. -/
def text (opener closer : Separator) (S : Segmentation) : Bytes :=
  S.closed.flatMap (fun p => p.1 ++ (opener.bytes ++ (p.2 ++ closer.bytes))) ++
    (S.last ++ (S.unclosed.map (fun u => opener.bytes ++ u)).getD [])

/-- The text with the closed parts replaced, and an opening separator that is not closed dropped. -/
def render (value : Bytes → Bytes) (S : Segmentation) : Bytes :=
  S.closed.flatMap (fun p => p.1 ++ value p.2) ++ (S.last ++ S.unclosed.getD [])

/-- All parts reach up to the first occurrence of the separator behind them. -/
structure Leftmost (opener closer : Separator) (S : Segmentation) : Prop where
  literal : ∀ p ∈ S.closed, Leads opener p.1
  name : ∀ p ∈ S.closed, Leads closer p.2
  last : ¬ opener.bytes <:+: S.last
  unclosed : ∀ u, S.unclosed = some u → Leads opener S.last ∧ ¬ closer.bytes <:+: u

/-- One more closed part in front. -/
def cons (literal name : Bytes) (S : Segmentation) : Segmentation :=
  { S with closed := (literal, name) :: S.closed }

theorem text_cons (opener closer : Separator) (literal name : Bytes) (S : Segmentation) :
    (cons literal name S).text opener closer =
      literal ++ (opener.bytes ++ (name ++ (closer.bytes ++ S.text opener closer))) := by
  simp [text, cons]

theorem render_cons (value : Bytes → Bytes) (literal name : Bytes) (S : Segmentation) :
    (cons literal name S).render value = literal ++ (value name ++ S.render value) := by
  simp [render, cons]

end Segmentation

section Segment

variable (opener closer : Separator)

/-- Cut a text at the leftmost separators. -/
def segment (t : Bytes) : Segmentation :=
  match _h : memmem opener.bytes t with
  | none => ⟨[], t, none⟩
  | some i =>
    match _h' : memmem closer.bytes (t.drop (i + opener.bytes.length)) with
    | none => ⟨[], t.take i, some (t.drop (i + opener.bytes.length))⟩
    | some j =>
      .cons (t.take i) ((t.drop (i + opener.bytes.length)).take j)
        (segment ((t.drop (i + opener.bytes.length)).drop (j + closer.bytes.length)))
termination_by t.length
decreasing_by
  have hle := memmem_add_length_le _h
  have hpos := opener.length_pos
  rw [List.length_drop, List.length_drop]
  omega

variable {opener closer} {t : Bytes}

theorem segment_of_none (h : memmem opener.bytes t = none) :
    segment opener closer t = ⟨[], t, none⟩ := by
  rw [segment]
  split
  · rfl
  · rename_i i hi
    rw [h] at hi
    cases hi

theorem segment_of_unclosed {i : Nat} (h : memmem opener.bytes t = some i)
    (h' : memmem closer.bytes (t.drop (i + opener.bytes.length)) = none) :
    segment opener closer t = ⟨[], t.take i, some (t.drop (i + opener.bytes.length))⟩ := by
  rw [segment]
  split
  · rename_i hi
    rw [h] at hi
    cases hi
  · rename_i k hk
    obtain rfl : i = k := Option.some.inj (h.symm.trans hk)
    split
    · rfl
    · rename_i j hj
      rw [h'] at hj
      cases hj

theorem segment_of_closed {i j : Nat} (h : memmem opener.bytes t = some i)
    (h' : memmem closer.bytes (t.drop (i + opener.bytes.length)) = some j) :
    segment opener closer t =
      .cons (t.take i) ((t.drop (i + opener.bytes.length)).take j)
        (segment opener closer
          ((t.drop (i + opener.bytes.length)).drop (j + closer.bytes.length))) := by
  rw [segment]
  split
  · rename_i hi
    rw [h] at hi
    cases hi
  · rename_i k hk
    obtain rfl : i = k := Option.some.inj (h.symm.trans hk)
    split
    · rename_i hj
      rw [h'] at hj
      cases hj
    · rename_i l hl
      obtain rfl : j = l := Option.some.inj (h'.symm.trans hl)
      rfl

variable (opener closer) in
/-- The parts make up the text, and they are cut at the leftmost separators. -/
theorem segment_spec (t : Bytes) :
    (segment opener closer t).text opener closer = t ∧
      (segment opener closer t).Leftmost opener closer := by
  rcases h : memmem opener.bytes t with _ | i
  · rw [segment_of_none h]
    constructor
    · simp [Segmentation.text]
    · constructor
      · intro p hp
        cases hp
      · intro p hp
        cases hp
      · exact memmem_eq_none_iff.mp h
      · intro u hu
        cases hu
  · have hlead := leads_take h
    have ht := take_append_memmem h
    rw [List.append_assoc] at ht
    rcases h' : memmem closer.bytes (t.drop (i + opener.bytes.length)) with _ | j
    · rw [segment_of_unclosed h h']
      constructor
      · simpa [Segmentation.text] using ht
      · constructor
        · intro p hp
          cases hp
        · intro p hp
          cases hp
        · exact hlead.not_infix
        · intro u hu
          cases hu
          exact ⟨hlead, memmem_eq_none_iff.mp h'⟩
    · have ht' := take_append_memmem h'
      rw [List.append_assoc] at ht'
      obtain ⟨htext, hleft⟩ := segment_spec
        ((t.drop (i + opener.bytes.length)).drop (j + closer.bytes.length))
      rw [segment_of_closed h h']
      constructor
      · rw [Segmentation.text_cons, htext, ht', ht]
      · constructor
        · intro p hp
          rcases List.mem_cons.mp hp with rfl | hp
          · exact hlead
          · exact hleft.literal p hp
        · intro p hp
          rcases List.mem_cons.mp hp with rfl | hp
          · exact leads_take h'
          · exact hleft.name p hp
        · exact hleft.last
        · exact hleft.unclosed
termination_by t.length
decreasing_by
  have hle := memmem_add_length_le h
  have hpos := opener.length_pos
  rw [List.length_drop, List.length_drop]
  omega

/-- Cutting gives the parts back that a text was made of. -/
theorem Segmentation.Leftmost.segment_text {S : Segmentation} (h : S.Leftmost opener closer) :
    segment opener closer (S.text opener closer) = S := by
  obtain ⟨closed, last, unclosed⟩ := S
  induction closed with
  | nil =>
    cases unclosed with
    | none =>
      have hnone : memmem opener.bytes last = none := memmem_eq_none_iff.mpr h.last
      have htext : Segmentation.text opener closer ⟨[], last, none⟩ = last := by
        simp [Segmentation.text]
      rw [htext, segment_of_none hnone]
    | some u =>
      obtain ⟨hlead, hu⟩ := h.unclosed u rfl
      have htext : Segmentation.text opener closer ⟨[], last, some u⟩ =
          last ++ (opener.bytes ++ u) := by
        simp [Segmentation.text]
      have hdrop : (last ++ (opener.bytes ++ u)).drop (last.length + opener.bytes.length) = u := by
        rw [← List.append_assoc, ← List.length_append, List.drop_left]
      have hclose : memmem closer.bytes
          ((last ++ (opener.bytes ++ u)).drop (last.length + opener.bytes.length)) = none := by
        rw [hdrop]
        exact memmem_eq_none_iff.mpr hu
      rw [htext, segment_of_unclosed (hlead.memmem_append u) hclose, hdrop, List.take_left]
  | cons p closed ih =>
    obtain ⟨literal, name⟩ := p
    have hrest : Segmentation.Leftmost opener closer ⟨closed, last, unclosed⟩ := by
      constructor
      · intro p hp
        exact h.literal p (List.mem_cons_of_mem _ hp)
      · intro p hp
        exact h.name p (List.mem_cons_of_mem _ hp)
      · exact h.last
      · exact h.unclosed
    have hlit : Leads opener literal := h.literal _ List.mem_cons_self
    have hname : Leads closer name := h.name _ List.mem_cons_self
    change segment opener closer
      ((Segmentation.cons literal name ⟨closed, last, unclosed⟩).text opener closer) = _
    rw [Segmentation.text_cons]
    generalize hr : Segmentation.text opener closer ⟨closed, last, unclosed⟩ = rest
    have hdrop : (literal ++ (opener.bytes ++ (name ++ (closer.bytes ++ rest)))).drop
        (literal.length + opener.bytes.length) = name ++ (closer.bytes ++ rest) := by
      rw [← List.append_assoc, ← List.length_append, List.drop_left]
    have hclose : memmem closer.bytes
        ((literal ++ (opener.bytes ++ (name ++ (closer.bytes ++ rest)))).drop
          (literal.length + opener.bytes.length)) = some name.length := by
      rw [hdrop]
      exact hname.memmem_append rest
    have hdrop' : (name ++ (closer.bytes ++ rest)).drop (name.length + closer.bytes.length) =
        rest := by
      rw [← List.append_assoc, ← List.length_append, List.drop_left]
    rw [segment_of_closed (hlit.memmem_append _) hclose, hdrop, hdrop', List.take_left,
      List.take_left, ← hr, ih hrest]
    rfl

/-- Every text has exactly one segmentation. -/
theorem existsUnique_segmentation (opener closer : Separator) (t : Bytes) :
    ∃! S : Segmentation, S.text opener closer = t ∧ S.Leftmost opener closer := by
  refine ⟨segment opener closer t, segment_spec opener closer t, ?_⟩
  rintro S ⟨htext, hleft⟩
  rw [← htext, hleft.segment_text]

end Segment

end YetiPgExt.Library
