import YetiPgExt.Library.Segments
import YetiPgExt.Library.Substitution
import Mathlib.Data.List.Chain

/-!
# Cutting words with variables

A word with variables is cut at two equal letters that stand side by side, from the left. When every
variable is replaced, the pieces of the word that results are the pieces of the word with variables
exactly if no separator has come up in them (`pieces_substitute_iff`). None does if no variable
becomes empty or has the letter in it (`undivided_of_safe`).
-/

set_option autoImplicit false

namespace YetiPgExt.Library

universe u v

/-! ## Parts -/

/-- The last part of a list has one property, and those in front of it another one. -/
inductive Parts {γ : Type u} (inner last : γ → Prop) : List γ → Prop where
  | last {p : γ} : last p → Parts inner last [p]
  | cons {p q : γ} {ps : List γ} : inner p → Parts inner last (q :: ps) →
      Parts inner last (p :: q :: ps)

theorem Parts.map {γ : Type u} {δ : Type v} {inner last : γ → Prop} {inner' last' : δ → Prop}
    {f : γ → δ} {ps : List γ} (h : Parts inner last ps) (hinner : ∀ p ∈ ps, inner p → inner' (f p))
    (hlast : ∀ p ∈ ps, last p → last' (f p)) : Parts inner' last' (ps.map f) := by
  induction h with
  | last hp => exact .last (hlast _ (List.mem_singleton_self _) hp)
  | cons hp _ ih =>
    refine .cons (hinner _ (List.mem_cons_self ..) hp) (ih ?_ ?_)
    · intro p hmem
      exact hinner p (List.mem_cons_of_mem _ hmem)
    · intro p hmem
      exact hlast p (List.mem_cons_of_mem _ hmem)

/-- A separator is found nowhere but between the parts. -/
abbrev Undivided (sep : Separator) : List Bytes → Prop :=
  Parts (Leads sep) fun p => ¬ sep.bytes <:+: p

/-- The parts are the pieces of what they make up. -/
theorem pieces_intercalate_iff {sep : Separator} {ps : List Bytes} (hne : ps ≠ []) :
    pieces sep (sep.bytes.intercalate ps) = ps ↔ Undivided sep ps := by
  induction ps with
  | nil => exact absurd rfl hne
  | cons p ps ih =>
    cases ps with
    | nil =>
      rw [List.intercalate_singleton]
      constructor
      · intro h
        rcases hfind : memmem sep.bytes p with _ | i
        · exact .last (memmem_eq_none_iff.mp hfind)
        · -- a second piece
          rw [pieces_of_some hfind] at h
          exact absurd (List.cons_eq_cons.mp h).2 (pieces_ne_nil _ _)
      · rintro (hp | _)
        exact pieces_of_none (memmem_eq_none_iff.mpr hp)
    | cons q ps =>
      have ih := ih (List.cons_ne_nil q ps)
      rw [List.intercalate_cons_of_ne_nil (List.cons_ne_nil q ps)]
      generalize sep.bytes.intercalate (q :: ps) = rest at ih ⊢
      have htake : (p ++ sep.bytes ++ rest).take p.length = p := by
        rw [List.append_assoc, List.take_left]
      have hdrop : (p ++ sep.bytes ++ rest).drop (p.length + sep.bytes.length) = rest := by
        rw [← List.length_append, List.drop_left]
      constructor
      · intro h
        rcases hfind : memmem sep.bytes (p ++ sep.bytes ++ rest) with _ | i
        · rw [pieces_of_none hfind] at h
          exact absurd (List.cons_eq_cons.mp h).2.symm (List.cons_ne_nil q ps)
        · have hlead := leads_take hfind
          have hle := (memmem_eq_some_iff.mp hfind).1
          rw [pieces_of_some hfind] at h
          obtain ⟨hp, hps⟩ := List.cons_eq_cons.mp h
          -- the first piece ends where the first part ends
          have hi : i = p.length := by
            rw [← hp, List.length_take, Nat.min_eq_left hle]
          rw [hi, hdrop] at hps
          rw [hp] at hlead
          exact .cons hlead (ih.mp hps)
      · rintro (_ | ⟨hp, hps⟩)
        have hfind := hp.memmem_append rest
        rw [← List.append_assoc] at hfind
        rw [pieces_of_some hfind, htake, hdrop, ih.mpr hps]

/-! ## Words -/

section Words

variable {α : Type u} {β : Type v} {c : α} {σ : β → List α}

/-- What a word is cut at. -/
def doubled (c : α) : List (α ⊕ β) := [.inl c, .inl c]

/-- Not both are the letter. -/
def NotBoth (c : α) (x y : α ⊕ β) : Prop := ¬ (x = .inl c ∧ y = .inl c)

/-- No two letters stand side by side, also with one behind the word. -/
abbrev CutWords (c : α) : List (List (α ⊕ β)) → Prop :=
  Parts (fun p => (p ++ [Sum.inl c]).IsChain (NotBoth c)) fun p => p.IsChain (NotBoth c)

theorem intercalate_cons_cons (sep p : List (α ⊕ β)) (x : α ⊕ β) (ps : List (List (α ⊕ β))) :
    sep.intercalate ((x :: p) :: ps) = x :: sep.intercalate (p :: ps) := by
  cases ps with
  | nil => rw [List.intercalate_singleton, List.intercalate_singleton]
  | cons q ps =>
    rw [List.intercalate_cons_of_ne_nil (List.cons_ne_nil q ps),
      List.intercalate_cons_of_ne_nil (List.cons_ne_nil q ps), List.cons_append, List.cons_append]

theorem mem_intercalate {sep p : List (α ⊕ β)} {ps : List (List (α ⊕ β))} {x : α ⊕ β}
    (hp : p ∈ ps) (hx : x ∈ p) : x ∈ sep.intercalate ps := by
  induction ps with
  | nil => cases hp
  | cons q ps ih =>
    by_cases hps : ps = []
    · subst hps
      rw [List.intercalate_singleton, ← List.mem_singleton.mp hp]
      exact hx
    · rw [List.intercalate_cons_of_ne_nil hps, List.mem_append, List.mem_append]
      rcases List.mem_cons.mp hp with rfl | hp
      · exact .inl (.inl hx)
      · exact .inr (ih hp)

/-! ## Variables that are put in -/

/-- No variable becomes empty, or has the letter in it. -/
def Safe (c : α) (σ : β → List α) (w : List (α ⊕ β)) : Prop :=
  ∀ k, .inr k ∈ w → σ k ≠ [] ∧ c ∉ σ k

theorem substitute_eq_nil_iff {w : List (α ⊕ β)} (h : Safe c σ w) :
    substitute σ w = [] ↔ w = [] := by
  cases w with
  | nil => exact iff_of_true rfl rfl
  | cons x w =>
    refine iff_of_false ?_ (List.cons_ne_nil x w)
    rw [substitute_cons, List.append_eq_nil_iff]
    rintro ⟨hx, -⟩
    cases x with
    | inl a => exact List.cons_ne_nil a [] hx
    | inr k => exact (h k (List.mem_cons_self ..)).1 hx

theorem substitute_intercalate (ps : List (List (α ⊕ β))) :
    substitute σ ((doubled c).intercalate ps) = [c, c].intercalate (ps.map (substitute σ)) := by
  induction ps with
  | nil => rfl
  | cons p ps ih =>
    cases ps with
    | nil => rw [List.intercalate_singleton, List.map_singleton, List.intercalate_singleton]
    | cons q ps =>
      have hne : (q :: ps).map (substitute σ) ≠ [] := by
        rw [List.map_cons]
        exact List.cons_ne_nil _ _
      rw [List.intercalate_cons_of_ne_nil (List.cons_ne_nil q ps), substitute_append,
        substitute_append, ih]
      exact (List.intercalate_cons_of_ne_nil hne).symm

theorem isChain_of_not_mem {as : List α} (h : c ∉ as) :
    as.IsChain fun a b => ¬ (a = c ∧ b = c) := by
  induction as with
  | nil => exact .nil
  | cons a as ih =>
    refine List.isChain_cons.mpr ⟨?_, ih fun hmem => h (List.mem_cons_of_mem a hmem)⟩
    rintro b - ⟨rfl, -⟩
    exact h (List.mem_cons_self ..)

/-- The letter comes first only where it was written first. -/
theorem eq_inl_of_head?_substitute {y : α ⊕ β} {w : List (α ⊕ β)} (h : Safe c σ (y :: w))
    (hhead : (substitute σ (y :: w)).head? = some c) : y = .inl c := by
  rw [substitute_cons] at hhead
  cases y with
  | inl b => exact congrArg Sum.inl (Option.some.inj hhead)
  | inr k =>
    obtain ⟨hne, hnot⟩ := h k (List.mem_cons_self ..)
    obtain ⟨b, bs, hk⟩ := List.exists_cons_of_ne_nil hne
    rw [show image σ (.inr k) = b :: bs from hk] at hhead
    obtain rfl : b = c := Option.some.inj hhead
    rw [hk] at hnot
    exact absurd (List.mem_cons_self ..) hnot

/-- No two letters come to stand side by side. -/
theorem isChain_substitute {w : List (α ⊕ β)} (h : Safe c σ w) (hw : w.IsChain (NotBoth c)) :
    (substitute σ w).IsChain fun a b => ¬ (a = c ∧ b = c) := by
  induction w with
  | nil => exact .nil
  | cons x w ih =>
    have hrest : Safe c σ w := fun k hk => h k (List.mem_cons_of_mem x hk)
    obtain ⟨hfirst, hchain⟩ := List.isChain_cons.mp hw
    rw [substitute_cons, List.isChain_append]
    cases x with
    | inr k =>
      have hnot := (h k (List.mem_cons_self ..)).2
      refine ⟨isChain_of_not_mem hnot, ih hrest hchain, ?_⟩
      rintro a ha b - ⟨rfl, -⟩
      exact hnot (List.mem_of_getLast? ha)
    | inl a =>
      refine ⟨.singleton a, ih hrest hchain, ?_⟩
      rintro a' ha b hb ⟨rfl, rfl⟩
      obtain rfl : a = b := Option.some.inj ha
      -- the letter behind it would have to be written there
      cases w with
      | nil => cases hb
      | cons y w => exact hfirst y rfl ⟨rfl, eq_inl_of_head?_substitute hrest hb⟩

theorem not_doubled_occurs {as : List α} (h : as.IsChain fun a b => ¬ (a = c ∧ b = c)) :
    ¬ [c, c] <:+: as := by
  intro hoccurs
  have hpair := List.IsChain.infix h hoccurs
  exact (List.isChain_cons_cons.mp hpair).1 ⟨rfl, rfl⟩

end Words

/-! ## The pieces of a word -/

section Pieces

variable {α : Type u} {β : Type v} [DecidableEq α] [DecidableEq β] {c : α} {σ : β → List α}

/-- Cut a word at two letters `c` side by side, from the left. -/
def wordPieces (c : α) : List (α ⊕ β) → List (List (α ⊕ β))
  | [] => [[]]
  | [x] => [[x]]
  | x :: y :: w =>
    if x = .inl c ∧ y = .inl c then [] :: wordPieces c w
    else (wordPieces c (y :: w)).modifyHead (x :: ·)

variable (c) in
theorem exists_wordPieces_cons (w : List (α ⊕ β)) : ∃ p ps, wordPieces c w = p :: ps := by
  fun_induction wordPieces c w with
  | case1 => exact ⟨_, _, rfl⟩
  | case2 x => exact ⟨_, _, rfl⟩
  | case3 x y w _ _ => exact ⟨_, _, rfl⟩
  | case4 x y w _ ih =>
    obtain ⟨p, ps, h⟩ := ih
    rw [h]
    exact ⟨_, _, rfl⟩

/-- The letters between the pieces give the word back. -/
theorem intercalate_wordPieces (w : List (α ⊕ β)) :
    (doubled c).intercalate (wordPieces c w) = w := by
  fun_induction wordPieces c w with
  | case1 => rfl
  | case2 x => rfl
  | case3 x y w h ih =>
    obtain ⟨rfl, rfl⟩ := h
    obtain ⟨p, ps, hw⟩ := exists_wordPieces_cons c w
    rw [List.intercalate_cons_of_ne_nil (hw ▸ List.cons_ne_nil p ps), ih]
    rfl
  | case4 x y w _ ih =>
    obtain ⟨p, ps, hw⟩ := exists_wordPieces_cons c (y :: w)
    rw [hw] at ih ⊢
    rw [List.modifyHead_cons, intercalate_cons_cons, ih]

/-- The first piece begins as the word does, or is empty in front of two letters. -/
theorem head?_of_wordPieces_cons {y : α ⊕ β} {w p : List (α ⊕ β)} {ps : List (List (α ⊕ β))}
    (h : wordPieces c (y :: w) = p :: ps) : (p ++ [Sum.inl c]).head? = some y := by
  cases w with
  | nil =>
    obtain ⟨rfl, -⟩ := List.cons_eq_cons.mp h
    rfl
  | cons z w =>
    rw [wordPieces] at h
    split at h
    · rename_i hboth
      obtain ⟨rfl, -⟩ := List.cons_eq_cons.mp h
      rw [hboth.1]
      rfl
    · obtain ⟨q, qs, hq⟩ := exists_wordPieces_cons c (z :: w)
      rw [hq, List.modifyHead_cons] at h
      obtain ⟨rfl, -⟩ := List.cons_eq_cons.mp h
      rfl

theorem cutWords_wordPieces (w : List (α ⊕ β)) : CutWords c (wordPieces c w) := by
  fun_induction wordPieces c w with
  | case1 => exact .last .nil
  | case2 x => exact .last (.singleton x)
  | case3 x y w _ ih =>
    obtain ⟨p, ps, hw⟩ := exists_wordPieces_cons c w
    rw [hw] at ih ⊢
    exact .cons (.singleton _) ih
  | case4 x y w hnot ih =>
    obtain ⟨p, ps, hw⟩ := exists_wordPieces_cons c (y :: w)
    have hhead := head?_of_wordPieces_cons hw
    rw [hw] at ih ⊢
    rw [List.modifyHead_cons]
    cases ih with
    | last hp =>
      refine .last (List.isChain_cons.mpr ⟨?_, hp⟩)
      intro z hz
      rw [List.head?_append, Option.mem_def.mp hz] at hhead
      obtain rfl : z = y := Option.some.inj hhead
      exact hnot
    | cons hp hps =>
      refine .cons (List.isChain_cons.mpr ⟨?_, hp⟩) hps
      intro z hz
      obtain rfl : y = z := Option.some.inj (hhead.symm.trans hz)
      exact hnot

theorem Safe.of_mem_wordPieces {w p : List (α ⊕ β)} (h : Safe c σ w) (hp : p ∈ wordPieces c w) :
    Safe c σ p := by
  intro k hk
  apply h k
  rw [← intercalate_wordPieces (c := c) w]
  exact mem_intercalate hp hk

end Pieces

/-! ## The pieces of what a word becomes -/

section Bytes

variable {β : Type v} [DecidableEq β] {sep : Separator} {c : UInt8} {σ : β → Bytes}
  {w : List (UInt8 ⊕ β)}

/-- The pieces are the pieces of the word with variables exactly if the separator does not come up
in them, or between them at another place. -/
theorem pieces_substitute_iff (hsep : sep.bytes = [c, c]) (w : List (UInt8 ⊕ β)) :
    pieces sep (substitute σ w) = (wordPieces c w).map (substitute σ) ↔
      Undivided sep ((wordPieces c w).map (substitute σ)) := by
  have hne : (wordPieces c w).map (substitute σ) ≠ [] := by
    obtain ⟨p, ps, hw⟩ := exists_wordPieces_cons c w
    rw [hw]
    exact List.cons_ne_nil _ _
  have hword : substitute σ w = sep.bytes.intercalate ((wordPieces c w).map (substitute σ)) := by
    rw [hsep, ← substitute_intercalate, intercalate_wordPieces]
  rw [hword]
  exact pieces_intercalate_iff hne

/-- It does not where the variables are safe. -/
theorem undivided_of_safe (hsep : sep.bytes = [c, c]) (h : Safe c σ w) :
    Undivided sep ((wordPieces c w).map (substitute σ)) := by
  refine (cutWords_wordPieces w).map ?_ ?_
  · intro p hp hchain
    have hsafe : Safe c σ (p ++ [.inl c]) := by
      intro k hk
      rcases List.mem_append.mp hk with hk | hk
      · exact h.of_mem_wordPieces hp k hk
      · cases List.mem_singleton.mp hk
    have hpiece := not_doubled_occurs (isChain_substitute hsafe hchain)
    rw [substitute_append] at hpiece
    rw [leads_pair_iff hsep]
    constructor
    · intro hoccurs
      exact hpiece (hoccurs.trans (List.prefix_append _ _).isInfix)
    · rintro ⟨as, has⟩
      apply hpiece
      exact ⟨as, [], by rw [← has, List.append_nil, List.append_assoc]; rfl⟩
  · intro p hp hchain
    rw [hsep]
    exact not_doubled_occurs (isChain_substitute (h.of_mem_wordPieces hp) hchain)

end Bytes

end YetiPgExt.Library
