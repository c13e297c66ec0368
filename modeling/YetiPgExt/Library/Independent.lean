import YetiPgExt.Library.Runs

/-!
# Systems of independent entries

The state of a system is a table, and each of its steps reads and writes one entry, or none. Such a
system is the product of its entries: a log is a run exactly if, for each key, the labels of this
key are a run, and the labels without a key are possible at all (`Local.runs_iff`).
-/

set_option autoImplicit false

namespace YetiPgExt.Library

universe u v w

variable {κ : Type u} {ν : Type v} {ℓ : Type w} [DecidableEq κ]

/-- A step changes the entry of its key only, and depends on this entry only. -/
structure Local (step : (κ → ν) → ℓ → (κ → ν) → Prop) (key : ℓ → Option κ) : Prop where
  frame : ∀ {t t' : κ → ν} {l : ℓ} {k : κ}, step t l t' → key l ≠ some k → t' k = t k
  entry : ∀ {s t t' : κ → ν} {l : ℓ} {k : κ}, step t l t' → key l = some k → s k = t k →
    ∃ s', step s l s' ∧ s' k = t' k
  keyless : ∀ {s t t' : κ → ν} {l : ℓ}, step t l t' → key l = none → ∃ s', step s l s'

/-- The labels of one key. -/
def onKey (key : ℓ → Option κ) (k : κ) (ls : List ℓ) : List ℓ :=
  ls.filter (fun l => decide (key l = some k))

theorem onKey_cons_of_eq {key : ℓ → Option κ} {k : κ} {l : ℓ} (h : key l = some k) (ls : List ℓ) :
    onKey key k (l :: ls) = l :: onKey key k ls :=
  List.filter_cons_of_pos (decide_eq_true h)

theorem onKey_cons_of_ne {key : ℓ → Option κ} {k : κ} {l : ℓ} (h : key l ≠ some k) (ls : List ℓ) :
    onKey key k (l :: ls) = onKey key k ls :=
  List.filter_cons_of_neg (by rw [decide_eq_true_iff]; exact h)

theorem onKey_onKey (key : ℓ → Option κ) (k : κ) (ls : List ℓ) :
    onKey key k (onKey key k ls) = onKey key k ls := by
  rw [onKey, onKey, List.filter_filter]
  congr 1
  funext l
  exact Bool.and_self _

namespace Local

variable {step : (κ → ν) → ℓ → (κ → ν) → Prop} {key : ℓ → Option κ}
variable {t t' : κ → ν} {ls : List ℓ}

omit [DecidableEq κ] in
/-- A step without a key changes nothing. -/
theorem eq_of_keyless (h : Local step key) {l : ℓ} (hstep : step t l t') (hl : key l = none) :
    t' = t := by
  funext k
  have hne : key l ≠ some k := by
    rw [hl]
    exact Option.some_ne_none k ∘ Eq.symm
  exact h.frame hstep hne

/-- The labels of one key are a run on every table that has the same entry. -/
theorem project (h : Local step key) (hrun : Runs step t ls t') {s : κ → ν} {k : κ}
    (hs : s k = t k) : ∃ s', Runs step s (onKey key k ls) s' ∧ s' k = t' k := by
  -- on the steps; the others leave the entry alone
  induction hrun generalizing s with
  | nil t => exact ⟨s, .nil s, hs⟩
  | @cons t t₁ t' l ls hstep _ ih =>
    by_cases hl : key l = some k
    · obtain ⟨s₁, hstep', hs₁⟩ := h.entry hstep hl hs
      obtain ⟨s', hrun', hs'⟩ := ih hs₁
      rw [onKey_cons_of_eq hl]
      exact ⟨s', .cons hstep' hrun', hs'⟩
    · rw [onKey_cons_of_ne hl]
      exact ih (hs.trans (h.frame hstep hl).symm)

/-- Runs of the single keys make a run. -/
theorem combine (h : Local step key) (hkeyless : ∀ l ∈ ls, key l = none → ∃ s s', step s l s')
    (hkeys : ∀ k, ∃ s, Runs step t (onKey key k ls) s ∧ s k = t' k) : Runs step t ls t' := by
  induction ls generalizing t with
  | nil =>
    have heq : t = t' := by
      funext k
      obtain ⟨s, hrun, hs⟩ := hkeys k
      cases hrun
      exact hs
    rw [heq]
    exact .nil t'
  | cons l ls ih =>
    have hrest : ∀ l' ∈ ls, key l' = none → ∃ s s', step s l' s' :=
      fun l' hl' => hkeyless l' (List.mem_cons_of_mem _ hl')
    cases hl : key l with
    | none =>
      obtain ⟨s, s', hstep⟩ := hkeyless l List.mem_cons_self hl
      obtain ⟨t₁, hfirst⟩ := h.keyless (s := t) hstep hl
      rw [h.eq_of_keyless hfirst hl] at hfirst
      refine .cons hfirst (ih hrest ?_)
      intro k
      have hne : key l ≠ some k := by
        rw [hl]
        exact Option.some_ne_none k ∘ Eq.symm
      obtain ⟨s, hrun, hs⟩ := hkeys k
      rw [onKey_cons_of_ne hne] at hrun
      exact ⟨s, hrun, hs⟩
    | some k =>
      -- the run of the label's own key begins with it
      obtain ⟨s, hrun, hs⟩ := hkeys k
      rw [onKey_cons_of_eq hl] at hrun
      cases hrun with
      | @cons _ t₁ _ _ _ hfirst hown =>
        refine .cons hfirst (ih hrest ?_)
        intro j
        by_cases hj : j = k
        · subst hj
          exact ⟨s, hown, hs⟩
        · have hne : key l ≠ some j := by
            rw [hl, ne_eq, Option.some.injEq]
            exact Ne.symm hj
          obtain ⟨s', hrun', hs'⟩ := hkeys j
          rw [onKey_cons_of_ne hne] at hrun'
          obtain ⟨s'', hrun'', hs''⟩ := h.project hrun' (h.frame hfirst hne)
          rw [onKey_onKey] at hrun''
          exact ⟨s'', hrun'', hs''.trans hs'⟩

/-- The system is the product of its entries. -/
theorem runs_iff (h : Local step key) : Runs step t ls t' ↔
    (∀ l ∈ ls, key l = none → ∃ s s', step s l s') ∧
      ∀ k, ∃ s, Runs step t (onKey key k ls) s ∧ s k = t' k := by
  constructor
  · intro hrun
    refine ⟨?_, fun k => h.project hrun rfl⟩
    intro l hl _
    obtain ⟨pre, post, rfl⟩ := List.append_of_mem hl
    obtain ⟨s, -, hrest⟩ := hrun.split
    cases hrest with
    | cons hstep _ => exact ⟨_, _, hstep⟩
  · rintro ⟨hkeyless, hkeys⟩
    exact h.combine hkeyless hkeys

end Local

end YetiPgExt.Library
