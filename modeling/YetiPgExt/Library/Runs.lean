import Mathlib.Tactic

/-!
# Labelled runs of a transition system

A transition system is a relation `step : σ → ℓ → σ → Prop`; a run is a finite sequence of steps
with the list of its labels. The rules are the ones a safety proof uses: a run can be stopped
anywhere (`Runs.split`), the steps of a run may carry fewer facts than it was built from
(`Runs.mono`) or also what holds of its labels (`Runs.and_label`), and a simulation that observes
some of the labels turns a run of the system into a run of its specification (`Runs.simulation`).
-/

set_option autoImplicit false

namespace YetiPgExt.Library

universe u v w x

variable {σ : Type u} {ℓ : Type v}

/-- `Runs step s ls t`: from `s`, steps labelled `ls` lead to `t`. -/
inductive Runs (step : σ → ℓ → σ → Prop) : σ → List ℓ → σ → Prop
  | nil (s : σ) : Runs step s [] s
  | cons {s t u : σ} {l : ℓ} {ls : List ℓ} : step s l t → Runs step t ls u →
      Runs step s (l :: ls) u

namespace Runs

variable {step : σ → ℓ → σ → Prop}

theorem single {s t : σ} {l : ℓ} (h : step s l t) : Runs step s [l] t :=
  .cons h (.nil t)

/-- A run can be continued. -/
theorem append {s t u : σ} {ls ls' : List ℓ} (h : Runs step s ls t) (h' : Runs step t ls' u) :
    Runs step s (ls ++ ls') u := by
  induction h with
  | nil => exact h'
  | cons hst _ ih => exact .cons hst (ih h')

/-- A run can be stopped anywhere. -/
theorem split {s u : σ} {pre post : List ℓ} (h : Runs step s (pre ++ post) u) :
    ∃ t, Runs step s pre t ∧ Runs step t post u := by
  induction pre generalizing s with
  | nil => exact ⟨s, .nil s, h⟩
  | cons l pre ih =>
    cases h with
    | cons hst hrest =>
      obtain ⟨t, hpre, hpost⟩ := ih hrest
      exact ⟨t, .cons hst hpre, hpost⟩

/-- The labels in the middle of a run are those of a run. -/
theorem of_infix {s u : σ} {ls window : List ℓ} (h : Runs step s ls u) (hwindow : window <:+: ls) :
    ∃ s' u', Runs step s' window u' := by
  obtain ⟨pre, post, rfl⟩ := hwindow
  obtain ⟨u', hrun, -⟩ := h.split
  obtain ⟨s', -, hmiddle⟩ := hrun.split
  exact ⟨s', u', hmiddle⟩

/-- A weaker step relation has every run of a stronger one. -/
theorem mono {step' : σ → ℓ → σ → Prop} (hstep : ∀ s l t, step s l t → step' s l t) {s t : σ}
    {ls : List ℓ} (h : Runs step s ls t) : Runs step' s ls t := by
  induction h with
  | nil => exact .nil _
  | cons hst _ ih => exact .cons (hstep _ _ _ hst) ih

/-- What holds of every label of a run holds at each of its steps. -/
theorem and_label {P : ℓ → Prop} {s t : σ} {ls : List ℓ} (h : Runs step s ls t)
    (hP : ∀ l ∈ ls, P l) : Runs (fun s l t => step s l t ∧ P l) s ls t := by
  induction h with
  | nil => exact .nil _
  | cons hst _ ih =>
    exact .cons ⟨hst, hP _ List.mem_cons_self⟩ (ih fun l hl => hP l (List.mem_cons_of_mem _ hl))

/-- A simulation in which a label is either observed by the specification or leaves its state
alone carries runs to runs of the observed labels. -/
theorem simulation {τ : Type w} {m : Type x} {spec : τ → m → τ → Prop} {obs : ℓ → Option m}
    {R : σ → τ → Prop}
    (hsilent : ∀ s l s' t, R s t → step s l s' → obs l = none → R s' t)
    (hvisible : ∀ s l s' t e, R s t → step s l s' → obs l = some e →
      ∃ t', spec t e t' ∧ R s' t')
    {s s' : σ} {ls : List ℓ} (h : Runs step s ls s') {t : τ} (hR : R s t) :
    ∃ t', Runs spec t (ls.filterMap obs) t' ∧ R s' t' := by
  induction h generalizing t with
  | nil => exact ⟨t, .nil t, hR⟩
  | @cons s s₁ u l ls hst _ ih =>
    cases hobs : obs l with
    | none =>
      obtain ⟨t', hrun, hR'⟩ := ih (hsilent _ _ _ _ hR hst hobs)
      exact ⟨t', by simpa [hobs] using hrun, hR'⟩
    | some e =>
      obtain ⟨t₁, hspec, hR₁⟩ := hvisible _ _ _ _ _ hR hst hobs
      obtain ⟨t', hrun, hR'⟩ := ih hR₁
      exact ⟨t', by simpa [hobs] using Runs.cons hspec hrun, hR'⟩

end Runs

end YetiPgExt.Library
