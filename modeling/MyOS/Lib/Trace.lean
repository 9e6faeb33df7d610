import Mathlib.Logic.Basic

/-!
# Runs of labelled steps

A run of a system is a list of steps, each with a label that says what was asked for and what
came back.  What every step keeps holds at the end of a run, and if an abstract system can follow
every step with the same label, it can follow every run.  Where some steps are bad, a run is good
up to the first of them.
-/

universe u v w

variable {σ : Type u} {τ : Type v} {ℓ : Type w}

/-- The steps with the labels of a list, one after the other. -/
inductive Trace (step : σ → ℓ → σ → Prop) : σ → List ℓ → σ → Prop
  | nil (s : σ) : Trace step s [] s
  | cons {s t u : σ} {x : ℓ} {log : List ℓ} (hstep : step s x t) (hrest : Trace step t log u) :
      Trace step s (x :: log) u

namespace Trace

variable {step : σ → ℓ → σ → Prop} {step' : τ → ℓ → τ → Prop} {s t : σ} {log : List ℓ}

theorem invariant {P : σ → Prop} (hkeep : ∀ s x t, P s → step s x t → P t) (hs : P s)
    (hrun : Trace step s log t) : P t := by
  induction hrun with
  | nil => exact hs
  | cons hstep _ ih => exact ih (hkeep _ _ _ hs hstep)

/-- An abstraction that turns each step from a state with `P` into an abstract step turns runs
into abstract runs. -/
theorem map {P : σ → Prop} (abs : σ → τ)
    (hstep : ∀ s x t, P s → step s x t → P t ∧ step' (abs s) x (abs t)) (hs : P s)
    (hrun : Trace step s log t) : Trace step' (abs s) log (abs t) := by
  induction hrun with
  | nil => exact .nil _
  | cons hfirst _ ih =>
      obtain ⟨ht, habs⟩ := hstep _ _ _ hs hfirst
      exact .cons habs (ih ht)

/-- A run has no bad step, or it has a first one. -/
theorem until_bad (bad : σ → ℓ → Prop) (hrun : Trace step s log t) :
    Trace (fun s x t ↦ step s x t ∧ ¬bad s x) s log t ∨
      ∃ before x after u u', log = before ++ x :: after ∧
        Trace (fun s x t ↦ step s x t ∧ ¬bad s x) s before u ∧ step u x u' ∧ bad u x := by
  induction hrun with
  | nil s => exact Or.inl (.nil s)
  | @cons s t u x log hfirst _ ih =>
      by_cases hbad : bad s x
      · exact Or.inr ⟨[], x, log, s, t, rfl, .nil s, hfirst, hbad⟩
      · rcases ih with hgood | ⟨before, y, after, v, v', hlog, hgood, hstep, hy⟩
        · exact Or.inl (.cons ⟨hfirst, hbad⟩ hgood)
        · exact Or.inr ⟨x :: before, y, after, v, v', by rw [hlog, List.cons_append],
            .cons ⟨hfirst, hbad⟩ hgood, hstep, hy⟩

end Trace
