import Mathlib.Logic.Relation

/-!
# Runs to an end

A step relation need not be a function. Where an invariant leaves it no choice, all runs that
cannot go on end in one state.
-/
namespace Atperson.Runs
variable {σ : Type} {step : σ → σ → Prop} {P : σ → Prop} {s t t' : σ}

open Relation (ReflTransGen)

/-- What every step keeps, every run keeps. -/
theorem run_keeps (hstep : ∀ s t, P s → step s t → P t) (h : ReflTransGen step s t) (hs : P s) :
    P t := by
  induction h with
  | refl => exact hs
  | tail _ hlast ih => exact hstep _ _ ih hlast

/-- No step leaves the state. -/
def Stuck (step : σ → σ → Prop) (s : σ) : Prop := ∀ t, ¬step s t

theorem stuck_run (hs : Stuck step s) (h : ReflTransGen step s t) : t = s := by
  induction h using ReflTransGen.head_induction_on with
  | refl => rfl
  | head hfirst _ _ => exact absurd hfirst (hs _)

/-- Where steps have one outcome, so have the runs that cannot go on. -/
theorem terminal_unique (hkeep : ∀ s t, P s → step s t → P t)
    (hdet : ∀ s t t', P s → step s t → step s t' → t = t') (hs : P s)
    (h : ReflTransGen step s t) (ht : Stuck step t)
    (h' : ReflTransGen step s t') (ht' : Stuck step t') : t = t' := by
  induction h using ReflTransGen.head_induction_on with
  | refl => exact (stuck_run ht h').symm
  | head hfirst _ ih =>
      rcases ReflTransGen.cases_head h' with rfl | ⟨next,hnext,hrest⟩
      · exact absurd hfirst (ht' _)
      · obtain rfl := hdet _ _ _ hs hfirst hnext
        exact ih (hkeep _ _ hs hfirst) hrest

end Atperson.Runs
