import Mathlib.Logic.Relation

/-!
# Guarded runs

A machine takes one action after another. A guard says of an action and the state it is
taken in whether the action is admissible there; a run is guarded when all its actions are.
What every guarded action keeps, every guarded run keeps.
-/
namespace Atperson.Runs

section Machine
variable {σ α : Type*} (step : σ → α → σ) (guard : σ → α → Prop)

def runFrom (s : σ) (actions : List α) : σ := actions.foldl step s

/-- Every action meets the guard in the state it is taken in. -/
def Guarded : σ → List α → Prop
  | _, [] => True
  | s, a::rest => guard s a ∧ Guarded (step s a) rest

variable {step guard}

@[simp] theorem runFrom_nil (s : σ) : runFrom step s [] = s := rfl

@[simp] theorem runFrom_cons (s : σ) (a : α) (rest : List α) :
    runFrom step s (a::rest) = runFrom step (step s a) rest := rfl

theorem runFrom_append (s : σ) (pre post : List α) :
    runFrom step s (pre++post) = runFrom step (runFrom step s pre) post := List.foldl_append

/-- What every action keeps, every run keeps. -/
theorem runFrom_invariant {P : σ → Prop} (hstep : ∀ s a, P s → P (step s a)) {s : σ} (hs : P s)
    (actions : List α) : P (runFrom step s actions) := by
  induction actions generalizing s with
  | nil => exact hs
  | cons a rest ih => exact ih (hstep s a hs)

/-- An invariant of the guarded actions holds at the end of every guarded run. -/
theorem Guarded.invariant {P : σ → Prop} (hstep : ∀ s a, P s → guard s a → P (step s a))
    {s : σ} {actions : List α} (h : Guarded step guard s actions) (hs : P s) :
    P (runFrom step s actions) := by
  induction actions generalizing s with
  | nil => exact hs
  | cons a rest ih => exact ih h.2 (hstep s a hs h.1)

theorem Guarded.mono {guard' : σ → α → Prop} (h : ∀ s a, guard s a → guard' s a) {s : σ}
    {actions : List α} (hg : Guarded step guard s actions) : Guarded step guard' s actions := by
  induction actions generalizing s with
  | nil => trivial
  | cons a rest ih => exact ⟨h s a hg.1,ih hg.2⟩

theorem Guarded.append_iff {s : σ} {pre post : List α} :
    Guarded step guard s (pre++post) ↔
      Guarded step guard s pre ∧ Guarded step guard (runFrom step s pre) post := by
  induction pre generalizing s with
  | nil => simp [Guarded]
  | cons a rest ih =>
      rw [List.cons_append,Guarded,Guarded,ih,runFrom_cons,and_assoc]

instance instDecidableGuarded [∀ s a, Decidable (guard s a)] (s : σ) :
    (actions : List α) → Decidable (Guarded step guard s actions)
  | [] => .isTrue trivial
  | a::rest =>
      have := instDecidableGuarded (step s a) rest
      inferInstanceAs (Decidable (_ ∧ _))

end Machine

end Atperson.Runs
