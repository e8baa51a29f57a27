import Mathlib.Data.List.Basic

/-!
# Fallible steps

Taking apart a successful sequence of steps that may fail.
-/
namespace Atperson.Runs
variable {ε α β γ : Type}

theorem bind_ok {x : Except ε α} {f : α → Except ε β} {r : β} :
    (x >>= f) = .ok r ↔ ∃ a, x = .ok a ∧ f a = .ok r := by
  cases x with
  | error e => simp [bind,Except.bind]
  | ok a => simp [bind,Except.bind]

theorem map_ok {x : Except ε α} {f : α → β} {r : β} :
    x.map f = .ok r ↔ ∃ a, x = .ok a ∧ f a = r := by
  cases x with
  | error e => simp [Except.map]
  | ok a => simp [Except.map]

/-- A reader that returns what was written reads back a whole list. -/
theorem mapM_read {write : α → γ} {read : γ → Except ε α} {xs ys : List α}
    (hread : ∀ x ∈ xs, ∀ y, read (write x) = .ok y → y = x)
    (h : (xs.map write).mapM read = .ok ys) : ys = xs := by
  induction xs generalizing ys with
  | nil => simpa [pure,Except.pure] using h.symm
  | cons x xs ih =>
      rw [List.map_cons,List.mapM_cons] at h
      obtain ⟨y,hy,h⟩ := bind_ok.mp h
      obtain ⟨rest,hrest,h⟩ := bind_ok.mp h
      cases h
      rw [hread x (by simp) y hy,ih (fun z hz => hread z (by simp [hz])) hrest]

/-- A reader that accepts what was written accepts a whole list. -/
theorem mapM_write {write : α → γ} {read : γ → Except ε α} {xs : List α}
    (hread : ∀ x ∈ xs, read (write x) = .ok x) : (xs.map write).mapM read = .ok xs := by
  induction xs with
  | nil => rfl
  | cons x xs ih =>
      rw [List.map_cons,List.mapM_cons,hread x (by simp),ih (fun y hy => hread y (by simp [hy]))]
      rfl

/-- What holds of the state a step leaves, whether the walk goes on or stops there. -/
def Leaves (P : α → Prop) (Q : ε → Prop) : Except ε α → Prop
  | .ok s => P s
  | .error e => Q e

/-- What each step keeps while the walk goes on, the whole walk keeps. -/
theorem foldlM_leaves {P : α → Prop} {Q : ε → Prop} {f : α → β → Except ε α} {xs : List β}
    (step : ∀ s, ∀ x ∈ xs, P s → Leaves P Q (f s x)) {s : α} (hs : P s) :
    Leaves P Q (xs.foldlM f s) := by
  induction xs generalizing s with
  | nil => exact hs
  | cons x xs ih =>
      rw [List.foldlM_cons]
      have hx := step s x List.mem_cons_self hs
      cases hf : f s x with
      | error e =>
          rw [hf] at hx
          exact hx
      | ok s' =>
          rw [hf] at hx
          exact ih (fun s y hy => step s y (List.mem_cons_of_mem x hy)) hx

theorem Leaves.mono {P P' : α → Prop} {Q Q' : ε → Prop} {r : Except ε α} (h : Leaves P Q r)
    (hp : ∀ s, P s → P' s) (hq : ∀ e, Q e → Q' e) : Leaves P' Q' r := by
  cases r with
  | ok s => exact hp s h
  | error e => exact hq e h

end Atperson.Runs
