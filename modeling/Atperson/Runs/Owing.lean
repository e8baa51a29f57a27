import Mathlib.Data.Nat.Basic
import Mathlib.Order.Basic

/-!
# Items that owe items

An item begins with a head, and the head says how many items belong to it. A reader that keeps a
stack of the items still owed ends where the nested reading of the items ends, and its stack is as
high as they are deep.
-/
namespace Atperson.Runs

section Owing
variable {σ ε : Type}

/-- So many items from one place to another, nested so deep below their own level. -/
inductive Owes (head : σ → Except ε (σ×ℕ)) : ℕ → σ → σ → ℕ → Prop
  | none (s : σ) : Owes head 0 s s 0
  | next {n k d e : ℕ} {s s₁ s₂ s₃ : σ} : head s = .ok (s₁,k) → Owes head k s₁ s₂ d →
      Owes head n s₂ s₃ e → Owes head (n+1) s s₃ (max (if k = 0 then 0 else d+1) e)

/-- Where the items end and how deep they are is settled by where they begin. -/
theorem Owes.unique {head : σ → Except ε (σ×ℕ)} {n d e : ℕ} {s t u : σ} (h : Owes head n s t d)
    (h' : Owes head n s u e) : t = u ∧ d = e := by
  induction h generalizing u e with
  | none s =>
      cases h'
      exact ⟨rfl,rfl⟩
  | next hhead _ _ ihk ihn =>
      cases h' with
      | next hhead' hkids' hrest' =>
          obtain ⟨rfl,rfl⟩ := Prod.mk.inj (Except.ok.inj (hhead.symm.trans hhead'))
          obtain ⟨rfl,rfl⟩ := ihk hkids'
          obtain ⟨rfl,rfl⟩ := ihn hrest'
          exact ⟨rfl,rfl⟩

/-! ## The stack -/

variable (head : σ → Except ε (σ×ℕ)) (deep unfinished : ε) (limit : ℕ)

/-- The stack once an item of its top level was read that owes items itself. -/
def owed (k n : ℕ) (levels : List ℕ) : List ℕ := if k = 0 then n::levels else k::n::levels

theorem owed_length (k n : ℕ) (levels : List ℕ) : (owed k n levels).length ≤ levels.length+2 := by
  unfold owed
  split
  · rw [List.length_cons]
    omega
  · rw [List.length_cons,List.length_cons]

/-- Take back a level that owes nothing, or read the next item of the top level. -/
def owingStep (s : σ) : List ℕ → Except ε (σ×List ℕ)
  | [] => .ok (s,[])
  | 0::levels => .ok (s,levels)
  | (n+1)::levels => do
      let (s,k) ← head s
      if limit < (owed k n levels).length then .error deep else .ok (s,owed k n levels)

/-- Until no level is left, with fuel for the rounds. -/
def owingRun : ℕ → σ → List ℕ → Except ε σ
  | 0, _, _ => .error unfinished
  | fuel+1, s, stack =>
      if stack = [] then .ok s
      else do
        let (s,stack) ← owingStep head deep limit s stack
        owingRun fuel s stack

/-- What a stack owes from a place to another, no deeper than the limit. -/
inductive Settles : List ℕ → σ → σ → Prop
  | done (s : σ) : Settles [] s s
  | level {n d : ℕ} {levels : List ℕ} {s s₁ s₂ : σ} : Owes head n s s₁ d →
      d+levels.length+1 ≤ limit → Settles levels s₁ s₂ → Settles (n::levels) s s₂

variable {head deep unfinished limit}

theorem settles_back {levels : List ℕ} {s t : σ} (hlimit : levels.length+1 ≤ limit) :
    Settles head limit (0::levels) s t ↔ Settles head limit levels s t := by
  constructor
  · intro h
    cases h with
    | level howes _ hrest =>
        cases howes
        exact hrest
  · exact fun h => .level (.none s) (by omega) h

/-- What is owed with one more item at the top is owed once its head was read. -/
theorem settles_next {n : ℕ} {levels : List ℕ} {s t : σ} (hlimit : levels.length+1 ≤ limit) :
    Settles head limit ((n+1)::levels) s t ↔ ∃ s₁ k, head s = .ok (s₁,k) ∧
      (owed k n levels).length ≤ limit ∧ Settles head limit (owed k n levels) s₁ t := by
  unfold owed
  constructor
  · intro h
    cases h with
    | level howes hdepth hrest =>
        cases howes with
        | @next _ k d e _ s₁ s₂ _ hhead hkids hsiblings =>
            refine ⟨s₁,k,hhead,?_⟩
            by_cases hk : k = 0
            · subst hk
              cases hkids
              rw [if_pos rfl] at hdepth ⊢
              exact ⟨hlimit,.level hsiblings (by omega) hrest⟩
            · rw [if_neg hk] at hdepth ⊢
              have hinner : d+(n::levels).length+1 ≤ limit := by
                rw [List.length_cons]
                omega
              refine ⟨by simp only [List.length_cons] at hinner ⊢; omega,?_⟩
              exact .level hkids hinner (.level hsiblings (by omega) hrest)
  · rintro ⟨s₁,k,hhead,hroom,h⟩
    by_cases hk : k = 0
    · subst hk
      rw [if_pos rfl] at h
      cases h with
      | @level _ e _ _ _ _ hsiblings hdepth hrest =>
          refine .level (.next hhead (.none s₁) hsiblings) ?_ hrest
          rw [if_pos rfl]
          omega
    · rw [if_neg hk] at h
      cases h with
      | @level _ d _ _ s₂ _ hkids hinner hlevel =>
          cases hlevel with
          | @level _ e _ _ _ _ hsiblings hdepth hrest =>
              refine .level (.next hhead hkids hsiblings) ?_ hrest
              rw [if_neg hk]
              rw [List.length_cons] at hinner
              omega

section Step
variable {s s₁ : σ} {n k : ℕ} {levels : List ℕ} {e : ε}

theorem owingStep_error (h : head s = .error e) :
    owingStep head deep limit s ((n+1)::levels) = .error e := by
  show head s >>= _ = _
  rw [h]
  rfl

theorem owingStep_ok (h : head s = .ok (s₁,k)) : owingStep head deep limit s ((n+1)::levels) =
    if limit < (owed k n levels).length then .error deep else .ok (s₁,owed k n levels) := by
  show head s >>= _ = _
  rw [h]
  rfl

end Step

section Run
variable {size : σ → ℕ} (hsize : ∀ s s₁ k, head s = .ok (s₁,k) → size s₁ < size s) {fuel : ℕ}
  {s t : σ} {stack : List ℕ}
include hsize

/-- The reader ends at a place if and only if what its stack owes ends there. -/
theorem owingRun_iff (hfuel : 2*size s+stack.length < fuel) (hlimit : stack.length ≤ limit) :
    owingRun head deep unfinished limit fuel s stack = .ok t ↔ Settles head limit stack s t := by
  induction fuel generalizing s stack with
  | zero => omega
  | succ fuel ih =>
      unfold owingRun
      cases stack with
      | nil =>
          rw [if_pos rfl]
          constructor
          · rintro h
            obtain rfl := Except.ok.inj h
            exact .done s
          · intro h
            cases h
            rfl
      | cons n levels =>
          rw [if_neg (List.cons_ne_nil _ _)]
          rw [List.length_cons] at hfuel hlimit
          cases n with
          | zero =>
              rw [settles_back hlimit]
              exact ih (by omega) (by omega)
          | succ n =>
              rw [settles_next hlimit]
              cases hhead : head s with
              | error e =>
                  rw [owingStep_error hhead]
                  refine iff_of_false (fun h => by cases h) ?_
                  rintro ⟨s₁,k,hok,-⟩
                  cases hok
              | ok x =>
                  obtain ⟨s₁,k⟩ := x
                  have hless := hsize s s₁ k hhead
                  have hlength := owed_length k n levels
                  rw [owingStep_ok hhead]
                  by_cases hroom : limit < (owed k n levels).length
                  · rw [if_pos hroom]
                    refine iff_of_false (fun h => by cases h) ?_
                    rintro ⟨s₂,k',hok,hfits,-⟩
                    obtain ⟨rfl,rfl⟩ := Prod.mk.inj (Except.ok.inj hok)
                    exact absurd hfits (Nat.not_le.mpr hroom)
                  · rw [if_neg hroom]
                    refine (ih (by omega) (Nat.le_of_not_lt hroom)).trans ⟨fun h => ?_,?_⟩
                    · exact ⟨s₁,k,rfl,Nat.le_of_not_lt hroom,h⟩
                    · rintro ⟨s₂,k',hok,-,h⟩
                      obtain ⟨rfl,rfl⟩ := Prod.mk.inj (Except.ok.inj hok)
                      exact h

/-- What ends a reader early is the depth of its items, or a head that does. -/
theorem owingRun_error {e : ε} (hfuel : 2*size s+stack.length < fuel)
    (h : owingRun head deep unfinished limit fuel s stack = .error e) :
    e = deep ∨ ∃ s', head s' = .error e := by
  induction fuel generalizing s stack with
  | zero => omega
  | succ fuel ih =>
      unfold owingRun at h
      cases stack with
      | nil =>
          rw [if_pos rfl] at h
          cases h
      | cons n levels =>
          rw [if_neg (List.cons_ne_nil _ _)] at h
          rw [List.length_cons] at hfuel
          cases n with
          | zero => exact ih (by omega) h
          | succ n =>
              cases hhead : head s with
              | error e' =>
                  rw [owingStep_error hhead] at h
                  obtain rfl := Except.error.inj h
                  exact .inr ⟨s,hhead⟩
              | ok x =>
                  obtain ⟨s₁,k⟩ := x
                  have hless := hsize s s₁ k hhead
                  have hlength := owed_length k n levels
                  rw [owingStep_ok hhead] at h
                  by_cases hroom : limit < (owed k n levels).length
                  · rw [if_pos hroom] at h
                    exact .inl (Except.error.inj h).symm
                  · rw [if_neg hroom] at h
                    exact ih (by omega) h

end Run

end Owing

end Atperson.Runs
