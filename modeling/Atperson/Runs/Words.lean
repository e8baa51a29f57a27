import Mathlib

/-!
# Words that must not wrap

Sums and products of 64-bit words, and capacities that double. Where the result does not fit, the
operation fails with the fault that the caller gives, so a run without this fault is a run without
a wrap.
-/
namespace Atperson.Runs
variable {ε : Type} {fault : ε} {a b n : ℕ}

/-- `SIZE_MAX` and `UINT64_MAX`. -/
def wordMax : ℕ := 18446744073709551615

def addWord (fault : ε) (a b : ℕ) : Except ε ℕ :=
  if a+b ≤ wordMax then .ok (a+b) else .error fault

def mulWord (fault : ε) (a b : ℕ) : Except ε ℕ :=
  if a*b ≤ wordMax then .ok (a*b) else .error fault

theorem addWord_ok (h : a+b ≤ wordMax) : addWord fault a b = .ok (a+b) := if_pos h

theorem mulWord_ok (h : a*b ≤ wordMax) : mulWord fault a b = .ok (a*b) := if_pos h

/-! ## Either arithmetic -/

/-- How a program takes its sums and products. -/
structure Arithmetic (ε : Type) where
  add : ℕ → ℕ → Except ε ℕ
  mul : ℕ → ℕ → Except ε ℕ

namespace Arithmetic

/-- As the processor takes them. -/
def wrapping : Arithmetic ε := ⟨fun a b => .ok ((a+b)%2^64),fun a b => .ok (a*b%2^64)⟩

/-- So that none may wrap. -/
def strict (fault : ε) : Arithmetic ε := ⟨addWord fault,mulWord fault⟩

/-- What fits a word comes out as it is. -/
structure Exact (A : Arithmetic ε) : Prop where
  add : ∀ a b, a+b ≤ wordMax → A.add a b = .ok (a+b)
  mul : ∀ a b, a*b ≤ wordMax → A.mul a b = .ok (a*b)

theorem wrapping_exact : (wrapping : Arithmetic ε).Exact where
  add a b h := by
    rw [wordMax] at h
    exact congrArg _ (Nat.mod_eq_of_lt (by omega))
  mul a b h := by
    rw [wordMax] at h
    exact congrArg _ (Nat.mod_eq_of_lt (by omega))

theorem strict_exact (fault : ε) : (strict fault).Exact where
  add _ _ h := addWord_ok h
  mul _ _ h := mulWord_ok h

end Arithmetic

/-! ## Doubling -/

/-- Double a capacity until it covers a target, `none` where the next double would not fit. -/
def doubled (target : ℕ) : ℕ → ℕ → Option ℕ
  | 0, _ => none
  | fuel+1, capacity =>
      if target ≤ capacity then some capacity
      else if wordMax/2 < capacity then none
      else doubled target fuel (capacity*2)

theorem doubled_spec {target fuel m capacity : ℕ} (h : doubled target fuel (2^m) = some capacity) :
    target ≤ capacity ∧ ∃ n, capacity = 2^n := by
  induction fuel generalizing m with
  | zero => cases h
  | succ fuel ih =>
      unfold doubled at h
      split at h
      · obtain rfl := Option.some.inj h
        exact ⟨‹_›,m,rfl⟩
      · split at h
        · cases h
        · rw [← Nat.pow_succ] at h
          exact ih h

end Atperson.Runs
