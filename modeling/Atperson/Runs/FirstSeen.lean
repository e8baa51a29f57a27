import Mathlib

/-!
# First appearances

A list takes up what it does not hold yet. What it holds in the end is what it held and what it was
offered, each once and where it first came up; what is offered again changes nothing.
-/
namespace Atperson.Runs

section FirstSeen
variable {α : Type*} [BEq α] [LawfulBEq α]

def takeUp (held : List α) (a : α) : List α := if a ∈ held then held else held++[a]

def firstSeen (held : List α) (offered : List α) : List α := offered.foldl takeUp held

variable {held offered more : List α} {a : α}

@[simp] theorem firstSeen_nil : firstSeen held [] = held := rfl

theorem firstSeen_concat : firstSeen held (offered++[a]) = takeUp (firstSeen held offered) a := by
  unfold firstSeen
  rw [List.foldl_append]
  rfl

theorem mem_takeUp {b : α} : b ∈ takeUp held a ↔ b ∈ held ∨ b = a := by
  unfold takeUp
  split
  next h => exact ⟨.inl,fun hb => hb.elim id fun hb => hb ▸ h⟩
  next => rw [List.mem_append,List.mem_singleton]

theorem mem_firstSeen {b : α} : b ∈ firstSeen held offered ↔ b ∈ held ∨ b ∈ offered := by
  induction offered using List.reverseRecOn with
  | nil => simp
  | append_singleton offered a ih =>
      rw [firstSeen_concat,mem_takeUp,ih,List.mem_append,List.mem_singleton,or_assoc]

theorem count_takeUp (b : α) :
    (takeUp held a).count b = max (held.count b) (if a == b then 1 else 0) := by
  unfold takeUp
  by_cases hmem : a ∈ held
  · rw [if_pos hmem]
    split
    next hb => exact (max_eq_left (List.one_le_count_iff.mpr (eq_of_beq hb ▸ hmem))).symm
    next => rw [Nat.max_zero]
  · rw [if_neg hmem,List.count_append,List.count_singleton]
    split
    next hb => rw [List.count_eq_zero.mpr (eq_of_beq hb ▸ hmem),Nat.zero_add,Nat.zero_max]
    next => rw [Nat.max_zero,Nat.add_zero]

/-- What is taken up is there once, and what was there is not counted again. -/
theorem count_firstSeen (b : α) :
    (firstSeen held offered).count b = max (held.count b) (if b ∈ offered then 1 else 0) := by
  induction offered using List.reverseRecOn with
  | nil => simp
  | append_singleton offered a ih =>
      rw [firstSeen_concat,count_takeUp,ih,max_assoc]
      congr 1
      by_cases ho : b ∈ offered
      · rw [if_pos ho,if_pos (List.mem_append_left _ ho)]
        split <;> rfl
      · rw [if_neg ho,Nat.zero_max]
        by_cases hb : a = b
        · simp [hb]
        · simp [ho,hb,Ne.symm hb]

end FirstSeen

end Atperson.Runs
