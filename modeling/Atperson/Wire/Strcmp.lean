import Atperson.Wire.CText

/-!
# `strcmp`

Bytes are compared as unsigned numbers, and a text comes before its continuations.
-/
namespace Atperson.Wire

/-- `strcmp`, on what comes before the terminators. -/
def strcmp : Bytes → Bytes → Ordering
  | [], [] => .eq
  | [], _::_ => .lt
  | _::_, [] => .gt
  | a::as, b::bs => if a < b then .lt else if b < a then .gt else strcmp as bs

@[simp] theorem strcmp_self (s : Bytes) : strcmp s s = .eq := by
  induction s with
  | nil => rfl
  | cons a s ih => rw [strcmp,if_neg (UInt8.lt_irrefl a),if_neg (UInt8.lt_irrefl a),ih]

theorem strcmp_swap (s t : Bytes) : (strcmp s t).swap = strcmp t s := by
  induction s generalizing t with
  | nil => cases t <;> rfl
  | cons a s ih =>
      cases t with
      | nil => rfl
      | cons b t =>
          rw [strcmp,strcmp]
          by_cases hab : a < b
          · rw [if_pos hab,if_neg (UInt8.lt_asymm hab),if_pos hab]
            rfl
          · rw [if_neg hab,if_neg hab]
            split
            · rfl
            · exact ih t

/-- Only equal texts compare equal. -/
theorem strcmp_eq {s t : Bytes} : strcmp s t = .eq ↔ s = t := by
  constructor
  · intro h
    induction s generalizing t with
    | nil =>
        cases t with
        | nil => rfl
        | cons b t => cases h
    | cons a s ih =>
        cases t with
        | nil => cases h
        | cons b t =>
            rw [strcmp] at h
            split at h
            · cases h
            · next hab =>
                split at h
                · cases h
                · next hba =>
                    have hhead : a = b := UInt8.le_antisymm (UInt8.not_lt.mp hba)
                      (UInt8.not_lt.mp hab)
                    rw [hhead,ih h]
  · rintro rfl
    exact strcmp_self s

/-- Texts neither of which comes after the other are equal. -/
theorem strcmp_antisymm {s t : Bytes} (h : strcmp s t ≠ .gt) (h' : strcmp t s ≠ .gt) : s = t := by
  rw [← strcmp_swap] at h'
  refine strcmp_eq.mp ?_
  cases hst : strcmp s t with
  | lt =>
      rw [hst] at h'
      exact absurd rfl h'
  | eq => rfl
  | gt => exact absurd hst h

end Atperson.Wire
