import Mathlib

/-!
# Compaction

An array is rewritten in place with some of its elements left out. Every survivor moves down
by the number of elements left out ahead of it, so that survivors keep their order and fill
the shorter array without a gap.
-/
namespace Atperson.Runs
variable {α : Type} (keep : ℕ → Bool)

/-- The survivors of an array whose first element has a given index. -/
def survivors : ℕ → List α → List α
  | _, [] => []
  | i, a::as => if keep i then a::survivors (i+1) as else survivors (i+1) as

/-- The table of the new places, with the next one free. -/
def placesFrom : ℕ → ℕ → ℕ → List (Option ℕ)
  | _, _, 0 => []
  | next, i, n+1 =>
      if keep i then some next::placesFrom (next+1) (i+1) n else none::placesFrom next (i+1) n

/-- Where a survivor moves to. -/
def place (i : ℕ) : ℕ := (List.range i).countP keep

section Compaction
variable {keep}

theorem place_succ (i : ℕ) : place keep (i+1) = place keep i+if keep i then 1 else 0 := by
  rw [place,List.range_succ,List.countP_append,List.countP_singleton]
  rfl

theorem place_mono {i j : ℕ} (h : i ≤ j) : place keep i ≤ place keep j := by
  induction j, h using Nat.le_induction with
  | base => exact le_rfl
  | succ j _ ih =>
      rw [place_succ]
      exact ih.trans (Nat.le_add_right _ _)

theorem place_le (i : ℕ) : place keep i ≤ i := by
  have h := List.countP_le_length (p := keep) (l := List.range i)
  rwa [List.length_range] at h

theorem place_add_le (i n : ℕ) : place keep (i+n) ≤ place keep i+n := by
  induction n with
  | zero => exact le_rfl
  | succ n ih =>
      rw [← Nat.add_assoc,place_succ]
      split <;> omega

/-- Where nothing was left out, nothing has moved. -/
theorem place_eq_self {i n : ℕ} (h : place keep n = n) (hi : i ≤ n) : place keep i = i := by
  obtain ⟨k,rfl⟩ := Nat.exists_eq_add_of_le hi
  have hle : place keep (i+k) ≤ place keep i+k := place_add_le i k
  have hself : place keep i ≤ i := place_le i
  omega

/-- Survivors keep their order. -/
theorem place_lt {i j : ℕ} (hi : keep i = true) (h : i < j) : place keep i < place keep j := by
  have hsucc : place keep (i+1) ≤ place keep j := place_mono (Nat.succ_le_of_lt h)
  rw [place_succ,if_pos hi] at hsucc
  exact hsucc

theorem place_inj {i j : ℕ} (hi : keep i = true) (hj : keep j = true)
    (h : place keep i = place keep j) : i = j := by
  rcases Nat.lt_trichotomy i j with hlt | rfl | hgt
  · exact absurd h (place_lt hi hlt).ne
  · rfl
  · exact absurd h (place_lt hj hgt).ne'

theorem placesFrom_length (next i n : ℕ) : (placesFrom keep next i n).length = n := by
  induction n generalizing next i with
  | zero => rfl
  | succ n ih =>
      unfold placesFrom
      split <;> rw [List.length_cons,ih]

theorem placesFrom_eq (i n : ℕ) : placesFrom keep (place keep i) i n =
    (List.range' i n).map fun j => if keep j then some (place keep j) else none := by
  induction n generalizing i with
  | zero => rfl
  | succ n ih =>
      have hnext := ih (i+1)
      rw [place_succ] at hnext
      unfold placesFrom
      rw [List.range'_succ,List.map_cons]
      split
      · rename_i hkeep
        rw [if_pos hkeep] at hnext
        rw [hnext]
      · rename_i hkeep
        rw [if_neg hkeep,Nat.add_zero] at hnext
        rw [hnext]

/-- The table has the places of the survivors. -/
theorem getElem?_places {i n : ℕ} : (placesFrom keep 0 0 n)[i]? =
    if i < n then some (if keep i then some (place keep i) else none) else none := by
  have h := @placesFrom_eq keep 0 n
  rw [show place keep 0 = 0 from rfl] at h
  rw [h,List.getElem?_map,← List.range_eq_range']
  split
  · rename_i hlt
    rw [List.getElem?_range hlt]
    rfl
  · rename_i hge
    rw [List.getElem?_eq_none (by simpa using hge)]
    rfl

theorem survivors_concat (i : ℕ) (as : List α) (a : α) :
    survivors keep i (as++[a]) =
      survivors keep i as++if keep (i+as.length) then [a] else [] := by
  induction as generalizing i with
  | nil => simp [survivors]
  | cons b as ih =>
      have hrest := ih (i+1)
      have hindex : i+1+as.length = i+(b::as).length := by
        rw [List.length_cons]
        omega
      rw [hindex] at hrest
      simp only [List.cons_append,survivors,hrest]
      split <;> rfl

theorem survivors_length (as : List α) : (survivors keep 0 as).length = place keep as.length := by
  induction as using List.reverseRecOn with
  | nil => rfl
  | append_singleton as a ih =>
      rw [survivors_concat,List.length_append,ih,List.length_append,List.length_singleton,
        place_succ,Nat.zero_add]
      split <;> rfl

/-- A survivor is found at its new place. -/
theorem survivors_place {as : List α} {i : ℕ} (hi : keep i = true) (h : i < as.length) :
    (survivors keep 0 as)[place keep i]? = as[i]? := by
  induction as using List.reverseRecOn with
  | nil => exact absurd h (Nat.not_lt_zero i)
  | append_singleton as a ih =>
      rw [List.length_append,List.length_singleton] at h
      rw [survivors_concat,Nat.zero_add]
      rcases Nat.lt_or_eq_of_le (Nat.le_of_lt_succ h) with hlt | rfl
      · have hplace : place keep i < (survivors keep 0 as).length := by
          rw [survivors_length]
          exact place_lt hi hlt
        rw [List.getElem?_append_left hplace,List.getElem?_append_left hlt]
        exact ih hlt
      · rw [if_pos hi,← survivors_length,List.getElem?_append_right le_rfl,
          List.getElem?_append_right le_rfl,Nat.sub_self,Nat.sub_self]

/-- Nothing but survivors is left. -/
theorem exists_survivor {as : List α} {k : ℕ} (h : k < (survivors keep 0 as).length) :
    ∃ i < as.length, keep i = true ∧ place keep i = k := by
  rw [survivors_length] at h
  generalize as.length = n at h
  induction n with
  | zero => exact absurd h (Nat.not_lt_zero k)
  | succ n ih =>
      by_cases hlt : k < place keep n
      · obtain ⟨i,hi,hkeep⟩ := ih hlt
        exact ⟨i,Nat.lt_succ_of_lt hi,hkeep⟩
      · rw [place_succ] at h
        split at h
        · rename_i hkeep
          exact ⟨n,Nat.lt_succ_self n,hkeep,by omega⟩
        · omega

theorem survivors_sublist (i : ℕ) (as : List α) : (survivors keep i as).Sublist as := by
  induction as generalizing i with
  | nil => exact .slnil
  | cons a as ih =>
      unfold survivors
      split
      · exact (ih (i+1)).cons_cons a
      · exact (ih (i+1)).cons a

theorem survivors_map {β : Type} (f : α → β) (i : ℕ) (as : List α) :
    survivors keep i (as.map f) = (survivors keep i as).map f := by
  induction as generalizing i with
  | nil => rfl
  | cons a as ih =>
      simp only [List.map_cons,survivors,ih]
      split <;> rfl

end Compaction

end Atperson.Runs
