import Mathlib

/-!
# Consecutive blocks

Blocks of given sizes lie one behind another in a flat array. The places within the blocks
number the array without gap or overlap. Within a block, a row and a column number the places
of a table.
-/
namespace Atperson.Runs
variable {sizes : List ℕ} {b b' k k' : ℕ}

/-- Where a block begins. -/
def blockOffset (sizes : List ℕ) (b : ℕ) : ℕ := (sizes.take b).sum

theorem blockOffset_cons (size : ℕ) (sizes : List ℕ) (b : ℕ) :
    blockOffset (size::sizes) (b+1) = size+blockOffset sizes b := rfl

theorem blockOffset_length (sizes : List ℕ) : blockOffset sizes sizes.length = sizes.sum := by
  rw [blockOffset,List.take_length]

theorem blockOffset_succ (h : b < sizes.length) :
    blockOffset sizes (b+1) = blockOffset sizes b+sizes.getD b 0 := by
  rw [blockOffset,blockOffset,List.sum_take_succ _ _ h,List.getD_eq_getElem _ _ h]

/-- A block ends where the next one begins, at the latest. -/
theorem blockOffset_le (h : b < b') :
    blockOffset sizes b+sizes.getD b 0 ≤ blockOffset sizes b' := by
  induction sizes generalizing b b' with
  | nil => rw [blockOffset,List.take_nil]; exact Nat.zero_le _
  | cons size rest ih =>
      obtain ⟨c,rfl⟩ := Nat.exists_eq_add_one.mpr (Nat.zero_lt_of_lt h)
      rw [blockOffset_cons]
      cases b with
      | zero =>
          have hfirst : blockOffset (size::rest) 0+(size::rest).getD 0 0 = size := Nat.zero_add size
          omega
      | succ b =>
          have hrest := ih (Nat.lt_of_succ_lt_succ h)
          rw [blockOffset_cons,List.getD_cons_succ]
          omega

theorem blockOffset_lt (hk : k < sizes.getD b 0) : blockOffset sizes b+k < sizes.sum := by
  induction sizes generalizing b with
  | nil => exact absurd hk (Nat.not_lt_zero k)
  | cons size rest ih =>
      cases b with
      | zero =>
          have hk : k < size := hk
          simp only [blockOffset,List.take_zero,List.sum_nil,List.sum_cons]
          omega
      | succ b =>
          have h := @ih b hk
          rw [blockOffset_cons,List.sum_cons]
          omega

/-- The blocks do not overlap. -/
theorem blockOffset_inj (hk : k < sizes.getD b 0) (hk' : k' < sizes.getD b' 0)
    (h : blockOffset sizes b+k = blockOffset sizes b'+k') : b = b' ∧ k = k' := by
  induction sizes generalizing b b' with
  | nil => exact absurd hk (Nat.not_lt_zero k)
  | cons size rest ih =>
      cases b with
      | zero =>
          have hk : k < size := hk
          cases b' with
          | zero => exact ⟨rfl,Nat.add_left_cancel h⟩
          | succ b' =>
              rw [blockOffset_cons] at h
              simp only [blockOffset,List.take_zero,List.sum_nil] at h
              omega
      | succ b =>
          cases b' with
          | zero =>
              have hk' : k' < size := hk'
              rw [blockOffset_cons] at h
              simp only [blockOffset,List.take_zero,List.sum_nil] at h
              omega
          | succ b' =>
              rw [blockOffset_cons,blockOffset_cons] at h
              have hoffsets : blockOffset rest b+k = blockOffset rest b'+k' := by omega
              obtain ⟨rfl,rfl⟩ := ih hk hk' hoffsets
              exact ⟨rfl,rfl⟩

/-- The blocks leave no gap. -/
theorem exists_blockOffset {n : ℕ} (h : n < sizes.sum) :
    ∃ b k, k < sizes.getD b 0 ∧ blockOffset sizes b+k = n := by
  induction sizes generalizing n with
  | nil => exact absurd h (Nat.not_lt_zero n)
  | cons size rest ih =>
      rw [List.sum_cons] at h
      rcases Nat.lt_or_ge n size with hlt | hge
      · exact ⟨0,n,hlt,Nat.zero_add n⟩
      · obtain ⟨b,k,hk,hn⟩ := ih (n := n-size) (by omega)
        refine ⟨b+1,k,hk,?_⟩
        rw [blockOffset_cons]
        omega

section Table
variable {row row' column column' rows width : ℕ}

theorem table_lt (hrow : row < rows) (hcolumn : column < width) :
    row*width+column < width*rows := by
  calc row*width+column < row*width+width := by omega
    _ = (row+1)*width := (Nat.succ_mul row width).symm
    _ ≤ rows*width := Nat.mul_le_mul_right width hrow
    _ = width*rows := Nat.mul_comm rows width

theorem table_inj (hcolumn : column < width) (hcolumn' : column' < width)
    (h : row*width+column = row'*width+column') : row = row' ∧ column = column' := by
  have hwidth : 0 < width := by omega
  have hrow : row = row' := by
    have hdiv := congrArg (·/width) h
    simpa [Nat.mul_comm _ width,Nat.mul_add_div hwidth,Nat.div_eq_of_lt hcolumn,
      Nat.div_eq_of_lt hcolumn'] using hdiv
  subst hrow
  exact ⟨rfl,Nat.add_left_cancel h⟩

theorem exists_table {n : ℕ} (h : n < width*rows) :
    ∃ row column, row < rows ∧ column < width ∧ row*width+column = n := by
  have hwidth : 0 < width := by
    rcases Nat.eq_zero_or_pos width with rfl | hpos
    · rw [Nat.zero_mul] at h
      exact absurd h (Nat.not_lt_zero n)
    · exact hpos
  exact ⟨n/width,n%width,Nat.div_lt_of_lt_mul h,Nat.mod_lt n hwidth,Nat.div_add_mod' n width⟩

end Table

end Atperson.Runs
