import Atperson.Wire.LittleEndian

/-!
# Decimal text

Numbers as the C library prints them and reads them back.
-/
namespace Atperson.Wire

def decimalDigit (n : ℕ) : UInt8 := UInt8.ofNat (48+n%10)

/-- The decimal digits of `n`, at least `width` of them. -/
def paddedDecimal : ℕ → ℕ → Bytes
  | 0, _ => []
  | width+1, n => paddedDecimal width (n/10)++[decimalDigit n]

theorem digit_of_mem_paddedDecimal {width n : ℕ} {c : UInt8} (h : c ∈ paddedDecimal width n) :
    48 ≤ c ∧ c ≤ 57 := by
  induction width generalizing n with
  | zero => simp [paddedDecimal] at h
  | succ width ih =>
      rcases List.mem_append.mp h with h | h
      · exact ih h
      · rw [List.mem_singleton.mp h,decimalDigit]
        have hlt := Nat.mod_lt n (show 10 > 0 by decide)
        have hval : (UInt8.ofNat (48+n%10)).toNat = 48+n%10 := by
          rw [UInt8.toNat_ofNat']
          omega
        exact ⟨UInt8.le_iff_toNat_le.mpr (by rw [hval]; exact Nat.le_add_right _ _),
          UInt8.le_iff_toNat_le.mpr (by rw [hval]; change 48+n%10 ≤ 57; omega)⟩

/-- `%0<width>d`. -/
def formatPadded (width : ℕ) (n : ℤ) : Bytes :=
  let digits := Nat.log 10 n.natAbs+1
  if n < 0 then 45::paddedDecimal (max (width-1) digits) n.natAbs
  else paddedDecimal (max width digits) n.natAbs

theorem formatPadded_noNul (width : ℕ) (n : ℤ) : (0 : UInt8) ∉ formatPadded width n := by
  have hdigits (w m : ℕ) : (0 : UInt8) ∉ paddedDecimal w m := fun h =>
    absurd (digit_of_mem_paddedDecimal h).1 (by decide)
  simp only [formatPadded]
  split
  · simp only [List.mem_cons,not_or]
    exact ⟨by decide,hdigits _ _⟩
  · exact hdigits _ _

/-- `to_string` of a number that is not negative. -/
def decimalString (n : ℕ) : Bytes := formatPadded 1 n

/-- What digits stand for. -/
def decimalValue (digits : Bytes) : ℕ := digits.foldl (fun n c => 10*n+(c.toNat-48)) 0

theorem decimalValue_append (digits : Bytes) (c : UInt8) :
    decimalValue (digits++[c]) = 10*decimalValue digits+(c.toNat-48) := by
  simp [decimalValue]

theorem decimalValue_padded (width n : ℕ) :
    decimalValue (paddedDecimal width n) = n%10^width := by
  induction width generalizing n with
  | zero => simp [paddedDecimal,decimalValue,Nat.mod_one]
  | succ width ih =>
      have hdigit : (decimalDigit n).toNat-48 = n%10 := by
        have hlt := Nat.mod_lt n (show 10 > 0 by decide)
        rw [decimalDigit,UInt8.toNat_ofNat']
        omega
      rw [paddedDecimal,decimalValue_append,ih,hdigit,pow_succ',Nat.mod_mul]
      omega

theorem decimalString_eq (n : ℕ) : decimalString n = paddedDecimal (Nat.log 10 n+1) n := by
  have hnonneg : ¬ (n : ℤ) < 0 := by omega
  simp only [decimalString,formatPadded,if_neg hnonneg,Int.natAbs_natCast]
  rw [Nat.max_eq_right (Nat.le_add_left 1 _)]

/-- What is printed stands for the number printed. -/
theorem decimalValue_string (n : ℕ) : decimalValue (decimalString n) = n := by
  rw [decimalString_eq,decimalValue_padded,
    Nat.mod_eq_of_lt (Nat.lt_pow_succ_log_self (by decide) n)]

theorem decimalString_ne_nil (n : ℕ) : decimalString n ≠ [] := by
  simp [decimalString_eq,paddedDecimal]

theorem digit_of_mem_decimalString {n : ℕ} {c : UInt8} (h : c ∈ decimalString n) :
    48 ≤ c ∧ c ≤ 57 :=
  digit_of_mem_paddedDecimal (decimalString_eq n ▸ h)

end Atperson.Wire
