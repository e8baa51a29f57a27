import Mathlib

/-!
# Doubles and floats as exact numbers

A `double` is a rational, an infinity or a NaN, compared as C compares it. A `float` is a
double that narrowing leaves alone. Signed zeros are one.
-/
namespace Atperson.Wire

/-- The nearest integer, ties to even. -/
def roundEven (q : ℚ) : ℤ :=
  let f := ⌊q⌋
  if q-f < 1/2 then f
  else if 1/2 < q-f then f+1
  else if f%2 = 0 then f
  else f+1

theorem roundEven_intCast (n : ℤ) : roundEven n = n := by
  simp [roundEven]

theorem floor_le_roundEven (q : ℚ) : ⌊q⌋ ≤ roundEven q := by
  simp only [roundEven]
  split_ifs <;> omega

theorem roundEven_le {q : ℚ} {n : ℤ} (h : q ≤ n) : roundEven q ≤ n := by
  have hf : ⌊q⌋ ≤ n := by
    have := (Int.floor_le q).trans h
    exact_mod_cast this
  rcases eq_or_lt_of_le hf with he | hlt
  · have hq : q = n := le_antisymm h (by rw [← he]; exact Int.floor_le q)
    rw [hq,roundEven_intCast]
  · simp only [roundEven]
    split_ifs <;> omega

theorem le_roundEven {q : ℚ} {n : ℤ} (h : (n : ℚ) ≤ q) : n ≤ roundEven q :=
  (Int.le_floor.mpr h).trans (floor_le_roundEven q)

theorem roundEven_abs_le {q : ℚ} {n : ℤ} (h : |q| ≤ n) : |roundEven q| ≤ n := by
  obtain ⟨hlo,hhi⟩ := abs_le.mp h
  exact abs_le.mpr ⟨le_roundEven (by push_cast; exact hlo),roundEven_le hhi⟩

/-- The exponent of the last bit a `float` keeps of `q`. -/
def singleExponent (q : ℚ) : ℤ := max (Int.log 2 |q|-23) (-149)

def roundSingle (q : ℚ) : ℚ :=
  roundEven (q/2^singleExponent q)*2^singleExponent q

theorem roundEven_scaled (m : ℤ) {e e' : ℤ} (h : e' ≤ e) :
    (roundEven (m*2^e/2^e') : ℚ)*2^e' = m*2^e := by
  obtain ⟨k,hk⟩ := Int.eq_ofNat_of_zero_le (sub_nonneg.mpr h)
  have hpow : (2:ℚ)^e = 2^k*2^e' := by
    rw [← zpow_natCast,← zpow_add₀ (by norm_num)]
    congr 1
    omega
  have hint : (m*2^e/2^e' : ℚ) = ((m*2^k : ℤ) : ℚ) := by
    rw [hpow]
    push_cast
    field_simp
  rw [hint,roundEven_intCast,hpow]
  push_cast
  ring

theorem roundSingle_significand (q : ℚ) :
    |roundEven (q/2^singleExponent q)| ≤ 2^24 := by
  refine roundEven_abs_le ?_
  have hpos : (0:ℚ) < 2^singleExponent q := by positivity
  have hlt : |q| < 2^(Int.log 2 |q|+1) := by
    have := Int.lt_zpow_succ_log_self (b := 2) (by norm_num) |q|
    exact_mod_cast this
  have hle : (2:ℚ)^(Int.log 2 |q|+1) ≤ 2^(singleExponent q+24) :=
    zpow_le_zpow_right₀ (by norm_num) (by unfold singleExponent; omega)
  rw [abs_div,abs_of_pos hpos,div_le_iff₀ hpos]
  calc |q| ≤ 2^(singleExponent q+24) := (hlt.trans_le hle).le
    _ = ((2^24 : ℤ) : ℚ)*2^singleExponent q := by
        rw [zpow_add₀ (by norm_num)]
        push_cast
        norm_num [mul_comm]

/-- Rounding is exact on what it returns. -/
theorem roundSingle_idem (q : ℚ) : roundSingle (roundSingle q) = roundSingle q := by
  have hm := roundSingle_significand q
  generalize hx : roundSingle q = x
  unfold roundSingle at hx
  generalize hmdef : roundEven (q/2^singleExponent q) = m at hx hm
  generalize hedef : singleExponent q = e at hx
  have hbot : -149 ≤ e := by rw [← hedef]; exact le_max_right _ _
  subst hx
  rcases eq_or_ne m 0 with rfl | hm0
  · simp [roundSingle,roundEven]
  have hxpos : 0 < |(m:ℚ)*2^e| := abs_pos.mpr (mul_ne_zero (by exact_mod_cast hm0) (by positivity))
  have habs : |(m:ℚ)*2^e| = (|m| : ℤ) * 2^e := by
    rw [abs_mul,abs_of_pos (show (0:ℚ) < 2^e by positivity),Int.cast_abs]
  rcases lt_or_eq_of_le hm with hlt | heq
  · have hlog : Int.log 2 |(m:ℚ)*2^e| < e+24 := by
      rw [← Int.lt_zpow_iff_log_lt (by norm_num) hxpos,habs]
      push_cast
      rw [zpow_add₀ (by norm_num),mul_comm]
      have hlt' : (|m| : ℚ) < 2^24 := by exact_mod_cast hlt
      have hpos : (0:ℚ) < 2^e := by positivity
      calc (2:ℚ)^e*|(m:ℚ)| < 2^e*2^24 := by
            exact mul_lt_mul_of_pos_left hlt' hpos
        _ = 2^e*2^(24:ℤ) := by norm_num
    exact roundEven_scaled m (by unfold singleExponent; omega)
  · obtain ⟨s,hs⟩ : ∃ s : ℤ, m = s*2 ∧ (s = 2^23 ∨ s = -2^23) := by
      rcases abs_eq (by norm_num : (0:ℤ) ≤ 2^24) |>.mp heq with h | h
      · exact ⟨2^23,by omega,.inl rfl⟩
      · exact ⟨-2^23,by omega,.inr rfl⟩
    have hlog : Int.log 2 |(m:ℚ)*2^e| = e+24 := by
      have hpow : |(m:ℚ)*2^e| = ((2:ℕ):ℚ)^(e+24) := by
        have heq' : (|m| : ℚ) = 2^24 := by exact_mod_cast heq
        rw [habs]
        push_cast at heq' ⊢
        rw [zpow_add₀ (by norm_num),heq',mul_comm]
        norm_num
      rw [hpow,Int.log_zpow (by norm_num)]
    have hscale : (m:ℚ)*2^e = (s:ℚ)*2^(e+1) := by
      rw [hs.1,zpow_add₀ (by norm_num)]
      push_cast
      ring
    rw [hscale] at hlog ⊢
    exact roundEven_scaled s (by unfold singleExponent; omega)

theorem roundSingle_unit {q : ℚ} (h0 : 0 ≤ q) (h1 : q ≤ 1) :
    0 ≤ roundSingle q ∧ roundSingle q ≤ 1 := by
  have hpos : (0:ℚ) < 2^singleExponent q := by positivity
  have hexp : singleExponent q ≤ 0 := by
    have hlog : Int.log 2 |q| ≤ 0 := by
      rcases h0.eq_or_lt with rfl | hq
      · simp
      · rw [abs_of_pos hq]
        calc Int.log 2 q ≤ Int.log 2 (1:ℚ) := Int.log_mono_right hq h1
          _ = 0 := Int.log_one_right 2
    unfold singleExponent
    omega
  obtain ⟨k,hk⟩ := Int.eq_ofNat_of_zero_le (neg_nonneg.mpr hexp)
  have hunit : ((2^k : ℤ) : ℚ)*2^singleExponent q = 1 := by
    have he : singleExponent q = -(k:ℤ) := by omega
    rw [he,zpow_neg,zpow_natCast]
    push_cast
    exact mul_inv_cancel₀ (by positivity)
  constructor
  · have hm : 0 ≤ roundEven (q/2^singleExponent q) := le_roundEven (by simpa using by positivity)
    exact mul_nonneg (by exact_mod_cast hm) hpos.le
  · have hle : roundEven (q/2^singleExponent q) ≤ 2^k := by
      refine roundEven_le ?_
      rw [div_le_iff₀ hpos,hunit]
      exact h1
    calc roundSingle q ≤ ((2^k : ℤ) : ℚ)*2^singleExponent q :=
          mul_le_mul_of_nonneg_right (by exact_mod_cast hle) hpos.le
      _ = 1 := hunit

inductive Double where
  | finite (q : ℚ)
  | infinite (negative : Bool)
  | nan
  deriving DecidableEq

namespace Double

def lt : Double → Double → Bool
  | .finite p, .finite q => p < q
  | .finite _, .infinite negative => !negative
  | .infinite negative, .finite _ => negative
  | .infinite a, .infinite b => a && !b
  | _, _ => false

/-- The cast to `float`, read back as a double. -/
def narrow : Double → Double
  | .finite q =>
      if |roundSingle q| < 2^128 then .finite (roundSingle q)
      else .infinite (roundSingle q < 0)
  | d => d

theorem narrow_idem (d : Double) : d.narrow.narrow = d.narrow := by
  cases d with
  | finite q =>
      by_cases h : |roundSingle q| < 2^128
      · simp only [narrow,if_pos h,roundSingle_idem]
      · simp only [narrow,if_neg h]
  | infinite negative => rfl
  | nan => rfl

/-- `std::clamp`, in the order it compares. -/
def clamp (v lo hi : Double) : Double :=
  if v.lt lo then lo else if hi.lt v then hi else v

end Double

/-- A C `float`. -/
@[ext] structure Single where
  value : Double
  exact : value.narrow = value
  deriving DecidableEq

def Double.toSingle (d : Double) : Single := ⟨d.narrow,d.narrow_idem⟩

@[simp] theorem Single.toSingle_value (f : Single) : f.value.toSingle = f :=
  Single.ext f.exact

end Atperson.Wire
