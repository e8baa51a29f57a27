import Atperson.Floats.Binary32

/-!
# The order of numbers

Values that are numbers compare as their places in a linear order, in which the two zeros have
one place. So a comparison by several such keys is a strict weak order.
-/
namespace Atperson.Floats
open Float.Model (UnpackedFloat Format)
open Float.Model.UnpackedFloat (Sign)

abbrev Place := ℤ ×ₗ ℤ ×ₗ ℤ

/-- The place of a value; what is no number has none, and is given the one of zero. -/
def place : UnpackedFloat → Place
  | .infinity .negative => toLex (-2,toLex (0,0))
  | .finite .negative mantissa exponent _ => toLex (-1,toLex (-exponent,-mantissa))
  | .zero _ => toLex (0,toLex (0,0))
  | .finite .positive mantissa exponent _ => toLex (1,toLex (exponent,mantissa))
  | .infinity .positive => toLex (2,toLex (0,0))
  | .notANumber => toLex (0,toLex (0,0))

theorem compare_natCast (m n : ℕ) : compare (m : ℤ) n = compare m n := by
  rcases lt_trichotomy m n with h | h | h
  · rw [compare_lt_iff_lt.mpr h,compare_lt_iff_lt.mpr (Int.ofNat_lt.mpr h)]
  · rw [compare_eq_iff_eq.mpr h,compare_eq_iff_eq.mpr (congrArg Nat.cast h)]
  · rw [compare_gt_iff_gt.mpr h,compare_gt_iff_gt.mpr (Int.ofNat_lt.mpr h)]

theorem compare_neg_neg (a b : ℤ) : compare (-a) (-b) = (compare a b).swap := by
  rcases lt_trichotomy a b with h | h | h
  · rw [compare_lt_iff_lt.mpr h,compare_gt_iff_gt.mpr (Int.neg_lt_neg h)]
    rfl
  · rw [compare_eq_iff_eq.mpr h,compare_eq_iff_eq.mpr (congrArg Neg.neg h)]
    rfl
  · rw [compare_gt_iff_gt.mpr h,compare_lt_iff_lt.mpr (Int.neg_lt_neg h)]
    rfl

/-- Numbers compare as their places. -/
theorem compare_place {x y : UnpackedFloat} (hx : x ≠ .notANumber) (hy : y ≠ .notANumber) :
    x.compare y = some (compare (place x) (place y)) := by
  cases x with
  | notANumber => exact absurd rfl hx
  | infinity s =>
      cases y with
      | notANumber => exact absurd rfl hy
      | infinity t => cases s <;> cases t <;> decide
      | zero t => cases s <;> cases t <;> decide
      | finite t mantissa exponent h => cases s <;> cases t <;> rfl
  | zero s =>
      cases y with
      | notANumber => exact absurd rfl hy
      | infinity t => cases s <;> cases t <;> decide
      | zero t => cases s <;> cases t <;> decide
      | finite t mantissa exponent h => cases s <;> cases t <;> rfl
  | finite s mantissa exponent h =>
      cases y with
      | notANumber => exact absurd rfl hy
      | infinity t => cases s <;> cases t <;> rfl
      | zero t => cases s <;> cases t <;> rfl
      | finite t mantissa' exponent' h' =>
          cases s with
          | negative =>
              cases t with
              | negative =>
                  show some ((compare exponent exponent').then (compare mantissa mantissa')).swap =
                    some ((compare (-exponent) (-exponent')).then
                      (compare (-(mantissa : ℤ)) (-(mantissa' : ℤ))))
                  rw [compare_neg_neg,compare_neg_neg,compare_natCast,Ordering.swap_then]
              | positive => rfl
          | positive =>
              cases t with
              | negative => rfl
              | positive =>
                  show some ((compare exponent exponent').then (compare mantissa mantissa')) =
                    some ((compare exponent exponent').then (compare (mantissa : ℤ) mantissa'))
                  rw [compare_natCast]

/-! ## Single precision -/

/-- A value that is a number. -/
def IsNumber (x : Float32) : Prop := x.toModel.unpack ≠ .notANumber

def placeOf (x : Float32) : Place := place x.toModel.unpack

section Single
variable {x y : Float32}

theorem lt_iff_place (hx : IsNumber x) (hy : IsNumber y) : x < y ↔ placeOf x < placeOf y := by
  rw [lt_iff,UnpackedFloat.lt,compare_place hx hy,beq_iff_eq,Option.some_inj,compare_lt_iff_lt]
  rfl

theorem beq_iff_place (hx : IsNumber x) (hy : IsNumber y) :
    (x == y) = true ↔ placeOf x = placeOf y := by
  show (UnpackedFloat.compare x.toModel.unpack y.toModel.unpack == some .eq) = true ↔ _
  rw [compare_place hx hy,beq_iff_eq,Option.some_inj,compare_eq_iff_eq]
  rfl

/-- What is below or at something is a number. -/
theorem number_of_le (h : x ≤ y) : IsNumber x := by
  have hle : UnpackedFloat.le x.toModel.unpack y.toModel.unpack = true := by
    change decide (x.toModel ≤ y.toModel) = true at h
    rw [decide_eq_true_eq] at h
    exact h
  intro hnot
  rw [hnot] at hle
  cases hle

end Single

/-! ## Operations that give numbers -/

end Atperson.Floats
