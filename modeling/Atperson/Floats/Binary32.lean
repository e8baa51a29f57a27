import Mathlib

/-!
# Single precision

Conversions between the two IEEE formats, and the few laws of comparison and sign that hold
of every value, the ones that are no number included.
-/
namespace Atperson.Floats
open Float.Model (UnpackedFloat Format)
open Float.Model.UnpackedFloat (Sign)

/-- `(float)`. -/
def narrow (x : Float) : Float32 :=
  .ofModel (.pack (match x.toModel.unpack with
    | .finite sign mantissa exponent _ => .round .binary32 sign mantissa exponent
    | special => special))

/-- `(double)`. -/
def widen (x : Float32) : Float :=
  .ofModel (.pack (match x.toModel.unpack with
    | .finite sign mantissa exponent _ => .round .binary64 sign mantissa exponent
    | special => special))

theorem lt_iff (x y : Float32) : x < y ↔ x.toModel.unpack.lt y.toModel.unpack = true := by
  change decide (x.toModel < y.toModel) = true ↔ _
  rw [decide_eq_true_eq]
  rfl

theorem lt_irrefl (x : Float32) : ¬x < x := by
  rw [lt_iff]
  generalize x.toModel.unpack = u
  cases u with
  | infinity sign => cases sign <;> decide
  | notANumber => decide
  | zero sign => cases sign <;> decide
  | finite sign mantissa exponent h =>
      have hsame : (compare exponent exponent).then (compare mantissa mantissa) = .eq := by
        rw [Std.compare_self,Std.compare_self]
        rfl
      cases sign with
      | negative =>
          show ¬(some ((compare exponent exponent).then (compare mantissa mantissa)).swap ==
            some .lt) = true
          rw [hsame]
          decide
      | positive =>
          show ¬(some ((compare exponent exponent).then (compare mantissa mantissa)) ==
            some .lt) = true
          rw [hsame]
          decide

/-! ## Signs -/

/-- A value below zero. -/
inductive Negative : UnpackedFloat → Prop where
  | infinity : Negative (.infinity .negative)
  | finite (mantissa : Nat) (exponent : Int) (h : 0 < mantissa) :
      Negative (.finite .negative mantissa exponent h)

theorem unpack_zero : (0 : Float32).toModel.unpack = .zero .positive := rfl

theorem lt_zero_iff (x : Float32) : x < 0 ↔ Negative x.toModel.unpack := by
  rw [lt_iff,unpack_zero]
  generalize x.toModel.unpack = u
  constructor
  · intro h
    cases u with
    | infinity sign =>
        cases sign with
        | negative => exact .infinity
        | positive => cases h
    | notANumber => cases h
    | zero sign => cases sign <;> cases h
    | finite sign mantissa exponent hm =>
        cases sign with
        | negative => exact .finite mantissa exponent hm
        | positive => cases h
  · intro h
    cases h <;> rfl

theorem notANumber_nonnegative : ¬Negative .notANumber := by
  intro h
  cases h

theorem zero_nonnegative (sign : Sign) : ¬Negative (.zero sign) := by
  intro h
  cases h

theorem infinity_nonnegative : ¬Negative (.infinity .positive) := by
  intro h
  cases h

theorem finite_nonnegative {mantissa : Nat} {exponent : Int} {hm : 0 < mantissa} :
    ¬Negative (.finite .positive mantissa exponent hm) := by
  intro h
  cases h

theorem infinity_positive {sign : Sign} (h : ¬Negative (.infinity sign)) : sign = .positive := by
  cases sign with
  | negative => exact absurd .infinity h
  | positive => rfl

theorem finite_positive {sign : Sign} {mantissa : Nat} {exponent : Int} {hm : 0 < mantissa}
    (h : ¬Negative (.finite sign mantissa exponent hm)) : sign = .positive := by
  cases sign with
  | negative => exact absurd (.finite mantissa exponent hm) h
  | positive => rfl

theorem unpackSign_packComponents {spec : Format} {sign : Sign}
    {exponent : BitVec spec.exponentBits} {mantissa : BitVec spec.mantissaBitsWithoutImplicit} :
    UnpackedFloat.unpackSign (UnpackedFloat.packComponents spec sign exponent mantissa) =
      sign.toBitVec := by
  have hsplit : UnpackedFloat.unpackSign (UnpackedFloat.packComponents spec sign exponent mantissa) =
      ((sign.toBitVec++exponent++mantissa).extractLsb
        (spec.mantissaBitsWithoutImplicit+spec.exponentBits)
        (spec.mantissaBitsWithoutImplicit+spec.exponentBits)).cast (by omega) := rfl
  refine BitVec.eq_of_getLsbD_eq fun i hi => ?_
  have hi : i = 0 := by omega
  subst hi
  rw [hsplit]
  simp [BitVec.getLsbD_append,BitVec.getElem_append]

theorem unpack_positive {spec : Format} {exponent : BitVec spec.exponentBits}
    {mantissa : BitVec spec.mantissaBitsWithoutImplicit} :
    ¬Negative (UnpackedFloat.unpack spec
      (UnpackedFloat.packComponents spec .positive exponent mantissa)) := by
  have hsign : Sign.ofBitVec (UnpackedFloat.unpackSign
      (UnpackedFloat.packComponents spec .positive exponent mantissa)) = .positive := by
    rw [unpackSign_packComponents]
    rfl
  unfold UnpackedFloat.unpack
  dsimp only
  rw [hsign]
  split
  · split
    · exact infinity_nonnegative
    · exact notANumber_nonnegative
  · split
    · split
      · exact zero_nonnegative _
      · exact finite_nonnegative
    · exact finite_nonnegative

/-- Packing makes nothing negative. -/
theorem unpack_pack {u : UnpackedFloat} (h : ¬Negative u) :
    ¬Negative (UnpackedFloat.unpack .binary32 (UnpackedFloat.pack .binary32 u)) := by
  cases u with
  | infinity sign =>
      rw [infinity_positive h]
      exact unpack_positive
  | notANumber => exact unpack_positive
  | zero sign =>
      cases sign with
      | negative =>
          have hzero : UnpackedFloat.unpack .binary32 (UnpackedFloat.pack .binary32
            (.zero .negative)) = .zero .negative := rfl
          rw [hzero]
          exact zero_nonnegative _
      | positive => exact unpack_positive
  | finite sign mantissa exponent hm =>
      obtain rfl := finite_positive h
      unfold UnpackedFloat.pack
      dsimp only
      split
      · exact unpack_positive
      · split
        · exact unpack_positive
        · exact unpack_positive

theorem roundWithAccuracy_positive {spec : Format} {mantissa : Nat} {exponent : Int}
    {accuracy : UnpackedFloat.Accuracy} :
    ¬Negative (UnpackedFloat.roundWithAccuracy spec .positive mantissa exponent accuracy) := by
  unfold UnpackedFloat.roundWithAccuracy
  dsimp only
  split
  · exact zero_nonnegative _
  · exact finite_nonnegative

theorem normalize_nonnegative {spec : Format} {mantissa exponent : Int} (h : 0 ≤ mantissa) :
    ¬Negative (UnpackedFloat.normalize spec mantissa exponent .positive) := by
  unfold UnpackedFloat.normalize
  split
  · next hlt =>
      rw [Int.compare_eq_lt] at hlt
      omega
  · exact zero_nonnegative _
  · exact roundWithAccuracy_positive

/-- A sum of values not below zero is not below zero. -/
theorem add_nonnegative {x y : Float32} (hx : ¬x < 0) (hy : ¬y < 0) : ¬x+y < 0 := by
  rw [lt_zero_iff] at hx hy ⊢
  refine unpack_pack ?_
  generalize x.toModel.unpack = u at hx
  generalize y.toModel.unpack = v at hy
  unfold UnpackedFloat.add
  split
  · exact notANumber_nonnegative
  · exact notANumber_nonnegative
  · split
    · exact hx
    · exact notANumber_nonnegative
  · exact hx
  · exact hy
  · split
    · exact zero_nonnegative _
    · exact zero_nonnegative _
  · exact hy
  · exact hx
  · obtain rfl := finite_positive hx
    obtain rfl := finite_positive hy
    refine normalize_nonnegative ?_
    exact Int.add_nonneg (Int.natCast_nonneg _) (Int.natCast_nonneg _)

/-- A quotient of values not below zero is not below zero where the divisor is a number but zero. -/
theorem div_nonnegative {x y : Float32} {mantissa : Nat} {exponent : Int} {hm : 0 < mantissa}
    (hx : ¬x < 0) (hy : y.toModel.unpack = .finite .positive mantissa exponent hm) : ¬x/y < 0 := by
  rw [lt_zero_iff] at hx ⊢
  refine unpack_pack ?_
  rw [hy]
  generalize x.toModel.unpack = u at hx
  cases u with
  | infinity sign =>
      obtain rfl := infinity_positive hx
      exact infinity_nonnegative
  | notANumber => exact notANumber_nonnegative
  | zero sign => exact zero_nonnegative _
  | finite sign mantissa' exponent' hm' =>
      obtain rfl := finite_positive hx
      exact roundWithAccuracy_positive

/-- A value less itself is zero or no number. -/
theorem sub_self (u : UnpackedFloat) :
    UnpackedFloat.sub .binary32 u u = .zero .positive ∨
      UnpackedFloat.sub .binary32 u u = .notANumber := by
  cases u with
  | infinity sign => cases sign <;> exact .inr rfl
  | notANumber => exact .inr rfl
  | zero sign => cases sign <;> exact .inl rfl
  | finite sign mantissa exponent hm =>
      left
      unfold UnpackedFloat.sub
      dsimp only
      rw [Int.sub_self]
      rfl

theorem not_one_lt_sub_self (x : Float32) : ¬1 < x-x := by
  rw [lt_iff]
  have hunpack : (x-x).toModel.unpack = UnpackedFloat.unpack .binary32
      (UnpackedFloat.pack .binary32 (.sub .binary32 x.toModel.unpack x.toModel.unpack)) := rfl
  rw [hunpack]
  rcases sub_self x.toModel.unpack with h | h
  · rw [h]
    decide
  · rw [h]
    decide

end Atperson.Floats
