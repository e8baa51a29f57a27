import Atperson.Floats.Binary32

/-!
# Counts as floats

The number a single precision value stands for, and the conversion of whole numbers, which is
exact for all of twenty-four bits.
-/
namespace Atperson.Floats
open Float.Model (UnpackedFloat Format totalExponent)
open Float.Model.UnpackedFloat (Sign ExtendedMantissa shiftToTargetExponent)

/-- The number a value stands for; what is not finite is given zero. -/
def number : UnpackedFloat → ℚ
  | .finite .positive mantissa exponent _ => mantissa*2^exponent
  | .finite .negative mantissa exponent _ => -(mantissa*2^exponent)
  | _ => 0

/-- The number a float stands for. -/
def numberOf (x : Float32) : ℚ := number x.toModel.unpack

section Conversion
variable {m n : ℕ} {e : ℤ}

/-- A mantissa of twenty-four bits stays where it is. -/
theorem shift_normal (hlow : m.log2 = 23) (he : -149 ≤ e) :
    shiftToTargetExponent .binary32 m e .exact = (⟨m,false,false⟩,e) := by
  have htarget : Format.binary32.targetExponent (totalExponent m e) = e := by
    simp only [Format.targetExponent,totalExponent,Format.mantissaBits,Format.minExponent,hlow]
    omega
  unfold UnpackedFloat.shiftToTargetExponent
  rw [htarget]
  simp [UnpackedFloat.shiftToExponent,HShiftRight.hShiftRight,Nat.repeat,
    ExtendedMantissa.ofMantissaAndAccuracy]

theorem roundWithAccuracy_normal (hlow : m.log2 = 23) (hm : 0 < m) (he : -149 ≤ e) :
    UnpackedFloat.roundWithAccuracy .binary32 .positive m e .exact = .finite .positive m e hm := by
  have hrounded : (ExtendedMantissa.mk m false false).roundedMantissa = m := rfl
  unfold UnpackedFloat.roundWithAccuracy
  simp only [shift_normal hlow he,hrounded]
  rw [dif_neg hm.ne']

/-- A positive value with a mantissa of twenty-four bits is packed as it is. -/
theorem unpack_pack_normal (hlow : m.log2 = 23) (hm : 0 < m) (he : -149 ≤ e) (hhigh : e ≤ 104) :
    UnpackedFloat.unpack .binary32 (UnpackedFloat.pack .binary32 (.finite .positive m e hm)) =
      .finite .positive m e hm := by
  obtain ⟨biased,hbiased⟩ : ∃ k : ℕ, e+150 = k := ⟨(e+150).toNat,by omega⟩
  have hfloor : 2^23 ≤ m := hlow ▸ Nat.log2_self_le hm.ne'
  have hceiling : m < 2^24 := (Nat.log2_lt hm.ne').mp (by omega)
  have hexponent : (BitVec.ofNat 8 biased).toNat = biased := by
    rw [BitVec.toNat_ofNat,Nat.mod_eq_of_lt (by omega)]
  have hpacked : UnpackedFloat.pack .binary32 (.finite .positive m e hm) =
      UnpackedFloat.packComponents .binary32 .positive (BitVec.ofNat 8 biased) (BitVec.ofNat 23 m) := by
    have hshift : (e+(Format.binary32.exponentBias : ℕ)+(23 : ℕ)).toNat = biased := by
      have hbias : Format.binary32.exponentBias = 127 := rfl
      omega
    unfold UnpackedFloat.pack
    dsimp only
    rw [hshift,hlow,if_neg (by omega),if_pos (by rfl)]
  have hones : BitVec.ofNat 8 biased ≠ -1#8 := fun heq => by
    have := congrArg BitVec.toNat heq
    rw [hexponent] at this
    have hmax : (-1#8).toNat = 255 := rfl
    omega
  have hzero : BitVec.ofNat 8 biased ≠ 0#8 := fun heq => by
    have := congrArg BitVec.toNat heq
    rw [hexponent] at this
    have hnone : (0#8).toNat = 0 := rfl
    omega
  have hmantissa : (1#1++BitVec.ofNat 23 m).toNat = m := by
    rw [BitVec.toNat_append,BitVec.toNat_ofNat,BitVec.toNat_ofNat]
    have hsplit : (1%2^1) <<< 23 ||| m%2^23 = 2^23*1+m%2^23 :=
      (Nat.two_pow_add_eq_or_of_lt (Nat.mod_lt m (Nat.two_pow_pos 23)) 1).symm
    rw [hsplit]
    omega
  rw [hpacked]
  unfold UnpackedFloat.unpack
  simp only [UnpackedFloat.unpackExponent_packComponents,UnpackedFloat.unpackMantissa_packComponents,
    unpackSign_packComponents]
  rw [if_neg hones,if_neg hzero]
  congr 1
  · rw [hexponent]
    have hbias : Format.binary32.exponentBias = 127 := rfl
    omega

theorem log2_shift (hn : 0 < n) (k : ℕ) : (n*2^k).log2 = n.log2+k := by
  have hpos : n*2^k ≠ 0 := (Nat.mul_pos hn (Nat.two_pow_pos k)).ne'
  rw [Nat.log2_eq_iff hpos,pow_add,add_right_comm,pow_add _ (n.log2+1)]
  exact ⟨Nat.mul_le_mul_right _ (Nat.log2_self_le hn.ne'),
    Nat.mul_lt_mul_of_pos_right Nat.lt_log2_self (Nat.two_pow_pos k)⟩

/-- A whole number of up to twenty-four bits, moved up to have them all. -/
theorem log2_normal (hn : 0 < n) (h : n < 2^24) : n.log2 ≤ 23 ∧ (n*2^(23-n.log2)).log2 = 23 := by
  have hlog := (Nat.log2_lt hn.ne').mpr h
  rw [log2_shift hn]
  omega

theorem round_ofNat (hn : 0 < n) (h : n < 2^24) : ∃ hm, UnpackedFloat.round .binary32 .positive n 0 =
    .finite .positive (n*2^(23-n.log2)) (n.log2-23) hm := by
  obtain ⟨hlog,hlow⟩ := log2_normal hn h
  have htarget : Format.binary32.targetExponent (totalExponent n 0) = n.log2-23 := by
    simp only [Format.targetExponent,totalExponent,Format.mantissaBits,Format.minExponent]
    omega
  have hshift : ((0 : ℤ)-(n.log2-23)).toNat = 23-n.log2 := by omega
  have hm : 0 < n*2^(23-n.log2) := Nat.mul_pos hn (Nat.two_pow_pos _)
  refine ⟨hm,?_⟩
  unfold UnpackedFloat.round
  simp only [htarget,UnpackedFloat.decreaseExponent,hshift,Nat.shiftLeft_eq]
  rw [show (0 : ℤ)-(23-n.log2 : ℕ) = n.log2-23 by omega]
  exact roundWithAccuracy_normal hlow hm (by omega)

/-- Whole numbers of up to twenty-four bits convert to what they are. -/
theorem numberOf_ofNat {n : UInt32} (h : n.toNat ≤ 2^24) : numberOf n.toFloat32 = n.toNat := by
  have hunpack : n.toFloat32.toModel.unpack = UnpackedFloat.unpack .binary32
    (UnpackedFloat.pack .binary32 (UnpackedFloat.normalize .binary32 n.toNat 0 .positive)) := rfl
  rcases Nat.eq_zero_or_pos n.toNat with hzero | hpos
  · obtain rfl : n = 0 := UInt32.toNat_inj.mp hzero
    have hnone : (0 : UInt32).toFloat32.toModel.unpack = .zero .positive := rfl
    rw [numberOf,hnone]
    rfl
  · rcases Nat.lt_or_eq_of_le h with hlt | hmax
    · obtain ⟨hm,hround⟩ := round_ofNat hpos hlt
      obtain ⟨hlog,hlow⟩ := log2_normal hpos hlt
      have hnormal : UnpackedFloat.normalize .binary32 n.toNat 0 .positive =
          UnpackedFloat.round .binary32 .positive n.toNat 0 := by
        unfold UnpackedFloat.normalize
        rw [Int.compare_eq_gt.mpr (Int.natCast_pos.mpr hpos)]
        rfl
      rw [numberOf,hunpack,hnormal,hround,unpack_pack_normal hlow hm (by omega) (by omega)]
      show ((n.toNat*2^(23-n.toNat.log2) : ℕ) : ℚ)*2^((n.toNat.log2 : ℤ)-23) = n.toNat
      have hexponent : (n.toNat.log2 : ℤ)-23 = -((23-n.toNat.log2 : ℕ) : ℤ) := by omega
      rw [hexponent,zpow_neg,zpow_natCast,Nat.cast_mul,Nat.cast_pow,Nat.cast_ofNat,mul_assoc,
        mul_inv_cancel₀ (pow_ne_zero _ two_ne_zero),mul_one]
    · obtain rfl : n = 16777216 := UInt32.toNat_inj.mp hmax
      have hlast : (16777216 : UInt32).toFloat32.toModel.unpack =
        .finite .positive 8388608 1 (by decide) := rfl
      rw [numberOf,hlast]
      have hcount : (16777216 : UInt32).toNat = 8388608*2 := rfl
      show ((8388608 : ℕ) : ℚ)*2^(1 : ℤ) = ((16777216 : UInt32).toNat : ℚ)
      rw [hcount,Nat.cast_mul,zpow_one]
      rfl

end Conversion

end Atperson.Floats
