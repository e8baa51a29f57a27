import Mathlib

/-!
# Little-endian words over byte lists

A word of fixed width is stored least significant byte first. Storing drops
the bits above the width, as the shift-and-mask loops of a byte format do;
loading is exact on what was stored whenever the value fits its width.
-/
namespace Atperson.Wire

abbrev Bytes := List UInt8

/-- The `w` low bytes of `n`, least significant first. -/
def toLE : ℕ → ℕ → Bytes
  | 0, _ => []
  | w+1, n => UInt8.ofNat (n%256)::toLE w (n/256)

def ofLE : Bytes → ℕ
  | [] => 0
  | b::bs => b.toNat+256*ofLE bs

@[simp] theorem toLE_length (w n : ℕ) : (toLE w n).length = w := by
  induction w generalizing n with
  | zero => rfl
  | succ w ih => simp only [toLE,List.length_cons,ih]

theorem ofLE_toLE (w n : ℕ) : ofLE (toLE w n) = n%256^w := by
  induction w generalizing n with
  | zero => simp [toLE,ofLE,Nat.mod_one]
  | succ w ih =>
      have hb : (UInt8.ofNat (n%256)).toNat = n%256 := by
        simp [UInt8.toNat_ofNat']
      simp only [toLE,ofLE,ih,hb]
      rw [pow_succ',Nat.mod_mul]

theorem ofLE_lt (bs : Bytes) : ofLE bs < 256^bs.length := by
  induction bs with
  | nil => simp [ofLE]
  | cons b bs ih =>
      have hb : b.toNat < 256 := b.toNat_lt
      simp only [ofLE,List.length_cons,pow_succ]
      omega

theorem toLE_ofLE (bs : Bytes) : toLE bs.length (ofLE bs) = bs := by
  induction bs with
  | nil => rfl
  | cons b bs ih =>
      have hb : b.toNat < 256 := b.toNat_lt
      simp only [ofLE,List.length_cons,toLE]
      rw [show (b.toNat+256*ofLE bs)%256 = b.toNat by omega,
        show (b.toNat+256*ofLE bs)/256 = ofLE bs by omega,ih,UInt8.ofNat_toNat]

def storeU32 (v : UInt32) : Bytes := toLE 4 v.toNat
def storeU64 (v : UInt64) : Bytes := toLE 8 v.toNat

/-- Loads read the leading bytes of what they are handed; a caller checks first
that enough bytes are there. -/
def loadU32 (bs : Bytes) : UInt32 := UInt32.ofNat (ofLE (bs.take 4))
def loadU64 (bs : Bytes) : UInt64 := UInt64.ofNat (ofLE (bs.take 8))

@[simp] theorem storeU32_length (v : UInt32) : (storeU32 v).length = 4 := toLE_length 4 _
@[simp] theorem storeU64_length (v : UInt64) : (storeU64 v).length = 8 := toLE_length 8 _

@[simp] theorem loadU32_store (v : UInt32) (rest : Bytes) :
    loadU32 (storeU32 v++rest) = v := by
  have h : v.toNat < 256^4 := v.toNat_lt
  rw [loadU32,List.take_left' (storeU32_length v),storeU32,ofLE_toLE,Nat.mod_eq_of_lt h]
  exact UInt32.ofNat_toNat

@[simp] theorem loadU64_store (v : UInt64) (rest : Bytes) :
    loadU64 (storeU64 v++rest) = v := by
  have h : v.toNat < 256^8 := v.toNat_lt
  rw [loadU64,List.take_left' (storeU64_length v),storeU64,ofLE_toLE,Nat.mod_eq_of_lt h]
  exact UInt64.ofNat_toNat

@[simp] theorem loadU32_store_nil (v : UInt32) : loadU32 (storeU32 v) = v := by
  simpa using loadU32_store v []

@[simp] theorem loadU64_store_nil (v : UInt64) : loadU64 (storeU64 v) = v := by
  simpa using loadU64_store v []

theorem storeU32_load {bs : Bytes} (h : 4 ≤ bs.length) : storeU32 (loadU32 bs) = bs.take 4 := by
  have hl : (bs.take 4).length = 4 := by rw [List.length_take]; omega
  have hlt : ofLE (bs.take 4) < 2^32 := by
    have := ofLE_lt (bs.take 4)
    rw [hl] at this
    omega
  rw [storeU32,loadU32,UInt32.toNat_ofNat',Nat.mod_eq_of_lt hlt]
  simpa only [hl] using toLE_ofLE (bs.take 4)

theorem storeU64_injective : Function.Injective storeU64 := fun a b h => by
  rw [← loadU64_store_nil a,h,loadU64_store_nil]

/-- One round of the FNV-1a hash over a byte. -/
def fnvRound (h : UInt64) (b : UInt8) : UInt64 := (h^^^b.toUInt64)*1099511628211

/-- FNV-1a over a byte list, continued from a running value. -/
def fnvFrom (h : UInt64) (bs : Bytes) : UInt64 := bs.foldl fnvRound h

def fnv1a64 (bs : Bytes) : UInt64 := fnvFrom 1469598103934665603 bs

end Atperson.Wire
