import Atperson.Wire.Instant

/-!
# UTF-8

The encoding of a character is a first byte, which tells how many bytes follow and holds the
highest digits of its codepoint, and one byte for each further digit in base 64.
-/
namespace Atperson.Wire.Utf8

/-- The bytes after the first: the last `k` digits in base 64, each marked. -/
def tails : ℕ → ℕ → Bytes
  | 0, _ => []
  | k+1, v => UInt8.ofNat (0x80+v/64^k%64)::tails k v

/-- How many bytes follow the first. -/
def tailCount (v : ℕ) : ℕ :=
  if v ≤ 0x7f then 0 else if v ≤ 0x7ff then 1 else if v ≤ 0xffff then 2 else 3

/-- The mark of a first byte that so many bytes follow. -/
def leadMark : ℕ → ℕ
  | 0 => 0
  | 1 => 0xc0
  | 2 => 0xe0
  | _ => 0xf0

/-- How many values a first byte with this mark holds. -/
def leadRoom : ℕ → ℕ
  | 0 => 128
  | 1 => 32
  | 2 => 16
  | _ => 8

theorem tailCount_le (v : ℕ) : tailCount v ≤ 3 := by
  unfold tailCount
  split_ifs <;> omega

@[simp] theorem length_tails (k v : ℕ) : (tails k v).length = k := by
  induction k with
  | zero => rfl
  | succ k ih => rw [tails,List.length_cons,ih]

/-- A number has just so many digits that the first byte has room for the highest. -/
theorem high_lt {v : ℕ} (h : v < 0x110000) : v/64^tailCount v < leadRoom (tailCount v) := by
  unfold tailCount
  split_ifs <;> simp only [leadRoom] <;> omega

theorem toNat_lt (c : Char) : c.toNat < 0x110000 := by
  have h := c.valid
  show c.val.toNat < 0x110000
  rcases h with h | h <;> omega

theorem utf8EncodeChar_eq (c : Char) : String.utf8EncodeChar c =
    UInt8.ofNat (leadMark (tailCount c.toNat)+c.toNat/64^tailCount c.toNat)::
      tails (tailCount c.toNat) c.toNat := by
  have hvalid := toNat_lt c
  show String.utf8EncodeChar c = UInt8.ofNat (leadMark (tailCount c.val.toNat)+
    c.val.toNat/64^tailCount c.val.toNat)::tails (tailCount c.val.toNat) c.val.toNat
  change c.val.toNat < 0x110000 at hvalid
  unfold String.utf8EncodeChar tailCount
  generalize c.val.toNat = v at *
  dsimp only
  split_ifs
  · simp [leadMark,tails]
  · have hhigh : v/64%32 = v/64 := Nat.mod_eq_of_lt (by omega)
    simp only [leadMark,tails,pow_one,pow_zero,Nat.div_one,hhigh]
    rw [Nat.add_comm (v/64),Nat.add_comm (v%64)]
  · have hhigh : v/4096%16 = v/4096 := Nat.mod_eq_of_lt (by omega)
    simp only [leadMark,tails,pow_one,pow_zero,Nat.div_one,hhigh,show 64^2 = 4096 from rfl]
    rw [Nat.add_comm (v/4096),Nat.add_comm (v/64%64),Nat.add_comm (v%64)]
  · have hhigh : v/262144%8 = v/262144 := Nat.mod_eq_of_lt (by omega)
    simp only [leadMark,tails,pow_one,pow_zero,Nat.div_one,hhigh,show 64^2 = 4096 from rfl,
      show 64^3 = 262144 from rfl]
    rw [Nat.add_comm (v/262144),Nat.add_comm (v/4096%64),Nat.add_comm (v/64%64),
      Nat.add_comm (v%64)]

/-- The encoding of a text. -/
def encode (cs : List Char) : Bytes := cs.flatMap String.utf8EncodeChar

/-- Bytes that encode some text. -/
def Valid (bytes : Bytes) : Prop := ∃ cs, encode cs = bytes

theorem encode_cons (c : Char) (cs : List Char) :
    encode (c::cs) = String.utf8EncodeChar c++encode cs := rfl

end Atperson.Wire.Utf8
