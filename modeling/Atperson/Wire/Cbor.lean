import Atperson.Wire.LittleEndian
import Mathlib.Tactic.Ring

/-!
# Binary items of definite length

The grammar of the encoding: a head with a major type and an argument, the bytes and the items that
follow it, and how deep items nest.
-/
namespace Atperson.Wire.Cbor

/-- What bytes stand for, the highest first. -/
def bigEndian (bs : Bytes) : ℕ := bs.foldl (fun n b => 256*n+b.toNat) 0

/-- A head of definite length, its major type and its argument. -/
inductive Header : Bytes → ℕ → ℕ → Prop
  | short {major info : ℕ} : major < 8 → info < 24 → Header [UInt8.ofNat (32*major+info)] major info
  | wide {major k : ℕ} {bs : Bytes} : major < 8 → k < 4 → bs.length = 2^k →
      Header (UInt8.ofNat (32*major+(24+k))::bs) major (bigEndian bs)

/-- How many bytes of its own follow a head. -/
def payloadOf (major argument : ℕ) : ℕ := if major = 2 ∨ major = 3 then argument else 0

/-- How many items belong to a head: those of an array, the pairs of a map, the item of a tag. -/
def membersOf (major argument : ℕ) : ℕ :=
  if major = 4 then argument else if major = 5 then 2*argument else if major = 6 then 1 else 0

/-- So many items one behind another, and how many containers and tags with members nest in them. -/
inductive Items : ℕ → Bytes → ℕ → Prop
  | none : Items 0 [] 0
  | next {n major argument d e : ℕ} {head payload members rest : Bytes} : Header head major argument →
      payload.length = payloadOf major argument → Items (membersOf major argument) members d →
      Items n rest e → Items (n+1) (head++payload++members++rest)
        (max (if membersOf major argument = 0 then 0 else d+1) e)

theorem Header.length_pos {head : Bytes} {major argument : ℕ} (h : Header head major argument) :
    0 < head.length := by
  cases h with
  | short => exact Nat.one_pos
  | wide => exact Nat.succ_pos _

/-- An item takes a byte at least. -/
theorem Items.le_length {n d : ℕ} {bs : Bytes} (h : Items n bs d) : n ≤ bs.length := by
  induction h with
  | none => exact le_rfl
  | next hhead _ _ _ _ ih =>
      have := hhead.length_pos
      simp only [List.length_append]
      omega

theorem bigEndian_cons (b : UInt8) (bs : Bytes) :
    bigEndian (b::bs) = b.toNat*256^bs.length+bigEndian bs := by
  have hfold : ∀ n, bs.foldl (fun n b => 256*n+b.toNat) n = n*256^bs.length+bigEndian bs := by
    induction bs with
    | nil => simp [bigEndian]
    | cons c cs ih =>
        intro n
        rw [bigEndian,List.foldl_cons,List.foldl_cons,ih,ih,List.length_cons,pow_succ]
        ring
  rw [bigEndian,List.foldl_cons,hfold,Nat.mul_zero,Nat.zero_add]

theorem bigEndian_concat (bs : Bytes) (b : UInt8) :
    bigEndian (bs++[b]) = 256*bigEndian bs+b.toNat := by
  rw [bigEndian,List.foldl_append]
  rfl

theorem bigEndian_lt (bs : Bytes) : bigEndian bs < 256^bs.length := by
  induction bs using List.reverseRecOn with
  | nil => exact Nat.one_pos
  | append_singleton bs b ih =>
      have hb := b.toNat_lt
      rw [bigEndian_concat,List.length_append,List.length_singleton,pow_succ]
      omega

end Atperson.Wire.Cbor
