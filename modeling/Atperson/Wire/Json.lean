import Atperson.Wire.CText

/-!
# JSON values

A value as a parser returns it, over a type of numerals. Printing and parsing text are
taken to be faithful; what a C library loses on the way is explicit. A C string handed
to the printer ends at its first NUL, and an integer literal is read as a double.
-/
namespace Atperson.Wire

/-- The bytes of a literal of the source. -/
def utf8 (s : String) : Bytes := s.toUTF8.data.toList

/-- Bytes in a message, a character each. -/
def text (raw : Bytes) : String := String.ofList (raw.map (fun b => Char.ofNat b.toNat))

theorem ofRaw_bytes_of_noNul {s : Bytes} (h : (0 : UInt8) ∉ s) :
    (CString.ofRaw s).bytes = s :=
  congrArg CString.bytes (CString.ofRaw_bytes ⟨s,h⟩)

inductive Json (N : Type) where
  | null
  | bool (b : Bool)
  | number (n : N)
  | string (s : Bytes)
  | array (items : List (Json N))
  | object (members : List (String × Json N))

namespace Json
variable {N : Type}

/-- The first member under a name; values other than objects have none. -/
def get? : Json N → String → Option (Json N)
  | .object members, name => (members.find? (·.1 == name)).map (·.2)
  | _, _ => none

/-- A string as it is printed from `c_str`. -/
def ofCString (raw : Bytes) : Json N := .string (CString.ofRaw raw).bytes

end Json

/-- The integer a double keeps of `n`: 53 significant bits, ties to even. -/
def nearestDouble (n : ℤ) : ℤ :=
  let e := Nat.log2 n.natAbs-52
  let q := n.natAbs/2^e
  let r := n.natAbs%2^e
  let up := if 2*r > 2^e ∨ (2*r = 2^e ∧ q%2 = 1) then 1 else 0
  n.sign*((q+up)*2^e : ℕ)

/-- Every integer up to `2^53` is a double. -/
theorem nearestDouble_of_small {n : ℤ} (h : n.natAbs ≤ 2^53) : nearestDouble n = n := by
  have hself : n.sign*(n.natAbs : ℤ) = n := Int.sign_mul_natAbs n
  rcases lt_or_eq_of_le h with hlt | heq
  · have hlog : Nat.log2 n.natAbs-52 = 0 := by
      rcases eq_or_ne n.natAbs 0 with hz | hz
      · simp [hz]
      · have := (Nat.log2_lt hz).mpr hlt
        omega
    simp only [nearestDouble,hlog,pow_zero,Nat.div_one,Nat.mod_one]
    simpa using hself
  · have hlog : Nat.log2 n.natAbs-52 = 1 := by rw [heq]; decide +kernel
    simp only [nearestDouble,hlog]
    rw [heq] at hself ⊢
    simpa using hself

end Atperson.Wire
