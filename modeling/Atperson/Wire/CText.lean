import Atperson.Wire.LittleEndian

/-!
# NUL-terminated text

`CString` is the content of a C string argument: any bytes but NUL. `CText cap`
is the content of a terminated `char[cap]` array, so its length is below `cap`.
Raw bytes copied into such an array and terminated read back up to their first
NUL, which is what `CText.ofRaw` keeps.
-/
namespace Atperson.Wire

@[ext] structure CString where
  bytes : Bytes
  noNul : (0 : UInt8) ∉ bytes
  deriving DecidableEq

namespace CString

def empty : CString := ⟨[],by simp⟩

instance : Inhabited CString := ⟨empty⟩

/-- What a C caller sees of arbitrary bytes passed as a string. -/
def ofRaw (raw : Bytes) : CString :=
  ⟨raw.takeWhile (· != 0),fun h => by simpa using List.mem_takeWhile_imp h⟩

def strlen (s : CString) : ℕ := s.bytes.length

@[simp] theorem ofRaw_bytes (s : CString) : ofRaw s.bytes = s := by
  have h : s.bytes.takeWhile (· != 0) = s.bytes := by
    rw [List.takeWhile_eq_self_iff]
    intro b hb
    have hn : b ≠ 0 := fun he => s.noNul (he ▸ hb)
    simpa using hn
  exact CString.ext h

end CString

@[ext] structure CText (cap : ℕ) where
  bytes : Bytes
  fits : bytes.length < cap
  noNul : (0 : UInt8) ∉ bytes
  deriving DecidableEq

namespace CText
variable {cap : ℕ}

def empty : CText (cap+1) := ⟨[],by simp,by simp⟩

instance : Inhabited (CText (cap+1)) := ⟨empty⟩

def strlen (s : CText cap) : ℕ := s.bytes.length

def toCString (s : CText cap) : CString := ⟨s.bytes,s.noNul⟩

/-- Copy raw bytes into the array and terminate them. -/
def ofRaw (raw : Bytes) (h : raw.length < cap) : CText cap where
  bytes := raw.takeWhile (· != 0)
  fits := ((List.takeWhile_prefix _).length_le).trans_lt h
  noNul := (CString.ofRaw raw).noNul

/-- The array holds a C string whole exactly when its terminator fits too. -/
def ofCString? (s : CString) : Option (CText cap) :=
  if h : s.bytes.length < cap then some ⟨s.bytes,h,s.noNul⟩ else none

/-- `strncpy` of at most `cap-1` bytes into a zeroed array. -/
def truncate (s : CString) : CText (cap+1) where
  bytes := s.bytes.take cap
  fits := by simp only [List.length_take]; omega
  noNul := fun h => s.noNul (List.mem_of_mem_take h)

theorem ofRaw_bytes (s : CText cap) : ofRaw s.bytes s.fits = s :=
  CText.ext (congrArg CString.bytes (CString.ofRaw_bytes s.toCString))

@[simp] theorem ofCString?_toCString (s : CText cap) :
    ofCString? s.toCString = some s := by
  simp [ofCString?,toCString,s.fits]

theorem ofCString?_eq_some {s : CString} {t : CText cap} (h : ofCString? s = some t) :
    t.bytes = s.bytes := by
  unfold ofCString? at h
  split at h
  · exact (congrArg CText.bytes (Option.some.inj h)).symm
  · cases h

@[simp] theorem truncate_toCString (s : CText (cap+1)) : truncate s.toCString = s :=
  CText.ext (List.take_of_length_le (Nat.lt_succ_iff.mp s.fits))

end CText

end Atperson.Wire
