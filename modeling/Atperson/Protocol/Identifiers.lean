import Atperson.Sync.Jetstream

/-!
# Identifiers

The scanners for handles, NSIDs, record keys and AT URIs. Each reads its bytes once, from the left.
-/
namespace Atperson.Protocol
open Wire
open Sync (isDid)

/-- Lower-case letters, digits and hyphens. -/
def isLabelByte (c : UInt8) : Bool := (97 ≤ c && c ≤ 122) || isDigit c || c = 45

/-- Empty, or with a hyphen at an end. -/
def badEdges (label : Bytes) : Bool :=
  label = [] || label.head? = some 45 || label.getLast? = some 45

/-! ## NSIDs -/

/-- The loop of `is_nsid`: the bytes since `start`, and the components before it. -/
def nsidFrom (label : Bytes) (components : ℕ) : Bytes → Option (Bytes×ℕ)
  | [] => some (label,components)
  | c::rest =>
      if c = 46 then if badEdges label then none else nsidFrom [] (components+1) rest
      else if isLabelByte c then nsidFrom (label++[c]) components rest
      else none

def isNsid (value : Bytes) : Bool :=
  if value = [] ∨ value.head? = some 46 ∨ value.getLast? = some 46 then false
  else match nsidFrom [] 0 value with
    | none => false
    | some (label,components) =>
        !(label = [] || label.head? = some 45 || value.getLast? = some 45) && 3 ≤ components+1

/-! ## Handles -/

/-- The loop of `is_handle`, from the start of a label, with fuel for the bytes left. -/
def handleFrom : ℕ → Bytes → Bool
  | 0, _ => true
  | n+1, value =>
      let label := value.takeWhile (· ≠ 46)
      if value = [] then true
      else if badEdges label || !label.all isLabelByte then false
      else if label.length = value.length then true
      else handleFrom n (value.drop (label.length+1))

def isHandle (value : Bytes) : Bool :=
  value ≠ [] && !(utf8 "did:").isPrefixOf value && value.contains 46 &&
    !value.any (fun c => (utf8 " /?#:@").contains c) && handleFrom value.length value

/-! ## Record keys -/

def isKeyByte (c : UInt8) : Bool :=
  (97 ≤ c && c ≤ 122) || (65 ≤ c && c ≤ 90) || isDigit c || c = 46 || c = 95 || c = 58 ||
    c = 126 || c = 45

def isRecordKey (value : Bytes) : Bool :=
  value ≠ [] && value.length ≤ 512 && value ≠ [46] && value ≠ [46,46] && value.all isKeyByte

/-! ## AT URIs -/

structure AtUri where
  did : Bytes
  collection : Bytes
  rkey : Bytes
  deriving DecidableEq

def AtUri.print (u : AtUri) : Bytes :=
  utf8 "at://"++u.did++47::u.collection++47::u.rkey

def parseAtUri (value : Bytes) : Option AtUri :=
  if ¬(utf8 "at://").isPrefixOf value ∨ value.any (fun c => c = 63 || c = 35) then none else
  let value := value.drop 5
  let did := value.takeWhile (· ≠ 47)
  if did.length = value.length ∨ did = [] then none else
  let rest := value.drop (did.length+1)
  let collection := rest.takeWhile (· ≠ 47)
  if collection.length = rest.length ∨ collection = [] ∨ collection.length+1 = rest.length then none
  else
    let out : AtUri := ⟨did,collection,rest.drop (collection.length+1)⟩
    if ¬isDid out.did ∨ ¬isNsid out.collection ∨ 47 ∈ out.rkey then none else some out

end Atperson.Protocol
