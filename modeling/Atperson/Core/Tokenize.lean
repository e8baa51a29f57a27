import Atperson.Core.Types

/-!
# Tokenization

The scanner of schema 1 works on bytes and is given whole. The scanner of schema 2 works
on what the Unicode library makes of the text, so that library is a parameter: how it
decodes one sequence, how it normalizes, and which codepoints are letters, marks or
numbers. Both cut a token at the size of the token buffer.

The callback is a step on a walk's state that may stop the scan.
-/
namespace Atperson.Core
open Wire

/-- The token a scanner's buffer is read as. -/
def Token.ofBuffer (buffer : Bytes) : Token := CText.truncate (CString.ofRaw buffer)

/-! ## Schema 1 -/

def legacyTokenByte (b : UInt8) : Bool :=
  b ≥ 0x80 || (97 ≤ b && b ≤ 122) || (65 ≤ b && b ≤ 90) || (48 ≤ b && b ≤ 57) ||
    b = 39 || b = 45 || b = 95

def legacyLower (b : UInt8) : UInt8 := if 65 ≤ b && b ≤ 90 then b-65+97 else b

/-- `atp_tokenize_legacy`, with the token read so far. -/
def legacyScan : Bytes → Bytes → List Token
  | token, [] => if token = [] then [] else [Token.ofBuffer token]
  | token, b::rest =>
      if legacyTokenByte b then
        legacyScan (if token.length+1 < tokenBytes then token++[legacyLower b] else token) rest
      else if token = [] then legacyScan [] rest
      else Token.ofBuffer token::legacyScan [] rest

/-! ## Schema 2 -/

inductive UnicodeClass where
  | letter | mark | number | other
  deriving DecidableEq

/-- What the tokenizer uses of the Unicode library. -/
structure Utf8proc where
  /-- `utf8proc_iterate`: the length of the first sequence and its codepoint. -/
  iterate : Bytes → ℤ×ℤ
  /-- `utf8proc_map` under the options of schema 2. -/
  map : Bytes → Option Bytes
  /-- The class of a codepoint's general category, if it has properties. -/
  classOf : ℤ → Option UnicodeClass

section Unicode
variable (U : Utf8proc)

/-- U+FFFD. -/
def replacement : Bytes := [0xEF,0xBF,0xBD]

/-- `atp_sanitize_utf8`, with fuel for the bytes left. -/
def sanitizeUtf8 : ℕ → Bytes → Bytes
  | 0, _ => []
  | _, [] => []
  | fuel+1, bs =>
      let (step,codepoint) := U.iterate bs
      if step < 1 ∨ codepoint < 0 then replacement++sanitizeUtf8 fuel (bs.drop 1)
      else bs.take step.toNat++sanitizeUtf8 fuel (bs.drop step.toNat)

def codepointIsToken (codepoint : ℤ) : Bool :=
  match U.classOf codepoint with
  | some .letter | some .mark | some .number => true
  | _ => false

/-- The scan of `atp_tokenize_unicode` over the normalized text. -/
def unicodeScan : ℕ → Bytes → Bytes → List Token
  | 0, token, _ => if token = [] then [] else [Token.ofBuffer token]
  | _, token, [] => if token = [] then [] else [Token.ofBuffer token]
  | fuel+1, token, bs =>
      let (step,codepoint) := U.iterate bs
      if step < 1 ∨ codepoint = -1 then unicodeScan fuel token (bs.drop 1)
      else if codepointIsToken U codepoint ∨ codepoint = 95 ∨ codepoint = 39 ∨ codepoint = 45 then
        unicodeScan fuel
          (if token.length+step.toNat < tokenBytes then token++bs.take step.toNat else token)
          (bs.drop step.toNat)
      else if token = [] then unicodeScan fuel [] (bs.drop step.toNat)
      else Token.ofBuffer token::unicodeScan fuel [] (bs.drop step.toNat)

def tokenizeUnicode (text : Bytes) : List Token :=
  match U.map (sanitizeUtf8 U text.length text) with
  | none => []
  | some normalized =>
      let cursor := (CString.ofRaw normalized).bytes
      unicodeScan U cursor.length [] cursor

/-- The tokens `atp_tokenize` emits. -/
def tokenize (schema : UInt32) (text : Text) : List Token :=
  if schema ≤ 1 then legacyScan [] text.bytes else tokenizeUnicode U text.bytes

end Unicode

/-- The length of a sequence by its first byte, 0 where none starts. -/
def utf8Length (b : UInt8) : ℕ :=
  if b < 0x80 then 1
  else if 0xC2 ≤ b && b < 0xE0 then 2
  else if 0xE0 ≤ b && b < 0xF0 then 3
  else if 0xF0 ≤ b && b < 0xF5 then 4
  else 0

def utf8Iterate : Bytes → ℤ×ℤ
  | [] => (0,-1)
  | b::rest =>
      let n := utf8Length b
      let tail := rest.take (n-1)
      if n = 0 ∨ tail.length+1 < n ∨ tail.any (fun c => c < 0x80 || 0xC0 ≤ c) then (-3,-1)
      else
        let lead := if n = 1 then b.toNat else b.toNat%2^(7-n)
        ((n : ℤ),((tail.foldl (fun code c => code*64+c.toNat%64) lead : ℕ) : ℤ))

/-- The library as it behaves on ASCII letters and digits, emoji and invalid bytes. -/
def Utf8proc.plain : Utf8proc where
  iterate := utf8Iterate
  map text := some (text.map legacyLower)
  classOf codepoint :=
    if (97 ≤ codepoint ∧ codepoint ≤ 122) ∨ (65 ≤ codepoint ∧ codepoint ≤ 90) then some .letter
    else if 48 ≤ codepoint ∧ codepoint ≤ 57 then some .number
    else some .other

/-- Hand tokens to a callback until it stops the scan. -/
def emitAll {W : Type} (emit : W → Token → W×Bool) : W → List Token → W
  | w, [] => w
  | w, t::ts => if (emit w t).2 then emitAll emit (emit w t).1 ts else (emit w t).1

/-! ## A byte scan emits no more tokens than bytes -/

theorem legacyScan_length (token bs : Bytes) :
    (legacyScan token bs).length ≤ bs.length+(if token = [] then 0 else 1) := by
  induction bs generalizing token with
  | nil =>
      unfold legacyScan
      split <;> simp
  | cons b rest ih =>
      unfold legacyScan
      split
      · refine (ih _).trans ?_
        rw [List.length_cons]
        split_ifs <;> omega
      · have h := ih []
        rw [if_pos rfl] at h
        split
        · rw [List.length_cons]
          omega
        · simp only [List.length_cons]
          omega

end Atperson.Core
