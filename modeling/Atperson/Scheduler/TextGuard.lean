import Atperson.Lock.StateLock
import Atperson.Wire.Json
import Atperson.Wire.Occurrences

/-!
# The output guard

The last check of a text that is published without an operator. Every rule reads bytes, and the
classes of bytes are those of the C locale.
-/
namespace Atperson.Scheduler
open Wire
open Lock (isSpace)

def isAlpha (c : UInt8) : Bool := (65 ≤ c && c ≤ 90) || (97 ≤ c && c ≤ 122)

def isAlnum (c : UInt8) : Bool := isAlpha c || isDigit c

def isWordByte (c : UInt8) : Bool := isAlnum c || c = 95 || 0x80 ≤ c

def lowerByte (c : UInt8) : UInt8 := if 65 ≤ c && c ≤ 90 then c-65+97 else c

def lowerAscii (text : Bytes) : Bytes := text.map lowerByte

/-! ## Codepoints -/

/-- How long a sequence with this first byte is, and the bits that the byte holds. -/
def leadByte (lead : UInt8) : Option (ℕ×UInt32) :=
  if lead < 0x80 then some (1,lead.toUInt32)
  else if lead &&& 0xE0 = 0xC0 then some (2,(lead &&& 0x1F).toUInt32)
  else if lead &&& 0xF0 = 0xE0 then some (3,(lead &&& 0x0F).toUInt32)
  else if lead &&& 0xF8 = 0xF0 then some (4,(lead &&& 0x07).toUInt32)
  else none

/-- The codepoint with the bits of the bytes that follow. -/
def continued (code : UInt32) : Bytes → Option UInt32
  | [] => some code
  | next::rest =>
      if next &&& 0xC0 ≠ 0x80 then none
      else continued (code <<< 6 ||| (next &&& 0x3F).toUInt32) rest

/-- Overlong encodings, surrogates and values out of range. -/
def misencoded (length : ℕ) (code : UInt32) : Bool :=
  (length = 2 && code < 0x80) || (length = 3 && code < 0x800) ||
    (length = 4 && code < 0x10000) || (0xD800 ≤ code && code ≤ 0xDFFF) || 0x10FFFF < code

/-- The length of the sequence at the front. -/
def sequenceLength : Bytes → Option ℕ
  | [] => none
  | lead::rest => do
      let (length,code) ← leadByte lead
      if rest.length+1 < length then none else
      let code ← continued code (rest.take (length-1))
      if misencoded length code then none else some length

/-- The loop of `utf8_codepoints`, with fuel for the bytes left. -/
def countSequences : ℕ → Bytes → Option ℕ
  | _, [] => some 0
  | 0, _ => none
  | fuel+1, text => do
      let length ← sequenceLength text
      (countSequences fuel (text.drop length)).map (·+1)

/-- `utf8_codepoints`: how many, if the bytes are valid. -/
def utf8Codepoints (text : Bytes) : Option ℕ := countSequences text.length text

/-! ## Shapes -/

def wordAt (text : Bytes) (pos : ℕ) : Bool := (text[pos]?.map isWordByte).getD false

/-- `has_word_at`, at a position where the word is. -/
def hasWordAt (text word : Bytes) (pos : ℕ) : Bool :=
  (pos = 0 || !wordAt text (pos-1)) && !wordAt text (pos+word.length)

def containsWord (lowered word : Bytes) : Bool :=
  word ≠ [] && matchesAny lowered word (hasWordAt lowered word)

/-- One dot of `has_domain_shape`. -/
def domainAt (lowered : Bytes) (dot : ℕ) : Bool :=
  dot ≠ 0 && dot+1 < lowered.length &&
    (lowered[dot-1]?.map fun before => isAlnum before || before = 45).getD false &&
    (let tld := (lowered.drop (dot+1)).takeWhile isAlpha
     2 ≤ tld.length && !wordAt lowered (dot+1+tld.length))

def hasDomainShape (lowered : Bytes) : Bool := matchesAny lowered [46] (domainAt lowered)

def followedByWord (text : Bytes) (marker : UInt8) : Bool :=
  matchesAny text [marker] fun pos => wordAt text (pos+1)

def termMatches (lowered term : Bytes) : Bool :=
  if term.all isWordByte then containsWord lowered term else (find lowered term).isSome

/-! ## The verdict -/

/-- The text so far, and whether a gap came since the last word byte. -/
def normalizeStep (s : Bytes×Bool) (raw : UInt8) : Bytes×Bool :=
  if isWordByte raw then
    ((if s.2 ∧ s.1 ≠ [] then s.1++[32] else s.1)++[lowerByte raw],false)
  else (s.1,true)

def normalizeForRepeat (text : Bytes) : Bytes := (text.foldl normalizeStep ([],false)).1

structure TextGuardConfig where
  maxCodepoints : ℕ := 300
  deniedTerms : List Bytes := []
  repeatWindowSeconds : ℤ := 7*24*60*60

inductive TextRefusal where
  | none | empty | invalidUtf8 | tooLong | url | mention | hashtag | deniedTerm | repeatedText
  deriving DecidableEq

structure TextVerdict where
  refusal : TextRefusal
  detail : Bytes
  deriving DecidableEq

def TextVerdict.allowed (verdict : TextVerdict) : Bool := verdict.refusal = .none

structure RecentText where
  text : Bytes
  atEpoch : ℤ

/-- A scheme, `www`, or the shape of a domain. -/
def hasUrl (lowered : Bytes) : Bool :=
  (find lowered (utf8 "://")).isSome || (find lowered (utf8 "www.")).isSome ||
    containsWord lowered (utf8 "http") || containsWord lowered (utf8 "https") ||
    containsWord lowered (utf8 "www") || hasDomainShape lowered

/-- A handle, or a DID. -/
def hasMention (text lowered : Bytes) : Bool :=
  followedByWord text 64 || (find lowered (utf8 "did:")).isSome

def deniedTerm (config : TextGuardConfig) (lowered : Bytes) : Option Bytes :=
  config.deniedTerms.find? fun term => term ≠ [] && termMatches lowered term

def isRepeat (text : Bytes) (config : TextGuardConfig) (recent : List RecentText) (nowEpoch : ℤ) :
    Bool :=
  0 < config.repeatWindowSeconds && recent.any fun earlier =>
    nowEpoch-earlier.atEpoch ≤ config.repeatWindowSeconds &&
      normalizeForRepeat earlier.text = normalizeForRepeat text

def checkOutputText (text : Bytes) (config : TextGuardConfig) (recent : List RecentText)
    (nowEpoch : ℤ) : TextVerdict :=
  if text.all isSpace then ⟨.empty,[]⟩ else
  match utf8Codepoints text with
  | none => ⟨.invalidUtf8,[]⟩
  | some codepoints =>
      if config.maxCodepoints < codepoints then
        ⟨.tooLong,formatPadded 1 codepoints++utf8 " > "++formatPadded 1 config.maxCodepoints⟩ else
      let lowered := lowerAscii text
      if hasUrl lowered then ⟨.url,[]⟩
      else if hasMention text lowered then ⟨.mention,[]⟩
      else if followedByWord text 35 then ⟨.hashtag,[]⟩
      else match deniedTerm config lowered with
        | some term => ⟨.deniedTerm,term⟩
        | none =>
            if isRepeat text config recent nowEpoch then ⟨.repeatedText,[]⟩ else ⟨.none,[]⟩

end Atperson.Scheduler
