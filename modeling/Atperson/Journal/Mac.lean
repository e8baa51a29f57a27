import Atperson.Journal.Types

/-!
# The journal's MAC

SHA-256 byte by byte as the runtime computes it, the keyed hash over it, and the MAC of an
executed record: what is signed, how it is made and how it is checked again.
-/
namespace Atperson.Journal
open Wire

/-! ## SHA-256 -/

structure HashWords where
  a : UInt32
  b : UInt32
  c : UInt32
  d : UInt32
  e : UInt32
  f : UInt32
  g : UInt32
  h : UInt32
  deriving DecidableEq

def HashWords.initial : HashWords :=
  ⟨0x6a09e667,0xbb67ae85,0x3c6ef372,0xa54ff53a,0x510e527f,0x9b05688c,0x1f83d9ab,0x5be0cd19⟩

def roundConstants : List UInt32 :=
  [0x428a2f98,0x71374491,0xb5c0fbcf,0xe9b5dba5,0x3956c25b,0x59f111f1,0x923f82a4,0xab1c5ed5,
    0xd807aa98,0x12835b01,0x243185be,0x550c7dc3,0x72be5d74,0x80deb1fe,0x9bdc06a7,0xc19bf174,
    0xe49b69c1,0xefbe4786,0x0fc19dc6,0x240ca1cc,0x2de92c6f,0x4a7484aa,0x5cb0a9dc,0x76f988da,
    0x983e5152,0xa831c66d,0xb00327c8,0xbf597fc7,0xc6e00bf3,0xd5a79147,0x06ca6351,0x14292967,
    0x27b70a85,0x2e1b2138,0x4d2c6dfc,0x53380d13,0x650a7354,0x766a0abb,0x81c2c92e,0x92722c85,
    0xa2bfe8a1,0xa81a664b,0xc24b8b70,0xc76c51a3,0xd192e819,0xd6990624,0xf40e3585,0x106aa070,
    0x19a4c116,0x1e376c08,0x2748774c,0x34b0bcb5,0x391c0cb3,0x4ed8aa4a,0x5b9cca4f,0x682e6ff3,
    0x748f82ee,0x78a5636f,0x84c87814,0x8cc70208,0x90befffa,0xa4506ceb,0xbef9a3f7,0xc67178f2]

def rotr (x n : UInt32) : UInt32 := (x >>> n) ||| (x <<< (32-n))

/-- The first sixteen words of the schedule, big-endian. -/
def chunkWords : Bytes → List UInt32
  | p::q::r::s::rest =>
      ((p.toUInt32 <<< 24) ||| (q.toUInt32 <<< 16) ||| (r.toUInt32 <<< 8) ||| s.toUInt32)::
        chunkWords rest
  | _ => []

/-- The word behind the ones there are. -/
def nextWord (w : List UInt32) : UInt32 :=
  let i := w.length
  let x := w.getD (i-15) 0
  let y := w.getD (i-2) 0
  let s0 := rotr x 7 ^^^ rotr x 18 ^^^ (x >>> 3)
  let s1 := rotr y 17 ^^^ rotr y 19 ^^^ (y >>> 10)
  w.getD (i-16) 0+s0+w.getD (i-7) 0+s1

def schedule : ℕ → List UInt32 → List UInt32
  | 0, w => w
  | n+1, w => schedule n (w++[nextWord w])

def hashRound (s : HashWords) (kw : UInt32×UInt32) : HashWords :=
  let S1 := rotr s.e 6 ^^^ rotr s.e 11 ^^^ rotr s.e 25
  let ch := (s.e &&& s.f) ^^^ (~~~s.e &&& s.g)
  let temp1 := s.h+S1+ch+kw.1+kw.2
  let S0 := rotr s.a 2 ^^^ rotr s.a 13 ^^^ rotr s.a 22
  let maj := (s.a &&& s.b) ^^^ (s.a &&& s.c) ^^^ (s.b &&& s.c)
  let temp2 := S0+maj
  ⟨temp1+temp2,s.a,s.b,s.c,s.d+temp1,s.e,s.f,s.g⟩

def transform (s : HashWords) (chunk : Bytes) : HashWords :=
  let r := (roundConstants.zip (schedule 48 (chunkWords chunk))).foldl hashRound s
  ⟨s.a+r.a,s.b+r.b,s.c+r.c,s.d+r.d,s.e+r.e,s.f+r.f,s.g+r.g,s.h+r.h⟩

structure Sha256 where
  state : HashWords
  count : UInt64
  buffer : Bytes

namespace Sha256

def reset : Sha256 := ⟨.initial,0,[]⟩

def feed (s : Sha256) (byte : UInt8) : Sha256 :=
  let buffer := s.buffer++[byte]
  if buffer.length = 64 then ⟨transform s.state buffer,s.count+512,[]⟩ else {s with buffer := buffer}

def update (s : Sha256) (data : Bytes) : Sha256 := data.foldl feed s

def lengthBytes (bits : UInt64) : Bytes :=
  [(bits >>> 56).toUInt8,(bits >>> 48).toUInt8,(bits >>> 40).toUInt8,(bits >>> 32).toUInt8,
    (bits >>> 24).toUInt8,(bits >>> 16).toUInt8,(bits >>> 8).toUInt8,bits.toUInt8]

def wordBytes (word : UInt32) : Bytes :=
  [(word >>> 24).toUInt8,(word >>> 16).toUInt8,(word >>> 8).toUInt8,word.toUInt8]

def final (s : Sha256) : Bytes :=
  let totalBits := s.count+UInt64.ofNat (s.buffer.length*8)
  let buffer := s.buffer++[0x80]
  let (state,buffer) :=
    if 56 < buffer.length then (transform s.state (buffer++List.replicate (64-buffer.length) 0),[])
    else (s.state,buffer)
  let r := transform state (buffer++List.replicate (56-buffer.length) 0++lengthBytes totalBits)
  [r.a,r.b,r.c,r.d,r.e,r.f,r.g,r.h].flatMap wordBytes

end Sha256

def hexSign (n : UInt8) : UInt8 := if n < 10 then 48+n else 87+n

/-- Two lower-case digits a byte. -/
def hexText (bytes : Bytes) : Bytes :=
  bytes.flatMap fun (b : UInt8) => [hexSign (b >>> 4),hexSign (b &&& 15)]

def sha256Hex (data : Bytes) : Bytes := hexText (Sha256.reset.update data).final

def hmacSha256Hex (key message : Bytes) : Bytes :=
  let k := if 64 < key.length then (Sha256.reset.update key).final else key
  let k := k++List.replicate (64-k.length) 0
  let inner := ((Sha256.reset.update (k.map (· ^^^ 0x36))).update message).final
  hexText ((Sha256.reset.update (k.map (· ^^^ 0x5c))).update inner).final

/-! ## The MAC -/

/-- What a MAC is about. -/
structure SignedRecord where
  repoDid : Bytes
  rkey : Bytes
  text : Bytes
  createdAt : Bytes
  deriving DecidableEq

def computeJournalMacCanonicalString (r : SignedRecord) : Bytes :=
  utf8 "atperson-journal-mac-v1:"++r.repoDid++[58]++r.rkey++[58]++sha256Hex r.text++[58]++
    r.createdAt

def createJournalMac (keyHex : Bytes) (r : SignedRecord) : Option JournalMac :=
  if keyHex = [] then none
  else
    let canonical := computeJournalMacCanonicalString r
    some {
      mode := utf8 "hmac-sha256"
      keyHint := keyHex.take 8
      sig := hmacSha256Hex keyHex canonical
      digest := sha256Hex canonical }

structure JournalMacVerifyResult where
  valid : Bool
  reasonCode : String
  detail : String
  recomputedDigest : Bytes := []

def verifyJournalMac (mac : JournalMac) (keyHex : Bytes) (r : SignedRecord) :
    JournalMacVerifyResult :=
  if mac.sig = [] ∨ mac.digest = [] then
    {valid := false,reasonCode := "no_mac",detail := "journal action carries no MAC payload"}
  else if keyHex = [] then
    {valid := false,reasonCode := "missing_key",detail := "MAC key is missing or empty"}
  else
    let expectedCanonical := computeJournalMacCanonicalString r
    let expectedDigest := sha256Hex expectedCanonical
    if mac.digest ≠ expectedDigest then
      { valid := false
        reasonCode := "digest_mismatch"
        detail := "record parameters (DID, rkey, text or timestamp) do not match the MAC payload"
        recomputedDigest := expectedDigest }
    else if mac.sig ≠ hmacSha256Hex keyHex expectedCanonical then
      { valid := false
        reasonCode := "signature_mismatch"
        detail := "MAC signature verification failed"
        recomputedDigest := expectedDigest }
    else
      { valid := true
        reasonCode := "valid"
        detail := "journal MAC matches the recorded record parameters"
        recomputedDigest := expectedDigest }

/-- The digest of no bytes. -/
example : sha256Hex [] =
    utf8 "e3b0c44298fc1c149afbf4c8996fb92427ae41e4649b934ca495991b7852b855" := by
  decide +kernel

end Atperson.Journal
