import Atperson.Wire.TornLog

/-!
# Protocol evidence

Facts about the protocol, each stored once. The store in memory and the ledger in a file
decide by the same digest what is new. The ledger appends a record behind the ones it has,
keeps the digests of a file it has read while the size of the file is the one it saw, and cuts
off a record that a crash left incomplete before it writes the next.
-/
namespace Atperson.Protocol
open Wire

inductive Verification where
  | verified
  | unverified
  | rejected
  deriving DecidableEq

inductive EvidenceKind where
  | identity
  | repository
  | record
  | lexicon
  | sync
  | authorization
  deriving DecidableEq

def Verification.toByte : Verification → UInt8
  | .verified => 0
  | .unverified => 1
  | .rejected => 2

def Verification.ofByte? : UInt8 → Option Verification
  | 0 => some .verified
  | 1 => some .unverified
  | 2 => some .rejected
  | _ => none

def EvidenceKind.toByte : EvidenceKind → UInt8
  | .identity => 0
  | .repository => 1
  | .record => 2
  | .lexicon => 3
  | .sync => 4
  | .authorization => 5

def EvidenceKind.ofByte? : UInt8 → Option EvidenceKind
  | 0 => some .identity
  | 1 => some .repository
  | 2 => some .record
  | 3 => some .lexicon
  | 4 => some .sync
  | 5 => some .authorization
  | _ => none

@[simp] theorem Verification.ofByte?_toByte (v : Verification) : ofByte? v.toByte = some v := by
  cases v <;> rfl

@[simp] theorem EvidenceKind.ofByte?_toByte (k : EvidenceKind) : ofByte? k.toByte = some k := by
  cases k <;> rfl

/-- A double, by the bits that are written. -/
structure Binary64 where
  bits : UInt64
  deriving DecidableEq

namespace Binary64

def magnitude (d : Binary64) : UInt64 := d.bits&&&0x7fffffffffffffff

def negative (d : Binary64) : Bool := d.bits&&&0x8000000000000000 ≠ 0

def isFinite (d : Binary64) : Bool := d.magnitude < 0x7ff0000000000000

/-- Below zero; the negative zero is not. -/
def ltZero (d : Binary64) : Bool := d.negative && d.magnitude ≠ 0

def gtOne (d : Binary64) : Bool := !d.negative && d.magnitude > 0x3ff0000000000000

end Binary64

structure ProtocolEvidence where
  kind : EvidenceKind := .repository
  source : Bytes
  eventType : Bytes
  subject : Bytes
  payload : Bytes
  sequence : UInt64
  observedAt : UInt64
  verification : Verification := .unverified
  confidence : Binary64
  deriving DecidableEq

namespace ProtocolEvidence

/-- What an append refuses before it looks at the ledger. -/
def refused (e : ProtocolEvidence) : Bool :=
  e.source.isEmpty || e.eventType.isEmpty || e.subject.isEmpty || e.payload.isEmpty ||
    (e.sequence = 0 && e.observedAt = 0) || !e.confidence.isFinite || e.confidence.ltZero ||
    e.confidence.gtOne

/-- The fields that make two records the same fact. -/
def identity (e : ProtocolEvidence) :
    EvidenceKind×Verification×Bytes×Bytes×Bytes×Bytes :=
  (e.kind,e.verification,e.source,e.eventType,e.subject,e.payload)

end ProtocolEvidence

/-! ## Identity -/

structure EvidenceDigest where
  high : UInt64
  low : UInt64
  deriving DecidableEq

def mixByte (d : EvidenceDigest) (byte : UInt8) : EvidenceDigest where
  high := (d.high^^^byte.toUInt64)*0x100000001b3
  low := (d.low^^^byte.toUInt64)*0x100000001b3+0x9e3779b97f4a7c15

/-- A field behind its length, so that the bounds of fields cannot be confused. -/
def mix (d : EvidenceDigest) (bytes : Bytes) : EvidenceDigest :=
  bytes.foldl mixByte ((storeU64 (.ofNat bytes.length)).foldl mixByte d)

def evidenceDigest (e : ProtocolEvidence) : EvidenceDigest :=
  let start : EvidenceDigest := ⟨0xcbf29ce484222325,0x84222325cbf29ce4⟩
  mix (mix (mix (mix (mix start [e.kind.toByte,e.verification.toByte]) e.source) e.eventType)
    e.subject) e.payload

/-! ## The store in memory -/

structure EvidenceStore where
  entries : List ProtocolEvidence := []
  index : List EvidenceDigest := []

def EvidenceStore.append (s : EvidenceStore) (e : ProtocolEvidence) : EvidenceStore×Bool :=
  if e.refused then (s,false)
  else if evidenceDigest e ∈ s.index then (s,false)
  else (⟨s.entries++[e],evidenceDigest e::s.index⟩,true)

def EvidenceStore.replay (evidence : List ProtocolEvidence) : EvidenceStore :=
  evidence.foldl (fun restored e => (restored.append e).1) {}

/-! ## The file -/

def kEvidenceMagic : UInt32 := 0x41545045

/-- The longest field that is read back; what is written is not measured. -/
def kEvidenceFieldMax : ℕ := 16*1024*1024

def writeField (value : Bytes) : Bytes := storeU64 (.ofNat value.length)++value

def writeEvidence (e : ProtocolEvidence) : Bytes :=
  storeU32 kEvidenceMagic++([e.kind.toByte]++([e.verification.toByte]++(storeU64 e.sequence++
    (storeU64 e.observedAt++(storeU64 e.confidence.bits++(writeField e.source++
    (writeField e.eventType++(writeField e.subject++writeField e.payload))))))))

open StreamReader in
def readField : StreamReader Bytes := do
  let size ← u64
  if kEvidenceFieldMax < size.toNat then fail "invalid protocol evidence field"
  else bytes size.toNat

open StreamReader in
def readEvidence : StreamReader ProtocolEvidence := do
  let magic ← u32
  if magic ≠ kEvidenceMagic then fail "invalid protocol evidence ledger"
  else
    let kind ← u8
    let verification ← u8
    let sequence ← u64
    let observedAt ← u64
    let confidence ← u64
    match EvidenceKind.ofByte? kind,Verification.ofByte? verification with
    | some kind,some verification =>
        let source ← readField
        let eventType ← readField
        let subject ← readField
        let payload ← readField
        return ⟨kind,source,eventType,subject,payload,sequence,observedAt,verification,⟨confidence⟩⟩
    | _,_ => fail "invalid protocol evidence header"

def scanEvidence : Option Bytes → Scanned ProtocolEvidence
  | none => {}
  | some bs => scanRecords readEvidence bs

/-- A torn tail ends the readable entries; bytes that are wrong are an error. -/
def evidenceEntries (file : Option Bytes) : Except String (List ProtocolEvidence) :=
  match (scanEvidence file).failure with
  | some message => .error message
  | none => .ok (scanEvidence file).entries

/-! ## The ledger -/

structure EvidenceLedger where
  index : List EvidenceDigest := []
  indexedSize : ℕ := 0
  goodEnd : ℕ := 0
  torn : Bool := false
  indexValid : Bool := false
  deriving DecidableEq

def openEvidence (file : Option Bytes) : Except String EvidenceLedger :=
  if file = some [] then .error "empty protocol evidence ledger" else .ok {}

def fileSize (file : Option Bytes) : ℕ := (file.getD []).length

/-- The index as the file has it. A scan that fails leaves what it has read, not marked valid
anew. -/
def EvidenceLedger.refreshIndex (l : EvidenceLedger) (file : Option Bytes) :
    EvidenceLedger×Option String :=
  if l.indexValid = true ∧ fileSize file = l.indexedSize then (l,none)
  else
    let scanned := scanEvidence file
    let l := { l with
      index := scanned.entries.map evidenceDigest
      goodEnd := scanned.goodEnd
      torn := scanned.torn }
    match scanned.failure with
    | some message => (l,some message)
    | none => ({ l with indexedSize := fileSize file, indexValid := true },none)

/-- Where the process dies in an append: before it touches the file, behind the cut of a torn
tail, or with some bytes of the record in the file, which is created for them. -/
inductive CrashPoint where
  | untouched
  | repaired
  | written (bytes : ℕ)
  deriving DecidableEq

inductive AppendOutcome where
  | returned (added : Bool)
  | threw (message : String)
  | crashed
  deriving DecidableEq

structure AppendReply where
  file : Option Bytes
  ledger : EvidenceLedger
  outcome : AppendOutcome

/-- A torn tail is cut off behind the last complete record. -/
def EvidenceLedger.repair (l : EvidenceLedger) (file : Option Bytes) :
    Option Bytes×EvidenceLedger :=
  if l.torn then
    (file.map (List.take l.goodEnd),{ l with indexedSize := l.goodEnd, torn := false })
  else (file,l)

def EvidenceLedger.append (crash : Option CrashPoint) (file : Option Bytes) (l : EvidenceLedger)
    (e : ProtocolEvidence) : AppendReply :=
  if e.refused then ⟨file,l,.returned false⟩
  else
    match l.refreshIndex file with
    | (l,some message) => ⟨file,l,.threw message⟩
    | (l,none) =>
      if evidenceDigest e ∈ l.index then ⟨file,l,.returned false⟩
      else if crash = some .untouched then ⟨file,l,.crashed⟩
      else
        let (file,l) := l.repair file
        match crash with
        | some .untouched | some .repaired => ⟨file,l,.crashed⟩
        | some (.written k) => ⟨some (file.getD []++(writeEvidence e).take k),l,.crashed⟩
        | none =>
          let file := file.getD []++writeEvidence e
          ⟨some file,{ l with index := evidenceDigest e::l.index, indexedSize := file.length },
            .returned true⟩

end Atperson.Protocol
