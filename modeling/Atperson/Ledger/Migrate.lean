import Atperson.Ledger.Crash
import Atperson.Ledger.RoundTrip

/-!
# Migrating a legacy log

A log of version 1 or 2 is migrated when it is opened. The prefix its marker fences, or the
longest valid prefix where it has no marker of its version, is read record by record; patches
are flattened onto the entries, and these are written as a log of the current version to the
staging file, which then takes the place of the log. The marker goes last.

Version 1 keeps no payloads, and neither version keeps contexts. Allocations succeed here.
-/
namespace Atperson.Ledger
open Wire

/-! ## Legacy records -/

/-- The largest body of a legacy record. -/
def legacyBodyMax (version : ℕ) : ℕ :=
  if version = 1 then ledgerPayloadMax else ledgerPayloadMax+payloadLimit

def legacyFraming (version : ℕ) : Framing where
  bodyMax := legacyBodyMax version
  bodyMax_lt := by
    unfold legacyBodyMax
    split <;> decide
  checksum := ledgerChecksum

/-- `atp_parse_entry_fields`. -/
def entryFields : Reader LedgerEntry := do
  let id ← Reader.u64
  let sourceId ← readSource
  let authorDid ← readString authorBytes
  let observedAt ← Reader.u64
  let contentDigest ← Reader.u64
  let schemaVersion ← Reader.u32
  let outcome ← readOutcome
  return {id,observedAt,contentDigest,schemaVersion,outcome,sourceId,authorDid}

theorem length_take_limit {bs : Bytes} {n : ℕ} (h : n ≤ payloadLimit) :
    (bs.take n).length ≤ payloadLimit := (List.length_take_le _ _).trans h

def payloadTake (bs : Bytes) (n : ℕ) (h : n ≤ payloadLimit) : PayloadText :=
  ⟨bs.take n,length_take_limit h⟩

/-- The payload behind the fields of version 2, which cannot be released. -/
def legacyPayload : Reader Payload := do
  let len ← Reader.u32
  if h : len.toNat ≤ payloadLimit then
    fun bs =>
      if bs.length < len.toNat then none
      else some (.text (payloadTake bs len.toNat h),bs.drop len.toNat)
  else fun _ => none

/-- `atp_parse_entry_v1`. -/
def entryReaderV1 : Reader Item := do
  let entry ← entryFields
  return ⟨entry,.text .none,.empty⟩

/-- `atp_parse_entry_v2`. -/
def entryReaderV2 : Reader Item := do
  let entry ← entryFields
  let payload ← legacyPayload
  return ⟨entry,payload,.empty⟩

/-- `atp_parse_legacy_entry`. -/
def parseLegacyEntry (version : ℕ) (body : Bytes) : Option Item :=
  if body.length < 38 then none
  else if version = 1 then entryReaderV1.whole body
  else entryReaderV2.whole body

/-- One record of a legacy log applied to the entries read so far. -/
def applyLegacy (version : ℕ) (items : List Item) (f : Frame) : Option (List Item) :=
  if f.kind = recordEntry then
    match parseLegacyEntry version f.body with
    | none => none
    | some it => if it.entry.id.toNat ≠ items.length+1 then none else some (items++[it])
  else if f.kind = recordPatch then
    match parsePatch f.body with
    | none => none
    | some (id,byte) =>
        if id = 0 ∨ items.length < id.toNat then none
        else match Outcome.ofByte? byte,items[id.toNat-1]? with
          | some o,some it =>
              if it.outcome.isCommitted ∧ o = .pending then none
              else some (setOutcomeAt (id.toNat-1) o items)
          | _,_ => none
  else none

/-- The records behind the header of a legacy log, and what is left unread. -/
def legacyScan (version : ℕ) (log : Bytes) : List Item×Bytes :=
  (legacyFraming version).scan (applyLegacy version) [] (log.drop ledgerHeaderSize)

/-! ## The pass -/

def legacyOffMagic (version : ℕ) : Bytes :=
  [65,84,80,76,79,70,48,if version = 1 then 49 else 50]

/-- The fence of a marker of the log's version. -/
def parseLegacyOff (version : ℕ) (file : Bytes) : Option ℕ :=
  if file.length < offHeaderSize then none
  else if file.take 8 ≠ legacyOffMagic version then none
  else if loadU32 (file.drop 8) ≠ UInt32.ofNat version then none
  else some (loadU64 (file.drop 20)).toNat

def legacyFence (version : ℕ) (d : Disk) : Option ℕ := d.off.bind (parseLegacyOff version)

/-- The log of the current version with these entries. -/
def migratedLog (items : List Item) : Bytes := currentHeader++records items

/-- The temporary file with these entries takes the place of the log, if a file can hold
them, and the marker is removed. -/
def publishMigrated (d : Disk) (items : List Item) : Disk×Status :=
  if fileMax < (migratedLog items).length then ({d with logTmp := none},.io)
  else ({d with log := some (migratedLog items),logTmp := none,off := none},.ok)

/-- `atp_ledger_migrate`. -/
def migrateLedger (version : ℕ) (d : Disk) : Disk×Status :=
  match d.log with
  | none => (d,.io)
  | some log =>
      if fileMax < log.length then (d,.io)
      else match legacyFence version d with
      | none => publishMigrated d (legacyScan version log).1
      | some fence =>
          if fence < ledgerHeaderSize ∨ log.length < fence then (d,.format)
          else if (legacyScan version (log.take fence)).2 ≠ [] then
            ({d with logTmp := none},.format)
          else publishMigrated d (legacyScan version (log.take fence)).1

/-! ## What a legacy log says -/

namespace LogRecord

/-- The record a legacy frame spells, whatever it follows. -/
def ofLegacy? (version : ℕ) (f : Frame) : Option LogRecord :=
  if f.kind = recordEntry then (parseLegacyEntry version f.body).map .entry
  else if f.kind = recordPatch then do
    let (id,byte) ← parsePatch f.body
    let o ← Outcome.ofByte? byte
    return .patch id o
  else none

end LogRecord

/-- Bytes that spell records which follow one another, as far as any do. -/
structure LongestLawful (version : ℕ) (bytes : Bytes) (rs : List LogRecord) (rest : Bytes) :
    Prop where
  spelled : ∃ fs : List Frame, bytes = fs.flatMap (legacyFraming version).encode++rest ∧
    List.Forall₂ (fun f r => (legacyFraming version).Fits f ∧
      LogRecord.ofLegacy? version f = some r) fs rs
  lawful : Lawful [] rs
  longest : ∀ f rest' r, (legacyFraming version).next rest = some (f,rest') →
    LogRecord.ofLegacy? version f = some r → ¬r.Follows (recovered rs)

/-- What becomes of a legacy log: the entries with the outcomes of their last patches, or
nothing where its marker fences what cannot be read. -/
inductive Fate (version : ℕ) (d : Disk) (log : Bytes) : Option (List Item) → Prop
  | healed {rs : List LogRecord} {rest : Bytes} (hfence : legacyFence version d = none)
      (h : LongestLawful version (log.drop ledgerHeaderSize) rs rest) :
      Fate version d log (some (recovered rs))
  | fenced {rs : List LogRecord} {fence : ℕ} (hfence : legacyFence version d = some fence)
      (hlow : ledgerHeaderSize ≤ fence) (hhigh : fence ≤ log.length)
      (h : LongestLawful version ((log.take fence).drop ledgerHeaderSize) rs []) :
      Fate version d log (some (recovered rs))
  | invalid {rs : List LogRecord} {rest : Bytes} {fence : ℕ}
      (hfence : legacyFence version d = some fence) (hlow : ledgerHeaderSize ≤ fence)
      (hhigh : fence ≤ log.length)
      (h : LongestLawful version ((log.take fence).drop ledgerHeaderSize) rs rest)
      (hrest : rest ≠ []) : Fate version d log none
  | outside {fence : ℕ} (hfence : legacyFence version d = some fence)
      (hout : fence < ledgerHeaderSize ∨ log.length < fence) : Fate version d log none

/-! ## Crashes while a ledger is opened -/

def publishActions (items : List Item) : List DiskAction :=
  if fileMax < (migratedLog items).length then
    [.stageLog ((migratedLog items).take fileMax),.unstageLog]
  else [.stageLog (migratedLog items),.publishLog,.removeOff]

/-- What a migration does to the disk. -/
def migrateActions (version : ℕ) (d : Disk) : List DiskAction :=
  match d.log with
  | none => []
  | some log =>
      if fileMax < log.length then []
      else match legacyFence version d with
      | none => publishActions (legacyScan version log).1
      | some fence =>
          if fence < ledgerHeaderSize ∨ log.length < fence then []
          else if (legacyScan version (log.take fence)).2 ≠ [] then
            [.stageLog currentHeader,.unstageLog]
          else publishActions (legacyScan version (log.take fence)).1

/-- How far a recovery has come: before it does anything, in the rewriting of a marker behind
a log that was truncated, or with the log truncated at its marker. -/
inductive RecoverCrash (d : Disk) (log : Bytes) : Disk → Prop
  | before : RecoverCrash d log d
  | healing {items : List Item} {rest : Bytes} {d' : Disk} (hoff : readOff d = none)
      (hscan : scanLog (log.drop ledgerHeaderSize) = (items,rest))
      (h : Crash [.stageOff (offHeader items.length (log.length-rest.length)),.publishOff]
        {d with log := some (log.take (log.length-rest.length))} d') : RecoverCrash d log d'
  | truncated {d' : Disk} {h : Handle} {mark : ℕ×ℕ} (hoff : readOff d = some mark)
      (hok : recover d log = (d',.ok h)) : RecoverCrash d log d'

/-- The disk a recovery starts on. -/
inductive Ready (d : Disk) : Disk → Prop
  | current {log : Bytes} (hlog : d.log = some log)
      (hheader : headerAccepted (log.take ledgerHeaderSize) = true) : Ready d (discardStaging d)
  | migrated {log : Bytes} {version : ℕ} {d' : Disk} (hlog : d.log = some log)
      (hversion : legacyVersion (log.take ledgerHeaderSize) = some version)
      (h : migrateLedger version (discardStaging d) = (d',.ok)) : Ready d d'

/-- How far the opening of a ledger has come. -/
inductive OpenCrash (d : Disk) : Disk → Prop
  | before : OpenCrash d d
  | discarding : OpenCrash d {d with logTmp := none}
  | migrating {log : Bytes} {version : ℕ} {d' : Disk} (hlog : d.log = some log)
      (hversion : legacyVersion (log.take ledgerHeaderSize) = some version)
      (h : Crash (migrateActions version (discardStaging d)) (discardStaging d) d') :
      OpenCrash d d'
  | recovering {d₁ d' : Disk} {log : Bytes} (hready : Ready d d₁) (hlog : d₁.log = some log)
      (h : RecoverCrash d₁ log d') : OpenCrash d d'

/-- Any number of crashes while the ledger is opened. -/
def Crashed : Disk → Disk → Prop := Relation.ReflTransGen OpenCrash

/-! ## Keeping the meaning -/

/-- The ledger opens with these entries, in a log of the current version. -/
def OpensMigrated (d : Disk) (items : List Item) : Prop :=
  ∃ d' h, openLedger migrateLedger d = (d',.ok h) ∧ h.items = items ∧
    d'.log = some (migratedLog items)

/-- The ledger is refused, and its log and its marker are left alone. -/
def Refused (d : Disk) : Prop :=
  ∃ d', openLedger migrateLedger d = (d',.error .format) ∧ d'.log = d.log ∧ d'.off = d.off

/-- What a fate asks for, after any number of crashes. -/
def Fulfilled (d : Disk) : Option (List Item) → Prop
  | some items => ∀ d', Crashed d d' → OpensMigrated d' items
  | none => ∀ d', Crashed d d' → d'.log = d.log ∧ d'.off = d.off ∧ Refused d'

/-- A disk with a legacy log, as long as a file can be. -/
structure HoldsLegacy (version : ℕ) (d : Disk) (log : Bytes) : Prop where
  file : d.log = some log
  header : ledgerHeaderSize ≤ log.length
  size : log.length ≤ fileMax
  legacy : legacyVersion (log.take ledgerHeaderSize) = some version

/-- What a migration relies on: no entry it accepts has a source id that begins with a NUL,
and a marker of the current version that lies beside the log is already that of the migrated
log. -/
def Migratable (version : ℕ) (d : Disk) (log : Bytes) : Prop :=
  ∀ items, Fate version d log (some items) → Sourced items ∧
    (readOff d = none ∨ readOff d = some (items.length,(migratedLog items).length))

end Atperson.Ledger
