import Atperson.Wire.Json
import Atperson.Runs.Fallible

/-!
# The offline spool

A directory of records not yet confirmed by the network, and a directory of refused ones.
A file is named by its sequence number, which is also in its content; the next number is
one above the largest pending one, whatever has been refused or published before.
-/
namespace Atperson.Outbound
open Wire Runs

structure SpoolEntry where
  seq : ℕ
  actionJson : Bytes
  spooledAt : Bytes
  deriving DecidableEq

/-- A file as written: the document is escaped, the time is not. -/
structure SpoolFile where
  seq : ℕ
  action : Bytes
  spooledAt : Bytes
  deriving DecidableEq

structure Spool where
  pending : List SpoolFile := []
  denied : List SpoolFile := []
  deriving DecidableEq

def quote : UInt8 := 34
def backslash : UInt8 := 92

def hexDigit (n : ℕ) : UInt8 := UInt8.ofNat (if n < 10 then 48+n else 87+n)

/-- One byte of the document: `\n`, `\t`, `\r`, `\"`, `\\`, or `\u00xx` below `0x20`. -/
def escapeByte (c : UInt8) : Bytes :=
  if c = 10 then [backslash,110]
  else if c = 9 then [backslash,116]
  else if c = 13 then [backslash,114]
  else if c = quote then [backslash,quote]
  else if c = backslash then [backslash,backslash]
  else if c < 32 then
    [backslash,117,48,48,hexDigit (c.toNat/16),hexDigit (c.toNat%16)]
  else [c]

def escape (raw : Bytes) : Bytes := raw.flatMap escapeByte

/-- What a reader makes of the byte after a backslash; `\u` is not decoded. -/
def unescapeByte (c : UInt8) : UInt8 :=
  if c = 110 then 10 else if c = 116 then 9 else if c = 114 then 13 else c

/-- The string up to its closing quote. -/
def jsonStringValue : Bytes → Option Bytes
  | [] => none
  | c::rest =>
      if c = backslash then
        match rest with
        | [] => none
        | e::rest' => (jsonStringValue rest').map (unescapeByte e::·)
      else if c = quote then some []
      else (jsonStringValue rest).map (c::·)

def serialiseSpoolEntry (entry : SpoolEntry) : SpoolFile :=
  ⟨entry.seq,escape entry.actionJson,entry.spooledAt⟩

def parseSpoolEntry (file : SpoolFile) : Except String SpoolEntry :=
  match jsonStringValue (file.action++[quote]) with
  | none => .error "spool: entry action unterminated"
  | some action =>
      match jsonStringValue (file.spooledAt++[quote]) with
      | none => .error "spool: entry spooled_at unterminated"
      | some spooledAt => .ok ⟨file.seq,action,spooledAt⟩

/-- The pending entries by sequence number, whatever order the directory lists them in. -/
def spoolPending (spool : Spool) : Except String (List SpoolEntry) :=
  (spool.pending.mapM parseSpoolEntry).map
    (List.insertionSort (fun a b => a.seq ≤ b.seq))

def largestSeq (entries : List SpoolEntry) : ℕ :=
  entries.foldl (fun seq entry => max seq entry.seq) 0

/-- `parses` is the check that the document is an action document. -/
def spoolAppend (parses : Bytes → Except String Unit) (spool : Spool) (actionJson now : Bytes) :
    Except String (SpoolEntry × Spool) :=
  match parses actionJson with
  | .error e => .error e
  | .ok () =>
      match spool.pending.mapM parseSpoolEntry with
      | .error e => .error e
      | .ok existing =>
          let entry : SpoolEntry := ⟨largestSeq existing+1,actionJson,now⟩
          if entry.seq ∈ spool.pending.map (·.seq) then .error "record already exists"
          else .ok (entry,{spool with pending := spool.pending++[serialiseSpoolEntry entry]})

def spoolRemove (spool : Spool) (entry : SpoolEntry) : Spool :=
  {spool with pending := spool.pending.filter (·.seq ≠ entry.seq)}

/-- Renaming replaces a refused file of the same name. -/
def spoolDeny (spool : Spool) (entry : SpoolEntry) : Spool where
  pending := spool.pending.filter (·.seq ≠ entry.seq)
  denied := match spool.pending.find? (·.seq = entry.seq) with
    | none => spool.denied
    | some file => spool.denied.filter (·.seq ≠ entry.seq)++[file]

/-- `SpoolFirstWriter::put_record`: spool, deliver, and remove what was delivered. -/
def spoolFirstPut {R : Type} (parses : Bytes → Except String Unit)
    (transport : Except String R) (spool : Spool) (actionJson now : Bytes) :
    Except String R × Spool :=
  match spoolAppend parses spool actionJson now with
  | .error e => (.error e,spool)
  | .ok (entry,spooled) =>
      match transport with
      | .ok result => (.ok result,spoolRemove spooled entry)
      | .error e => (.error e,spooled)

/-! The drain. -/

inductive OutboundExecutionOutcome where
  | executed | dryRun | denied | deferred | failed
  deriving DecidableEq

/-- What the drain reads of one attempt's result. -/
structure DrainAttempt where
  outcome : OutboundExecutionOutcome
  detail : String
  deriving DecidableEq

structure SpoolDrainReport where
  published : ℕ := 0
  denied : ℕ := 0
  deferred : ℕ := 0
  failed : ℕ := 0
  transportFailed : Bool := false
  failureDetail : String := ""
  deriving DecidableEq

/-- The drain over the entries listed at its start. An attempt that throws ends it. -/
def drainEntries (attempt : SpoolEntry → Except String DrainAttempt) :
    List SpoolEntry → Spool → SpoolDrainReport → Except String SpoolDrainReport × Spool
  | [], spool, report => (.ok report,spool)
  | entry::rest, spool, report =>
      match attempt entry with
      | .error e => (.error e,spool)
      | .ok result =>
          match result.outcome with
          | .executed => drainEntries attempt rest (spoolRemove spool entry)
              {report with published := report.published+1}
          | .denied => drainEntries attempt rest (spoolDeny spool entry)
              {report with denied := report.denied+1}
          | .dryRun | .deferred =>
              drainEntries attempt rest spool {report with deferred := report.deferred+1}
          | .failed =>
              (.ok {report with
                failed := report.failed+1
                transportFailed := true
                failureDetail := result.detail },spool)

def spoolDrain (attempt : SpoolEntry → Except String DrainAttempt) (spool : Spool) :
    Except String SpoolDrainReport × Spool :=
  match spoolPending spool with
  | .error e => (.error e,spool)
  | .ok entries => drainEntries attempt entries spool {}

/-! Entries survive their files. -/

/-- A document the escaping keeps: no control byte but newline, tab and return. -/
def PlainDocument (raw : Bytes) : Prop := ∀ c ∈ raw, 32 ≤ c ∨ c = 10 ∨ c = 9 ∨ c = 13

/-- A time the file keeps: no quote and no backslash. -/
def PlainTime (raw : Bytes) : Prop := ∀ c ∈ raw, c ≠ quote ∧ c ≠ backslash

instance (raw : Bytes) : Decidable (PlainDocument raw) :=
  inferInstanceAs (Decidable (∀ c ∈ raw, _))

instance (raw : Bytes) : Decidable (PlainTime raw) :=
  inferInstanceAs (Decidable (∀ c ∈ raw, _))

theorem jsonStringValue_escaped (e : UInt8) (rest : Bytes) :
    jsonStringValue (backslash::e::rest) = (jsonStringValue rest).map (unescapeByte e::·) := by
  rw [jsonStringValue,if_pos rfl]

theorem jsonStringValue_plain {c : UInt8} (hb : c ≠ backslash) (hq : c ≠ quote)
    (rest : Bytes) : jsonStringValue (c::rest) = (jsonStringValue rest).map (c::·) := by
  rw [jsonStringValue.eq_def]
  simp only [if_neg hb,if_neg hq]

theorem jsonStringValue_escape {raw : Bytes} (h : PlainDocument raw) :
    jsonStringValue (escape raw++[quote]) = some raw := by
  induction raw with
  | nil => rfl
  | cons c raw ih =>
      have hrest := ih (fun d hd => h d (by simp [hd]))
      have hplain := h c (by simp)
      have hcons : escape (c::raw)++[quote] = escapeByte c++(escape raw++[quote]) := by
        simp [escape]
      rw [hcons]
      unfold escapeByte
      split_ifs with hn ht hr hq hb hlow
      · rw [List.cons_append,List.singleton_append,jsonStringValue_escaped,hrest,hn]; rfl
      · rw [List.cons_append,List.singleton_append,jsonStringValue_escaped,hrest,ht]; rfl
      · rw [List.cons_append,List.singleton_append,jsonStringValue_escaped,hrest,hr]; rfl
      · rw [List.cons_append,List.singleton_append,jsonStringValue_escaped,hrest,hq]; rfl
      · rw [List.cons_append,List.singleton_append,jsonStringValue_escaped,hrest,hb]; rfl
      · rcases hplain with hge | hc | hc | hc
        · exact absurd hlow (UInt8.not_lt.mpr hge)
        · exact absurd hc hn
        · exact absurd hc ht
        · exact absurd hc hr
      · rw [List.singleton_append,jsonStringValue_plain hb hq,hrest]; rfl

theorem jsonStringValue_time {raw : Bytes} (h : PlainTime raw) :
    jsonStringValue (raw++[quote]) = some raw := by
  induction raw with
  | nil => rfl
  | cons c raw ih =>
      obtain ⟨hq,hb⟩ := h c (by simp)
      rw [List.cons_append,jsonStringValue_plain hb hq,ih (fun d hd => h d (by simp [hd]))]
      rfl

theorem parse_serialiseSpoolEntry {entry : SpoolEntry} (hdoc : PlainDocument entry.actionJson)
    (htime : PlainTime entry.spooledAt) :
    parseSpoolEntry (serialiseSpoolEntry entry) = .ok entry := by
  simp only [parseSpoolEntry,serialiseSpoolEntry,jsonStringValue_escape hdoc,
    jsonStringValue_time htime]

end Atperson.Outbound
