import Atperson.Ledger.Format

/-!
# Opening and recovering a ledger

A ledger is two files, the record log and the commit marker, and a staging file
for each. Opening discards the staging files, creates a missing log, hands a
legacy log to the migration pass, checks the header and recovers.

With a readable marker the committed prefix is fenced by it and must validate
whole. Without one the log heals to its longest valid prefix and the marker is
rewritten. The pass that migrates legacy formats is a parameter here: it runs
before recovery, and nothing below depends on what it does.
-/
namespace Atperson.Ledger
open Wire

/-- The four files of a ledger, absent or with their bytes. -/
structure Disk where
  log : Option Bytes
  logTmp : Option Bytes
  off : Option Bytes
  offTmp : Option Bytes
  deriving DecidableEq

/-- A path at which no ledger was ever created. -/
def Disk.fresh : Disk := ⟨none,none,none,none⟩

/-- The in-memory part of an open ledger. -/
structure Handle where
  items : List Item
  committedOffset : ℕ
  deriving DecidableEq

/-- Growing the entry arrays by doubling stops short of the size type's range. -/
def reserveEntries (needed : ℕ) : Bool := needed ≤ 2^63

/-- One record of the log applied to the entries recovered so far. A record that
does not continue them is refused. -/
def applyRecord (items : List Item) (f : Frame) : Option (List Item) :=
  if f.kind = recordEntry then
    match parseEntry f.body with
    | none => none
    | some it =>
        if it.entry.id.toNat ≠ items.length+1 ∨ ¬reserveEntries (items.length+1) then none
        else some (items++[it])
  else if f.kind = recordPatch then
    match parsePatch f.body with
    | none => none
    | some (id,byte) =>
        if id = 0 ∨ items.length < id.toNat then none
        else match Outcome.ofByte? byte,items[id.toNat-1]? with
          | some o,some it =>
              if it.outcome.isCommitted ∧ o = .pending then none
              else some (setOutcomeAt (id.toNat-1) o items)
          | _,_ => none
  else none

/-- Records from the start of a log: what they add up to and what is left unread. -/
def scanLog (records : Bytes) : List Item×Bytes := framing.scan applyRecord [] records

def writeOff (d : Disk) (count offset : ℕ) : Disk :=
  {d with off := some (offHeader count offset),offTmp := none}

def readOff (d : Disk) : Option (ℕ×ℕ) := d.off.bind parseOff

/-- The largest file a signed file position can address. -/
def fileMax : ℕ := 2^63-1

/-- `atp_ledger_recover`. -/
def recover (d : Disk) (log : Bytes) : Disk×Except Status Handle :=
  if fileMax < log.length then (d,.error .io)
  else match readOff d with
  | none =>
      let (items,rest) := scanLog (log.drop ledgerHeaderSize)
      let fence := log.length-rest.length
      (writeOff {d with log := some (log.take fence)} items.length fence,.ok ⟨items,fence⟩)
  | some (count,offset) =>
      if offset < ledgerHeaderSize ∨ log.length < offset then (d,.error .format)
      else
        let (items,rest) := scanLog ((log.take offset).drop ledgerHeaderSize)
        if rest ≠ [] then (d,.error .format)
        else if items.length ≠ count then (d,.error .format)
        else ({d with log := some (log.take offset)},.ok ⟨items,offset⟩)

/-- The legacy version a header stands for, if it does. -/
def legacyVersion (header : Bytes) : Option ℕ :=
  if header.take 7 ≠ fileMagicPrefix then none
  else if header.drop 7 = 49::storeU32 1 then some 1
  else if header.drop 7 = 50::storeU32 2 then some 2
  else none

def headerAccepted (header : Bytes) : Bool := header = currentHeader || header = releasedHeader

/-- Check the header of a current-format log, then recover it. -/
def openCurrent (d : Disk) : Disk×Except Status Handle :=
  match d.log with
  | none => (d,.error .io)
  | some log =>
      if log.length < ledgerHeaderSize then (d,.error .format)
      else if headerAccepted (log.take ledgerHeaderSize) then recover d log
      else (d,.error .format)

def discardStaging (d : Disk) : Disk := {d with logTmp := none,offTmp := none}

def createMissing (d : Disk) : Disk := {d with log := some (d.log.getD currentHeader)}

section Open
variable (migrate : ℕ → Disk → Disk×Status)

/-- `atp_ledger_open`. -/
def openLedger (d : Disk) : Disk×Except Status Handle :=
  let d := createMissing (discardStaging d)
  let log := d.log.getD []
  if log.length < ledgerHeaderSize then (d,.error .format)
  else match legacyVersion (log.take ledgerHeaderSize) with
    | none => openCurrent d
    | some version =>
        match migrate version d with
        | (d,.ok) => openCurrent d
        | (d,status) => (d,.error status)

end Open

/-! ## What recovery accepts -/

/-- The entries a whole log stands for when every byte of it validates. -/
def Decodes (log : Bytes) (items : List Item) : Prop :=
  framing.Reads applyRecord [] (log.drop ledgerHeaderSize) items []

theorem scanLog_eq {records : Bytes} {items : List Item} :
    scanLog records = (items,[]) ↔ framing.Reads applyRecord [] records items [] :=
  Framing.scan_reads_all

theorem applyRecord_entry {items : List Item} {it : Item}
    (hs : it.entry.sourceId.bytes ≠ []) (hid : it.entry.id.toNat = items.length+1)
    (hr : reserveEntries (items.length+1)) :
    applyRecord items (entryFrame it) = some (items++[it]) := by
  have hp : parseEntry (serializeEntry it) = some it := parseEntry_serialize it hs
  simp [applyRecord,entryFrame,hp,hid,hr]

theorem applyRecord_patch {items : List Item} {id : UInt64} {o : Outcome} {it : Item}
    (hid : id ≠ 0) (hit : items[id.toNat-1]? = some it)
    (ho : ¬(it.outcome.isCommitted = true∧o = .pending)) :
    applyRecord items (patchFrame id o) = some (setOutcomeAt (id.toNat-1) o items) := by
  have hp : parsePatch (patchFrame id o).body = some (id,o.toByte) := parsePatch_serialize id o
  have hlt : ¬(id = 0 ∨ items.length < id.toNat) := by
    obtain ⟨hi,-⟩ := List.getElem?_eq_some_iff.mp hit
    simp only [hid,false_or]
    omega
  have hk : (patchFrame id o).kind = recordPatch := rfl
  unfold applyRecord
  rw [hk,if_neg (by decide),if_pos rfl,hp]
  simp only [if_neg hlt,Outcome.ofByte?_toByte,hit,if_neg ho]

/-- The two things an accepted record can do. -/
theorem applyRecord_cases {items items' : List Item} {f : Frame}
    (h : applyRecord items f = some items') :
    (∃ it, it.entry.id.toNat = items.length+1∧items.length+1 ≤ 2^63∧items' = items++[it]) ∨
    (∃ i o, i < items.length∧items' = setOutcomeAt i o items) := by
  unfold applyRecord at h
  split at h
  · split at h
    · cases h
    · rename_i it _
      split at h
      · cases h
      · rename_i hc
        simp only [reserveEntries,not_or,not_not,decide_eq_true_eq] at hc
        exact .inl ⟨it,hc.1,hc.2,(Option.some.inj h).symm⟩
  · split at h
    · split at h
      · cases h
      · rename_i id byte _
        split at h
        · cases h
        · split at h
          · rename_i o it _ hit
            split at h
            · cases h
            · obtain ⟨hi,-⟩ := List.getElem?_eq_some_iff.mp hit
              exact .inr ⟨_,o,hi,(Option.some.inj h).symm⟩
          · cases h
    · cases h

/-- Ids are positions: what every accepted record keeps. -/
def IdsMatch (items : List Item) : Prop :=
  ∀ i it, items[i]? = some it → it.entry.id.toNat = i+1

theorem IdsMatch.append {items : List Item} (h : IdsMatch items) {it : Item}
    (hid : it.entry.id.toNat = items.length+1) : IdsMatch (items++[it]) := by
  intro i x hx
  rw [List.getElem?_append] at hx
  split at hx
  · exact h i x hx
  · rename_i hi
    obtain ⟨hlt,rfl⟩ := List.getElem?_eq_some_iff.mp hx
    simp only [List.length_singleton,Nat.lt_one_iff] at hlt
    have : i = items.length := by omega
    subst this
    simpa using hid

theorem IdsMatch.setOutcomeAt {items : List Item} (h : IdsMatch items) (i : ℕ) (o : Outcome) :
    IdsMatch (setOutcomeAt i o items) := by
  intro j x hx
  rw [getElem?_setOutcomeAt] at hx
  split at hx
  · obtain ⟨y,hy,rfl⟩ := Option.map_eq_some_iff.mp hx
    exact h j y hy
  · exact h j x hx

theorem reads_idsMatch {items items' : List Item} {bs out : Bytes}
    (h : framing.Reads applyRecord items bs items' out) (hi : IdsMatch items) :
    IdsMatch items' := by
  refine h.invariant hi fun s f s' hs ha => ?_
  obtain ⟨it,hid,-,rfl⟩ | ⟨i,o,-,rfl⟩ := applyRecord_cases ha
  · exact hs.append hid
  · exact hs.setOutcomeAt i o

theorem reads_length_le {items items' : List Item} {bs out : Bytes}
    (h : framing.Reads applyRecord items bs items' out) (hi : items.length ≤ 2^63) :
    items'.length ≤ 2^63 := by
  refine h.invariant (P := fun items => items.length ≤ 2^63) hi fun s f s' hs ha => ?_
  obtain ⟨it,-,hle,rfl⟩ | ⟨i,o,-,rfl⟩ := applyRecord_cases ha
  · simpa using hle
  · simpa using hs

theorem IdsMatch.nodup {items : List Item} (h : IdsMatch items) :
    (items.map fun it : Item => it.entry.id).Nodup := by
  rw [List.nodup_iff_injective_get]
  intro a b hab
  have hget : ∀ c : Fin (items.map fun it : Item => it.entry.id).length,
      ((items.map fun it : Item => it.entry.id).get c).toNat = c.val+1 := by
    intro c
    have hc : c.val < items.length := by simpa using c.isLt
    simpa using h c.val items[c.val] (List.getElem?_eq_getElem hc)
  have := hget a
  rw [hab,hget b] at this
  exact Fin.ext (by omega)

/-- With a readable marker, recovery is the decoding of the fenced prefix. -/
theorem recover_fenced {d : Disk} {log : Bytes} {count offset : ℕ} {items : List Item}
    (hsize : log.length ≤ fileMax) (hoff : readOff d = some (count,offset))
    (hlow : ledgerHeaderSize ≤ offset) (hhigh : offset ≤ log.length)
    (hdec : Decodes (log.take offset) items) (hcount : items.length = count) :
    recover d log = ({d with log := some (log.take offset)},.ok ⟨items,offset⟩) := by
  have hs := scanLog_eq.mpr hdec
  simp only [recover,if_neg (Nat.not_lt.mpr hsize),hoff]
  rw [if_neg (by omega),hs]
  simp [hcount]

/-- Without a marker, the log heals to what reads from its start. -/
theorem recover_healed {d : Disk} {log : Bytes} {items : List Item} {rest : Bytes}
    (hsize : log.length ≤ fileMax) (hoff : readOff d = none)
    (hs : scanLog (log.drop ledgerHeaderSize) = (items,rest)) :
    recover d log =
      (writeOff {d with log := some (log.take (log.length-rest.length))} items.length
        (log.length-rest.length),.ok ⟨items,log.length-rest.length⟩) := by
  simp only [recover,if_neg (Nat.not_lt.mpr hsize),hoff,hs]

theorem headerAccepted_not_legacy {header : Bytes} (h : headerAccepted header = true) :
    legacyVersion header = none := by
  simp only [headerAccepted,Bool.or_eq_true,decide_eq_true_eq] at h
  rcases h with rfl | rfl <;> rfl

/-- A path that holds an accepted log opens by recovering it. -/
theorem openLedger_current (migrate : ℕ → Disk → Disk×Status) {d : Disk} {log : Bytes}
    (hlog : d.log = some log) (hlen : ledgerHeaderSize ≤ log.length)
    (hh : headerAccepted (log.take ledgerHeaderSize) = true) :
    openLedger migrate d = recover (discardStaging d) log := by
  have hd : createMissing (discardStaging d) = discardStaging d := by
    simp [createMissing,discardStaging,hlog]
  have hl : (discardStaging d).log = some log := hlog
  simp only [openLedger,hd,hl,Option.getD_some,headerAccepted_not_legacy hh,openCurrent,hh,
    if_neg (Nat.not_lt.mpr hlen),if_true]

end Atperson.Ledger
