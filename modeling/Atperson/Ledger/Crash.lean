import Atperson.Ledger.Clean

/-!
# Crashes

An operation reaches the disk as a list of durable actions, and running all of them is
what the operation does to the disk. A crash lets some first part of the list happen and
may tear the next action: a torn write leaves arbitrary bytes where it was writing, while
renames and removals happen or do not.

A ledger whose operations all succeeded is clean, with the marker at the end of its log.
From there every crash reopens to the entries before the operation or after it.
-/
namespace Atperson.Ledger
open Wire

/-! ## Durable actions -/

inductive DiskAction where
  | appendLog (bs : Bytes)
  | stageOff (bs : Bytes)
  | publishOff
  | stageLog (bs : Bytes)
  | unstageLog
  | removeOff
  | publishLog
  deriving DecidableEq

def DiskAction.apply (d : Disk) : DiskAction → Disk
  | .appendLog bs => d.appendLog bs
  | .stageOff bs => {d with offTmp := some bs}
  | .publishOff => {d with off := d.offTmp,offTmp := none}
  | .stageLog bs => {d with logTmp := some bs}
  | .unstageLog => {d with logTmp := none}
  | .removeOff => {d with off := none}
  | .publishLog => {d with log := d.logTmp,logTmp := none}

/-- An action interrupted after it wrote `junk`. What lands in the log is no longer than
what was being written. -/
def DiskAction.torn (d : Disk) (junk : Bytes) : DiskAction → Disk
  | .appendLog bs => d.appendLog (junk.take bs.length)
  | .stageOff _ => {d with offTmp := some junk}
  | .stageLog _ => {d with logTmp := some junk}
  | _ => d

/-- The disks a crash can leave behind a list of actions. -/
inductive Crash : List DiskAction → Disk → Disk → Prop
  | now (acts : List DiskAction) (d : Disk) : Crash acts d d
  | torn (a : DiskAction) (rest : List DiskAction) (d : Disk) (junk : Bytes) :
      Crash (a::rest) d (a.torn d junk)
  | after {a : DiskAction} {rest : List DiskAction} {d d' : Disk} :
      Crash rest (a.apply d) d' → Crash (a::rest) d d'

def commitActions (s : Session) (count : ℕ) (record : Bytes) : List DiskAction :=
  if fileMax < s.disk.logBytes.length+record.length then
    [.appendLog (record.take (fileMax-s.disk.logBytes.length))]
  else
    [.appendLog record,
      .stageOff (offHeader count (s.handle.committedOffset+record.length)),.publishOff]

def rewriteActions (s : Session) (releaseBytes : ℕ) : List DiskAction :=
  let r := passItems releaseBytes none .start s.handle.items
  if r.2.2 then
    let image := (if r.1.anyReleased then releasedHeader else currentHeader)++r.1.out
    [.stageLog image,.removeOff,.publishLog,
      .stageOff (offHeader r.2.1.length image.length),.publishOff]
  else [.stageLog r.1.out,.unstageLog]

/-- The operations that are atomic in a crash. -/
inductive Durable where
  | append (a : AppendArgs)
  | setOutcome (id : UInt64) (byte : UInt8)
  | withdraw (id : UInt64)
  | compact (wantReport : Bool)
  | releasePayloads (wantReport : Bool) (maxBytes : ℕ)
  deriving DecidableEq

namespace Durable

def op : Durable → Op
  | .append a => .append a
  | .setOutcome id byte => .setOutcome id byte
  | .withdraw id => .withdraw id
  | .compact wantReport => .compact wantReport
  | .releasePayloads wantReport maxBytes => .releasePayloads wantReport maxBytes

/-- The session after the operation when nothing fails. -/
def after (s : Session) : Durable → Session
  | .append a => (Ledger.append none s a).1
  | .setOutcome id byte => (Ledger.setOutcome none s id byte).1
  | .withdraw id => (Ledger.withdraw none s id).1
  | .compact wantReport => (Ledger.compact none wantReport s).session
  | .releasePayloads wantReport maxBytes =>
      (Ledger.releasePayloads none wantReport s maxBytes).session

def changeActions (s : Session) (id : UInt64) (byte : UInt8) : List DiskAction :=
  match setOutcomeDecision s.handle.items id byte with
  | .error _ => []
  | .ok o => commitActions s s.handle.items.length (buildRecord (patchFrame id o))

def compactActions (s : Session) (wantReport : Bool) (releaseBytes : ℕ) : List DiskAction :=
  match if wantReport then scanReport none s else .ok 0 with
  | .error _ => []
  | .ok _ => rewriteActions s releaseBytes

def actions (s : Session) : Durable → List DiskAction
  | .append a =>
      match appendDecision s.handle.items a with
      | .error _ => []
      | .ok v => commitActions s (s.handle.items.length+1) (buildRecord (entryFrame v.item))
  | .setOutcome id byte => changeActions s id byte
  | .withdraw id => changeActions s id Outcome.withdrawn.toByte
  | .compact wantReport => compactActions s wantReport 0
  | .releasePayloads wantReport maxBytes =>
      let offset := s.handle.committedOffset
      if maxBytes = 0 ∨ offset ≤ maxBytes ∨ ¬s.handle.items.any Item.releasable then []
      else compactActions s wantReport (offset-releaseTarget maxBytes)

end Durable

/-! ## The actions are the operation -/

theorem commitRecord_actions (s : Session) (count : ℕ) (record : Bytes) :
    (commitRecord none s count record).1.disk =
      (commitActions s count record).foldl DiskAction.apply s.disk := by
  unfold commitRecord commitActions
  simp only
  split <;> rfl

theorem rewriteLog_actions (s : Session) (releaseBytes : ℕ) (report : CompactReport) :
    (rewriteLog none s releaseBytes report).session.disk =
      (rewriteActions s releaseBytes).foldl DiskAction.apply s.disk := by
  unfold rewriteLog rewriteActions
  simp only [recordFault,reduceCtorEq,false_and,or_false]
  by_cases hw : (passItems releaseBytes none .start s.handle.items).2.2 = true
  · rw [if_neg (by simp [hw]),if_pos hw]
    rfl
  · rw [if_pos (by simpa using hw),if_neg hw]
    rfl

theorem compactRelease_actions (wantReport : Bool) (s : Session) (releaseBytes : ℕ) :
    (compactRelease none wantReport s releaseBytes).session.disk =
      (Durable.compactActions s wantReport releaseBytes).foldl DiskAction.apply s.disk := by
  unfold compactRelease Durable.compactActions
  cases hs : (if wantReport then scanReport none s else .ok 0) with
  | error e => rfl
  | ok patches => exact rewriteLog_actions s releaseBytes _

theorem setOutcome_actions (s : Session) (id : UInt64) (byte : UInt8) :
    (Ledger.setOutcome none s id byte).1.disk =
      (Durable.changeActions s id byte).foldl DiskAction.apply s.disk := by
  simp only [Ledger.setOutcome,Durable.changeActions]
  cases hd : setOutcomeDecision s.handle.items id byte with
  | error status => rfl
  | ok o =>
      simp only [← commitRecord_actions]
      cases hc : commitRecord none s s.handle.items.length (buildRecord (patchFrame id o)) with
      | mk s' status => cases status <;> rfl

/-- Every operation does to the disk what its durable actions do, one after the other. -/
theorem Durable.after_disk (s : Session) (step : Durable) :
    (step.after s).disk = (step.actions s).foldl DiskAction.apply s.disk := by
  cases step with
  | append a =>
      show (Ledger.append none s a).1.disk = _
      simp only [Ledger.append,Durable.actions]
      cases hd : appendDecision s.handle.items a with
      | error reply => rfl
      | ok v =>
          simp only [← commitRecord_actions]
          cases hc : commitRecord none s (s.handle.items.length+1)
            (buildRecord (entryFrame v.item)) with
          | mk s' status => cases status <;> rfl
  | setOutcome id byte => exact setOutcome_actions s id byte
  | withdraw id => exact setOutcome_actions s id _
  | compact wantReport => exact compactRelease_actions wantReport s 0
  | releasePayloads wantReport maxBytes =>
      show (Ledger.releasePayloads none wantReport s maxBytes).session.disk = _
      simp only [Ledger.releasePayloads,Durable.actions]
      by_cases h0 : maxBytes = 0
      · rw [if_pos h0,if_pos (.inl h0)]
        rfl
      by_cases h1 : s.handle.committedOffset ≤ maxBytes
      · rw [if_neg h0,if_pos h1,if_pos (.inr (.inl h1))]
        rfl
      by_cases h2 : s.handle.items.any Item.releasable = true
      · rw [if_neg h0,if_neg h1,if_neg (by simpa using h2),if_neg (by simp [h0,h1,h2])]
        exact compactRelease_actions _ _ _
      · rw [if_neg h0,if_neg h1,if_pos h2,if_pos (.inr (.inr h2))]
        rfl

/-! ## What each crash reopens to -/

def ReopensTo (migrate : ℕ → Disk → Disk×Status) (d : Disk) (items : List Item) : Prop :=
  ∃ d' h', openLedger migrate d = (d',.ok h') ∧ h'.items = items

section Reopen
variable (migrate : ℕ → Disk → Disk×Status) {d : Disk} {s : Session} {log : Bytes}
  {items : List Item}

/-- A marker inside the log: what is behind it does not matter. -/
theorem reopensTo_fenced (log tail : Bytes) (hfile : d.log = some (log++tail))
    (hsize : (log++tail).length ≤ fileMax) (hh : ledgerHeaderSize ≤ log.length ∧
      headerAccepted (log.take ledgerHeaderSize) = true) (hdec : Decodes log items)
    (hm : readOff d = some (items.length,log.length)) : ReopensTo migrate d items := by
  have hh' := header_extend hh tail
  have ho := openLedger_current migrate hfile hh'.1 hh'.2
  have hm' : readOff (discardStaging d) = some (items.length,log.length) := hm
  rw [recover_fenced hsize hm' hh.1 (by rw [List.length_append]; omega)
    (by rw [List.take_left]; exact hdec) rfl] at ho
  exact ⟨_,_,ho,rfl⟩

/-- No marker, and a log that reads to its end. -/
theorem reopensTo_healed (hfile : d.log = some log) (hsize : log.length ≤ fileMax)
    (hh : ledgerHeaderSize ≤ log.length ∧ headerAccepted (log.take ledgerHeaderSize) = true)
    (hdec : Decodes log items) (hm : d.off = none) : ReopensTo migrate d items := by
  have ho := openLedger_current migrate hfile hh.1 hh.2
  have hm' : readOff (discardStaging d) = none := by
    rw [readOff]
    exact congrArg (Option.bind · parseOff) hm
  rw [recover_healed hsize hm' (scanLog_eq.mpr hdec)] at ho
  exact ⟨_,_,ho,rfl⟩

variable {migrate}

theorem Clean.reopensTo_tail (h : Clean s log) (tail : Bytes) (hfile : d.log = some (log++tail))
    (hsize : (log++tail).length ≤ fileMax) (hoff : d.off = s.disk.off) :
    ReopensTo migrate d s.handle.items :=
  reopensTo_fenced migrate log tail hfile hsize h.header h.decodes (by rw [readOff,hoff]; exact h.marker)

theorem Clean.reopensTo_same (h : Clean s log) (hfile : d.log = s.disk.log)
    (hoff : d.off = s.disk.off) : ReopensTo migrate d s.handle.items :=
  h.reopensTo_tail [] (by rw [hfile,h.file,List.append_nil])
    (by simpa using h.size) hoff

/-- A crash anywhere in a commit. -/
theorem Clean.crash_commit (h : Clean s log) {mem' : List Item} {f : Frame}
    (hf : framing.Fits f) (ha : applyRecord s.handle.items f = some mem')
    (hcount : mem'.length ≤ 2^63)
    (hcrash : Crash (commitActions s mem'.length (buildRecord f)) s.disk d) :
    ReopensTo migrate d s.handle.items ∨ (ReopensTo migrate d mem' ∧
      s.disk.logBytes.length+(buildRecord f).length ≤ fileMax) := by
  have hlog := h.logBytes
  have happ : ∀ bs, (s.disk.appendLog bs).log = some (log++bs) := fun bs => by
    rw [Disk.appendLog,hlog]
  unfold commitActions at hcrash
  split at hcrash
  · -- The record does not fit the file: only a prefix of it is ever written.
    left
    have hfits : ∀ bs : Bytes, bs.length ≤ fileMax-s.disk.logBytes.length →
        (log++bs).length ≤ fileMax := fun bs hbs => by
      rw [hlog] at hbs
      have := h.size
      rw [List.length_append]
      omega
    have hroom : ((buildRecord f).take (fileMax-s.disk.logBytes.length)).length ≤
        fileMax-s.disk.logBytes.length := List.length_take_le _ _
    cases hcrash with
    | now => exact h.reopensTo_same rfl rfl
    | torn _ _ _ junk =>
        exact h.reopensTo_tail _ (happ _) (hfits _ ((List.length_take_le _ _).trans hroom)) rfl
    | after hrest =>
        cases hrest
        exact h.reopensTo_tail _ (happ _) (hfits _ hroom) rfl
  · rename_i hroom
    rw [Nat.not_lt] at hroom
    have hsize : (log++buildRecord f).length ≤ fileMax := by
      rw [List.length_append,← hlog]
      exact hroom
    have htorn : ∀ junk : Bytes, (log++junk.take (buildRecord f).length).length ≤ fileMax := by
      intro junk
      have := List.length_take_le (buildRecord f).length junk
      rw [List.length_append] at hsize ⊢
      omega
    have hbefore : ∀ d' : Disk, d'.log = some (log++buildRecord f) → d'.off = s.disk.off →
        ReopensTo migrate d' s.handle.items := fun d' hl ho => h.reopensTo_tail _ hl hsize ho
    cases hcrash with
    | now => exact .inl (h.reopensTo_same rfl rfl)
    | torn _ _ _ junk => exact .inl (h.reopensTo_tail _ (happ _) (htorn junk) rfl)
    | after hrest =>
        cases hrest with
        | now => exact .inl (hbefore _ (happ _) rfl)
        | torn => exact .inl (hbefore _ (happ _) rfl)
        | after hrest =>
            cases hrest with
            | now => exact .inl (hbefore _ (happ _) rfl)
            | torn => exact .inl (hbefore _ (happ _) rfl)
            | after hrest =>
                cases hrest
                refine .inr ⟨?_,hroom⟩
                refine reopensTo_fenced migrate (log++buildRecord f) [] ?_ ?_
                  (header_extend h.header _) (h.decodes.append_record h.header.1 hf ha) ?_
                · rw [List.append_nil]
                  exact happ _
                · simpa using hsize
                · rw [List.length_append,← h.offset]
                  rw [List.length_append,← h.offset] at hsize
                  simp only [fileMax] at hsize
                  exact parseOff_offHeader (by omega) (by omega)

/-- A crash anywhere in a rewrite. -/
theorem Sound.crash_rewrite (h : Sound s) {releaseBytes : ℕ}
    (hcrash : Crash (rewriteActions s releaseBytes) s.disk d) :
    ReopensTo migrate d s.handle.items ∨
      (ReopensTo migrate d (passItems releaseBytes none .start s.handle.items).2.1 ∧
        (passItems releaseBytes none .start s.handle.items).2.2 = true) := by
  obtain ⟨log,hclean⟩ := h.clean
  have he := rewritten_entries
    (passItems_rewritten releaseBytes none .start s.handle.items)
  have hcount : (passItems releaseBytes none .start s.handle.items).2.1.length ≤ 2^63 := by
    rw [length_of_entries he]
    exact hclean.count
  have hdec := decodes_logImage (hclean.idsMatch.of_entries he) (h.sourced.of_entries he) hcount
  unfold rewriteActions at hcrash
  simp only at hcrash
  split at hcrash
  · rename_i hw
    obtain ⟨himage,hsize⟩ := passItems_image hw
    rw [himage] at hcrash
    generalize (passItems releaseBytes none .start s.handle.items).2.1 = items' at *
    have hhead := logImage_header items'
    have hbefore : ∀ d' : Disk, d'.log = s.disk.log → d'.off = s.disk.off →
        ReopensTo migrate d' s.handle.items := fun d' hl ho => hclean.reopensTo_same hl ho
    have hswapped : ∀ d' : Disk, d'.log = some (logImage items') → d'.off = none →
        ReopensTo migrate d' items' := fun d' hl ho =>
      reopensTo_healed migrate hl hsize hhead hdec ho
    cases hcrash with
    | now => exact .inl (hbefore _ rfl rfl)
    | torn => exact .inl (hbefore _ rfl rfl)
    | after hrest =>
        cases hrest with
        | now => exact .inl (hbefore _ rfl rfl)
        | torn => exact .inl (hbefore _ rfl rfl)
        | after hrest =>
            have hunmarked : ∀ d' : Disk, d'.log = s.disk.log → d'.off = none →
                ReopensTo migrate d' s.handle.items := fun d' hl ho =>
              reopensTo_healed migrate (hl.trans hclean.file) hclean.size hclean.header
                hclean.decodes ho
            cases hrest with
            | now => exact .inl (hunmarked _ rfl rfl)
            | torn => exact .inl (hunmarked _ rfl rfl)
            | after hrest =>
                cases hrest with
                | now => exact .inr ⟨hswapped _ rfl rfl,hw⟩
                | torn => exact .inr ⟨hswapped _ rfl rfl,hw⟩
                | after hrest =>
                    cases hrest with
                    | now => exact .inr ⟨hswapped _ rfl rfl,hw⟩
                    | torn => exact .inr ⟨hswapped _ rfl rfl,hw⟩
                    | after hrest =>
                        cases hrest
                        refine .inr ⟨?_,hw⟩
                        refine reopensTo_fenced migrate (logImage items') []
                          ?_ ?_ hhead hdec ?_
                        · rw [List.append_nil]
                          rfl
                        · simpa using hsize
                        · simp only [fileMax] at hsize
                          exact parseOff_offHeader (by omega) (by omega)
  · left
    cases hcrash with
    | now => exact hclean.reopensTo_same rfl rfl
    | torn => exact hclean.reopensTo_same rfl rfl
    | after hrest =>
        cases hrest with
        | now => exact hclean.reopensTo_same rfl rfl
        | torn => exact hclean.reopensTo_same rfl rfl
        | after hrest =>
            cases hrest
            exact hclean.reopensTo_same rfl rfl

theorem Sound.crash_change (h : Sound s) {id : UInt64} {byte : UInt8}
    (hcrash : Crash (Durable.changeActions s id byte) s.disk d) :
    ReopensTo migrate d s.handle.items ∨
      ReopensTo migrate d (Ledger.setOutcome none s id byte).1.handle.items := by
  obtain ⟨log,hclean⟩ := h.clean
  unfold Durable.changeActions at hcrash
  cases hd : setOutcomeDecision s.handle.items id byte with
  | error status =>
      rw [hd] at hcrash
      cases hcrash
      exact .inl (hclean.reopensTo_same rfl rfl)
  | ok o =>
      rw [hd,← setOutcomeAt_length (id.toNat-1) o s.handle.items] at hcrash
      refine (hclean.crash_commit (patchFrame_fits id o) (change_accepted hd)
        (by simpa using hclean.count) hcrash).imp_right fun ⟨hre,hroom⟩ => ?_
      have hafter : (Ledger.setOutcome none s id byte).1.handle.items =
          setOutcomeAt (id.toNat-1) o s.handle.items := by
        simp only [Ledger.setOutcome,hd,commitRecord,if_neg (Nat.not_lt.mpr hroom)]
        rfl
      rw [hafter]
      exact hre

theorem Sound.crash_compact (h : Sound s) {wantReport : Bool} {releaseBytes : ℕ}
    (hcrash : Crash (Durable.compactActions s wantReport releaseBytes) s.disk d) :
    ReopensTo migrate d s.handle.items ∨
      ReopensTo migrate d (compactRelease none wantReport s releaseBytes).session.handle.items := by
  obtain ⟨log,hclean⟩ := h.clean
  unfold Durable.compactActions at hcrash
  cases hs : (if wantReport then scanReport none s else .ok 0) with
  | error e =>
      rw [hs] at hcrash
      cases hcrash
      exact .inl (hclean.reopensTo_same rfl rfl)
  | ok patches =>
      rw [hs] at hcrash
      refine (h.crash_rewrite hcrash).imp_right fun ⟨hre,hw⟩ => ?_
      have hafter : (compactRelease none wantReport s releaseBytes).session.handle.items =
          (passItems releaseBytes none .start s.handle.items).2.1 := by
        simp only [compactRelease,hs,rewriteLog,recordFault,hw,reduceCtorEq,false_and,or_self,
          if_false,Bool.true_eq_false]
        rfl
      rw [hafter]
      exact hre

/-- One crash in one operation of a sound ledger. -/
theorem Sound.crash (h : Sound s) {step : Durable} (hcrash : Crash (step.actions s) s.disk d) :
    ReopensTo migrate d s.handle.items ∨ ReopensTo migrate d (step.after s).handle.items := by
  obtain ⟨log,hclean⟩ := h.clean
  cases step with
  | append a =>
      simp only [Durable.actions] at hcrash
      cases hd : appendDecision s.handle.items a with
      | error reply =>
          rw [hd] at hcrash
          cases hcrash
          exact .inl (hclean.reopensTo_same rfl rfl)
      | ok v =>
          have hlen : s.handle.items.length+1 = (s.handle.items++[v.item]).length := by simp
          rw [hd] at hcrash
          simp only [hlen] at hcrash
          obtain ⟨ha,hcount⟩ := append_accepted hd
          refine (hclean.crash_commit (entryFrame_fits v.item) ha hcount hcrash).imp_right
            fun ⟨hre,hroom⟩ => ?_
          have hafter : (Ledger.append none s a).1.handle.items = s.handle.items++[v.item] := by
            simp only [Ledger.append,hd,commitRecord,if_neg (Nat.not_lt.mpr hroom)]
            rfl
          show ReopensTo migrate d (Ledger.append none s a).1.handle.items
          rw [hafter]
          exact hre
  | setOutcome id byte => exact h.crash_change hcrash
  | withdraw id => exact h.crash_change hcrash
  | compact wantReport => exact h.crash_compact hcrash
  | releasePayloads wantReport maxBytes =>
      simp only [Durable.actions] at hcrash
      split at hcrash
      · cases hcrash
        exact .inl (hclean.reopensTo_same rfl rfl)
      · rename_i hc
        simp only [not_or,not_not] at hc
        have he : Ledger.releasePayloads none wantReport s maxBytes =
            compactRelease none wantReport s (s.handle.committedOffset-releaseTarget maxBytes) := by
          simp [Ledger.releasePayloads,hc.1,hc.2.1,hc.2.2]
        refine (h.crash_compact hcrash).imp_right fun hre => ?_
        show ReopensTo migrate d (Ledger.releasePayloads none wantReport s maxBytes).session.handle.items
        rw [he]
        exact hre

end Reopen

/-- Any run without an I/O error, then a crash inside one more operation: reopening yields
the ledger before that operation or after it. -/
theorem crash_atomic (migrate : ℕ → Disk → Disk×Status) {d d0 : Disk} {h0 : Handle}
    (hopen : openLedger migrate d = (d0,.ok h0)) (hsourced : Sourced h0.items)
    (history : List (Faults×Op)) {s : Session} {statuses : List Status}
    (hrun : runOps migrate ⟨d0,h0⟩ history = some (s,statuses))
    (hok : ∀ st ∈ statuses, st ≠ .io) (step : Durable) {disk : Disk}
    (hcrash : Crash (step.actions s) s.disk disk) :
    ReopensTo migrate disk s.handle.items ∨
      ReopensTo migrate disk (step.after s).handle.items :=
  (Sound.runOps ⟨openLedger_clean hopen,hsourced⟩ hrun hok).crash hcrash

def sampleHistory : List (Faults×Op) :=
  [(.none,.append (sampleArgs 97 1)),(.none,.withdraw 1)]

/-- The staged log stands beside an old marker that goes next. -/
def stagesSwap : List DiskAction → Bool
  | .stageLog _::.removeOff::_ => true
  | _ => false

/-- A crash between the removal of the marker and the rename of the compacted log. -/
theorem crash_atomic_sample :
    ∃ r disk, runOps noMigration createdSession sampleHistory = some r ∧
      Crash ((Durable.compact true).actions r.1) r.1.disk disk ∧ disk.off = none ∧
      (ReopensTo noMigration disk r.1.handle.items ∨
        ReopensTo noMigration disk ((Durable.compact true).after r.1).handle.items) := by
  have hshape : ((runOps noMigration createdSession sampleHistory).map fun r =>
      stagesSwap ((Durable.compact true).actions r.1) && r.2 = [.ok,.ok]) = some true := by decide +kernel
  obtain ⟨r,hr,hacts⟩ := Option.map_eq_some_iff.mp hshape
  rw [Bool.and_eq_true,decide_eq_true_eq] at hacts
  obtain ⟨hacts,hstatus⟩ := hacts
  unfold stagesSwap at hacts
  split at hacts
  · rename_i image rest heq
    have hcrash : Crash ((Durable.compact true).actions r.1) r.1.disk
        {r.1.disk with logTmp := some image,off := none} := by
      rw [heq]
      exact .after (.after (.now rest _))
    refine ⟨r,_,hr,hcrash,rfl,crash_atomic noMigration (openLedger_fresh _)
      (by simp [Sourced,createdSession]) sampleHistory hr ?_ _ hcrash⟩
    rw [hstatus]
    simp
  · cases hacts

end Atperson.Ledger
