import Atperson.Ledger.Numbered
import Atperson.Core.Replay

/-!
# Compaction and the rebuild

A compaction drops withdrawn text and flattens the log. Neither is part of what a replay
draws from the entries, so a compacted ledger rebuilds the same graph, live or reopened.
-/
namespace Atperson.Core
open Wire
open Ledger (Status Item IdsMatch Session Disk Handle Faults Op CompactFault Numbered Sourced
  dropWithdrawn compact openLedger reopen runOps lookup)

theorem dropWithdrawn_entry (it : Item) : (dropWithdrawn it).entry = it.entry := by
  unfold dropWithdrawn
  split <;> rfl

theorem dropWithdrawn_context (it : Item) : (dropWithdrawn it).context = it.context := by
  unfold dropWithdrawn
  split <;> rfl

theorem dropWithdrawn_kept {it : Item} (h : it.outcome ≠ .withdrawn) : dropWithdrawn it = it :=
  if_neg fun hc => h hc.1

/-- Dropped text was no lesson. -/
theorem lessonOf_dropWithdrawn (it : Item) : lessonOf (dropWithdrawn it) = lessonOf it := by
  by_cases h : it.outcome = .withdrawn
  · have hw : it.entry.outcome = .withdrawn := h
    unfold lessonOf
    rw [dropWithdrawn_entry,hw]
  · rw [dropWithdrawn_kept h]

theorem map_dropWithdrawn_entry (items : List Item) :
    (items.map dropWithdrawn).map Item.entry = items.map Item.entry := by
  rw [List.map_map]
  exact List.map_congr_left fun it _ => dropWithdrawn_entry it

section Replays
variable (U : Utf8proc) (env : UInt64 → IndexEnv) {items : List Item}

theorem replayStep_dropped (hm : IdsMatch items) {i : ℕ} {it : Item} (hi : items[i]? = some it)
    (s : ReplayState) : replayStep U env (items.map dropWithdrawn) s it.entry =
      replayStep U env items s it.entry := by
  have hm' : IdsMatch (items.map dropWithdrawn) := hm.of_entries (map_dropWithdrawn_entry items)
  have hi' : (items.map dropWithdrawn)[i]? = some (dropWithdrawn it) := by
    rw [List.getElem?_map,hi,Option.map_some]
  have h := replayStep_lesson U env hm' hi' s
  rw [dropWithdrawn_entry] at h
  rw [h,replayStep_lesson _ _ hm hi,lessonOf_dropWithdrawn]

theorem replayFrom_dropped (hm : IdsMatch items) (s : ReplayState) (entries : List Item)
    (he : ∀ it ∈ entries, it ∈ items) :
    replayFrom U env (items.map dropWithdrawn) s (entries.map Item.entry) =
      replayFrom U env items s (entries.map Item.entry) := by
  induction entries generalizing s with
  | nil => rfl
  | cons it rest ih =>
      obtain ⟨i,hi⟩ := List.mem_iff_getElem?.mp (he it List.mem_cons_self)
      rw [List.map_cons,replayFrom,replayFrom,replayStep_dropped U env hm hi]
      split
      · exact ih _ fun x hx => he x (List.mem_cons_of_mem it hx)
      · rfl

theorem replayLedger_dropped (hm : IdsMatch items) (g : Graph) (ms : List Migration) :
    replayLedger U env (items.map dropWithdrawn) g ms = replayLedger U env items g ms := by
  have hlast : (items.map dropWithdrawn).getLast?.map (fun it => it.entry.id) =
      items.getLast?.map fun it => it.entry.id := by
    rw [List.getLast?_map,Option.map_map]
    congr 1
    exact funext fun it => congrArg Ledger.LedgerEntry.id (dropWithdrawn_entry it)
  have hvalid : validateReplayMigrations (items.map dropWithdrawn) g ms =
      validateReplayMigrations items g ms := by
    unfold validateReplayMigrations
    rw [hlast]
  unfold replayLedger
  rw [hvalid,map_dropWithdrawn_entry]
  split
  · split
    · rw [replayFrom_dropped U env hm _ items fun _ h => h]
    · rfl
  · rfl

end Replays

/-- Entries after a compaction as they were before: all but withdrawn text. -/
structure Preserves (items items' : List Item) : Prop where
  length : items'.length = items.length
  each : ∀ (i : ℕ) (it : Item), items[i]? = some it → ∃ it', items'[i]? = some it' ∧
    it'.entry = it.entry ∧ it'.context = it.context ∧
      (it.outcome ≠ .withdrawn → it'.payload = it.payload)
  lookups : ∀ source digest, lookup items' source digest = lookup items source digest
  rebuild : ∀ (U : Utf8proc) (env : UInt64 → IndexEnv) (g : Graph) (ms : List Migration),
    replayLedger U env items' g ms = replayLedger U env items g ms

theorem preserves_dropped {items : List Item} (hm : IdsMatch items) :
    Preserves items (items.map dropWithdrawn) where
  length := List.length_map _
  each := by
    intro i it hi
    refine ⟨dropWithdrawn it,by rw [List.getElem?_map,hi,Option.map_some],
      dropWithdrawn_entry it,dropWithdrawn_context it,fun ho => by rw [dropWithdrawn_kept ho]⟩
  lookups := Ledger.lookup_of_entries (map_dropWithdrawn_entry items)
  rebuild := fun U env g ms => replayLedger_dropped U env hm g ms

/-- Another compaction that succeeds leaves the log as it is. -/
def AtRest (s : Session) : Prop :=
  ∀ (fault : Option CompactFault) (wantReport : Bool),
    (compact fault wantReport s).status = .ok →
      (compact fault wantReport s).session.disk.log = s.disk.log

structure CompactionMeets (migrate : ℕ → Disk → Disk×Status) (s s' : Session) : Prop where
  live : Preserves s.handle.items s'.handle.items
  atRest : AtRest s'
  reopened : ∃ s'', reopen migrate s'.disk = some s'' ∧
    Preserves s.handle.items s''.handle.items ∧ AtRest s''

/-- Every compaction that succeeds, in every session that any run with any failures can
reach, keeps the entries and what they rebuild. -/
theorem compaction_keeps_rebuild (migrate : ℕ → Disk → Disk×Status) {d d0 : Disk} {h0 : Handle}
    (hopen : openLedger migrate d = (d0,.ok h0)) {ops : List (Faults×Op)} {s : Session}
    {statuses : List Status} (hrun : runOps migrate ⟨d0,h0⟩ ops = some (s,statuses))
    (hsourced : Sourced s.handle.items) (fault : Option CompactFault) (wantReport : Bool)
    (hok : (compact fault wantReport s).status = .ok) :
    CompactionMeets migrate s (compact fault wantReport s).session := by
  have hnum := (Ledger.numbered_opened hopen).runOps hrun
  have hlive : Preserves s.handle.items (compact fault wantReport s).session.handle.items := by
    rw [(Ledger.compact_items hok).1]
    exact preserves_dropped hnum.ids
  obtain ⟨s'',hre,hhandle,hlog⟩ := Ledger.compact_reopens migrate hnum hsourced hok
  refine ⟨hlive,fun f w hok' => Ledger.compact_again hok rfl hok',s'',hre,by rwa [hhandle],
    fun f w hok' => ?_⟩
  rw [hlog]
  exact Ledger.compact_again hok hhandle hok'

/-- A learned text and another that was withdrawn. -/
def compactionSample : List (Faults×Op) :=
  [(.none,.append (Ledger.sampleArgs 97 1)),(.none,.append {Ledger.sampleArgs 98 1 with
    contentDigest := 8}),(.none,.withdraw 2)]

theorem compaction_keeps_rebuild_sample :
    ∃ r, runOps Ledger.noMigration Ledger.createdSession compactionSample = some r ∧
      r.1.handle.items.length = 2 ∧
      CompactionMeets Ledger.noMigration r.1 (compact none true r.1).session := by
  have hfacts : (runOps Ledger.noMigration Ledger.createdSession compactionSample).map (fun r =>
      decide ((compact none true r.1).status = .ok ∧ r.1.handle.items.length = 2 ∧
        ∀ st ∈ r.2, st ≠ .io)) = some true := by decide +kernel
  obtain ⟨r,hr,hdec⟩ := Option.map_eq_some_iff.mp hfacts
  obtain ⟨hok,hlen,hclean⟩ := of_decide_eq_true hdec
  exact ⟨r,hr,hlen,compaction_keeps_rebuild Ledger.noMigration (Ledger.openLedger_fresh _) hr
    (Ledger.sound_created.runOps hr hclean).sourced none true hok⟩

end Atperson.Core
