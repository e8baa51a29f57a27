import Atperson.Ledger.Query
import Atperson.Core.Observe
import Atperson.Core.Migration

/-!
# Replay

A graph is rebuilt from a ledger entry by entry, in id order. Learned entries are observed
again and mirrored, skipped ones are mirrored, the rest is excluded; migrations apply at the
ids they were recorded at, whatever becomes of the entry there.

What an entry does to the graph is a function of its outcome and, where the outcome is
learned or skipped, of its contents. So two ledgers that agree on what was learned and
skipped rebuild the same graph.
-/
namespace Atperson.Core
open Wire
open Ledger (Status Outcome LedgerEntry ConversationContext Item IdsMatch entryById entryPayload
  entryPayloadReleased entryContext)

/-- `atp_schema_can_replay`. -/
def schemaCanReplay (version : UInt32) : Bool := version = 1 || version = 2

structure ReplayReport where
  replayed : ℕ
  mirrored : ℕ
  excludedPending : ℕ
  excludedFailed : ℕ
  excludedWithdrawn : ℕ
  excludedReleased : ℕ
  migrationsApplied : ℕ
  failedAtId : UInt64
  failedSchema : UInt32
  deriving DecidableEq

def ReplayReport.zero : ReplayReport := ⟨0,0,0,0,0,0,0,0,0⟩

/-- What became of an entry. -/
inductive Replayed where
  | replayed | mirrored | pending | failed | withdrawn | released
  deriving DecidableEq

def ReplayReport.count (r : ReplayReport) : Replayed → ReplayReport
  | .replayed => {r with replayed := r.replayed+1}
  | .mirrored => {r with mirrored := r.mirrored+1}
  | .pending => {r with excludedPending := r.excludedPending+1}
  | .failed => {r with excludedFailed := r.excludedFailed+1}
  | .withdrawn => {r with excludedWithdrawn := r.excludedWithdrawn+1}
  | .released => {r with excludedReleased := r.excludedReleased+1}

/-- A payload handed on as a C string. -/
def textOf (payload : Bytes) : Text := @CText.truncate (2^64-1) (CString.ofRaw payload)

def provenanceOf (e : LedgerEntry) : Provenance :=
  ⟨e.sourceId.toCString,e.authorDid.toCString,e.observedAt,e.contentDigest,e.schemaVersion,e.id⟩

/-! ## Migrations -/

/-- The chain check of `atp_validate_replay_migrations`: the first migration that is invalid
or does not continue the one before it. -/
def brokenMigration : Option Migration → List Migration → Option Migration
  | _, [] => none
  | previous, m::rest =>
      let continues := match previous with
        | none => true
        | some p => p.ledgerBoundaryId ≤ m.ledgerBoundaryId && p.target = m.source
      if m.valid && continues then brokenMigration (some m) rest else some m

/-- `atp_validate_replay_migrations`, with the boundary it names. -/
def validateReplayMigrations (items : List Item) (g : Graph) (ms : List Migration) :
    Status×UInt64 :=
  match ms with
  | [] => (.ok,0)
  | first::rest =>
      if g.neuralArchitecture ≠ first.source then (.migration,first.ledgerBoundaryId)
      else match brokenMigration none (first::rest) with
        | some m => (.migration,m.ledgerBoundaryId)
        | none =>
            let boundary := ((first::rest).getLastD first).ledgerBoundaryId
            let lastId := (items.getLast?.map fun it => it.entry.id).getD 0
            if boundary ≤ lastId then (.ok,0) else (.migration,boundary)

structure ReplayState where
  graph : Graph
  pending : List Migration
  report : ReplayReport

/-- `atp_apply_replay_migrations`. -/
def applyReplayMigrations (boundary : UInt64) :
    Graph → ReplayReport → List Migration → ReplayState×Status
  | g, report, [] => (⟨g,[],report⟩,.ok)
  | g, report, m::rest =>
      if m.ledgerBoundaryId = boundary then
        match g.expandNeural m with
        | (g,.ok) => applyReplayMigrations boundary g
            {report with migrationsApplied := report.migrationsApplied+1} rest
        | (g,status) => (⟨g,m::rest,{report with failedAtId := boundary}⟩,status)
      else (⟨g,m::rest,report⟩,.ok)

/-! ## Entries -/

/-- Mirror an entry that was skipped. -/
def mirror (g : Graph) (e : LedgerEntry) (context : ConversationContext) :
    Graph×Except Status Replayed :=
  match g.addLedgerEntry e context with
  | (g,.ok) => (g,.ok .mirrored)
  | (g,status) => (g,.error status)

section Replay
variable (U : Utf8proc) (env : UInt64 → IndexEnv) (items : List Item)

/-- Observe a learned payload again and mirror its entry. -/
def relearn (g : Graph) (e : LedgerEntry) (context : ConversationContext) (payload : Bytes) :
    Graph×Except Status Replayed :=
  match observeWithMemory U (env e.id) g (textOf payload) (provenanceOf e) with
  | (g,.ok,_) =>
      match g.addLedgerEntry e context with
      | (g,.ok) => (g,.ok .replayed)
      | (g,status) => (g,.error status)
  | (g,status,_) => (g,.error status)

/-- The outcome switch of the replay loop. -/
def replayEntry (g : Graph) (e : LedgerEntry) (context : ConversationContext) :
    Graph×Except Status Replayed :=
  match e.outcome with
  | .learned =>
      let probed := entryPayload items e.id none
      if probed.1 = .ok ∧ probed.2 = [] ∧ entryPayloadReleased items e.id then (g,.ok .released)
      else if probed.1 ≠ .ok ∨ probed.2 = [] then (g,.error .format)
      else
        let read := entryPayload items e.id (some probed.2.length)
        if read.1 ≠ .ok then (g,.error .format) else relearn U env g e context read.2
  | .skipped => mirror g e context
  | .pending => (g,.ok .pending)
  | .failed => (g,.ok .failed)
  | .withdrawn => (g,.ok .withdrawn)

/-- One round of the replay loop. -/
def replayStep (s : ReplayState) (e : LedgerEntry) : ReplayState×Status :=
  match s.pending.head?.filter fun m => m.ledgerBoundaryId < e.id with
  | some m => ({s with report := {s.report with failedAtId := m.ledgerBoundaryId}},.migration)
  | none =>
      if ¬schemaCanReplay e.schemaVersion then
        ({s with report := {s.report with failedAtId := e.id,failedSchema := e.schemaVersion}},
          .schema)
      else match entryContext items e.id with
        | (.ok,context) =>
            match replayEntry U env items s.graph e context with
            | (g,.ok what) => applyReplayMigrations e.id g (s.report.count what) s.pending
            | (g,.error status) =>
                (⟨g,s.pending,{s.report with failedAtId := e.id}⟩,status)
        | (_,_) => ({s with report := {s.report with failedAtId := e.id}},.format)

def replayFrom : ReplayState → List LedgerEntry → ReplayState×Status
  | s, [] => match s.pending with
      | [] => (s,.ok)
      | m::_ => ({s with report := {s.report with failedAtId := m.ledgerBoundaryId}},.migration)
  | s, e::rest => match replayStep U env items s e with
      | (s,.ok) => replayFrom s rest
      | (s,status) => (s,status)

/-- `atp_replay_ledger_with_migrations`: the graph, the report and the status. -/
def replayLedger (g : Graph) (ms : List Migration) : Graph×ReplayReport×Status :=
  match validateReplayMigrations items g ms with
  | (.ok,_) =>
      match applyReplayMigrations 0 g .zero ms with
      | (s,.ok) =>
          let r := replayFrom U env items s (items.map Item.entry)
          (r.1.graph,r.1.report,r.2)
      | (s,status) => (s.graph,s.report,status)
  | (status,boundary) => (g,{ReplayReport.zero with failedAtId := boundary},status)

theorem replayLedger_nil (g : Graph) : replayLedger U env items g [] =
    ((replayFrom U env items ⟨g,[],.zero⟩ (items.map Item.entry)).1.graph,
      (replayFrom U env items ⟨g,[],.zero⟩ (items.map Item.entry)).1.report,
      (replayFrom U env items ⟨g,[],.zero⟩ (items.map Item.entry)).2) := rfl

end Replay

/-! ## What an entry teaches

The loop reads a payload back by id. With ids that match, all it does with an entry depends
on the item alone. -/

/-- What a replay draws from an item. -/
inductive Lesson where
  | learn (entry : LedgerEntry) (context : ConversationContext) (payload : Bytes)
  | mirror (entry : LedgerEntry) (context : ConversationContext)
  | unreadable
  | silent (what : Replayed)

def lessonOf (it : Item) : Lesson :=
  match it.entry.outcome with
  | .learned =>
      if it.payload = .released then .silent .released
      else if it.payload.retained = [] ∨ Ledger.digest it.payload.retained ≠ it.entry.contentDigest
        then .unreadable
      else .learn it.entry it.context it.payload.retained
  | .skipped => .mirror it.entry it.context
  | .pending => .silent .pending
  | .failed => .silent .failed
  | .withdrawn => .silent .withdrawn

section Lessons
variable (U : Utf8proc) (env : UInt64 → IndexEnv)

def teach (g : Graph) : Lesson → Graph×Except Status Replayed
  | .learn e context payload => relearn U env g e context payload
  | .mirror e context => mirror g e context
  | .unreadable => (g,.error .format)
  | .silent what => (g,.ok what)

variable {U env} {items : List Item}

theorem entryPayload_self (hm : IdsMatch items) {i : ℕ} {it : Item} (hi : items[i]? = some it)
    (room : Option ℕ) : entryPayload items it.entry.id room =
      if it.payload.retained = [] then (.ok,[])
      else if Ledger.digest it.payload.retained ≠ it.entry.contentDigest then (.format,[])
      else match room with
        | none => (.ok,it.payload.retained)
        | some room => if room < it.payload.retained.length then (.invalidArgument,[])
            else (.ok,it.payload.retained) := by
  unfold entryPayload
  rewrite [Ledger.entryById_self hm hi]
  rfl

theorem entryContext_self (hm : IdsMatch items) {i : ℕ} {it : Item} (hi : items[i]? = some it) :
    entryContext items it.entry.id = (.ok,it.context) := by
  rw [entryContext,Ledger.entryById_self hm hi]

theorem entryPayloadReleased_self (hm : IdsMatch items) {i : ℕ} {it : Item}
    (hi : items[i]? = some it) :
    entryPayloadReleased items it.entry.id = (it.payload = .released) := by
  rw [entryPayloadReleased,Ledger.entryById_self hm hi]
  simp

theorem replayEntry_lesson (hm : IdsMatch items) {i : ℕ} {it : Item} (hi : items[i]? = some it)
    (g : Graph) :
    replayEntry U env items g it.entry it.context = teach U env g (lessonOf it) := by
  unfold replayEntry lessonOf
  cases ho : it.entry.outcome with
  | learned =>
      simp only [entryPayload_self hm hi,entryPayloadReleased_self hm hi]
      by_cases hr : it.payload = .released
      · have h0 : Ledger.Payload.released.retained = [] := rfl
        simp [hr,h0,teach]
      by_cases h0 : it.payload.retained = []
      · simp [hr,h0,teach]
      by_cases hd : Ledger.digest it.payload.retained = it.entry.contentDigest
      · simp [hr,h0,hd,teach]
      · simp [hr,h0,hd,teach]
  | skipped => rfl
  | pending => rfl
  | failed => rfl
  | withdrawn => rfl

variable (U env) in
/-- One round of the loop, by the item's lesson. -/
theorem replayStep_lesson (hm : IdsMatch items) {i : ℕ} {it : Item} (hi : items[i]? = some it)
    (s : ReplayState) : replayStep U env items s it.entry =
      match s.pending.head?.filter fun m => m.ledgerBoundaryId < it.entry.id with
      | some m => ({s with report := {s.report with failedAtId := m.ledgerBoundaryId}},.migration)
      | none =>
          if ¬schemaCanReplay it.entry.schemaVersion then
            ({s with report := {s.report with
                failedAtId := it.entry.id,failedSchema := it.entry.schemaVersion}},.schema)
          else match teach U env s.graph (lessonOf it) with
            | (g,.ok what) => applyReplayMigrations it.entry.id g (s.report.count what) s.pending
            | (g,.error status) =>
                (⟨g,s.pending,{s.report with failedAtId := it.entry.id}⟩,status) := by
  unfold replayStep
  rw [entryContext_self hm hi]
  simp only [replayEntry_lesson hm hi]

end Lessons

end Atperson.Core
