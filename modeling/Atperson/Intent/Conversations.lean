import Atperson.Intent.State
import Atperson.Outbound.Execute
import Atperson.Runs.Guarded

/-!
# Conversations

An executed post opens a conversation and a reply continues it, within a budget of replies, a
window, and a cap on how many are active. A sweep writes down which have ended.
-/
namespace Atperson.Intent
open Journal Wire Runs
open Outbound (OutboundAction OutboundExecutionResult)

structure IntentConfig where
  enabled : Bool
  maxActive : ℕ
  maxContinuations : UInt32
  windowSeconds : ℤ

inductive IntentMutation where
  | notTracked | opened | continued | duplicate | capReached
  deriving DecidableEq

/-! ## Recording -/

section Record
variable (config : IntentConfig) (intents : List JournalIntent) (action : OutboundAction)
  (result : OutboundExecutionResult) (now : ℤ) (time : Bytes)

/-- The root a conversation is keyed on; there is none for other kinds. -/
def threadRoot : Bytes :=
  match action.kind with
  | .reply => action.replyRoot
  | .post => result.written.uri
  | _ => []

/-- The conversation that can be continued. -/
def openIntent (root : Bytes) : Option JournalIntent :=
  (latestIntent intents root).filter fun existing => deriveIntentState existing now = .opened

def epochOf (seconds : ℤ) : UInt64 := if 0 < seconds then UInt64.ofInt seconds else 0

def continuation (existing : JournalIntent) : JournalIntent :=
  {existing with
    actions := existing.actions++[action.rkey]
    state := .opened
    atEpoch := epochOf now
    time := time}

def opening (root : Bytes) : JournalIntent where
  id := root
  actions := [action.rkey]
  responder := utf8 "anyone"
  expiresAtEpoch := epochOf (now+config.windowSeconds)
  expiresAt := rfc3339FromUnix (now+config.windowSeconds)
  maxContinuations := config.maxContinuations
  state := .opened
  atEpoch := epochOf now
  time := time

/-- `record_pending_intent`: its answer, and the line it appends. -/
def recordPendingIntent : IntentMutation×Option JournalIntent :=
  let root := threadRoot action result
  if config.enabled = false ∨ result.outcome ≠ .executed ∨ root = [] then (.notTracked,none)
  else
    match openIntent intents now root with
    | some existing =>
        if existing.actions.contains action.rkey then (.duplicate,none)
        else (.continued,some (continuation action now time existing))
    | none =>
        if config.maxActive ≤ activeIntentCount intents now then (.capReached,none)
        else (.opened,some (opening config action now time root))

end Record

/-! ## Sweeping -/

structure IntentSweepReport where
  evaluated : ℕ
  openKept : ℕ
  expiredWritten : ℕ
  closedWritten : ℕ
  alreadyTerminal : ℕ
  deriving DecidableEq

/-- A sweep on its way, with the lines it appends. -/
structure Sweeping where
  report : IntentSweepReport
  lines : List JournalIntent

/-- The ids of a journal, each once, in the order they first appear. -/
def intentIds (intents : List JournalIntent) : List Bytes :=
  intents.foldl (fun ids entry => if ids.contains entry.id then ids else ids++[entry.id]) []

section Sweep
variable (intents : List JournalIntent) (now : ℤ) (time : Bytes)

def terminalLine (latest : JournalIntent) : JournalIntent :=
  {latest with
    state := deriveIntentState latest now
    atEpoch := epochOf now
    time := time}

def sweepIntent (p : Sweeping) (id : Bytes) : Sweeping :=
  match latestIntent intents id with
  | none => p
  | some latest =>
      let report := {p.report with evaluated := p.report.evaluated+1}
      if latest.state ≠ .opened then
        {p with report := {report with alreadyTerminal := report.alreadyTerminal+1}}
      else if deriveIntentState latest now = .opened then
        {p with report := {report with openKept := report.openKept+1}}
      else
        ⟨if deriveIntentState latest now = .expired then
            {report with expiredWritten := report.expiredWritten+1}
          else {report with closedWritten := report.closedWritten+1},
          p.lines++[terminalLine now time latest]⟩

/-- `sweep_intents`: its report, and the lines it appends. -/
def sweepIntents : Sweeping :=
  (intentIds intents).foldl (sweepIntent intents now time) ⟨⟨0,0,0,0,0⟩,[]⟩

/-- A conversation whose end is not written down yet. -/
def Ended (latest : JournalIntent) : Prop :=
  latest.state = .opened ∧ deriveIntentState latest now ≠ .opened

instance (latest : JournalIntent) : Decidable (Ended now latest) :=
  inferInstanceAs (Decidable (_ ∧ _))

/-- What a sweep does about one conversation. -/
def swept (id : Bytes) : Option JournalIntent :=
  ((latestIntent intents id).filter fun latest => Ended now latest).map (terminalLine now time)

variable {intents now time}

theorem sweepIntents_lines :
    (sweepIntents intents now time).lines = (intentIds intents).filterMap (swept intents now time) := by
  have hfold : ∀ (ids : List Bytes) (p : Sweeping),
      (ids.foldl (sweepIntent intents now time) p).lines =
        p.lines++ids.filterMap (swept intents now time) := by
    intro ids
    induction ids with
    | nil => exact fun p => (List.append_nil _).symm
    | cons id rest ih =>
        intro p
        rw [List.foldl_cons,ih,List.filterMap_cons]
        unfold sweepIntent swept
        cases hlatest : latestIntent intents id with
        | none => rfl
        | some latest =>
            simp only
            split
            · rename_i hterminal
              rw [Option.filter_some_neg (by simp [Ended,hterminal])]
              rfl
            · rename_i hopened
              split
              · rename_i hopen
                rw [Option.filter_some_neg (by simp [Ended,hopen])]
                rfl
              · rename_i hended
                rw [Option.filter_some_pos (by simp [Ended,hended,not_not.mp hopened]),
                  List.append_assoc]
                rfl
  exact hfold (intentIds intents) ⟨⟨0,0,0,0,0⟩,[]⟩

end Sweep

end Atperson.Intent
