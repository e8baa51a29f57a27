import Atperson.Control.State
import Atperson.Replicate.Bounded
import Atperson.Replicate.Counted
import Atperson.Replicate.Observations

/-!
# Publication passes

A pass starts behind the disk headroom, the write gate and the publication lock, and drains to
the online writer or into the directory of staged records. Both sinks share one cursor file.
-/
namespace Atperson.Replicate
open Wire Journal Thought Ledger Runs Control

structure ResourceBudget where
  diskPressure : Bool := false
  limitingDiskPath : String := ""

def requireRuntimeWriteHeadroom (budget : ResourceBudget) : Except String Unit :=
  if budget.diskPressure then
    .error ((if budget.limitingDiskPath = "" then "durable storage" else budget.limitingDiskPath)++
      " is inside atperson's dynamic filesystem safety reserve; refusing durable mutation until "++
      "more space is available or ATPERSON_DISK_RESERVE_BYTES is explicitly adjusted")
  else .ok ()

/-- What one pass meets besides the host: the disk, the control file, another holder of the
lock and the error of the session that an online pass opens. -/
structure PublicationCall where
  budget : ResourceBudget := {}
  controlFile : Option (Json ℤ)
  lockBusy : Option String := none
  offline : Bool := false
  onlineWriter : Option String := none
  drain : Pass

structure PublicationReport where
  ran : Bool := false
  refused : Bool := false
  refusal : String := ""
  stagedOffline : Bool := false
  drain : ReplicateReport := {}

/-- The online repository is the one the host publishes to; staged records lie beside it. -/
structure Station where
  host : Host
  staged : Records

def Station.start : Station := ⟨.start,fun _ => none⟩

inductive PublicationOutcome where
  | returned (report : PublicationReport)
  | threw (message : String)
  | died

structure PublicationResult where
  station : Station
  calls : ℕ
  outcome : PublicationOutcome

section Pass
variable (cursorPath controlPath : String) (config : ReplicateConfig)

def writesGate (file : Option (Json ℤ)) : Except String Bool :=
  (loadControlState file controlPath).map ControlState.writesEnabled

/-- The drain of a pass that has the lock, by its sink. -/
def PublicationCall.sink (c : PublicationCall) (s : Station) : DrainResult×Station :=
  let input := s.host.input config c.drain
  if c.offline then
    let result := replicateDrain cursorPath s.host.cursorFile s.staged input
    (result,⟨{ s.host with cursorFile := result.cursorFile },result.records⟩)
  else
    let result := replicateDrain cursorPath s.host.cursorFile s.host.records input
    (result,{ s with host := s.host.drain cursorPath config c.drain })

/-- Behind the lock: the online writer's session is opened first; what is thrown is caught. -/
def PublicationCall.locked (c : PublicationCall) (s : Station) : PublicationResult :=
  let report : PublicationReport := { ran := true, stagedOffline := c.offline }
  match if c.offline then none else c.onlineWriter with
  | some message => ⟨s,0,.returned { report with refused := true, refusal := message }⟩
  | none =>
    let (result,s) := c.sink cursorPath config s
    ⟨s,result.calls,match result.outcome with
      | .returned drain => .returned { report with drain := drain }
      | .threw message => .returned { report with refused := true, refusal := message }
      | .died => .died⟩

def runPublicationPass (c : PublicationCall) (s : Station) : PublicationResult :=
  match requireRuntimeWriteHeadroom c.budget with
  | .error message => ⟨s,0,.returned { refused := true, refusal := message }⟩
  | .ok () =>
    match writesGate controlPath c.controlFile with
    | .error message =>
        ⟨s,0,.returned { refused := true, refusal := "control state unreadable: "++message }⟩
    | .ok false =>
        ⟨s,0,.returned { refused := true, refusal := "writes are disabled in control state" }⟩
    | .ok true =>
      match c.lockBusy with
      | some message => ⟨s,0,.returned { refused := true, refusal := message }⟩
      | none => c.locked cursorPath config s

/-- The pass comes to its drain. -/
def PublicationCall.Starts (c : PublicationCall) : Prop :=
  requireRuntimeWriteHeadroom c.budget = .ok () ∧
    writesGate controlPath c.controlFile = .ok true ∧ c.lockBusy = none ∧
    (c.offline = true ∨ c.onlineWriter = none)

end Pass

end Atperson.Replicate
