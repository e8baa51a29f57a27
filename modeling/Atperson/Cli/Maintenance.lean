import Atperson.Core.Valence
import Atperson.Core.Ceilings
import Atperson.Sync.Engine

/-!
# Two rebuilds

A graph is rebuilt by the operator from the ledger, the migration history of its snapshot and
the journal, and by a running host from the ledger alone.
-/
namespace Atperson.Cli
open Wire
open Atperson.Core (Utf8proc IndexEnv Architecture Migration GraphConfig ReplayReport
  createWithArchitecture replayLedger valenceKindFromName)
open Atperson.Sync (Thrown)
open Atperson.Journal (JournalContents JournalValence)
open Ledger (Status Item)

section Rebuild
variable (U : Utf8proc) (env : UInt64 → IndexEnv)

/-- `LanguageGraph::LanguageGraph` over the default configuration. -/
def newGraph (a : Architecture) : Except Thrown Core.Graph :=
  match createWithArchitecture .default a with
  | some g => .ok g
  | none => .error (.runtime "std::bad_alloc")

/-- `LanguageGraph::replay`, with or without migrations. -/
def replayGraph (g : Core.Graph) (items : List Item) (ms : List Migration) :
    Except Thrown (Core.Graph×ReplayReport) :=
  match replayLedger U env items g ms with
  | (g,report,.ok) => .ok (g,report)
  | (_,_,status) => .error (.failed
      (if ms = [] then "replay ledger" else "replay ledger with neural migrations") status)

/-- `LanguageGraph::rebuild_from_ledger`: the graph is replaced if nothing throws. -/
def rebuildFromLedger (g : Core.Graph) (items : List Item) :
    Except Thrown (Core.Graph×ReplayReport) := do
  let rebuilt ← newGraph g.neuralArchitecture
  replayGraph U env rebuilt items []

/-! ## The operator's rebuild -/

/-- What `run_rebuild` finds of the machine: the headroom checks it passes, the ceilings it
derives for a topology, and the topology of a new generation. -/
structure RebuildResources where
  writeHeadroom : Bool
  snapshotHeadroom : Bool
  rebuildHeadroom : Bool
  neuralHeadroom : Architecture → ℕ → ℕ → Bool
  ceilings : Architecture → ℕ×ℕ
  neural : Architecture

def checkThat (condition : Bool) (what : String) : Except Thrown Unit :=
  if condition then .ok () else .error (.runtime what)

/-- One valence line of the journal. -/
def applyJournalValence (g : Core.Graph) (entry : JournalValence) : Except Thrown Core.Graph :=
  match valenceKindFromName entry.kind with
  | none => .error (.runtime "journal valence entry has unknown kind")
  | some kind =>
      match g.valenceEvent (CString.ofRaw entry.token) kind entry.signal entry.atEpoch
          (CString.ofRaw entry.source) with
      | (g,.ok) => .ok g
      | (_,status) => .error (.failed "record valence event" status)

/-- The topologies a rebuild ends and starts with, and its migrations. -/
def rebuildPlan (r : RebuildResources) (persisted : Option Core.Graph) :
    Architecture×Architecture×List Migration :=
  match persisted with
  | none => (r.neural,r.neural,[])
  | some p => (p.neuralArchitecture,
      (p.neuralMigrations.head?.map Migration.source).getD p.neuralArchitecture,p.neuralMigrations)

/-- `run_rebuild`, from the snapshot that is there, to the graph it saves. -/
def runRebuild (r : RebuildResources) (persisted : Option Core.Graph) (items : List Item)
    (journal : JournalContents) : Except Thrown Core.Graph := do
  checkThat r.writeHeadroom "durable storage is inside the safety reserve"
  let (final,initial,migrations) := rebuildPlan r persisted
  checkThat (r.neuralHeadroom final 0 0) "no headroom for the neural architecture"
  checkThat (persisted.isNone || r.snapshotHeadroom) "no headroom for the snapshot"
  let fresh ← newGraph initial
  checkThat r.rebuildHeadroom "durable storage is inside the safety reserve"
  let (rebuilt,_) ← replayGraph U env
    (fresh.setCapacity (r.ceilings final).1 (r.ceilings final).2) items migrations
  checkThat (rebuilt.neuralArchitecture = final)
    "rebuild: replay completed at a neural topology different from the persisted generation"
  checkThat (r.neuralHeadroom final rebuilt.nodes.length rebuilt.edges.length)
    "no headroom for the neural architecture"
  journal.valence.foldlM applyJournalValence rebuilt

end Rebuild

/-! ## Their parts -/

section Parts
variable {U : Utf8proc} {env : UInt64 → IndexEnv} {items : List Item}

theorem newGraph_architecture {a : Architecture} {g : Core.Graph} (h : newGraph a = .ok g) :
    g.neuralArchitecture = a := by
  unfold newGraph at h
  split at h
  · rename_i hc
    cases h
    unfold createWithArchitecture at hc
    obtain ⟨r,-,rfl⟩ := Option.map_eq_some_iff.mp hc
    rfl
  · cases h

theorem newGraph_ok {a : Architecture} {g : Core.Graph} (h : newGraph a = .ok g) :
    g.unbounded = g ∧ g.neuralMigrations = [] ∧ g.valenceEvents = [] ∧
      g.config.nodeCapacityMax = 0 ∧ g.config.edgeCapacityMax = 0 := by
  unfold newGraph at h
  split at h
  · rename_i hc
    cases h
    unfold createWithArchitecture at hc
    obtain ⟨r,-,rfl⟩ := Option.map_eq_some_iff.mp hc
    exact ⟨rfl,rfl,rfl,rfl,rfl⟩
  · cases h

theorem replayGraph_ok {g g' : Core.Graph} {ms : List Migration} {report : ReplayReport} :
    replayGraph U env g items ms = .ok (g',report) ↔
      replayLedger U env items g ms = (g',report,.ok) := by
  unfold replayGraph
  rcases replayLedger U env items g ms with ⟨g₁,report₁,status⟩
  cases status with
  | ok => simp
  | _ => simp

end Parts

end Atperson.Cli
