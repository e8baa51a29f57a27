import Atperson.Runs.Guarded
import Atperson.Sync.Faithful

/-!
# The live graph and the replay of its ledger

One graph and its ledger take one observation after another, under ceilings that may change in
between. The live graph is the replay of the ledger if each observation is orderly: what the
ceilings admit is committed in the same call, and an entry that an earlier call left behind is
taken up again only with what it says, and before anything that matters came behind it.
-/
namespace Atperson.Sync
open Wire
open Atperson.Core (Graph Utf8proc GraphConfig Architecture createWithArchitecture learnItems)
open Ledger (Item Numbered)
open Runs

/-- A call of `process_observation`, or new ceilings for the graph. -/
inductive LiveCall where
  | observe (env : ItemEnv) (o : SyncObservation)
  | setCapacity (nodes edges : ℕ)

section Live
variable (U : Utf8proc)

/-- The graph and the ledger behind a call, whether it returned or threw. -/
def Learner.call (w : Learner) : LiveCall → Learner
  | .observe env o => (processObservation U env w o).1
  | .setCapacity nodes edges => {w with graph := w.graph.setCapacity nodes edges}

def OrderlyCall (w : Learner) : LiveCall → Prop
  | .observe env o => Orderly U env w o
  | .setCapacity _ _ => True

/-- A graph without a past over a ledger without entries. -/
def Learner.start (fresh : Graph) : Learner := ⟨fresh,Ledger.createdSession,[]⟩

/-- The graph is what a replay of its ledger makes of the fresh graph without ceilings, its
own ceilings and its count of refusals apart. -/
def IsReplay (fresh : Graph) (w : Learner) : Prop :=
  ∃ told report, Core.replayLedger U calmReplay w.items fresh.unbounded [] = (told,report,.ok) ∧
    w.graph.knowledge = told.knowledge

variable {U} {fresh : Graph} {w : Learner}

theorem numbered_start : Numbered (Learner.start fresh).session :=
  Ledger.numbered_opened (Ledger.openLedger_fresh Ledger.noMigration)

theorem retells_start : Retells U fresh.unbounded (Learner.start fresh) :=
  ⟨fresh.unbounded,rfl,rfl⟩

theorem Retells.isReplay (hnum : Numbered w.session) (h : Retells U fresh.unbounded w) :
    IsReplay U fresh w := by
  obtain ⟨told,hlearn,hsame⟩ := h
  obtain ⟨report,hreplay⟩ := (Core.replayLedger_learns hnum.ids).mpr hlearn
  exact ⟨told,report,hreplay,hsame⟩

/-- An orderly call leaves a graph that retells its ledger so. -/
theorem Retells.call {c : LiveCall} (hnum : Numbered w.session)
    (h : Retells U fresh.unbounded w) (ho : OrderlyCall U w c) :
    Numbered (w.call U c).session ∧ Retells U fresh.unbounded (w.call U c) := by
  cases c with
  | observe env o => exact ⟨processObservation_numbered hnum rfl,h.process rfl hnum ho rfl⟩
  | setCapacity nodes edges => exact ⟨hnum,h.frame rfl rfl⟩

end Live

/-- In every run of orderly calls from a fresh graph and ledger the live graph is the replay of
its ledger, and so it is whenever every entry is committed. -/
theorem live_graph_is_replay (U : Utf8proc) (fresh : Graph) (calls : List LiveCall)
    (h : Guarded (Learner.call U) (OrderlyCall U) (Learner.start fresh) calls) :
    IsReplay U fresh (runFrom (Learner.call U) (Learner.start fresh) calls) := by
  have hrun := h.invariant (P := fun w => Numbered w.session ∧ Retells U fresh.unbounded w)
    (fun w c hw ho => hw.2.call hw.1 ho) ⟨numbered_start,retells_start⟩
  exact hrun.2.isReplay hrun.1

/-! ## Samples -/

namespace Sample

def post (source : UInt8) (text : Bytes) : SyncObservation where
  text
  sourceUri := [source]
  authorDid := []
  createdAt := []
  policyReason := .eligible
  context := ⟨[],[],[]⟩

/-- The outcome of a text that was learned is not committed, and the text is learned again. -/
def strandedCalls : List LiveCall :=
  [.observe {ItemEnv.calm with outcome := some .seek} (post 1 [98]),.observe .calm (post 1 [98])]

/-- A text of two tokens is refused under a ceiling of one, a text of one token is learned, and
the first is taken up again when the ceiling is gone. -/
def retriedCalls : List LiveCall :=
  [.setCapacity 1 0,.observe .calm (post 1 [120,32,121]),.observe .calm (post 2 [98]),
    .setCapacity 0 0,.observe .calm (post 1 [120,32,121])]

def freshCalls : List LiveCall :=
  [.observe .calm (post 1 [120,32,121]),.setCapacity 1 0,.setCapacity 0 0,
    .observe .calm (post 2 [98])]

/-- How often a graph was taught a text, and what its mirror lists. -/
def taught (g : Graph) : UInt64×List UInt64 := (g.observations,g.ledger.map fun m => m.entry.id)

def replayed (U : Utf8proc) (fresh : Graph) (w : Learner) : UInt64×List UInt64 :=
  taught (Core.replayLedger U calmReplay w.items fresh.unbounded []).1

theorem taught_of_isReplay {U : Utf8proc} {fresh : Graph} {w : Learner}
    (h : IsReplay U fresh w) : taught w.graph = replayed U fresh w := by
  obtain ⟨told,report,hreplay,hsame⟩ := h
  have hledger := congrArg Graph.ledger hsame
  have hcount := congrArg Graph.observations hsame
  change w.graph.ledger = told.ledger at hledger
  change w.graph.observations = told.observations at hcount
  rw [taught,replayed,hreplay,hledger,hcount]
  rfl

def liveRun (fresh : Graph) (calls : List LiveCall) : Learner :=
  runFrom (Learner.call .plain) (Learner.start fresh) calls

/-- Every entry is committed, and the graph was taught a text twice, or two texts in another
order than a replay teaches them. -/
theorem retries_differ : ∃ fresh, Core.createGraph .default = some fresh ∧
    ((liveRun fresh strandedCalls).items.map Item.outcome = [.learned] ∧
      ¬IsReplay .plain fresh (liveRun fresh strandedCalls)) ∧
    (liveRun fresh retriedCalls).items.map Item.outcome = [.learned,.learned] ∧
      ¬IsReplay .plain fresh (liveRun fresh retriedCalls) := by
  have hfacts : (Core.createGraph .default).map (fun fresh =>
      decide (((liveRun fresh strandedCalls).items.map Item.outcome = [.learned] ∧
        taught (liveRun fresh strandedCalls).graph ≠
          replayed .plain fresh (liveRun fresh strandedCalls)) ∧
        (liveRun fresh retriedCalls).items.map Item.outcome = [.learned,.learned] ∧
        taught (liveRun fresh retriedCalls).graph ≠
          replayed .plain fresh (liveRun fresh retriedCalls))) = some true := by
    decide +kernel
  obtain ⟨fresh,hfresh,hdec⟩ := Option.map_eq_some_iff.mp hfacts
  obtain ⟨⟨hstranded,htwice⟩,hretried,horder⟩ := of_decide_eq_true hdec
  exact ⟨fresh,hfresh,⟨hstranded,fun h => htwice (taught_of_isReplay h)⟩,hretried,
    fun h => horder (taught_of_isReplay h)⟩

def freshTo (U : Utf8proc) (w : Learner) (o : SyncObservation) : Bool :=
  Ledger.indexFind w.items (CString.ofRaw o.sourceUri).bytes o.digest = none ∧
    (processObservation U .calm w o).2.isOk

theorem orderly_fresh {U : Utf8proc} {w : Learner} {o : SyncObservation} (h : freshTo U w o = true) :
    Orderly U .calm w o := by
  obtain ⟨hnone,hok⟩ := of_decide_eq_true h
  rcases hp : processObservation U .calm w o with ⟨w',t | new⟩
  · rw [hp] at hok
    cases hok
  · exact orderly_of_new rfl hnone hp

theorem guarded_fresh {U : Utf8proc} {w : Learner} {o o' : SyncObservation} {m n m' n' : ℕ}
    (h : freshTo U w o = true)
    (h' : freshTo U (((w.call U (.observe .calm o)).call U (.setCapacity m n)).call U
      (.setCapacity m' n')) o' = true) :
    Guarded (Learner.call U) (OrderlyCall U) w
      [.observe .calm o,.setCapacity m n,.setCapacity m' n',.observe .calm o'] :=
  ⟨orderly_fresh h,trivial,trivial,orderly_fresh h',trivial⟩

theorem live_graph_is_replay_fresh : ∃ fresh, Core.createGraph .default = some fresh ∧
    IsReplay .plain fresh (runFrom (Learner.call .plain) (Learner.start fresh) freshCalls) := by
  have hfacts : (Core.createGraph .default).map (fun fresh =>
      freshTo .plain (Learner.start fresh) (post 1 [120,32,121]) &&
        freshTo .plain ((((Learner.start fresh).call .plain (.observe .calm
          (post 1 [120,32,121]))).call .plain (.setCapacity 1 0)).call .plain (.setCapacity 0 0))
          (post 2 [98])) = some true := by
    decide +kernel
  obtain ⟨fresh,hfresh,hdec⟩ := Option.map_eq_some_iff.mp hfacts
  obtain ⟨hfirst,hsecond⟩ := Bool.and_eq_true_iff.mp hdec
  exact ⟨fresh,hfresh,live_graph_is_replay .plain fresh freshCalls (guarded_fresh hfirst hsecond)⟩

end Sample
end Atperson.Sync
