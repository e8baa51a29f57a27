import Atperson.Core.Lifecycle
import Atperson.Core.Observe

/-!
# What learning leaves alone

Learning from a text grows vocabulary, associations and episodes. The configuration, the
topology and its history, the mirror of the ledger and the valence of the graph are its
backdrop: they stay as they are, however the observation ends.
-/
namespace Atperson.Core
open Wire

structure Backdrop where
  config : GraphConfig
  neuralArchitecture : Architecture
  neuralMigrations : List Migration
  ledger : List Mirrored
  episodeMax : ℕ
  valenceRecords : List ValenceRecord
  valenceEvents : List ValenceEvent
  valenceEventEvictions : UInt64

def Graph.backdrop (g : Graph) : Backdrop where
  config := g.config
  neuralArchitecture := g.neuralArchitecture
  neuralMigrations := g.neuralMigrations
  ledger := g.ledger
  episodeMax := g.episodeMax
  valenceRecords := g.valenceRecords
  valenceEvents := g.valenceEvents
  valenceEventEvictions := g.valenceEventEvictions

/-- The mirror gains an entry and nothing else of the backdrop moves. -/
def Backdrop.mirror (b : Backdrop) (m : Mirrored) : Backdrop := {b with ledger := b.ledger++[m]}

/-- A reading of a graph that nothing the walk rewrites enters. -/
def Aside {β : Type} (F : Graph → β) : Prop :=
  ∀ (g : Graph) rngState nodes edges network tokenObservations trainingSteps lossTotal
    capacityRejections steps stepsProtected parametersProtected,
    F {g with
      rngState := rngState
      nodes := nodes
      edges := edges
      network := network
      tokenObservations := tokenObservations
      trainingSteps := trainingSteps
      lossTotal := lossTotal
      capacityRejections := capacityRejections
      plasticityStepsTotal := steps
      plasticityStepsProtected := stepsProtected
      plasticityParametersProtected := parametersProtected} = F g

section Walk
variable {β : Type} {F : Graph → β}

theorem Aside.internNode (hF : Aside F) (g : Graph) (token : Token) :
    F (g.internNode token).1 = F g := by
  cases hf : g.findNode token with
  | some i =>
      simp only [Graph.internNode,hf]
      exact hF g _ _ _ _ _ _ _ _ _ _ _
  | none =>
      by_cases hfull : g.nodesFull
      · simp only [Graph.internNode,hf,if_pos hfull]
        exact hF g _ _ _ _ _ _ _ _ _ _ _
      · simp only [Graph.internNode,hf,if_neg hfull]
        -- the kernel must not count up to the bound
        generalize 2^32-1 = limit
        split
        · rfl
        · exact hF g _ _ _ _ _ _ _ _ _ _ _

theorem Aside.trainOn (hF : Aside F) (g : Graph) (source target : ℕ) (expected : Float32) :
    F (g.trainOn source target expected) = F g := hF g _ _ _ _ _ _ _ _ _ _ _

theorem Aside.trainNegative (hF : Aside F) (g : Graph) (source target : ℕ) :
    F (g.trainNegative source target) = F g := by
  have hrng : ∀ rng, F {g with rngState := rng} = F g := fun _ => hF g _ _ _ _ _ _ _ _ _ _ _
  unfold Graph.trainNegative
  generalize Graph.drawNegative g.nodes.length source target 8 g.rngState 0 = drawn
  split
  · simp only
    split
    · exact (hF.trainOn _ source drawn.2 0).trans (hrng _)
    · exact hrng _
  · rfl

theorem Aside.learnPair (hF : Aside F) (g : Graph) (edge source target : ℕ) (sourceHash : UInt64) :
    F (g.learnPair edge source target sourceHash) = F g := by
  have hstrengthen : ∀ g : Graph, F (g.strengthen edge source target sourceHash) = F g :=
    fun g => hF g _ _ _ _ _ _ _ _ _ _ _
  exact (hstrengthen _).trans ((hF.trainNegative _ source target).trans
    (hF.trainOn g source target 1))

theorem Aside.observePair (hF : Aside F) (g : Graph) (source target : ℕ) (sourceHash : UInt64) :
    F (g.observePair source target sourceHash).1 = F g := by
  unfold Graph.observePair
  split
  · rfl
  · split
    · exact hF.learnPair g _ source target sourceHash
    · split
      · exact hF g _ _ _ _ _ _ _ _ _ _ _
      · have hedge : F (g.createEdge source target sourceHash) = F g :=
          hF g _ _ _ _ _ _ _ _ _ _ _
        exact (hF.learnPair _ _ source target sourceHash).trans hedge

theorem Aside.observeEmit (hF : Aside F) (hash : UInt64) (w : ObserveWalk) (token : Token) :
    F (Core.observeEmit hash w token).1.graph = F w.graph := by
  have hintern := hF.internNode w.graph token
  have hcount : ∀ g : Graph, F {g with tokenObservations := g.tokenObservations+1} = F g :=
    fun g => hF g _ _ _ _ _ _ _ _ _ _ _
  unfold Core.observeEmit
  generalize w.graph.internNode token = interned at hintern
  rcases interned with ⟨g,status | current⟩
  · exact hintern
  · have hcounted := (hcount g).trans hintern
    cases w.previous with
    | none => exact hcounted
    | some previous =>
        have hpair := hF.observePair {g with tokenObservations := g.tokenObservations+1}
          previous current hash
        simp only
        generalize Graph.observePair {g with tokenObservations := g.tokenObservations+1} previous
          current hash = paired at hpair
        rcases paired with ⟨g',status⟩
        cases status <;> exact hpair.trans hcounted

theorem Aside.memoryEmit (hF : Aside F) (hash : UInt64) (w : MemoryWalk) (token : Token) :
    F (Core.memoryEmit hash w token).1.base.graph = F w.base.graph := by
  have h := hF.observeEmit hash w.base token
  unfold Core.memoryEmit
  generalize Core.observeEmit hash w.base token = emitted at h
  rcases emitted with ⟨base,_ | _⟩ <;> exact h

/-- A walk leaves alone what is aside. -/
theorem Aside.memoryWalk (hF : Aside F) (hash : UInt64) (w : MemoryWalk) (tokens : List Token) :
    F (emitAll (Core.memoryEmit hash) w tokens).base.graph = F w.base.graph := by
  induction tokens generalizing w with
  | nil => rfl
  | cons token rest ih =>
      unfold emitAll
      split
      · exact (ih _).trans (hF.memoryEmit hash w token)
      · exact hF.memoryEmit hash w token

end Walk

theorem aside_backdrop : Aside Graph.backdrop := fun _ _ _ _ _ _ _ _ _ _ _ _ => rfl

theorem aside_episodes : Aside Graph.episodes := fun _ _ _ _ _ _ _ _ _ _ _ _ => rfl

namespace Graph

theorem backdrop_countObservation (g : Graph) (sawToken : Bool) :
    (g.countObservation sawToken).backdrop = g.backdrop := by
  unfold countObservation
  split <;> rfl

theorem backdrop_makeRoom (env : IndexEnv) (g : Graph) :
    (g.makeRoom env).1.backdrop = g.backdrop := by
  unfold makeRoom
  split <;> rfl

theorem backdrop_appendEpisode (allocs : Allocs) (g : Graph) (e : Episode) :
    (g.appendEpisode allocs e).1.backdrop = g.backdrop := by
  unfold appendEpisode
  split <;> rfl

theorem backdrop_rememberEpisode (env : IndexEnv) (g : Graph) (e : Episode) :
    (g.rememberEpisode env e).1.backdrop = g.backdrop :=
  (backdrop_appendEpisode _ _ e).trans (backdrop_makeRoom env g)

end Graph

/-- However an observation ends, the backdrop is as it was. -/
theorem backdrop_observeWithMemory (U : Utf8proc) (env : IndexEnv) (g : Graph) (text : Text)
    (p : Provenance) : (observeWithMemory U env g text p).1.backdrop = g.backdrop := by
  unfold observeWithMemory
  have hwalk := aside_backdrop.memoryWalk (hashSource p.sourceId.bytes) ⟨.start g,[]⟩
    (tokenize U p.schemaVersion text)
  generalize emitAll (memoryEmit (hashSource p.sourceId.bytes)) ⟨.start g,[]⟩
    (tokenize U p.schemaVersion text) = w at hwalk
  split
  · rfl
  · simp only
    split
    · exact hwalk
    · have hcount := (w.base.graph.backdrop_countObservation w.base.sawToken).trans hwalk
      split
      · exact hcount
      · exact (Graph.backdrop_rememberEpisode env _ _).trans hcount

theorem backdrop_addLedgerEntry {g g' : Graph} {entry : Ledger.LedgerEntry}
    {context : Ledger.ConversationContext} (h : g.addLedgerEntry entry context = (g',.ok)) :
    g'.backdrop = g.backdrop.mirror ⟨entry,context⟩ := by
  unfold Graph.addLedgerEntry at h
  split at h
  · cases h
  · cases h
    rfl

end Atperson.Core
