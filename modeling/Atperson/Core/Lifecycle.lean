import Atperson.Core.Network
import Atperson.Core.Groups

/-!
# Graph construction

Fresh graphs, resource ceilings and the ledger mirror.
-/
namespace Atperson.Core
open Ledger (Status LedgerEntry ConversationContext)

def GraphConfig.default : GraphConfig where
  seed := 0x4154504552534F4E
  learningRate := 0.025
  familiarityDecay := 0.98
  valenceRate := 0.25
  episodeCapacity := episodeDefaultCapacity
  nodeCapacityMax := 0
  edgeCapacityMax := 0
  enablePlasticityControl := false
  plasticityThreshold := 0
  plasticityScale := 0

/-- `atp_graph_effective_config`. -/
def GraphConfig.effective (c : GraphConfig) : GraphConfig :=
  {c with
    seed := if c.seed = 0 then GraphConfig.default.seed else c.seed
    learningRate :=
      if ¬0 < c.learningRate ∨ ¬c.learningRate.isFinite then GraphConfig.default.learningRate
      else c.learningRate
    familiarityDecay :=
      if ¬0 < c.familiarityDecay ∨ 1 ≤ c.familiarityDecay then GraphConfig.default.familiarityDecay
      else c.familiarityDecay
    valenceRate :=
      if ¬0 < c.valenceRate ∨ 1 < c.valenceRate ∨ ¬c.valenceRate.isFinite then
        GraphConfig.default.valenceRate
      else c.valenceRate
    episodeCapacity := if c.episodeCapacity = 0 then episodeDefaultCapacity else c.episodeCapacity}

/-- A graph that has learned nothing, over a network and the generator state it left. -/
def Graph.fresh (config : GraphConfig) (architecture : Architecture) (rng : UInt64)
    (network : Network) : Graph where
  config
  rngState := rng
  nodes := []
  edges := []
  neuralArchitecture := architecture
  network
  neuralMigrations := []
  ledger := []
  episodes := []
  episodeMax := config.episodeCapacity
  episodeEvictions := 0
  index := .empty
  valenceRecords := []
  valenceEvents := []
  valenceEventEvictions := 0
  observations := 0
  tokenObservations := 0
  trainingSteps := 0
  lossTotal := 0
  capacityRejections := 0
  plasticityStepsTotal := 0
  plasticityStepsProtected := 0
  plasticityParametersProtected := 0

/-- `atp_graph_create_with_architecture`. -/
def createWithArchitecture (config : GraphConfig) (a : Architecture) : Option Graph :=
  (networkInit a config.effective.seed).map fun r => .fresh config.effective a r.1 r.2

/-- `atp_graph_create`. -/
def createGraph (config : GraphConfig) : Option Graph := createWithArchitecture config .legacy

namespace Graph

/-- `atp_graph_set_capacity`. -/
def setCapacity (g : Graph) (nodeCapacityMax edgeCapacityMax : ℕ) : Graph :=
  {g with config := {g.config with nodeCapacityMax,edgeCapacityMax}}

/-- `atp_graph_add_ledger_entry_with_context`. -/
def addLedgerEntry (g : Graph) (entry : LedgerEntry) (context : ConversationContext) :
    Graph×Status :=
  if entry.sourceId.bytes = [] then (g,.invalidArgument)
  else ({g with ledger := g.ledger++[⟨entry,context⟩]},.ok)

end Graph

end Atperson.Core
