import Atperson.Core.Lifecycle

/-!
# Neural expansion

A migration grows the network to a larger topology: every old parameter is copied to its
place in the new arrays and the rest is drawn from a generator of the migration's own.
-/
namespace Atperson.Core
open Ledger (Status)

def migrationVersion : UInt32 := 1

namespace Migration

/-- `atp_neural_migration_validate`: the target keeps every coordinate of the source and
grows. -/
def valid (m : Migration) : Bool :=
  let source := m.source.activeWidths
  let target := m.target.activeWidths
  m.version = migrationVersion && m.seed ≠ 0 &&
    (layoutBuild m.source).isSome && (layoutBuild m.target).isSome &&
    m.source.version = m.target.version && m.source.outputDim = m.target.outputDim &&
    m.source.embeddingDim ≤ m.target.embeddingDim &&
    m.source.hiddenLayerCount ≤ m.target.hiddenLayerCount &&
    (source.zip target).all (fun w => w.1 ≤ w.2) &&
    source.getLastD 0 ≤ target.getLastD 0 &&
    (m.source.embeddingDim < m.target.embeddingDim ||
      m.source.hiddenLayerCount < m.target.hiddenLayerCount ||
      (source.zip target).any (fun w => w.1 < w.2))

/-- `atp_migration_rng_state`. -/
def rngState (m : Migration) : UInt64 :=
  let state := (m.seed^^^0x4D49475241544531)^^^(m.version.toUInt64*0x9E3779B97F4A7C15)
  if state = 0 then 0xA7C15D1CEB00B135 else state

end Migration

/-- Copy parameters between flat arrays: to the first index of a pair from the second. -/
def copyAt (target source : List Float32) (places : List (ℕ×ℕ)) : List Float32 :=
  places.foldl (fun t p => t.set p.1 (source.getD p.2 0)) target

/-- The weights of one hidden layer, old place behind new. The first layer's inputs are two
embeddings, each of which grows. -/
def hiddenWeightPlaces (source target : Architecture) (layer : ℕ) (old new : LayerShape) :
    List (ℕ×ℕ) :=
  (List.range old.outputWidth).flatMap fun o =>
    if layer = 0 then (List.range source.embeddingDim).flatMap fun d =>
      [(new.weightIndex o d,old.weightIndex o d),
        (new.weightIndex o (target.embeddingDim+d),old.weightIndex o (source.embeddingDim+d))]
    else (List.range old.inputWidth).map fun i => (new.weightIndex o i,old.weightIndex o i)

def hiddenBiasPlaces (old new : LayerShape) : List (ℕ×ℕ) :=
  (List.range old.outputWidth).map fun o => (new.biasIndex o,old.biasIndex o)

/-- The hidden layers of the source with the target layers they are copied to. -/
def hiddenPairs (m : Migration) (old new : Layout) : List (ℕ×LayerShape×LayerShape) :=
  (List.range m.source.hiddenLayerCount).zip (old.layers.zip new.layers)

/-- `atp_copy_hidden_layer` and `atp_copy_output_layer`: where every weight goes. -/
def weightPlaces (m : Migration) (old new : Layout) : List (ℕ×ℕ) :=
  (hiddenPairs m old new).flatMap (fun p => hiddenWeightPlaces m.source m.target p.1 p.2.1 p.2.2)++
    match old.layers.getLast?,new.layers.getLast? with
    | some o,some n => (List.range o.inputWidth).map fun i => (n.weightIndex 0 i,o.weightIndex 0 i)
    | _,_ => []

def biasPlaces (m : Migration) (old new : Layout) : List (ℕ×ℕ) :=
  (hiddenPairs m old new).flatMap (fun p => hiddenBiasPlaces p.2.1 p.2.2)++
    match old.layers.getLast?,new.layers.getLast? with
    | some o,some n => [(n.biasIndex 0,o.biasIndex 0)]
    | _,_ => []

/-- The network of the target topology, from the migration's own generator. -/
def expandNetwork (m : Migration) (net : Network) (layout : Layout) : UInt64×Network :=
  let drawn := rngDraws 0.12 layout.weightCount m.rngState
  let weights := weightPlaces m net.layout layout
  let biases := biasPlaces m net.layout layout
  (drawn.1,{
    layout
    weights := copyAt drawn.2 net.weights weights
    biases := copyAt (List.replicate layout.biasCount 0) net.biases biases
    weightImportance := copyAt (List.replicate layout.weightCount 0) net.weightImportance weights
    biasImportance := copyAt (List.replicate layout.biasCount 0) net.biasImportance biases })

/-- Grow every node's vectors, node by node from one generator. -/
def expandNodes (source target : ℕ) : UInt64 → List Node → List Node
  | _, [] => []
  | rng, n::rest =>
      let drawn := rngDraws 0.05 (target-source) rng
      {n with
        embedding := n.embedding.take source++drawn.2
        embeddingImportance :=
          n.embeddingImportance.take source++List.replicate (target-source) 0}::
        expandNodes source target drawn.1 rest

/-- A migration may not lie before the last one recorded. -/
def Migration.follows (m : Migration) (history : List Migration) : Bool :=
  match history.getLast? with
  | none => true
  | some last => last.ledgerBoundaryId ≤ m.ledgerBoundaryId

namespace Graph

/-- `atp_graph_expand_neural`. -/
def expandNeural (g : Graph) (m : Migration) : Graph×Status :=
  if ¬m.valid ∨ g.neuralArchitecture ≠ m.source ∨ ¬m.follows g.neuralMigrations then
    (g,.migration)
  else match layoutBuild m.target with
    | none => (g,.migration)
    | some layout =>
        let expanded := expandNetwork m g.network layout
        ({g with
            network := expanded.2
            nodes := expandNodes m.source.embeddingDim m.target.embeddingDim expanded.1 g.nodes
            neuralArchitecture := m.target
            neuralMigrations := g.neuralMigrations++[m]},.ok)

end Graph

end Atperson.Core
