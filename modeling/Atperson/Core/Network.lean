import Atperson.Core.Types

/-!
# The scorer network

Layout, initialization, forward pass and one training step. The flat parameter arrays are
lists read and written at the same indexes as in the core. Activations and deltas are one
list for each layer in place of one flat scratch array. Sums run in the order of the core's
loops, as rounding depends on it.
-/
namespace Atperson.Core

def architectureVersion : UInt32 := 1
def widthLimit : ℕ := 16384
def parameterLimit : ℕ := 268435456

/-! ## Random numbers -/

/-- `atp_rng_next`: the next state and the number drawn. -/
def rngNext (state : UInt64) : UInt64×UInt64 :=
  let x := state^^^(state>>>12)
  let x := x^^^(x<<<25)
  let x := x^^^(x>>>27)
  (x,x*2685821657736338717)

/-- `atp_rng_signed`. -/
def rngSigned (state : UInt64) : UInt64×Float32 :=
  let (state,value) := rngNext state
  let unit := (value>>>40).toFloat32/(16777215 : UInt32).toFloat32
  (state,unit*2-1)

/-- Draw as many numbers as asked for, each times a scale. -/
def rngDraws (scale : Float32) : ℕ → UInt64 → UInt64×List Float32
  | 0, state => (state,[])
  | n+1, state =>
      let (state,x) := rngSigned state
      let (state,xs) := rngDraws scale n state
      (state,x*scale::xs)

/-! ## Layout -/

def Architecture.legacy : Architecture where
  version := architectureVersion
  embeddingDim := Core.embeddingDim
  inputDim := Core.embeddingDim*2
  hiddenLayerCount := 1
  hiddenWidths := #v[hiddenDim,0,0,0]
  outputDim := 1

namespace Architecture

def activeWidths (a : Architecture) : List ℕ := a.hiddenWidths.toList.take a.hiddenLayerCount

/-- The checks of `atp_neural_layout_build` on the descriptor. -/
def accepted (a : Architecture) : Bool :=
  a.version = architectureVersion && a.embeddingDim ≠ 0 && a.embeddingDim ≤ widthLimit &&
    a.hiddenLayerCount ≠ 0 && a.hiddenLayerCount ≤ maxHiddenLayers && a.outputDim = 1 &&
    a.inputDim = a.embeddingDim*2 &&
    a.activeWidths.all (fun w => w ≠ 0 && w ≤ widthLimit) &&
    (a.hiddenWidths.toList.drop a.hiddenLayerCount).all (fun w => w = 0)

end Architecture

/-- The layers behind an input width, at the given offsets into the parameter arrays. -/
def layoutLayers : ℕ → ℕ → ℕ → List ℕ → List LayerShape
  | _, _, _, [] => []
  | input, weights, biases, output::rest =>
      ⟨input,output,weights,biases⟩::layoutLayers output (weights+input*output) (biases+output) rest

/-- `atp_neural_layout_build`. -/
def layoutBuild (a : Architecture) : Option Layout :=
  let layers := layoutLayers a.inputDim 0 0 (a.activeWidths++[a.outputDim])
  let weightCount := (layers.map fun s => s.inputWidth*s.outputWidth).sum
  let biasCount := (layers.map LayerShape.outputWidth).sum
  if ¬a.accepted then none
  else if parameterLimit < weightCount ∨ parameterLimit-weightCount < biasCount then none
  else some ⟨layers,weightCount,biasCount⟩

def LayerShape.weightIndex (s : LayerShape) (output input : ℕ) : ℕ :=
  s.weightOffset+output*s.inputWidth+input

def LayerShape.biasIndex (s : LayerShape) (output : ℕ) : ℕ := s.biasOffset+output

/-! ## Initialization -/

/-- The order in which weights are drawn. The legacy topology draws, for each hidden unit,
its output weight and then its row; others draw row by row. -/
def weightOrder (a : Architecture) (layout : Layout) : List ℕ :=
  if a = .legacy then
    match layout.layers with
    | [hidden,output] => (List.range hidden.outputWidth).flatMap fun h =>
        output.weightIndex 0 h::(List.range hidden.inputWidth).map (hidden.weightIndex h)
    | _ => []
  else layout.layers.flatMap fun s => (List.range s.outputWidth).flatMap fun o =>
    (List.range s.inputWidth).map (s.weightIndex o)

def setAll (values : List Float32) (updates : List (ℕ×Float32)) : List Float32 :=
  updates.foldl (fun vs u => vs.set u.1 u.2) values

/-- `atp_network_init`, from a generator state. -/
def networkInit (a : Architecture) (rng : UInt64) : Option (UInt64×Network) := do
  let layout ← layoutBuild a
  let order := weightOrder a layout
  let (rng,draws) := rngDraws 0.12 order.length rng
  return (rng,{
    layout
    weights := setAll (List.replicate layout.weightCount 0) (order.zip draws)
    biases := List.replicate layout.biasCount 0
    weightImportance := List.replicate layout.weightCount 0
    biasImportance := List.replicate layout.biasCount 0 })

/-! ## Forward pass -/

def sigmoid (value : Float32) : Float32 :=
  if 0 ≤ value then 1/(1+(-value).exp) else value.exp/(1+value.exp)

/-- The first `dim` coordinates of a node's embedding. -/
def embeddingOf (nodes : List Node) (dim node : ℕ) : List Float32 :=
  let embedding := (nodes[node]?.map Node.embedding).getD []
  (List.range dim).map fun i => embedding.getD i 0

/-- `atp_pair_input`. -/
def pairInput (nodes : List Node) (dim source target : ℕ) : List Float32 :=
  embeddingOf nodes dim source++embeddingOf nodes dim target

namespace Network

def weight (net : Network) (s : LayerShape) (output input : ℕ) : Float32 :=
  net.weights.getD (s.weightIndex output input) 0

def activation (net : Network) (s : LayerShape) (input : List Float32) (output : ℕ) : Float32 :=
  (List.range s.inputWidth).foldl (fun acc i => acc+net.weight s output i*input.getD i 0)
    (net.biases.getD (s.biasIndex output) 0)

/-- `atp_forward`: the outputs of every layer. -/
def forward (net : Network) : List LayerShape → List Float32 → List (List Float32)
  | [], _ => []
  | s::rest, input =>
      let output := (List.range s.outputWidth).map fun o =>
        let z := net.activation s input o
        if rest = [] then sigmoid z else z.tanh
      output::forward net rest output

def score (net : Network) (input : List Float32) : Float32 :=
  ((net.forward net.layout.layers input).getLastD []).getD 0 0

/-! ## Back-propagation -/

/-- The gradient that a layer's output deltas send back to one input. -/
def gradientAt (net : Network) (s : LayerShape) (deltas : List Float32) (input : ℕ) : Float32 :=
  (List.range s.outputWidth).foldl (fun acc o => acc+deltas.getD o 0*net.weight s o input) 0

/-- Behind the first layer: the deltas at each layer's inputs, and the given one at the
scalar output. -/
def hiddenDeltas (net : Network) (final : Float32) :
    List (LayerShape×List Float32) → List (List Float32)
  | [] => [[final]]
  | (s,input)::rest =>
      let behind := hiddenDeltas net final rest
      ((List.range s.inputWidth).map fun i =>
        let a := input.getD i 0
        net.gradientAt s (behind.headD []) i*(1-a*a))::behind

end Network

/-! ## Training -/

/-- What a training step reads of the configuration. -/
structure Tuning where
  rate : Float32
  plasticity : Bool
  threshold : Float32
  scale : Float32

def GraphConfig.tuning (c : GraphConfig) : Tuning where
  rate := c.learningRate
  plasticity := c.enablePlasticityControl
  threshold := if 0 < c.plasticityThreshold then c.plasticityThreshold else 0.5
  scale := if 0 ≤ c.plasticityScale then c.plasticityScale else 0.1

structure Training where
  network : Network
  nodes : List Node
  parametersProtected : UInt64
  stepProtected : Bool

/-- `atp_apply_gradient` on one parameter: its value, its importance, and whether it was
protected. -/
def applyGradient (t : Tuning) (parameter importance gradient : Float32) :
    Float32×Float32×Bool :=
  let guarded := t.plasticity && decide (t.threshold < importance)
  let rate := if guarded then t.rate*t.scale else t.rate
  (parameter-rate*gradient,if t.plasticity then importance+gradient.abs else importance,guarded)

namespace Training

def note (x : Training) (guarded : Bool) : Training :=
  {x with
    parametersProtected := if guarded then x.parametersProtected+1 else x.parametersProtected
    stepProtected := x.stepProtected || guarded}

def applyWeight (t : Tuning) (k : ℕ) (gradient : Float32) (x : Training) : Training :=
  let net := x.network
  let r := applyGradient t (net.weights.getD k 0) (net.weightImportance.getD k 0) gradient
  {x with network := {net with
    weights := net.weights.set k r.1
    weightImportance := net.weightImportance.set k r.2.1}}.note r.2.2

def applyBias (t : Tuning) (k : ℕ) (gradient : Float32) (x : Training) : Training :=
  let net := x.network
  let r := applyGradient t (net.biases.getD k 0) (net.biasImportance.getD k 0) gradient
  {x with network := {net with
    biases := net.biases.set k r.1
    biasImportance := net.biasImportance.set k r.2.1}}.note r.2.2

def applyEmbedding (t : Tuning) (node i : ℕ) (gradient : Float32) (x : Training) : Training :=
  match x.nodes[node]? with
  | none => x
  | some n =>
      let r := applyGradient t (n.embedding.getD i 0) (n.embeddingImportance.getD i 0) gradient
      {x with nodes := x.nodes.set node {n with
        embedding := n.embedding.set i r.1
        embeddingImportance := n.embeddingImportance.set i r.2.1}}.note r.2.2

/-- Update one layer from its inputs and the deltas at its outputs. -/
def applyLayer (t : Tuning) (s : LayerShape) (input deltas : List Float32) (x : Training) :
    Training :=
  (List.range s.outputWidth).foldl (fun x o =>
    let delta := deltas.getD o 0
    ((List.range s.inputWidth).foldl
      (fun x i => x.applyWeight t (s.weightIndex o i) (delta*input.getD i 0)) x).applyBias t
        (s.biasIndex o) delta) x

def applyLayers (t : Tuning) : List (LayerShape×List Float32×List Float32) → Training → Training
  | [], x => x
  | (s,input,deltas)::rest, x => applyLayers t rest (x.applyLayer t s input deltas)

/-- Update the embeddings of a pair, coordinate by coordinate: the source's, then the
target's, which may be the same node. -/
def applyPair (t : Tuning) (dim source target : ℕ) (deltas : List Float32) (x : Training) :
    Training :=
  (List.range dim).foldl (fun x i =>
    (x.applyEmbedding t source i (deltas.getD i 0)).applyEmbedding t target i
      (deltas.getD (dim+i) 0)) x

end Training

def clipEpsilon : Float32 := 1.0e-6

def clipOutput (output : Float32) : Float32 :=
  if output < clipEpsilon then clipEpsilon
  else if 1-clipEpsilon < output then 1-clipEpsilon else output

def crossEntropy (output expected : Float32) : Float32 :=
  -(expected*(clipOutput output).log+(1-expected)*(1-clipOutput output).log)

/-- `atp_network_train` on what it reads and writes: the step and its loss. -/
def trainPair (t : Tuning) (dim : ℕ) (net : Network) (nodes : List Node) (source target : ℕ)
    (expected : Float32) : Training×Float32 :=
  let layers := net.layout.layers
  let input := pairInput nodes dim source target
  let outputs := net.forward layers input
  let output := (outputs.getLastD []).getD 0 0
  let inputs := input::outputs
  let deltas := net.hiddenDeltas (output-expected) ((layers.zip inputs).drop 1)
  let embeddingDeltas := match layers with
    | [] => []
    | s::_ => (List.range s.inputWidth).map (net.gradientAt s (deltas.headD []))
  let x : Training := ⟨net,nodes,0,false⟩
  let x := x.applyLayers t (layers.zip (inputs.zip deltas))
  (x.applyPair t dim source target embeddingDeltas,crossEntropy output expected)

namespace Graph

/-- `atp_network_train`. -/
def networkTrain (g : Graph) (source target : ℕ) (expected : Float32) : Graph×Float32 :=
  let t := g.config.tuning
  let trained := trainPair t g.neuralArchitecture.embeddingDim g.network g.nodes source target
    expected
  let x := trained.1
  ({g with
      network := x.network
      nodes := x.nodes
      plasticityStepsTotal :=
        if t.plasticity then g.plasticityStepsTotal+1 else g.plasticityStepsTotal
      plasticityStepsProtected :=
        if t.plasticity && x.stepProtected then g.plasticityStepsProtected+1
        else g.plasticityStepsProtected
      plasticityParametersProtected := g.plasticityParametersProtected+x.parametersProtected},
    trained.2)

/-- `atp_network_score`, for two nodes of the graph. -/
def networkScore (g : Graph) (source target : ℕ) : Float32 :=
  g.network.score (pairInput g.nodes g.neuralArchitecture.embeddingDim source target)

end Graph

/-! ## What training leaves alone -/

/-- A node but for the values of its vectors. -/
def Node.frame (n : Node) : Token×UInt64×Float32×ℕ×ℕ :=
  (n.token,n.observations,n.familiarity,n.embedding.length,n.embeddingImportance.length)

/-- The widths of a network. -/
def Network.frame (net : Network) : Layout×ℕ×ℕ×ℕ×ℕ :=
  (net.layout,net.weights.length,net.biases.length,net.weightImportance.length,
    net.biasImportance.length)

/-- A training step changes parameter values and nothing else. -/
structure Training.Reframes (x y : Training) : Prop where
  nodes : y.nodes.map Node.frame = x.nodes.map Node.frame
  network : y.network.frame = x.network.frame

namespace Training
variable {x y z : Training} {t : Tuning}

theorem Reframes.refl (x : Training) : x.Reframes x := ⟨rfl,rfl⟩

theorem Reframes.trans (h : x.Reframes y) (h' : y.Reframes z) : x.Reframes z :=
  ⟨h'.nodes.trans h.nodes,h'.network.trans h.network⟩

theorem reframes_foldl {α : Type} {step : Training → α → Training}
    (h : ∀ (x : Training) (a : α), x.Reframes (step x a)) (as : List α) (x : Training) :
    x.Reframes (as.foldl step x) := by
  induction as generalizing x with
  | nil => exact .refl x
  | cons a as ih => exact (h x a).trans (ih _)

theorem reframes_weight (k : ℕ) (gradient : Float32) (x : Training) :
    x.Reframes (x.applyWeight t k gradient) :=
  ⟨rfl,by simp [applyWeight,note,Network.frame]⟩

theorem reframes_bias (k : ℕ) (gradient : Float32) (x : Training) :
    x.Reframes (x.applyBias t k gradient) :=
  ⟨rfl,by simp [applyBias,note,Network.frame]⟩

theorem map_set_same {α β : Type} {f : α → β} {as : List α} {i : ℕ} {a b : α}
    (h : as[i]? = some a) (hf : f b = f a) : (as.set i b).map f = as.map f := by
  refine List.ext_getElem? fun j => ?_
  rw [List.getElem?_map,List.getElem?_set,List.getElem?_map]
  split
  · rename_i hij
    subst hij
    split
    · rw [h]
      exact congrArg some hf
    · rename_i hlt
      rw [List.getElem?_eq_none (Nat.not_lt.mp hlt)] at h
      cases h
  · rfl

theorem reframes_embedding (node i : ℕ) (gradient : Float32) (x : Training) :
    x.Reframes (x.applyEmbedding t node i gradient) := by
  unfold applyEmbedding
  split
  · exact .refl x
  · rename_i n hn
    exact ⟨map_set_same hn (by simp [Node.frame]),rfl⟩

theorem reframes_layer (s : LayerShape) (input deltas : List Float32) (x : Training) :
    x.Reframes (x.applyLayer t s input deltas) :=
  reframes_foldl (fun x _ => (reframes_foldl (fun x _ => reframes_weight _ _ x) _ x).trans
    (reframes_bias _ _ _)) _ x

theorem reframes_layers (steps : List (LayerShape×List Float32×List Float32)) (x : Training) :
    x.Reframes (applyLayers t steps x) := by
  induction steps generalizing x with
  | nil => exact .refl x
  | cons s rest ih => exact (reframes_layer _ _ _ x).trans (ih _)

theorem reframes_pair (dim source target : ℕ) (deltas : List Float32) (x : Training) :
    x.Reframes (x.applyPair t dim source target deltas) :=
  reframes_foldl (fun x _ => (reframes_embedding _ _ _ x).trans (reframes_embedding _ _ _ _)) _ x

end Training

theorem trainPair_reframes (t : Tuning) (dim : ℕ) (net : Network) (nodes : List Node)
    (source target : ℕ) (expected : Float32) :
    (⟨net,nodes,0,false⟩ : Training).Reframes
      (trainPair t dim net nodes source target expected).1 :=
  (Training.reframes_layers _ _).trans (Training.reframes_pair _ _ _ _ _)

end Atperson.Core
