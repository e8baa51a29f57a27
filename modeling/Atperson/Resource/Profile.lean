import Atperson.Core.NeuralLayout
import Atperson.Runs.Fallible
import Atperson.Wire.Json

/-!
# Neural capacity profiles

The shape of the network that a host is given: one of five classes, by memory and processor, or
what the operator asks for. A shape that passes the checks here is one that the core lays out, and
the parameters counted here are the core's.
-/
namespace Atperson.Resource
open Runs Wire
open Atperson.Core (Architecture architectureVersion layoutBuild maxHiddenLayers parameterLimit widthLimit)

/-- What ends a derivation: a message thrown, or a sum or product that must not wrap and does. -/
inductive BudgetStop where
  | wrapped
  | thrown (message : String)
  deriving DecidableEq

def kib : ℕ := 1024
def mib : ℕ := 1024*kib
def gib : ℕ := 1024*mib

inductive NeuralCapacityClass where
  | constrained | baseline | capable | large | expansive
  deriving DecidableEq

/-- Widths of hidden layers, zero behind the last. -/
def hiddenWidths3 (first second third : ℕ) : Vector ℕ 3 := #v[first,second,third]

structure NeuralCapacityRecommendation where
  policyVersion : ℕ := 1
  capacityClass : NeuralCapacityClass := .constrained
  memoryBudgetBytes : ℕ := 0
  embeddingDim : ℕ := 32
  hiddenLayerCount : ℕ := 1
  hiddenWidths : Vector ℕ 3 := hiddenWidths3 64 0 0
  sharedParameterCount : ℕ := 0
  sharedParameterBytes : ℕ := 0
  runtimeBatchObservations : ℕ := 1
  deriving DecidableEq

/-- What the operator asks for. -/
structure ResourceOverrides where
  memoryGrowthBudgetBytes : Option UInt64 := none
  diskReserveBytes : Option UInt64 := none
  nodeCapacityMax : Option UInt64 := none
  edgeCapacityMax : Option UInt64 := none
  syncPageSize : Option Int32 := none
  syncMaxObservations : Option UInt64 := none
  neuralCapacityClass : Option NeuralCapacityClass := none
  neuralEmbeddingDim : Option UInt64 := none
  neuralHiddenLayerCount : Option UInt64 := none
  neuralHiddenWidths : Option (Vector UInt64 3) := none

namespace NeuralCapacityRecommendation

def activeWidths (p : NeuralCapacityRecommendation) : List ℕ :=
  p.hiddenWidths.toList.take p.hiddenLayerCount

def idleWidths (p : NeuralCapacityRecommendation) : List ℕ :=
  p.hiddenWidths.toList.drop p.hiddenLayerCount

end NeuralCapacityRecommendation

section Arithmetic
variable (A : Arithmetic BudgetStop)

/-- One layer of the loop of `neural_parameter_count`. -/
def parameterLayer (state : ℕ×ℕ) (width : ℕ) : Except BudgetStop (ℕ×ℕ) := do
  let weights ← A.mul state.2 width
  let count ← A.add state.1 weights
  let count ← A.add count width
  return (count,width)

/-- `neural_parameter_count`. -/
def neuralParameterCount (p : NeuralCapacityRecommendation) : Except BudgetStop ℕ := do
  let inputWidth ← A.mul p.embeddingDim 2
  let behind ← p.activeWidths.foldlM (parameterLayer A) (0,inputWidth)
  let count ← A.add behind.1 behind.2
  A.add count 1

/-- `apply_class_shape`. -/
def applyClassShape (p : NeuralCapacityRecommendation) (c : NeuralCapacityClass)
    (constrainedLowCpu memoryPressure : Bool) : NeuralCapacityRecommendation :=
  match c with
  | .expansive => {p with
      capacityClass := c, embeddingDim := 1024, hiddenLayerCount := 3
      hiddenWidths := hiddenWidths3 3072 2560 1280, runtimeBatchObservations := 256}
  | .large => {p with
      capacityClass := c, embeddingDim := 768, hiddenLayerCount := 3
      hiddenWidths := hiddenWidths3 2304 2048 1024, runtimeBatchObservations := 128}
  | .capable => {p with
      capacityClass := c, embeddingDim := 128, hiddenLayerCount := 2
      hiddenWidths := hiddenWidths3 256 128 0, runtimeBatchObservations := 64}
  | .baseline => {p with
      capacityClass := c, embeddingDim := 64, hiddenLayerCount := 2
      hiddenWidths := hiddenWidths3 128 64 0, runtimeBatchObservations := 32}
  | .constrained => {p with
      capacityClass := c, embeddingDim := 32, hiddenLayerCount := 1
      hiddenWidths := hiddenWidths3 64 0 0
      runtimeBatchObservations := if constrainedLowCpu || memoryPressure then 1 else 8}

/-- `automatic_capacity_class`. -/
def automaticCapacityClass (memoryBudgetBytes : ℕ) (cpu : Float) : NeuralCapacityClass :=
  if 2*gib ≤ memoryBudgetBytes ∧ 8.0 ≤ cpu then .expansive
  else if 512*mib ≤ memoryBudgetBytes ∧ 4.0 ≤ cpu then .large
  else if 128*mib ≤ memoryBudgetBytes ∧ 2.0 ≤ cpu then .capable
  else if 32*mib ≤ memoryBudgetBytes ∧ 1.0 ≤ cpu then .baseline
  else .constrained

/-- `std::max(0.01, capacity)`. -/
def usableCpu (capacity : Float) : Float := if 0.01 < capacity then capacity else 0.01

/-- The share of the growth budget that the network may take. -/
def neuralMemoryBudget (growth : ℕ) : ℕ :=
  let share := min (4*gib) (growth/4)
  if 32*mib ≤ growth then max (8*mib) share else share

/-- `neural_recommendation`. -/
def neuralRecommendation (cpuCapacity : Float) (growth : ℕ) (memoryPressure : Bool) :
    Except BudgetStop NeuralCapacityRecommendation := do
  let cpu := usableCpu cpuCapacity
  let profile := applyClassShape {memoryBudgetBytes := neuralMemoryBudget growth}
    (automaticCapacityClass (neuralMemoryBudget growth) cpu) (cpu < 0.5) memoryPressure
  let count ← neuralParameterCount A profile
  let bytes ← A.mul count 4
  return {profile with sharedParameterCount := count, sharedParameterBytes := bytes}

def shapeLimits : String :=
  "runtime recommendation bounds: embedding in [1, "++toString widthLimit++
    "], hidden layers in [1, 3], hidden widths in [1, "++toString widthLimit++
    "], parameters at most "++toString parameterLimit

/-- `validate_neural_shape`. -/
def validateNeuralShape (p : NeuralCapacityRecommendation) : Except BudgetStop Unit :=
  if p.embeddingDim = 0 ∨ widthLimit < p.embeddingDim then
    .error (.thrown ("neural embedding dim outside policy bounds: "++shapeLimits)) else do
  let inputDim ← A.mul p.embeddingDim 2
  if 4294967295 < inputDim then
    .error (.thrown "neural input dim overflows the architecture encoding") else
  if p.hiddenLayerCount = 0 ∨ 3 < p.hiddenLayerCount then
    .error (.thrown ("neural hidden layer count outside policy bounds: "++shapeLimits)) else
  match p.activeWidths.findIdx? (fun width => width = 0 || widthLimit < width) with
  | some layer => .error (.thrown ("neural hidden layer "++toString (layer+1)++
      " width outside policy bounds: "++shapeLimits))
  | none =>
  match p.idleWidths.findIdx? (fun width => width ≠ 0) with
  | some layer => .error (.thrown ("neural hidden layer "++toString (p.hiddenLayerCount+layer+1)++
      " must have zero width because it is beyond the declared hidden layer count"))
  | none => do
  let count ← neuralParameterCount A p
  if parameterLimit < count then
    .error (.thrown ("neural shared parameter count exceeds the C-core limit of "++
      toString parameterLimit++": "++shapeLimits))
  else return ()

/-- What an override asks of a profile, `none` where it asks nothing. -/
def overriddenShape (p : NeuralCapacityRecommendation) (overrides : ResourceOverrides) :
    Option NeuralCapacityRecommendation :=
  match overrides.neuralCapacityClass with
  | some c => some (applyClassShape p c false false)
  | none =>
      if overrides.neuralEmbeddingDim.isSome || overrides.neuralHiddenLayerCount.isSome ||
          overrides.neuralHiddenWidths.isSome then
        some {p with
          embeddingDim := (overrides.neuralEmbeddingDim.map UInt64.toNat).getD p.embeddingDim
          hiddenLayerCount :=
            (overrides.neuralHiddenLayerCount.map UInt64.toNat).getD p.hiddenLayerCount
          hiddenWidths :=
            (overrides.neuralHiddenWidths.map fun ws => ws.map UInt64.toNat).getD p.hiddenWidths}
      else none

/-- `apply_neural_overrides`. -/
def applyNeuralOverrides (p : NeuralCapacityRecommendation) (overrides : ResourceOverrides) :
    Except BudgetStop NeuralCapacityRecommendation :=
  if overrides.neuralCapacityClass.isSome && (overrides.neuralEmbeddingDim.isSome ||
      overrides.neuralHiddenLayerCount.isSome || overrides.neuralHiddenWidths.isSome) then
    .error (.thrown ("ATPERSON_NEURAL_CAPACITY cannot be combined with "++
      "ATPERSON_NEURAL_EMBEDDING_DIM, ATPERSON_NEURAL_HIDDEN_LAYERS or "++
      "ATPERSON_NEURAL_HIDDEN_WIDTHS"))
  else match overriddenShape p overrides with
  | none => .ok p
  | some p => do
      validateNeuralShape A p
      let count ← neuralParameterCount A p
      let bytes ← A.mul count 4
      return {p with sharedParameterCount := count, sharedParameterBytes := bytes}

/-- The descriptor of a shape, each number cut to 32 bits. -/
def descriptorOf (p : NeuralCapacityRecommendation) : Architecture where
  version := architectureVersion
  embeddingDim := p.embeddingDim%2^32
  inputDim := p.embeddingDim%2^32*2%2^32
  hiddenLayerCount := p.hiddenLayerCount%2^32
  hiddenWidths := Vector.ofFn fun i => p.hiddenWidths.toList.getD i 0%2^32
  outputDim := 1

/-- `neural_architecture_of`. -/
def neuralArchitectureOf (p : NeuralCapacityRecommendation) : Except BudgetStop Architecture := do
  validateNeuralShape A p
  return descriptorOf p

end Arithmetic

/-! ## Counting parameters -/

/-- The weights and biases behind `previous` units, the output's with them. -/
def parameterTotal : ℕ → List ℕ → ℕ
  | previous, [] => previous+1
  | previous, width::rest => previous*width+width+parameterTotal width rest

def NeuralCapacityRecommendation.parameters (p : NeuralCapacityRecommendation) : ℕ :=
  parameterTotal (p.embeddingDim*2) p.activeWidths

section Counting
variable {A : Arithmetic BudgetStop} {p : NeuralCapacityRecommendation}

/-- The loop over layers of a bounded width counts exactly, from any count that leaves room. -/
theorem parameterLayers_ok (hA : A.Exact) {widths : List ℕ} (hwidths : ∀ w ∈ widths, w ≤ widthLimit)
    {count previous : ℕ} (hprevious : previous ≤ 2*widthLimit)
    (hroom : count+(2*widthLimit*widthLimit+widthLimit)*widths.length ≤ 2^40) :
    ∃ behind, widths.foldlM (parameterLayer A) (count,previous) = .ok behind ∧
      behind.1+behind.2+1 = count+parameterTotal previous widths ∧ behind.1 ≤ 2^40 ∧
      behind.2 ≤ 2*widthLimit := by
  induction widths generalizing count previous with
  | nil =>
      refine ⟨(count,previous),rfl,?_,by simpa using hroom,hprevious⟩
      rw [parameterTotal]
      omega
  | cons w rest ih =>
      have hw := hwidths w List.mem_cons_self
      have hproduct : previous*w ≤ 2*widthLimit*widthLimit := Nat.mul_le_mul hprevious hw
      rw [List.length_cons,Nat.mul_succ] at hroom
      have hword : 2^40 ≤ wordMax := by decide
      obtain ⟨behind,hrun,htotal,hcount,hlast⟩ := ih (fun v hv => hwidths v (List.mem_cons_of_mem w hv))
        (show w ≤ 2*widthLimit by omega)
        (show count+previous*w+w+(2*widthLimit*widthLimit+widthLimit)*rest.length ≤ 2^40 by omega)
      refine ⟨behind,?_,?_,hcount,hlast⟩
      · rw [List.foldlM_cons,parameterLayer,hA.mul _ _ (by dsimp only; omega)]
        change ((A.add count (previous*w) >>= fun c => A.add c w >>= fun c => .ok (c,w)) >>=
          rest.foldlM (parameterLayer A)) = _
        rw [hA.add _ _ (by omega)]
        change ((A.add (count+previous*w) w >>= fun c => .ok (c,w)) >>=
          rest.foldlM (parameterLayer A)) = _
        rw [hA.add _ _ (by omega)]
        exact hrun
      · rw [htotal,parameterTotal]
        omega

/-- Three layers at most of a bounded width are counted exactly. -/
theorem neuralParameterCount_ok (hA : A.Exact) (hdim : p.embeddingDim ≤ widthLimit)
    (hwidths : ∀ w ∈ p.activeWidths, w ≤ widthLimit) :
    neuralParameterCount A p = .ok p.parameters ∧ p.parameters ≤ 2^41 := by
  have hlimit : widthLimit = 16384 := rfl
  have hlength : p.activeWidths.length ≤ 3 := (List.length_take_le' _ _).trans (by simp)
  have hword : wordMax = 18446744073709551615 := rfl
  obtain ⟨behind,hrun,htotal,hcount,hlast⟩ := parameterLayers_ok hA hwidths
    (show p.embeddingDim*2 ≤ 2*widthLimit by omega)
    (show 0+(2*widthLimit*widthLimit+widthLimit)*p.activeWidths.length ≤ 2^40 by
      have := Nat.mul_le_mul_left (2*widthLimit*widthLimit+widthLimit) hlength
      rw [hlimit] at this ⊢
      omega)
  rw [Nat.zero_add] at htotal
  refine ⟨?_,by rw [NeuralCapacityRecommendation.parameters,← htotal]; omega⟩
  rw [neuralParameterCount,hA.mul _ _ (by omega)]
  change (p.activeWidths.foldlM (parameterLayer A) (0,p.embeddingDim*2) >>= fun behind =>
    A.add behind.1 behind.2 >>= fun count => A.add count 1) = _
  rw [hrun]
  change (A.add behind.1 behind.2 >>= fun count => A.add count 1) = _
  rw [hA.add _ _ (by omega)]
  change A.add (behind.1+behind.2) 1 = _
  rw [hA.add _ _ (by omega),htotal]
  rfl

end Counting

/-! ## Shapes that pass -/

namespace NeuralCapacityRecommendation

/-- What the checks ask of a shape. -/
structure Sound (p : NeuralCapacityRecommendation) : Prop where
  dim : 0 < p.embeddingDim ∧ p.embeddingDim ≤ widthLimit
  layers : 0 < p.hiddenLayerCount ∧ p.hiddenLayerCount ≤ 3
  active : ∀ w ∈ p.activeWidths, 0 < w ∧ w ≤ widthLimit
  idle : ∀ w ∈ p.idleWidths, w = 0
  total : p.parameters ≤ parameterLimit

variable {p : NeuralCapacityRecommendation}

theorem active_findIdx : p.activeWidths.findIdx? (fun w => w = 0 || widthLimit < w) = none ↔
    ∀ w ∈ p.activeWidths, 0 < w ∧ w ≤ widthLimit := by
  simp only [List.findIdx?_eq_none_iff,Bool.or_eq_false_iff,decide_eq_false_iff_not,Nat.not_lt,
    Nat.pos_iff_ne_zero]

theorem idle_findIdx : p.idleWidths.findIdx? (fun w => w ≠ 0) = none ↔ ∀ w ∈ p.idleWidths, w = 0 := by
  simp only [List.findIdx?_eq_none_iff,decide_eq_false_iff_not,not_not]

end NeuralCapacityRecommendation

section Validation
variable {A : Arithmetic BudgetStop} {p : NeuralCapacityRecommendation}

theorem validateNeuralShape_iff (hA : A.Exact) : validateNeuralShape A p = .ok () ↔ p.Sound := by
  have hlimit : widthLimit = 16384 := rfl
  have hword : wordMax = 18446744073709551615 := rfl
  by_cases hdim : p.embeddingDim = 0 ∨ widthLimit < p.embeddingDim
  · refine ⟨fun h => ?_,fun h => ?_⟩
    · rw [validateNeuralShape,if_pos hdim] at h
      cases h
    · have := h.dim
      omega
  rw [validateNeuralShape,if_neg hdim,hA.mul _ _ (by omega)]
  change (if 4294967295 < p.embeddingDim*2 then _ else _) = _ ↔ _
  rw [if_neg (by omega)]
  by_cases hlayers : p.hiddenLayerCount = 0 ∨ 3 < p.hiddenLayerCount
  · rw [if_pos hlayers]
    refine ⟨fun h => (by cases h),fun h => ?_⟩
    have := h.layers
    omega
  rw [if_neg hlayers]
  cases hactive : p.activeWidths.findIdx? (fun w => w = 0 || widthLimit < w) with
  | some layer =>
      refine ⟨fun h => (by cases h),fun h => ?_⟩
      rw [NeuralCapacityRecommendation.active_findIdx.mpr h.active] at hactive
      cases hactive
  | none =>
  cases hidle : p.idleWidths.findIdx? (fun w => w ≠ 0) with
  | some layer =>
      refine ⟨fun h => (by cases h),fun h => ?_⟩
      rw [NeuralCapacityRecommendation.idle_findIdx.mpr h.idle] at hidle
      cases hidle
  | none =>
  have hwidths := NeuralCapacityRecommendation.active_findIdx.mp hactive
  dsimp only
  rw [(neuralParameterCount_ok hA (by omega) fun w hw => (hwidths w hw).2).1]
  change (if parameterLimit < p.parameters then _ else _) = _ ↔ _
  by_cases htotal : parameterLimit < p.parameters
  · rw [if_pos htotal]
    refine ⟨fun h => (by cases h),fun h => ?_⟩
    exact absurd htotal (Nat.not_lt.mpr h.total)
  · rw [if_neg htotal]
    exact iff_of_true rfl ⟨by omega,by omega,hwidths,
      NeuralCapacityRecommendation.idle_findIdx.mp hidle,Nat.not_lt.mp htotal⟩

/-- The checks throw; their sums and products fit. -/
theorem validateNeuralShape_thrown (hA : A.Exact) {e : BudgetStop}
    (h : validateNeuralShape A p = .error e) : ∃ message, e = .thrown message := by
  have hlimit : widthLimit = 16384 := rfl
  have hword : wordMax = 18446744073709551615 := rfl
  by_cases hdim : p.embeddingDim = 0 ∨ widthLimit < p.embeddingDim
  · rw [validateNeuralShape,if_pos hdim] at h
    exact ⟨_,(Except.error.inj h).symm⟩
  rw [validateNeuralShape,if_neg hdim,hA.mul _ _ (by omega)] at h
  change (if 4294967295 < p.embeddingDim*2 then _ else _) = _ at h
  rw [if_neg (by omega)] at h
  split at h
  · exact ⟨_,(Except.error.inj h).symm⟩
  split at h
  · exact ⟨_,(Except.error.inj h).symm⟩
  have hwidths := NeuralCapacityRecommendation.active_findIdx.mp ‹_›
  split at h
  · exact ⟨_,(Except.error.inj h).symm⟩
  rw [(neuralParameterCount_ok hA (by omega) fun w hw => (hwidths w hw).2).1] at h
  change (if parameterLimit < p.parameters then _ else _) = _ at h
  split at h
  · exact ⟨_,(Except.error.inj h).symm⟩
  · cases h

end Validation

/-! ## Shapes the core lays out -/

/-- The sums of the core's layers are the count here. -/
theorem layoutLayers_total (input weights biases : ℕ) (widths : List ℕ) :
    ((Core.layoutLayers input weights biases (widths++[1])).map
        fun s => s.inputWidth*s.outputWidth).sum+
      ((Core.layoutLayers input weights biases (widths++[1])).map Core.LayerShape.outputWidth).sum =
      parameterTotal input widths := by
  induction widths generalizing input weights biases with
  | nil => simp [Core.layoutLayers,parameterTotal]
  | cons w rest ih =>
      have hrest := ih w (weights+input*w) (biases+w)
      simp only [List.cons_append,Core.layoutLayers,List.map_cons,List.sum_cons,parameterTotal]
      omega

theorem layoutBuild_isSome {a : Architecture} : (layoutBuild a).isSome ↔
    a.accepted = true ∧ Core.weightTotal a+Core.biasTotal a ≤ parameterLimit := by
  unfold layoutBuild
  by_cases haccepted : a.accepted = true
  · rw [if_neg (not_not.mpr haccepted)]
    by_cases htotal : Core.weightTotal a+Core.biasTotal a ≤ parameterLimit
    · rw [if_neg (by
        rw [not_or,Nat.not_lt,Nat.not_lt]
        exact ⟨(Nat.le_add_right _ _).trans htotal,Nat.le_sub_of_add_le' htotal⟩)]
      exact iff_of_true rfl ⟨haccepted,htotal⟩
    · rw [if_pos (by
        by_contra hne
        rw [not_or,Nat.not_lt,Nat.not_lt] at hne
        exact htotal ((Nat.le_sub_iff_add_le' hne.1).mp hne.2))]
      exact iff_of_false (by decide) fun h => htotal h.2
  · rw [if_pos haccepted]
    exact iff_of_false (by decide) fun h => haccepted h.1

namespace NeuralCapacityRecommendation
variable {p : NeuralCapacityRecommendation}

/-- A shape whose numbers fit 32 bits. -/
structure Encodes (p : NeuralCapacityRecommendation) : Prop where
  dim : p.embeddingDim < 2^31
  layers : p.hiddenLayerCount < 2^32
  widths : ∀ w ∈ p.hiddenWidths.toList, w < 2^32

theorem Sound.encodes (h : p.Sound) : p.Encodes where
  dim := h.dim.2.trans_lt (by decide)
  layers := h.layers.2.trans_lt (by decide)
  widths w hw := by
    rw [← List.take_append_drop p.hiddenLayerCount p.hiddenWidths.toList] at hw
    rcases List.mem_append.mp hw with hactive | hidle
    · exact (h.active w hactive).2.trans_lt (by decide)
    · rw [h.idle w hidle]
      decide

/-- The widths of a descriptor are those of its shape, and a zero. -/
theorem Encodes.widths_eq (h : p.Encodes) :
    (descriptorOf p).hiddenWidths.toList = p.hiddenWidths.toList++[0] := by
  have hlength : p.hiddenWidths.toList.length = 3 := by simp
  have hread : (descriptorOf p).hiddenWidths.toList =
      List.ofFn fun i : Fin 4 => p.hiddenWidths.toList.getD i 0%2^32 := Vector.toList_ofFn
  have hwidths := h.widths
  rw [hread]
  obtain ⟨a,b,c,habc⟩ := List.length_eq_three.mp hlength
  rw [habc] at hwidths ⊢
  simp only [List.forall_mem_cons] at hwidths
  simpa [List.ofFn_succ] using ⟨hwidths.1,hwidths.2.1,hwidths.2.2.1⟩

theorem Encodes.activeWidths (h : p.Encodes) (hlayers : p.hiddenLayerCount ≤ 3) :
    (descriptorOf p).activeWidths = p.activeWidths := by
  have hcount : (descriptorOf p).hiddenLayerCount = p.hiddenLayerCount :=
    Nat.mod_eq_of_lt h.layers
  have hlength : p.hiddenWidths.toList.length = 3 := by simp
  rw [Architecture.activeWidths,h.widths_eq,hcount,List.take_append_of_le_length (by omega)]
  rfl

theorem Encodes.total (h : p.Encodes) (hlayers : p.hiddenLayerCount ≤ 3) :
    Core.weightTotal (descriptorOf p)+Core.biasTotal (descriptorOf p) = p.parameters := by
  have hinput : (descriptorOf p).inputDim = p.embeddingDim*2 := by
    show p.embeddingDim%2^32*2%2^32 = _
    have := h.dim
    omega
  have hwidths : (descriptorOf p).layerWidths = p.activeWidths++[1] := by
    rw [Architecture.layerWidths,h.activeWidths hlayers]
    rfl
  rw [Core.weightTotal,Core.biasTotal,Core.shapesOf,hinput,hwidths]
  exact layoutLayers_total _ _ _ _

/-- The descriptor of a shape is laid out by the core where the shape passes the checks, and not
otherwise. -/
theorem Encodes.laid_iff (h : p.Encodes) : (layoutBuild (descriptorOf p)).isSome ↔ p.Sound := by
  have hdim : (descriptorOf p).embeddingDim = p.embeddingDim :=
    Nat.mod_eq_of_lt (h.dim.trans (by decide))
  have hinput : (descriptorOf p).inputDim = p.embeddingDim*2 := by
    show p.embeddingDim%2^32*2%2^32 = _
    have := h.dim
    omega
  have hcount : (descriptorOf p).hiddenLayerCount = p.hiddenLayerCount :=
    Nat.mod_eq_of_lt h.layers
  have hlength : p.hiddenWidths.toList.length = 3 := by simp
  have hlimit : widthLimit = 16384 := rfl
  have hmost : maxHiddenLayers = 4 := rfl
  have haccepted : (descriptorOf p).accepted = true ↔ (0 < p.embeddingDim ∧
      p.embeddingDim ≤ widthLimit) ∧ (0 < p.hiddenLayerCount ∧ p.hiddenLayerCount ≤ 3) ∧
      (∀ w ∈ p.activeWidths, 0 < w ∧ w ≤ widthLimit) ∧ ∀ w ∈ p.idleWidths, w = 0 := by
    rw [Core.accepted_iff,hdim,hinput,hcount,h.widths_eq]
    simp only [Bool.or_eq_true,List.any_eq_true,decide_eq_true_eq,not_or,not_exists,not_and]
    constructor
    · rintro ⟨⟨-,hpos,hmax,hlayers,hfour,-⟩,-,hactive,hzero⟩
      have hthree : p.hiddenLayerCount ≤ 3 := by
        by_contra hmore
        have hall : (descriptorOf p).activeWidths = p.hiddenWidths.toList++[0] := by
          rw [Architecture.activeWidths,h.widths_eq,hcount]
          exact List.take_of_length_le (by rw [List.length_append,hlength,List.length_singleton]; omega)
        exact (hactive 0 (by rw [hall]; simp)).1 rfl
      rw [h.activeWidths hthree] at hactive
      rw [List.drop_append_of_le_length (by omega)] at hzero
      refine ⟨⟨by omega,by omega⟩,⟨by omega,hthree⟩,fun w hw => ?_,fun w hw => ?_⟩
      · have := hactive w hw
        omega
      · by_contra hne
        exact hzero w (List.mem_append_left _ hw) hne
    · rintro ⟨⟨hpos,hmax⟩,⟨hlayers,hthree⟩,hactive,hzero⟩
      rw [h.activeWidths hthree,List.drop_append_of_le_length (by omega)]
      refine ⟨⟨fun hne => hne rfl,by omega,by omega,by omega,by omega,fun hne => hne rfl⟩,
        ⟨by omega,fun hne => hne rfl⟩,fun w hw => ?_,fun w hw hne => ?_⟩
      · have := hactive w hw
        omega
      · rcases List.mem_append.mp hw with hw | hw
        · exact hne (hzero w hw)
        · exact hne (List.mem_singleton.mp hw)
  rw [layoutBuild_isSome,haccepted]
  constructor
  · rintro ⟨⟨hd,hl,hactive,hzero⟩,htotal⟩
    rw [h.total hl.2] at htotal
    exact ⟨hd,hl,hactive,hzero,htotal⟩
  · intro hs
    rw [h.total hs.layers.2]
    exact ⟨⟨hs.dim,hs.layers,hs.active,hs.idle⟩,hs.total⟩

theorem sound_iff : p.Sound ↔ (0 < p.embeddingDim ∧ p.embeddingDim ≤ widthLimit) ∧
    (0 < p.hiddenLayerCount ∧ p.hiddenLayerCount ≤ 3) ∧
    (∀ w ∈ p.activeWidths, 0 < w ∧ w ≤ widthLimit) ∧ (∀ w ∈ p.idleWidths, w = 0) ∧
    p.parameters ≤ parameterLimit :=
  ⟨fun h => ⟨h.dim,h.layers,h.active,h.idle,h.total⟩,fun ⟨hd,hl,ha,hi,ht⟩ => ⟨hd,hl,ha,hi,ht⟩⟩

instance : Decidable p.Sound := decidable_of_iff _ sound_iff.symm

/-- The numbers that make the shape. -/
def shape (p : NeuralCapacityRecommendation) : ℕ×ℕ×Vector ℕ 3 :=
  (p.embeddingDim,p.hiddenLayerCount,p.hiddenWidths)

theorem Sound.of_shape {q : NeuralCapacityRecommendation} (h : p.Sound) (hq : q.shape = p.shape) :
    q.Sound := by
  obtain ⟨hdim,hq⟩ := Prod.mk.inj hq
  obtain ⟨hlayers,hwidths⟩ := Prod.mk.inj hq
  have hactive : q.activeWidths = p.activeWidths := by rw [activeWidths,activeWidths,hlayers,hwidths]
  have hidle : q.idleWidths = p.idleWidths := by rw [idleWidths,idleWidths,hlayers,hwidths]
  exact ⟨hdim ▸ h.dim,hlayers ▸ h.layers,hactive ▸ h.active,hidle ▸ h.idle,by
    rw [parameters,hdim,hactive]
    exact h.total⟩

/-- The two counters say what the shape needs. -/
def Counted (p : NeuralCapacityRecommendation) : Prop :=
  p.sharedParameterCount = p.parameters ∧ p.sharedParameterBytes = 4*p.parameters

end NeuralCapacityRecommendation

/-! ## Profiles -/

theorem classShape_sound : ∀ c, (applyClassShape {} c false false).Sound := by
  rintro (_ | _ | _ | _ | _) <;> decide +kernel

theorem applyClassShape_sound (p : NeuralCapacityRecommendation) (c : NeuralCapacityClass)
    (constrainedLowCpu memoryPressure : Bool) :
    (applyClassShape p c constrainedLowCpu memoryPressure).Sound :=
  (classShape_sound c).of_shape (by cases c <;> rfl)

/-- The shape with its two counters. -/
def counted (p : NeuralCapacityRecommendation) : NeuralCapacityRecommendation :=
  {p with sharedParameterCount := p.parameters, sharedParameterBytes := p.parameters*4}

section Profiles
variable {A : Arithmetic BudgetStop} {p q : NeuralCapacityRecommendation}

theorem counted_sound (h : p.Sound) : (counted p).Sound := h.of_shape rfl

theorem counted_counted : (counted p).Counted := ⟨rfl,Nat.mul_comm _ _⟩

/-- Counting a sound shape, where nothing can wrap. -/
theorem count_ok (hA : A.Exact) (h : p.Sound) : (do
      let count ← neuralParameterCount A p
      let bytes ← A.mul count 4
      return {p with sharedParameterCount := count, sharedParameterBytes := bytes}) =
    (.ok (counted p) : Except BudgetStop NeuralCapacityRecommendation) := by
  obtain ⟨hcount,hmax⟩ := neuralParameterCount_ok hA h.dim.2 fun w hw => (h.active w hw).2
  have hword : wordMax = 18446744073709551615 := rfl
  rw [hcount]
  change (A.mul p.parameters 4 >>= fun bytes => .ok _) = _
  rw [hA.mul _ _ (by omega)]
  rfl

/-- The recommendation of a class. -/
theorem neuralRecommendation_ok (hA : A.Exact) (cpu : Float) (growth : ℕ) (memoryPressure : Bool) :
    neuralRecommendation A cpu growth memoryPressure =
      .ok (counted (applyClassShape {memoryBudgetBytes := neuralMemoryBudget growth}
        (automaticCapacityClass (neuralMemoryBudget growth) (usableCpu cpu))
        (usableCpu cpu < 0.5) memoryPressure)) :=
  count_ok hA (applyClassShape_sound _ _ _ _)

/-- Overrides leave a profile alone, or make it the sound shape they ask for. -/
theorem applyNeuralOverrides_iff (hA : A.Exact) {overrides : ResourceOverrides} :
    applyNeuralOverrides A p overrides = .ok q ↔
      ¬(overrides.neuralCapacityClass.isSome && (overrides.neuralEmbeddingDim.isSome ||
        overrides.neuralHiddenLayerCount.isSome || overrides.neuralHiddenWidths.isSome)) = true ∧
      match overriddenShape p overrides with
      | none => q = p
      | some asked => asked.Sound ∧ q = counted asked := by
  unfold applyNeuralOverrides
  by_cases hboth : (overrides.neuralCapacityClass.isSome && (overrides.neuralEmbeddingDim.isSome ||
      overrides.neuralHiddenLayerCount.isSome || overrides.neuralHiddenWidths.isSome)) = true
  · rw [if_pos hboth]
    exact ⟨fun h => (by cases h),fun h => absurd hboth h.1⟩
  rw [if_neg hboth]
  cases overriddenShape p overrides with
  | none => exact ⟨fun h => ⟨hboth,(Except.ok.inj h).symm⟩,fun h => congrArg _ h.2.symm⟩
  | some asked =>
      dsimp only
      by_cases hs : asked.Sound
      · rw [(validateNeuralShape_iff hA).mpr hs]
        change (neuralParameterCount A asked >>= _) = _ ↔ _
        rw [show (neuralParameterCount A asked >>= fun count => A.mul count 4 >>= fun bytes =>
          (pure {asked with sharedParameterCount := count, sharedParameterBytes := bytes} :
            Except BudgetStop NeuralCapacityRecommendation)) = _ from count_ok hA hs]
        exact ⟨fun h => ⟨hboth,hs,(Except.ok.inj h).symm⟩,fun h => congrArg _ h.2.2.symm⟩
      · refine ⟨fun h => ?_,fun h => absurd h.2.1 hs⟩
        obtain ⟨⟨⟩,hvalid,-⟩ := bind_ok.mp h
        exact absurd ((validateNeuralShape_iff hA).mp hvalid) hs

theorem applyNeuralOverrides_thrown (hA : A.Exact) {overrides : ResourceOverrides} {e : BudgetStop}
    (h : applyNeuralOverrides A p overrides = .error e) : ∃ message, e = .thrown message := by
  unfold applyNeuralOverrides at h
  split at h
  · exact ⟨_,(Except.error.inj h).symm⟩
  split at h
  · cases h
  · rename_i asked _
    rcases hvalid : validateNeuralShape A asked with e' | ⟨⟩
    · rw [hvalid] at h
      cases h
      exact validateNeuralShape_thrown hA hvalid
    · rw [hvalid] at h
      cases h.symm.trans (count_ok hA ((validateNeuralShape_iff hA).mp hvalid))

/-- The profile that a budget carries. -/
def deriveProfile (A : Arithmetic BudgetStop) (cpu : Float) (growth : ℕ) (memoryPressure : Bool)
    (overrides : ResourceOverrides) : Except BudgetStop NeuralCapacityRecommendation := do
  let profile ← neuralRecommendation A cpu growth memoryPressure
  applyNeuralOverrides A profile overrides

theorem deriveProfile_eq (hA : A.Exact) (cpu : Float) (growth : ℕ) (memoryPressure : Bool)
    (overrides : ResourceOverrides) : deriveProfile A cpu growth memoryPressure overrides =
      applyNeuralOverrides A (counted (applyClassShape
        {memoryBudgetBytes := neuralMemoryBudget growth}
        (automaticCapacityClass (neuralMemoryBudget growth) (usableCpu cpu))
        (usableCpu cpu < 0.5) memoryPressure)) overrides := by
  rw [deriveProfile,neuralRecommendation_ok hA]
  rfl

theorem deriveProfile_sound (hA : A.Exact) {cpu : Float} {growth : ℕ} {memoryPressure : Bool}
    {overrides : ResourceOverrides}
    (h : deriveProfile A cpu growth memoryPressure overrides = .ok p) : p.Sound ∧ p.Counted := by
  rw [deriveProfile_eq hA] at h
  obtain ⟨-,h⟩ := (applyNeuralOverrides_iff hA).mp h
  split at h
  · exact h ▸ ⟨counted_sound (applyClassShape_sound _ _ _ _),counted_counted⟩
  · obtain ⟨hs,rfl⟩ := h
    exact ⟨counted_sound hs,counted_counted⟩

end Profiles

/-! ## Hosting -/

/-- What the core makes of a sound shape's descriptor. -/
theorem hosted {p : NeuralCapacityRecommendation} (h : p.Sound) (config : Core.GraphConfig) :
    (Core.createWithArchitecture config (descriptorOf p)).isSome ∧
      Core.neuralParameterCount (descriptorOf p) = .ok p.parameters := by
  obtain ⟨l,hl⟩ := Option.isSome_iff_exists.mp (h.encodes.laid_iff.mpr h)
  have hcounts : l.weightCount+l.biasCount = p.parameters := by
    rw [← h.encodes.total h.layers.2]
    unfold layoutBuild at hl
    dsimp only at hl
    split at hl
    · cases hl
    · split at hl
      · cases hl
      · cases hl
        rfl
  refine ⟨?_,?_⟩
  · rw [Core.createWithArchitecture,Core.networkInit,hl]
    rfl
  · have hmax := h.total
    have hlimit : parameterLimit = 268435456 := rfl
    have hword : wordMax = 18446744073709551615 := rfl
    have hfit : l.weightCount+l.biasCount ≤ wordMax := by omega
    rw [Core.neuralParameterCount,Core.neuralLayoutBuild_eq,hl]
    exact (addWord_ok hfit).trans (congrArg _ hcounts)

/-- A derived profile is one the core hosts: nothing wraps on the way to it, the core takes its
descriptor and counts as many parameters; and of all shapes of 32-bit numbers, the checks refuse
just those the core refuses. -/
theorem profile_hosted (cpu : Float) (growth : ℕ) (memoryPressure : Bool)
    (overrides : ResourceOverrides) (config : Core.GraphConfig) :
    deriveProfile (.strict .wrapped) cpu growth memoryPressure overrides ≠ .error .wrapped ∧
    (∀ p, deriveProfile (.strict .wrapped) cpu growth memoryPressure overrides = .ok p ↔
      deriveProfile .wrapping cpu growth memoryPressure overrides = .ok p) ∧
    (∀ p, deriveProfile .wrapping cpu growth memoryPressure overrides = .ok p →
      ∃ a, neuralArchitectureOf .wrapping p = .ok a ∧
        (Core.createWithArchitecture config a).isSome ∧
        Core.neuralParameterCount a = .ok p.sharedParameterCount ∧
        p.sharedParameterBytes = 4*p.sharedParameterCount) ∧
    ∀ q : NeuralCapacityRecommendation, q.Encodes →
      (validateNeuralShape .wrapping q = .ok () ↔ (layoutBuild (descriptorOf q)).isSome) := by
  have hstrict := Arithmetic.strict_exact BudgetStop.wrapped
  have hwrapping : (Arithmetic.wrapping : Arithmetic BudgetStop).Exact := Arithmetic.wrapping_exact
  refine ⟨fun h => ?_,fun p => ?_,fun p h => ?_,fun q hq => ?_⟩
  · rw [deriveProfile_eq hstrict] at h
    obtain ⟨message,hm⟩ := applyNeuralOverrides_thrown hstrict h
    cases hm
  · rw [deriveProfile_eq hstrict,deriveProfile_eq hwrapping,applyNeuralOverrides_iff hstrict,
      applyNeuralOverrides_iff hwrapping]
  · obtain ⟨hs,hcount,hbytes⟩ := deriveProfile_sound hwrapping h
    obtain ⟨hcreated,hparameters⟩ := hosted hs config
    refine ⟨descriptorOf p,?_,hcreated,by rw [hparameters,hcount],by rw [hbytes,hcount]⟩
    rw [neuralArchitectureOf,(validateNeuralShape_iff hwrapping).mpr hs]
    rfl
  · rw [validateNeuralShape_iff hwrapping,hq.laid_iff]

end Atperson.Resource
