import Atperson.Core.Roles
import Atperson.Runs.Words

/-!
# The layout in machine words

The construction of the layout with its checks in the order of the core and each sum and product
a word that must not wrap. It builds the layout of the topology, and beside it the places of the
activations.
-/
namespace Atperson.Core
open Runs

/-! ## Construction -/

inductive LayoutStop where
  | refused | wrapped
  deriving DecidableEq

/-- `atp_neural_layout`, each layer with its widths and offsets. -/
structure NeuralLayout extends Layout where
  activationOffsets : List ℕ
  activationCount : ℕ
  deriving DecidableEq

/-- Words of four bytes that fit a size. -/
def floatRoom : ℕ := wordMax/4

/-- The units that a layer writes. -/
def Architecture.layerOutput (a : Architecture) (layer : ℕ) : ℕ :=
  if layer < a.hiddenLayerCount then a.hiddenWidths.toList.getD layer 0 else a.outputDim

/-- What a layer leaves behind `previous` units. -/
def NeuralLayout.behind (w : NeuralLayout) (previous output : ℕ) : NeuralLayout where
  layers := w.layers++[⟨previous,output,w.weightCount,w.biasCount⟩]
  weightCount := w.weightCount+previous*output
  biasCount := w.biasCount+output
  activationOffsets := w.activationOffsets++[w.activationCount]
  activationCount := w.activationCount+output

/-- One pass of the loop over the layers, behind a layer of `previous` units. -/
def layoutLayer (state : ℕ×NeuralLayout) (output : ℕ) : Except LayoutStop (ℕ×NeuralLayout) :=
  let (previous,layout) := state
  if previous = 0 ∨ output = 0 ∨ wordMax/output < previous then .error .refused else do
  let layerWeights ← mulWord .wrapped previous output
  if wordMax-layout.weightCount < layerWeights ∨ wordMax-layout.biasCount < output ∨
      wordMax-layout.activationCount < output then .error .refused else do
  let weightCount ← addWord .wrapped layout.weightCount layerWeights
  let biasCount ← addWord .wrapped layout.biasCount output
  let activationCount ← addWord .wrapped layout.activationCount output
  return (output,{
    layers := layout.layers++[⟨previous,output,layout.weightCount,layout.biasCount⟩]
    weightCount
    biasCount
    activationOffsets := layout.activationOffsets++[layout.activationCount]
    activationCount})

/-- `atp_neural_layout_build`. -/
def neuralLayoutBuild (a : Architecture) : Except LayoutStop NeuralLayout :=
  if a.version ≠ architectureVersion ∨ a.embeddingDim = 0 ∨ widthLimit < a.embeddingDim ∨
      a.hiddenLayerCount = 0 ∨ maxHiddenLayers < a.hiddenLayerCount ∨ a.outputDim ≠ 1 then
    .error .refused else do
  let expectedInput ← mulWord .wrapped a.embeddingDim 2
  if 4294967295 < expectedInput ∨ a.inputDim ≠ expectedInput then .error .refused else do
  if a.activeWidths.any (fun width => width = 0 || widthLimit < width) ||
      (a.hiddenWidths.toList.drop a.hiddenLayerCount).any (fun width => width ≠ 0) then
    .error .refused else do
  let layerCount ← addWord .wrapped a.hiddenLayerCount 1
  let built ← ((List.range layerCount).map a.layerOutput).foldlM layoutLayer
    (a.inputDim,⟨⟨[],0,0⟩,[0],a.inputDim⟩)
  let layout := built.2
  if parameterLimit < layout.weightCount ∨ parameterLimit-layout.weightCount < layout.biasCount ∨
      floatRoom < layout.weightCount ∨ floatRoom < layout.biasCount ∨
      floatRoom < layout.activationCount then .error .refused else
  return layout

/-- `atp_neural_parameter_count`. -/
def neuralParameterCount (a : Architecture) : Except LayoutStop ℕ :=
  match neuralLayoutBuild a with
  | .ok layout => addWord .wrapped layout.weightCount layout.biasCount
  | .error .refused => .ok 0
  | .error .wrapped => .error .wrapped

namespace NeuralLayout

/-- `atp_network_weight_index`. -/
def weightIndex (w : NeuralLayout) (r : WeightRole) : Except LayoutStop ℕ := do
  let s := w.layers.getD r.layer ⟨0,0,0,0⟩
  let row ← mulWord .wrapped r.output s.inputWidth
  let start ← addWord .wrapped s.weightOffset row
  addWord .wrapped start r.input

/-- `atp_network_bias_index`. -/
def biasIndex (w : NeuralLayout) (b : BiasRole) : Except LayoutStop ℕ :=
  addWord .wrapped (w.layers.getD b.layer ⟨0,0,0,0⟩).biasOffset b.output

end NeuralLayout

/-! ## No wrap -/

theorem layoutLayer_ok {w : NeuralLayout} {previous output : ℕ} (hprevious : 0 < previous)
    (hinput : previous ≤ 2*widthLimit) (houtput : 0 < output) (hwidth : output ≤ widthLimit)
    (hweights : w.weightCount ≤ 2^32) (hbiases : w.biasCount ≤ 2^32)
    (hactivations : w.activationCount ≤ 2^32) :
    layoutLayer (previous,w) output = .ok (output,w.behind previous output) := by
  have hproduct : previous*output ≤ 2*widthLimit*widthLimit := Nat.mul_le_mul hinput hwidth
  have hroom : previous ≤ wordMax/output := by
    rw [Nat.le_div_iff_mul_le houtput]
    exact hproduct.trans (by decide)
  simp only [widthLimit] at hproduct hwidth
  have hfits : ¬(previous = 0 ∨ output = 0 ∨ wordMax/output < previous) := by omega
  have hsums : ¬(wordMax-w.weightCount < previous*output ∨ wordMax-w.biasCount < output ∨
      wordMax-w.activationCount < output) := by
    simp only [wordMax]
    omega
  have hweight : w.weightCount+previous*output ≤ wordMax := by
    simp only [wordMax]
    omega
  have hbias : w.biasCount+output ≤ wordMax := by
    simp only [wordMax]
    omega
  have hactivation : w.activationCount+output ≤ wordMax := by
    simp only [wordMax]
    omega
  unfold layoutLayer
  dsimp only
  rw [if_neg hfits,mulWord_ok (hproduct.trans (by decide))]
  refine (if_neg hsums).trans ?_
  rw [addWord_ok hweight,addWord_ok hbias,addWord_ok hactivation]
  rfl

/-! ## The layers built -/

/-- Where the units of each layer begin, from a place on. -/
def activationStarts : ℕ → List ℕ → List ℕ
  | _, [] => []
  | start, width::rest => start::activationStarts (start+width) rest

theorem activationStarts_length (start : ℕ) (widths : List ℕ) :
    (activationStarts start widths).length = widths.length := by
  induction widths generalizing start with
  | nil => rfl
  | cons width rest ih => rw [activationStarts,List.length_cons,List.length_cons,ih]

theorem activationStarts_offset (start : ℕ) {widths : List ℕ} {i : ℕ} (h : i < widths.length) :
    (activationStarts start widths).getD i 0 = start+blockOffset widths i := by
  induction widths generalizing start i with
  | nil => exact absurd h (Nat.not_lt_zero i)
  | cons width rest ih =>
      cases i with
      | zero => rfl
      | succ i =>
          rw [activationStarts,List.getD_cons_succ,ih _ (Nat.lt_of_succ_lt_succ h),blockOffset_cons,
            Nat.add_assoc]

/-- What the loop leaves behind layers of the given widths. -/
def NeuralLayout.extended (w : NeuralLayout) (previous : ℕ) (widths : List ℕ) : NeuralLayout :=
  let shapes := layoutLayers previous w.weightCount w.biasCount widths
  { layers := w.layers++shapes
    weightCount := w.weightCount+(shapes.map fun s => s.inputWidth*s.outputWidth).sum
    biasCount := w.biasCount+(shapes.map LayerShape.outputWidth).sum
    activationOffsets := w.activationOffsets++activationStarts w.activationCount widths
    activationCount := w.activationCount+widths.sum }

theorem NeuralLayout.behind_extended (w : NeuralLayout) (previous width : ℕ) (rest : List ℕ) :
    (w.behind previous width).extended width rest = w.extended previous (width::rest) := by
  simp only [extended,behind,layoutLayers,activationStarts,List.map_cons,List.sum_cons,
    List.append_assoc,List.singleton_append,Nat.add_assoc]

/-- The loop meets no guard and no wrap while the counts leave room for the widest layers. -/
theorem layers_ok {widths : List ℕ} (hwidths : ∀ width ∈ widths, 0 < width ∧ width ≤ widthLimit)
    {previous : ℕ} (hprevious : 0 < previous) (hinput : previous ≤ 2*widthLimit) {w : NeuralLayout}
    (hweights : w.weightCount+widths.length*(2*widthLimit*widthLimit) ≤ 2^32)
    (hbiases : w.biasCount+widths.length*widthLimit ≤ 2^32)
    (hactivations : w.activationCount+widths.length*widthLimit ≤ 2^32) :
    ∃ last, widths.foldlM layoutLayer (previous,w) = .ok (last,w.extended previous widths) := by
  induction widths generalizing previous w with
  | nil =>
      refine ⟨previous,congrArg (fun w => Except.ok (previous,w)) ?_⟩
      simp [NeuralLayout.extended,layoutLayers,activationStarts]
  | cons width rest ih =>
      obtain ⟨⟨hpos,hwidth⟩,hrest⟩ := List.forall_mem_cons.mp hwidths
      have hproduct : previous*width ≤ 2*widthLimit*widthLimit := Nat.mul_le_mul hinput hwidth
      rw [List.length_cons,Nat.add_mul,Nat.one_mul] at hweights hbiases hactivations
      obtain ⟨last,hlast⟩ := @ih hrest width hpos (hwidth.trans (by decide))
        (w.behind previous width) (by simp only [NeuralLayout.behind]; omega)
        (by simp only [NeuralLayout.behind]; omega) (by simp only [NeuralLayout.behind]; omega)
      refine ⟨last,?_⟩
      rw [List.foldlM_cons,layoutLayer_ok hprevious hinput hpos hwidth (by omega) (by omega)
        (by omega),← NeuralLayout.behind_extended]
      exact hlast

/-- The widths of the layers behind the input. -/
def Architecture.layerWidths (a : Architecture) : List ℕ := a.activeWidths++[a.outputDim]

theorem layerOutputs_eq {a : Architecture} (h : a.hiddenLayerCount ≤ maxHiddenLayers) :
    (List.range (a.hiddenLayerCount+1)).map a.layerOutput = a.layerWidths := by
  have hlength : a.hiddenWidths.toList.length = maxHiddenLayers := Vector.length_toList
  rw [List.range_succ,List.map_append,Architecture.layerWidths]
  congr 1
  · refine List.ext_getElem ?_ fun i hi hi' => ?_
    · rw [List.length_map,List.length_range,Architecture.activeWidths,List.length_take,hlength]
      omega
    · rw [List.length_map,List.length_range] at hi
      rw [List.getElem_map,List.getElem_range,Architecture.layerOutput,if_pos hi]
      simp only [Architecture.activeWidths,List.getElem_take]
      exact List.getD_eq_getElem _ _ (by omega)
  · rw [List.map_singleton,Architecture.layerOutput,if_neg (lt_irrefl _)]

/-- The checks of the descriptor, as they are made. -/
theorem accepted_iff {a : Architecture} : a.accepted = true ↔
    ¬(a.version ≠ architectureVersion ∨ a.embeddingDim = 0 ∨ widthLimit < a.embeddingDim ∨
      a.hiddenLayerCount = 0 ∨ maxHiddenLayers < a.hiddenLayerCount ∨ a.outputDim ≠ 1) ∧
    ¬(4294967295 < a.embeddingDim*2 ∨ a.inputDim ≠ a.embeddingDim*2) ∧
    ¬(a.activeWidths.any (fun width => width = 0 || widthLimit < width) ||
      (a.hiddenWidths.toList.drop a.hiddenLayerCount).any (fun width => width ≠ 0)) = true := by
  have hactive : a.activeWidths.any (fun width => width = 0 || widthLimit < width) =
      !a.activeWidths.all (fun width => width ≠ 0 && width ≤ widthLimit) := by
    rw [List.not_all_eq_any_not]
    congr 1
    funext width
    simp only [Bool.not_and,← decide_not,not_not,Nat.not_le]
  have hidle : (a.hiddenWidths.toList.drop a.hiddenLayerCount).any (fun width => width ≠ 0) =
      !(a.hiddenWidths.toList.drop a.hiddenLayerCount).all (fun width => width = 0) := by
    rw [List.not_all_eq_any_not]
    congr 1
    funext width
    simp
  rw [hactive,hidle]
  have hlimit : widthLimit = 16384 := rfl
  simp only [Architecture.accepted,Bool.and_eq_true,decide_eq_true_eq,Bool.or_eq_true,
    Bool.not_eq_true']
  constructor
  · rintro ⟨⟨⟨⟨⟨⟨⟨⟨hversion,hpos⟩,hmax⟩,hlayers⟩,hmost⟩,houtput⟩,hinput⟩,hwidths⟩,hzeros⟩
    refine ⟨?_,by omega,?_⟩
    · rintro (h | h | h | h | h | h)
      · exact h hversion
      · exact hpos h
      · omega
      · exact hlayers h
      · omega
      · exact h houtput
    · rw [hwidths,hzeros]
      simp
  · rintro ⟨hfirst,hinput,hwidths⟩
    simp only [not_or,Bool.not_eq_false,not_not,Nat.not_lt] at hfirst hinput hwidths
    obtain ⟨hversion,hpos,hmax,hlayers,hmost,houtput⟩ := hfirst
    exact ⟨⟨⟨⟨⟨⟨⟨⟨hversion,hpos⟩,hmax⟩,hlayers⟩,hmost⟩,houtput⟩,hinput.2⟩,hwidths.1⟩,hwidths.2⟩

/-! ## The whole layout -/

theorem layerWidths_bounded {a : Architecture} (h : a.accepted = true) :
    ∀ width ∈ a.layerWidths, 0 < width ∧ width ≤ widthLimit := by
  obtain ⟨hfirst,-,hwidths⟩ := accepted_iff.mp h
  simp only [not_or,not_not] at hfirst
  simp only [Bool.or_eq_true,List.any_eq_true,decide_eq_true_eq,not_or,not_exists,not_and] at hwidths
  intro width hwidth
  rcases List.mem_append.mp hwidth with hactive | hlast
  · have hbad := hwidths.1 width hactive
    omega
  · rw [List.mem_singleton.mp hlast,hfirst.2.2.2.2.2]
    decide

def shapesOf (a : Architecture) : List LayerShape := layoutLayers a.inputDim 0 0 a.layerWidths

def weightTotal (a : Architecture) : ℕ := ((shapesOf a).map fun s => s.inputWidth*s.outputWidth).sum

def biasTotal (a : Architecture) : ℕ := ((shapesOf a).map LayerShape.outputWidth).sum

/-- The layout in words: that of the topology, and the activations behind one another. -/
theorem neuralLayoutBuild_eq (a : Architecture) : neuralLayoutBuild a =
    match layoutBuild a with
    | none => .error .refused
    | some l => .ok ⟨l,0::activationStarts a.inputDim a.layerWidths,a.inputDim+a.layerWidths.sum⟩ := by
  by_cases haccepted : a.accepted = true
  · have hwidths := layerWidths_bounded haccepted
    obtain ⟨hfirst,hinput,hlayers⟩ := accepted_iff.mp haccepted
    have hbounds := hfirst
    simp only [not_or,not_not,Nat.not_lt] at hbounds hinput
    obtain ⟨-,hpos,hmax,-,hmost,-⟩ := hbounds
    have hexpected : a.embeddingDim*2 ≤ wordMax := by
      simp only [widthLimit,wordMax] at hmax ⊢
      omega
    have hcount : a.hiddenLayerCount+1 ≤ wordMax := by
      simp only [maxHiddenLayers,wordMax] at hmost ⊢
      omega
    have hlength : a.layerWidths.length ≤ 5 := by
      rw [← layerOutputs_eq hmost,List.length_map,List.length_range]
      exact Nat.succ_le_succ hmost
    simp only [widthLimit] at hmax
    obtain ⟨last,hloop⟩ := @layers_ok a.layerWidths hwidths a.inputDim (by omega)
      (by simp only [widthLimit]; omega) ⟨⟨[],0,0⟩,[0],a.inputDim⟩
      (by simp only [widthLimit]; omega) (by simp only [widthLimit]; omega)
      (by simp only [widthLimit]; omega)
    have hbuild : layoutBuild a = if parameterLimit < weightTotal a ∨
        parameterLimit-weightTotal a < biasTotal a then none
        else some ⟨shapesOf a,weightTotal a,biasTotal a⟩ :=
      if_neg (not_not.mpr haccepted)
    have hextended : NeuralLayout.extended ⟨⟨[],0,0⟩,[0],a.inputDim⟩ a.inputDim a.layerWidths =
        ⟨⟨shapesOf a,weightTotal a,biasTotal a⟩,0::activationStarts a.inputDim a.layerWidths,
          a.inputDim+a.layerWidths.sum⟩ := by
      simp only [NeuralLayout.extended,List.nil_append,Nat.zero_add]
      rfl
    have hsum : a.layerWidths.sum ≤ 5*widthLimit :=
      (List.sum_le_card_nsmul _ _ fun width hwidth => (hwidths width hwidth).2).trans
        (Nat.mul_le_mul_right _ hlength)
    rw [hextended] at hloop
    rw [neuralLayoutBuild,if_neg hfirst,mulWord_ok hexpected]
    refine (if_neg (by omega)).trans ((if_neg hlayers).trans ?_)
    rw [addWord_ok hcount,hbuild]
    show (List.foldlM layoutLayer _ ((List.range (a.hiddenLayerCount+1)).map a.layerOutput) >>= _) = _
    rw [layerOutputs_eq hmost,hloop]
    have hroom : parameterLimit ≤ floatRoom := by decide
    have hactivations : a.inputDim+a.layerWidths.sum ≤ floatRoom := by
      simp only [widthLimit,floatRoom,wordMax] at hsum ⊢
      omega
    by_cases hlimit : parameterLimit < weightTotal a ∨ parameterLimit-weightTotal a < biasTotal a
    · rw [if_pos hlimit]
      exact if_pos (by tauto)
    · rw [if_neg hlimit]
      have hfits : ¬(parameterLimit < weightTotal a ∨ parameterLimit-weightTotal a < biasTotal a ∨
          floatRoom < weightTotal a ∨ floatRoom < biasTotal a ∨
          floatRoom < a.inputDim+a.layerWidths.sum) := by omega
      exact if_neg hfits
  · have hnone : layoutBuild a = none := if_pos haccepted
    rw [hnone,neuralLayoutBuild]
    split
    · rfl
    · next hfirst =>
        have hexpected : a.embeddingDim*2 ≤ wordMax := by
          simp only [widthLimit,wordMax] at hfirst ⊢
          omega
        rw [mulWord_ok hexpected]
        by_cases hinput : 4294967295 < a.embeddingDim*2 ∨ a.inputDim ≠ a.embeddingDim*2
        · exact if_pos hinput
        · refine (if_neg hinput).trans (if_pos ?_)
          by_contra hwidths
          exact haccepted (accepted_iff.mpr ⟨hfirst,hinput,hwidths⟩)

/-! ## Numbered parameters -/

/-- The index numbers the places without gap or overlap, and never wraps. -/
structure Numbers {ρ : Type} (has : ρ → Prop) (index : ρ → Except LayoutStop ℕ) (count : ℕ) :
    Prop where
  below : ∀ r, has r → ∃ k < count, index r = .ok k
  apart : ∀ r r', has r → has r' → index r = index r' → r = r'
  onto : ∀ k < count, ∃ r, has r ∧ index r = .ok k

namespace NeuralLayout

/-- The units that each segment of activations holds: the input, then each layer's outputs. -/
def activationWidths (w : NeuralLayout) : List ℕ :=
  (w.layers.map LayerShape.inputWidth).headD 0::w.layers.map LayerShape.outputWidth

/-- The segments lie behind one another, and the last ends at the count. -/
structure Segmented (w : NeuralLayout) : Prop where
  segments : w.activationOffsets.length = w.activationWidths.length
  apart : ∀ i j, i < j → j < w.activationWidths.length →
    w.activationOffsets.getD i 0+w.activationWidths.getD i 0 ≤ w.activationOffsets.getD j 0
  ends : w.activationOffsets.getD w.layers.length 0+w.activationWidths.getD w.layers.length 0 =
    w.activationCount

variable {w : NeuralLayout} {r : WeightRole} {b : BiasRole}

theorem weightIndex_ok (h : w.Compact) (hcount : w.weightCount ≤ parameterLimit)
    (hr : w.HasWeight r) : w.weightIndex r = .ok (w.weightAt r) := by
  have hlt := h.weightAt_lt hr
  obtain ⟨s,hs,-⟩ := hr
  have hget : w.layers.getD r.layer ⟨0,0,0,0⟩ = s := by
    rw [List.getD_eq_getElem?_getD,hs]
    rfl
  rw [Layout.weightAt_of hs,LayerShape.weightIndex] at hlt ⊢
  simp only [parameterLimit] at hcount
  rw [weightIndex]
  simp only [hget]
  rw [mulWord_ok (by simp only [wordMax]; omega)]
  show (addWord _ _ _ >>= _) = _
  rw [addWord_ok (by simp only [wordMax]; omega)]
  exact addWord_ok (by simp only [wordMax]; omega)

theorem biasIndex_ok (h : w.Compact) (hcount : w.biasCount ≤ parameterLimit) (hb : w.HasBias b) :
    w.biasIndex b = .ok (w.biasAt b) := by
  have hlt := h.biasAt_lt hb
  obtain ⟨s,hs,-⟩ := hb
  have hget : w.layers.getD b.layer ⟨0,0,0,0⟩ = s := by
    rw [List.getD_eq_getElem?_getD,hs]
    rfl
  rw [Layout.biasAt_of hs,LayerShape.biasIndex] at hlt ⊢
  simp only [parameterLimit] at hcount
  rw [biasIndex,hget]
  exact addWord_ok (by simp only [wordMax]; omega)

theorem weights_numbered (h : w.Compact) (hcount : w.weightCount ≤ parameterLimit) :
    Numbers w.HasWeight w.weightIndex w.weightCount where
  below r hr := ⟨_,h.weightAt_lt hr,weightIndex_ok h hcount hr⟩
  apart r r' hr hr' heq := by
    rw [weightIndex_ok h hcount hr,weightIndex_ok h hcount hr'] at heq
    exact h.weightAt_inj hr hr' (Except.ok.inj heq)
  onto k hk := by
    obtain ⟨r,hr,rfl⟩ := h.exists_weightAt hk
    exact ⟨r,hr,weightIndex_ok h hcount hr⟩

theorem biases_numbered (h : w.Compact) (hcount : w.biasCount ≤ parameterLimit) :
    Numbers w.HasBias w.biasIndex w.biasCount where
  below b hb := ⟨_,h.biasAt_lt hb,biasIndex_ok h hcount hb⟩
  apart b b' hb hb' heq := by
    rw [biasIndex_ok h hcount hb,biasIndex_ok h hcount hb'] at heq
    exact h.biasAt_inj hb hb' (Except.ok.inj heq)
  onto k hk := by
    obtain ⟨b,hb,rfl⟩ := h.exists_biasAt hk
    exact ⟨b,hb,biasIndex_ok h hcount hb⟩

end NeuralLayout

/-- What an accepted topology's layout in words is. -/
theorem neuralLayoutBuild_ok {a : Architecture} {w : NeuralLayout}
    (h : neuralLayoutBuild a = .ok w) : layoutBuild a = some w.toLayout ∧
      w.activationOffsets = activationStarts 0 (a.inputDim::a.layerWidths) ∧
      w.activationCount = (a.inputDim::a.layerWidths).sum := by
  rw [neuralLayoutBuild_eq] at h
  cases hl : layoutBuild a with
  | none =>
      rw [hl] at h
      cases h
  | some l =>
      rw [hl] at h
      cases h
      refine ⟨rfl,?_,rfl⟩
      rw [activationStarts,Nat.zero_add]

theorem layoutBuild_counts {a : Architecture} {l : Layout} (h : layoutBuild a = some l) :
    l.weightCount+l.biasCount ≤ parameterLimit ∧ l.layers = shapesOf a := by
  unfold layoutBuild at h
  dsimp only at h
  split at h
  · cases h
  · split at h
    · cases h
    · next hlimit =>
        cases h
        refine ⟨?_,rfl⟩
        dsimp only
        omega

theorem shapes_widths (input weights biases : ℕ) (widths : List ℕ) :
    (layoutLayers input weights biases widths).map LayerShape.outputWidth = widths := by
  induction widths generalizing input weights biases with
  | nil => rfl
  | cons width rest ih => rw [layoutLayers,List.map_cons,ih]

theorem neuralLayoutBuild_segmented {a : Architecture} {w : NeuralLayout}
    (h : neuralLayoutBuild a = .ok w) : w.Segmented := by
  obtain ⟨hl,hoffsets,hcount⟩ := neuralLayoutBuild_ok h
  obtain ⟨-,hlayers⟩ := layoutBuild_counts hl
  have hwidths : w.activationWidths = a.inputDim::a.layerWidths := by
    rw [NeuralLayout.activationWidths,hlayers,shapesOf,shapes_widths]
    rw [Architecture.layerWidths]
    cases a.activeWidths with
    | nil => rfl
    | cons width rest => rfl
  have hlength : w.activationWidths.length = w.layers.length+1 := by
    rw [NeuralLayout.activationWidths,List.length_cons,List.length_map]
  have hat : ∀ i < w.activationWidths.length, w.activationOffsets.getD i 0 =
      blockOffset w.activationWidths i := by
    intro i hi
    rw [hoffsets,hwidths] at *
    rw [activationStarts_offset 0 hi,Nat.zero_add]
  refine ⟨?_,fun i j hij hj => ?_,?_⟩
  · rw [hoffsets,activationStarts_length,hwidths]
  · rw [hat i (hij.trans hj),hat j hj]
    exact blockOffset_le hij
  · have hlast : w.layers.length < w.activationWidths.length := by omega
    rw [hat _ hlast,hcount,← hwidths,← blockOffset_length,hlength,blockOffset_succ hlast]

/-- Weights, biases and activations lie without gap or overlap, and nothing wraps. -/
theorem neural_layout_numbered (a : Architecture) :
    (neuralLayoutBuild a ≠ .error .wrapped ∧ neuralParameterCount a ≠ .error .wrapped) ∧
    ∀ w, neuralLayoutBuild a = .ok w →
      Numbers w.HasWeight w.weightIndex w.weightCount ∧ Numbers w.HasBias w.biasIndex w.biasCount ∧
        w.Segmented ∧ neuralParameterCount a = .ok (w.weightCount+w.biasCount) := by
  have hparameters : ∀ w, neuralLayoutBuild a = .ok w →
      neuralParameterCount a = .ok (w.weightCount+w.biasCount) := by
    intro w hw
    have hcounts := (layoutBuild_counts (neuralLayoutBuild_ok hw).1).1
    rw [neuralParameterCount,hw]
    exact addWord_ok (hcounts.trans (by decide))
  have hbuild : neuralLayoutBuild a ≠ .error .wrapped := by
    rw [neuralLayoutBuild_eq]
    cases layoutBuild a with
    | none => exact fun h => by cases h
    | some l => exact fun h => by cases h
  refine ⟨⟨hbuild,?_⟩,fun w hw => ?_⟩
  · cases hw : neuralLayoutBuild a with
    | ok w =>
        rw [hparameters w hw]
        exact fun h => by cases h
    | error stop =>
        rw [neuralParameterCount,hw]
        cases stop with
        | refused => exact fun h => by cases h
        | wrapped => exact absurd hw hbuild
  · obtain ⟨hl,-⟩ := neuralLayoutBuild_ok hw
    have hcompact := (layoutBuild_of hl).compact
    have hcounts := (layoutBuild_counts hl).1
    exact ⟨NeuralLayout.weights_numbered hcompact (by omega),
      NeuralLayout.biases_numbered hcompact (by omega),neuralLayoutBuild_segmented hw,
      hparameters w hw⟩

theorem neural_layout_numbered_legacy : ∃ w, neuralLayoutBuild .legacy = .ok w ∧
    Numbers w.HasWeight w.weightIndex w.weightCount ∧ Numbers w.HasBias w.biasIndex w.biasCount ∧
      w.Segmented ∧ neuralParameterCount .legacy = .ok (w.weightCount+w.biasCount) := by
  cases h : neuralLayoutBuild .legacy with
  | ok w => exact ⟨w,rfl,(neural_layout_numbered .legacy).2 w h⟩
  | error stop =>
      have hbuilt : (neuralLayoutBuild .legacy).isOk = true := by decide +kernel
      rw [h] at hbuilt
      cases hbuilt

end Atperson.Core
