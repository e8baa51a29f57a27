import Atperson.Core.Migration
import Atperson.Runs.Blocks

/-!
# Parameters by role

A weight is told by its layer, its output unit and its input, a bias by its layer and unit.
The layout lays the roles out one behind another in the flat arrays. An expansion moves the
output layer behind the new hidden layers and the second embedding of an input pair behind
the wider first one. Every role keeps its value and importance, no two share a place, and the
places left are filled from the stream of the migration.
-/
namespace Atperson.Core
open Ledger (Status)
open Runs (blockOffset)

/-! ## Roles -/

structure WeightRole where
  layer : ℕ
  output : ℕ
  input : ℕ

structure BiasRole where
  layer : ℕ
  output : ℕ

namespace Layout

def HasWeight (l : Layout) (r : WeightRole) : Prop :=
  ∃ s, l.layers[r.layer]? = some s ∧ r.output < s.outputWidth ∧ r.input < s.inputWidth

def HasBias (l : Layout) (r : BiasRole) : Prop :=
  ∃ s, l.layers[r.layer]? = some s ∧ r.output < s.outputWidth

/-- `atp_network_weight_index`. -/
def weightAt (l : Layout) (r : WeightRole) : ℕ :=
  (l.layers[r.layer]?.map fun s => s.weightIndex r.output r.input).getD 0

/-- `atp_network_bias_index`. -/
def biasAt (l : Layout) (r : BiasRole) : ℕ :=
  (l.layers[r.layer]?.map fun s => s.biasIndex r.output).getD 0

def weightSizes (l : Layout) : List ℕ := l.layers.map fun s => s.inputWidth*s.outputWidth

def biasSizes (l : Layout) : List ℕ := l.layers.map LayerShape.outputWidth

/-- The layers lie one behind another and fill the arrays. -/
structure Compact (l : Layout) : Prop where
  weightCount : l.weightCount = l.weightSizes.sum
  biasCount : l.biasCount = l.biasSizes.sum
  offsets : ∀ i s, l.layers[i]? = some s →
    s.weightOffset = blockOffset l.weightSizes i ∧ s.biasOffset = blockOffset l.biasSizes i

variable {l : Layout} {r r' : WeightRole} {b b' : BiasRole} {k : ℕ}

theorem weightAt_of {s : LayerShape} (h : l.layers[r.layer]? = some s) :
    l.weightAt r = s.weightIndex r.output r.input := by
  rw [weightAt,h]
  rfl

theorem biasAt_of {s : LayerShape} (h : l.layers[b.layer]? = some s) :
    l.biasAt b = s.biasIndex b.output := by
  rw [biasAt,h]
  rfl

theorem Compact.weightAt (h : l.Compact) (hr : l.HasWeight r) :
    ∃ s, l.layers[r.layer]? = some s ∧ r.output < s.outputWidth ∧ r.input < s.inputWidth ∧
      r.output*s.inputWidth+r.input < l.weightSizes.getD r.layer 0 ∧
      l.weightAt r = blockOffset l.weightSizes r.layer+(r.output*s.inputWidth+r.input) := by
  obtain ⟨s,hs,ho,hi⟩ := hr
  refine ⟨s,hs,ho,hi,?_,?_⟩
  · rw [weightSizes,List.getD_eq_getElem?_getD,List.getElem?_map,hs]
    exact Runs.table_lt ho hi
  · rw [weightAt_of hs,LayerShape.weightIndex,(h.offsets _ _ hs).1,Nat.add_assoc]

theorem Compact.biasAt (h : l.Compact) (hb : l.HasBias b) :
    b.output < l.biasSizes.getD b.layer 0 ∧
      l.biasAt b = blockOffset l.biasSizes b.layer+b.output := by
  obtain ⟨s,hs,ho⟩ := hb
  refine ⟨?_,?_⟩
  · rw [biasSizes,List.getD_eq_getElem?_getD,List.getElem?_map,hs]
    exact ho
  · rw [biasAt_of hs,LayerShape.biasIndex,(h.offsets _ _ hs).2]

theorem Compact.weightAt_lt (h : l.Compact) (hr : l.HasWeight r) :
    l.weightAt r < l.weightCount := by
  obtain ⟨s,-,-,-,hlt,hat⟩ := h.weightAt hr
  rw [hat,h.weightCount]
  exact Runs.blockOffset_lt hlt

theorem Compact.biasAt_lt (h : l.Compact) (hb : l.HasBias b) : l.biasAt b < l.biasCount := by
  obtain ⟨hlt,hat⟩ := h.biasAt hb
  rw [hat,h.biasCount]
  exact Runs.blockOffset_lt hlt

theorem Compact.weightAt_inj (h : l.Compact) (hr : l.HasWeight r) (hr' : l.HasWeight r')
    (heq : l.weightAt r = l.weightAt r') : r = r' := by
  obtain ⟨s,hs,-,hi,hlt,hat⟩ := h.weightAt hr
  obtain ⟨s',hs',-,hi',hlt',hat'⟩ := h.weightAt hr'
  rw [hat,hat'] at heq
  obtain ⟨hlayer,hplace⟩ := Runs.blockOffset_inj hlt hlt' heq
  rw [hlayer] at hs
  obtain rfl := Option.some.inj (hs.symm.trans hs')
  obtain ⟨houtput,hinput⟩ := Runs.table_inj hi hi' hplace
  cases r
  cases r'
  simp_all

theorem Compact.biasAt_inj (h : l.Compact) (hb : l.HasBias b) (hb' : l.HasBias b')
    (heq : l.biasAt b = l.biasAt b') : b = b' := by
  obtain ⟨hlt,hat⟩ := h.biasAt hb
  obtain ⟨hlt',hat'⟩ := h.biasAt hb'
  rw [hat,hat'] at heq
  obtain ⟨hlayer,houtput⟩ := Runs.blockOffset_inj hlt hlt' heq
  cases b
  cases b'
  simp_all

theorem Compact.exists_weightAt (h : l.Compact) (hk : k < l.weightCount) :
    ∃ r, l.HasWeight r ∧ l.weightAt r = k := by
  rw [h.weightCount] at hk
  obtain ⟨layer,place,hplace,rfl⟩ := Runs.exists_blockOffset hk
  rw [weightSizes,List.getD_eq_getElem?_getD,List.getElem?_map] at hplace
  cases hs : l.layers[layer]? with
  | none =>
      rw [hs] at hplace
      exact absurd hplace (Nat.not_lt_zero _)
  | some s =>
      rw [hs] at hplace
      obtain ⟨output,input,ho,hi,rfl⟩ := Runs.exists_table hplace
      refine ⟨⟨layer,output,input⟩,⟨s,hs,ho,hi⟩,?_⟩
      rw [weightAt_of hs,LayerShape.weightIndex,(h.offsets _ _ hs).1,Nat.add_assoc]

theorem Compact.exists_biasAt (h : l.Compact) (hk : k < l.biasCount) :
    ∃ b, l.HasBias b ∧ l.biasAt b = k := by
  rw [h.biasCount] at hk
  obtain ⟨layer,output,ho,rfl⟩ := Runs.exists_blockOffset hk
  rw [biasSizes,List.getD_eq_getElem?_getD,List.getElem?_map] at ho
  cases hs : l.layers[layer]? with
  | none =>
      rw [hs] at ho
      exact absurd ho (Nat.not_lt_zero _)
  | some s =>
      rw [hs] at ho
      refine ⟨⟨layer,output⟩,⟨s,hs,ho⟩,?_⟩
      rw [biasAt_of hs,LayerShape.biasIndex,(h.offsets _ _ hs).2]

end Layout

/-! ## The layout of a topology -/

theorem layoutLayers_offsets (input weights biases : ℕ) (widths : List ℕ) (i : ℕ)
    (s : LayerShape) (h : (layoutLayers input weights biases widths)[i]? = some s) :
    s.weightOffset = weights+blockOffset
        ((layoutLayers input weights biases widths).map fun s => s.inputWidth*s.outputWidth) i ∧
      s.biasOffset = biases+blockOffset
        ((layoutLayers input weights biases widths).map LayerShape.outputWidth) i ∧
      some s.outputWidth = widths[i]? ∧ some s.inputWidth = (input::widths)[i]? := by
  induction widths generalizing input weights biases i with
  | nil => cases h
  | cons width rest ih =>
      cases i with
      | zero =>
          obtain rfl := Option.some.inj h
          exact ⟨rfl,rfl,rfl,rfl⟩
      | succ i =>
          obtain ⟨hw,hb,ho,hi⟩ := ih width (weights+input*width) (biases+width) i h
          refine ⟨?_,?_,ho,hi⟩
          · rw [hw,layoutLayers,List.map_cons,Runs.blockOffset_cons,Nat.add_assoc]
          · rw [hb,layoutLayers,List.map_cons,Runs.blockOffset_cons,Nat.add_assoc]

theorem layoutLayers_length (input weights biases : ℕ) (widths : List ℕ) :
    (layoutLayers input weights biases widths).length = widths.length := by
  induction widths generalizing input weights biases with
  | nil => rfl
  | cons width rest ih => rw [layoutLayers,List.length_cons,List.length_cons,ih]

/-- What a topology makes of its widths. -/
structure Layout.Of (a : Architecture) (l : Layout) : Prop where
  compact : l.Compact
  length : l.layers.length = a.hiddenLayerCount+1
  widths : a.activeWidths.length = a.hiddenLayerCount
  hidden : 0 < a.hiddenLayerCount
  shape : ∀ (i : ℕ) (s : LayerShape), l.layers[i]? = some s →
    some s.outputWidth = (a.activeWidths++[1])[i]? ∧
      some s.inputWidth = (a.embeddingDim*2::(a.activeWidths++[1]))[i]?

theorem layoutBuild_of {a : Architecture} {l : Layout} (h : layoutBuild a = some l) :
    Layout.Of a l := by
  unfold layoutBuild at h
  dsimp only at h
  split at h
  · cases h
  · rename_i haccepted
    split at h
    · cases h
    · cases h
      rw [not_not] at haccepted
      simp only [Architecture.accepted,Bool.and_eq_true,decide_eq_true_eq] at haccepted
      obtain ⟨⟨⟨⟨⟨⟨-,hpos⟩,hmax⟩,houtput⟩,hinput⟩,-⟩,-⟩ := haccepted
      have hwidths : a.activeWidths.length = a.hiddenLayerCount := by
        rw [Architecture.activeWidths,List.length_take,Vector.length_toList]
        exact Nat.min_eq_left hmax
      have hshape := layoutLayers_offsets a.inputDim 0 0 (a.activeWidths++[a.outputDim])
      refine ⟨⟨rfl,rfl,fun i s hs => ?_⟩,?_,hwidths,Nat.pos_of_ne_zero hpos,fun i s hs => ?_⟩
      · obtain ⟨hw,hb,-,-⟩ := hshape i s hs
        rw [Nat.zero_add] at hw hb
        exact ⟨hw,hb⟩
      · rw [layoutLayers_length,List.length_append,hwidths,List.length_singleton]
      · obtain ⟨-,-,ho,hi⟩ := hshape i s hs
        rw [houtput] at ho hi
        rw [hinput] at hi
        exact ⟨ho,hi⟩

namespace Layout
variable {a : Architecture} {l : Layout} {s : LayerShape} {i : ℕ}

theorem Of.exists_shape (h : Of a l) (hi : i ≤ a.hiddenLayerCount) :
    ∃ s, l.layers[i]? = some s :=
  ⟨_,List.getElem?_eq_getElem (h.length ▸ Nat.lt_succ_iff.mpr hi)⟩

theorem Of.layer_le (h : Of a l) (hs : l.layers[i]? = some s) : i ≤ a.hiddenLayerCount := by
  obtain ⟨hi,-⟩ := List.getElem?_eq_some_iff.mp hs
  rw [h.length] at hi
  exact Nat.lt_succ_iff.mp hi

theorem Of.hiddenWidth (h : Of a l) (hs : l.layers[i]? = some s) (hi : i < a.hiddenLayerCount) :
    a.activeWidths[i]? = some s.outputWidth := by
  rw [(h.shape i s hs).1,List.getElem?_append_left (h.widths.symm ▸ hi)]

theorem Of.outputWidth (h : Of a l) (hs : l.layers[a.hiddenLayerCount]? = some s) :
    s.outputWidth = 1 := by
  have ho := (h.shape _ s hs).1
  rw [List.getElem?_append_right h.widths.le,h.widths,Nat.sub_self] at ho
  exact Option.some.inj ho

theorem Of.firstInput (h : Of a l) (hs : l.layers[0]? = some s) :
    s.inputWidth = a.embeddingDim*2 :=
  Option.some.inj (h.shape 0 s hs).2

theorem Of.laterInput (h : Of a l) (hs : l.layers[i+1]? = some s) :
    a.activeWidths[i]? = some s.inputWidth := by
  have hi := (h.shape (i+1) s hs).2
  have hle := h.layer_le hs
  rw [List.getElem?_cons_succ,List.getElem?_append_left (by rw [h.widths]; omega)] at hi
  exact hi.symm

end Layout

/-! ## Roles through a migration -/

namespace Migration

/-- The output layer stays the output layer. -/
def layerRole (m : Migration) (layer : ℕ) : ℕ :=
  if layer = m.source.hiddenLayerCount then m.target.hiddenLayerCount else layer

/-- The inputs of the first layer are two embeddings, the second behind the first. -/
def inputRole (m : Migration) (layer input : ℕ) : ℕ :=
  if layer = 0 ∧ m.source.embeddingDim ≤ input then
    m.target.embeddingDim+(input-m.source.embeddingDim)
  else input

def weightRole (m : Migration) (r : WeightRole) : WeightRole :=
  ⟨m.layerRole r.layer,r.output,m.inputRole r.layer r.input⟩

def biasRole (m : Migration) (b : BiasRole) : BiasRole := ⟨m.layerRole b.layer,b.output⟩

/-- What the check of a migration says of its topologies. -/
structure Grows (m : Migration) : Prop where
  embedding : m.source.embeddingDim ≤ m.target.embeddingDim
  layers : m.source.hiddenLayerCount ≤ m.target.hiddenLayerCount
  widths : ∀ (i : ℕ) (w w' : ℕ), m.source.activeWidths[i]? = some w →
    m.target.activeWidths[i]? = some w' → w ≤ w'
  final : m.source.activeWidths.getLastD 0 ≤ m.target.activeWidths.getLastD 0

theorem grows {m : Migration} (h : m.valid = true) : m.Grows := by
  simp only [valid,Bool.and_eq_true,decide_eq_true_eq,List.all_eq_true] at h
  obtain ⟨⟨⟨⟨⟨-,hembedding⟩,hlayers⟩,hwidths⟩,hfinal⟩,-⟩ := h
  refine ⟨hembedding,hlayers,fun i w w' hw hw' => ?_,hfinal⟩
  have hmem : (w,w') ∈ m.source.activeWidths.zip m.target.activeWidths := by
    refine List.mem_of_getElem? (i := i) ?_
    rw [List.getElem?_zip_eq_some]
    exact ⟨hw,hw'⟩
  exact hwidths _ hmem

section Roles
variable {m : Migration} {old new : Layout} {r r' : WeightRole} {b b' : BiasRole}

theorem getLastD_of_length {ws : List ℕ} {n w : ℕ} (hlen : ws.length = n+1)
    (hw : ws[n]? = some w) : ws.getLastD 0 = w := by
  rw [List.getLastD_eq_getLast?,List.getLast?_eq_getElem?,hlen,Nat.add_sub_cancel,hw,
    Option.getD_some]

/-- The output layer reads the last hidden layer, which is no narrower. -/
theorem Grows.finalInput (hm : m.Grows) (hold : Layout.Of m.source old)
    (hnew : Layout.Of m.target new) {s t : LayerShape}
    (hs : old.layers[m.source.hiddenLayerCount]? = some s)
    (ht : new.layers[m.target.hiddenLayerCount]? = some t) : s.inputWidth ≤ t.inputWidth := by
  obtain ⟨n,hn⟩ := Nat.exists_eq_add_one.mpr hold.hidden
  obtain ⟨k,hk⟩ := Nat.exists_eq_add_one.mpr hnew.hidden
  rw [hn] at hs
  rw [hk] at ht
  have hlast := getLastD_of_length (hn ▸ hold.widths) (hold.laterInput hs)
  have hlast' := getLastD_of_length (hk ▸ hnew.widths) (hnew.laterInput ht)
  rw [← hlast,← hlast']
  exact hm.final

/-- A hidden layer is copied to the same layer, no narrower than itself. -/
theorem Grows.hiddenLayer (hm : m.Grows) (hold : Layout.Of m.source old)
    (hnew : Layout.Of m.target new) {i : ℕ} {s t : LayerShape} (hs : old.layers[i]? = some s)
    (ht : new.layers[i]? = some t) (hi : i < m.source.hiddenLayerCount) :
    s.outputWidth ≤ t.outputWidth ∧ ∀ input < s.inputWidth, m.inputRole i input < t.inputWidth := by
  refine ⟨hm.widths i _ _ (hold.hiddenWidth hs hi)
    (hnew.hiddenWidth ht (Nat.lt_of_lt_of_le hi hm.layers)),fun input hinput => ?_⟩
  cases i with
  | zero =>
      rw [hold.firstInput hs] at hinput
      rw [hnew.firstInput ht,inputRole]
      have hle := hm.embedding
      split
      · omega
      · rename_i hfirst
        omega
  | succ i =>
      have hle := hm.widths i _ _ (hold.laterInput hs) (hnew.laterInput ht)
      rw [inputRole,if_neg (fun h => Nat.succ_ne_zero i h.1)]
      exact Nat.lt_of_lt_of_le hinput hle

/-- Every layer has its counterpart, no narrower than itself. -/
theorem Grows.layer (hm : m.Grows) (hold : Layout.Of m.source old) (hnew : Layout.Of m.target new)
    {i : ℕ} {s : LayerShape} (hs : old.layers[i]? = some s) :
    ∃ t, new.layers[m.layerRole i]? = some t ∧ s.outputWidth ≤ t.outputWidth ∧
      ∀ input < s.inputWidth, m.inputRole i input < t.inputWidth := by
  rw [layerRole]
  split
  · rename_i hout
    subst hout
    obtain ⟨t,ht⟩ := hnew.exists_shape le_rfl
    refine ⟨t,ht,?_,fun input hinput => ?_⟩
    · rw [hold.outputWidth hs,hnew.outputWidth ht]
    · have hne : ¬(m.source.hiddenLayerCount = 0 ∧ m.source.embeddingDim ≤ input) :=
        fun h => absurd h.1 hold.hidden.ne'
      rw [inputRole,if_neg hne]
      exact Nat.lt_of_lt_of_le hinput (hm.finalInput hold hnew hs ht)
  · rename_i hne
    have hi : i < m.source.hiddenLayerCount := lt_of_le_of_ne (hold.layer_le hs) hne
    obtain ⟨t,ht⟩ := hnew.exists_shape (hi.le.trans hm.layers)
    exact ⟨t,ht,hm.hiddenLayer hold hnew hs ht hi⟩

theorem Grows.hasWeight (hm : m.Grows) (hold : Layout.Of m.source old)
    (hnew : Layout.Of m.target new) (hr : old.HasWeight r) : new.HasWeight (m.weightRole r) := by
  obtain ⟨s,hs,ho,hi⟩ := hr
  obtain ⟨t,ht,hwide,hinputs⟩ := hm.layer hold hnew hs
  exact ⟨t,ht,Nat.lt_of_lt_of_le ho hwide,hinputs _ hi⟩

theorem Grows.hasBias (hm : m.Grows) (hold : Layout.Of m.source old)
    (hnew : Layout.Of m.target new) (hb : old.HasBias b) : new.HasBias (m.biasRole b) := by
  obtain ⟨s,hs,ho⟩ := hb
  obtain ⟨t,ht,hwide,-⟩ := hm.layer hold hnew hs
  exact ⟨t,ht,Nat.lt_of_lt_of_le ho hwide⟩

theorem Grows.layerRole_inj (hm : m.Grows) {i j : ℕ} (hi : i ≤ m.source.hiddenLayerCount)
    (hj : j ≤ m.source.hiddenLayerCount) (h : m.layerRole i = m.layerRole j) : i = j := by
  have hle := hm.layers
  unfold layerRole at h
  split at h <;> split at h <;> omega

theorem Grows.inputRole_inj (hm : m.Grows) {layer i j : ℕ}
    (h : m.inputRole layer i = m.inputRole layer j) : i = j := by
  have hle := hm.embedding
  unfold inputRole at h
  split at h <;> split at h <;> omega

theorem Grows.weightRole_inj (hm : m.Grows) (hold : Layout.Of m.source old)
    (hr : old.HasWeight r) (hr' : old.HasWeight r')
    (h : m.weightRole r = m.weightRole r') : r = r' := by
  obtain ⟨s,hs,-,-⟩ := hr
  obtain ⟨s',hs',-,-⟩ := hr'
  obtain ⟨layer,output,input⟩ := r
  obtain ⟨layer',output',input'⟩ := r'
  simp only [weightRole,WeightRole.mk.injEq] at h
  obtain ⟨hlayer,rfl,hinput⟩ := h
  obtain rfl := hm.layerRole_inj (hold.layer_le hs) (hold.layer_le hs') hlayer
  rw [hm.inputRole_inj hinput]

theorem Grows.biasRole_inj (hm : m.Grows) (hold : Layout.Of m.source old)
    (hb : old.HasBias b) (hb' : old.HasBias b') (h : m.biasRole b = m.biasRole b') : b = b' := by
  obtain ⟨s,hs,-⟩ := hb
  obtain ⟨s',hs',-⟩ := hb'
  obtain ⟨layer,output⟩ := b
  obtain ⟨layer',output'⟩ := b'
  simp only [biasRole,BiasRole.mk.injEq] at h
  obtain ⟨hlayer,rfl⟩ := h
  obtain rfl := hm.layerRole_inj (hold.layer_le hs) (hold.layer_le hs') hlayer
  rfl

end Roles

end Migration

/-! ## The copies -/

theorem mem_hiddenPairs {m : Migration} {old new : Layout} {p : ℕ×LayerShape×LayerShape} :
    p ∈ hiddenPairs m old new ↔ p.1 < m.source.hiddenLayerCount ∧
      old.layers[p.1]? = some p.2.1 ∧ new.layers[p.1]? = some p.2.2 := by
  rw [hiddenPairs,List.mem_iff_getElem?]
  constructor
  · rintro ⟨i,hi⟩
    rw [List.getElem?_zip_eq_some,List.getElem?_zip_eq_some] at hi
    obtain ⟨hrange,hs,ht⟩ := hi
    obtain ⟨hlt,hget⟩ := List.getElem?_eq_some_iff.mp hrange
    rw [List.getElem_range] at hget
    rw [List.length_range] at hlt
    subst hget
    exact ⟨hlt,hs,ht⟩
  · rintro ⟨hlt,hs,ht⟩
    refine ⟨p.1,?_⟩
    rw [List.getElem?_zip_eq_some,List.getElem?_zip_eq_some,List.getElem?_range hlt]
    exact ⟨rfl,hs,ht⟩

theorem mem_hiddenWeightPlaces {source target : Architecture} {layer : ℕ} {s t : LayerShape}
    {p : ℕ×ℕ} (hfirst : layer = 0 → s.inputWidth = source.embeddingDim*2) :
    p ∈ hiddenWeightPlaces source target layer s t ↔ ∃ o i, o < s.outputWidth ∧
      i < s.inputWidth ∧ p = (t.weightIndex o (if layer = 0 ∧ source.embeddingDim ≤ i then
        target.embeddingDim+(i-source.embeddingDim) else i),s.weightIndex o i) := by
  rw [hiddenWeightPlaces]
  simp only [List.mem_flatMap,List.mem_range]
  refine exists_congr fun o => ?_
  by_cases hlayer : layer = 0
  · rw [if_pos hlayer,hfirst hlayer]
    simp only [List.mem_flatMap,List.mem_range,List.mem_cons,List.not_mem_nil,or_false]
    constructor
    · rintro ⟨ho,d,hd,rfl | rfl⟩
      · refine ⟨d,ho,by omega,?_⟩
        rw [if_neg fun h => absurd h.2 (Nat.not_le.mpr hd)]
      · refine ⟨source.embeddingDim+d,ho,by omega,?_⟩
        rw [if_pos ⟨hlayer,Nat.le_add_right _ _⟩,Nat.add_sub_cancel_left]
    · rintro ⟨i,ho,hi,rfl⟩
      rcases Nat.lt_or_ge i source.embeddingDim with hlt | hge
      · refine ⟨ho,i,hlt,.inl ?_⟩
        rw [if_neg fun h => absurd h.2 (Nat.not_le.mpr hlt)]
      · refine ⟨ho,i-source.embeddingDim,by omega,.inr ?_⟩
        rw [if_pos ⟨hlayer,hge⟩,Nat.add_sub_cancel' hge]
  · rw [if_neg hlayer]
    simp only [List.mem_map,List.mem_range]
    constructor
    · rintro ⟨ho,i,hi,rfl⟩
      refine ⟨i,ho,hi,?_⟩
      rw [if_neg fun h => hlayer h.1]
    · rintro ⟨i,ho,hi,rfl⟩
      refine ⟨ho,i,hi,?_⟩
      rw [if_neg fun h => hlayer h.1]

section Copies
variable {m : Migration} {old new : Layout}

theorem layerRole_hidden {layer : ℕ} (h : layer < m.source.hiddenLayerCount) :
    m.layerRole layer = layer := if_neg h.ne

theorem layerRole_output : m.layerRole m.source.hiddenLayerCount = m.target.hiddenLayerCount :=
  if_pos rfl

theorem inputRole_output (hold : Layout.Of m.source old) (input : ℕ) :
    m.inputRole m.source.hiddenLayerCount input = input :=
  if_neg fun h => absurd h.1 hold.hidden.ne'

/-- The places of two roles, from the layers they are in. -/
theorem weightPlace {layer o i : ℕ} {s t : LayerShape} (hs : old.layers[layer]? = some s)
    (ht : new.layers[m.layerRole layer]? = some t) :
    (new.weightAt (m.weightRole ⟨layer,o,i⟩),old.weightAt ⟨layer,o,i⟩) =
      (t.weightIndex o (m.inputRole layer i),s.weightIndex o i) := by
  rw [Layout.weightAt_of (r := m.weightRole ⟨layer,o,i⟩) ht,
    Layout.weightAt_of (r := ⟨layer,o,i⟩) hs]
  rfl

theorem biasPlace {layer o : ℕ} {s t : LayerShape} (hs : old.layers[layer]? = some s)
    (ht : new.layers[m.layerRole layer]? = some t) :
    (new.biasAt (m.biasRole ⟨layer,o⟩),old.biasAt ⟨layer,o⟩) = (t.biasIndex o,s.biasIndex o) := by
  rw [Layout.biasAt_of (b := m.biasRole ⟨layer,o⟩) ht,Layout.biasAt_of (b := ⟨layer,o⟩) hs]
  rfl

/-- The last layers, which the output is copied between. -/
theorem getLast?_layers {a : Architecture} {l : Layout} (h : Layout.Of a l) :
    l.layers.getLast? = l.layers[a.hiddenLayerCount]? := by
  rw [List.getLast?_eq_getElem?,h.length,Nat.add_sub_cancel]

/-- The weights are copied by role. -/
theorem mem_weightPlaces (hold : Layout.Of m.source old) (hnew : Layout.Of m.target new)
    (hm : m.Grows) {p : ℕ×ℕ} : p ∈ weightPlaces m old new ↔
      ∃ r, old.HasWeight r ∧ p = (new.weightAt (m.weightRole r),old.weightAt r) := by
  obtain ⟨s,hs⟩ := hold.exists_shape le_rfl
  obtain ⟨t,ht⟩ := hnew.exists_shape le_rfl
  have hfirst : ∀ {layer : ℕ} {s : LayerShape}, old.layers[layer]? = some s → layer = 0 →
      s.inputWidth = m.source.embeddingDim*2 := by
    rintro _ s hs rfl
    exact hold.firstInput hs
  rw [weightPlaces,getLast?_layers hold,getLast?_layers hnew,hs,ht,List.mem_append]
  simp only [List.mem_flatMap,Prod.exists,mem_hiddenPairs,List.mem_map,List.mem_range]
  rw [← layerRole_output] at ht
  constructor
  · rintro (⟨layer,s',t',⟨hlt,hs',ht'⟩,hp⟩ | ⟨i,hi,rfl⟩)
    · obtain ⟨o,i,ho,hi,rfl⟩ := (mem_hiddenWeightPlaces (hfirst hs')).mp hp
      rw [← layerRole_hidden hlt] at ht'
      exact ⟨⟨layer,o,i⟩,⟨s',hs',ho,hi⟩,(weightPlace hs' ht').symm⟩
    · refine ⟨⟨m.source.hiddenLayerCount,0,i⟩,⟨s,hs,?_,hi⟩,?_⟩
      · rw [hold.outputWidth hs]
        exact Nat.one_pos
      · rw [weightPlace hs ht,inputRole_output hold]
  · rintro ⟨⟨layer,o,i⟩,⟨s',hs',ho,hi⟩,rfl⟩
    rcases (hold.layer_le hs').lt_or_eq with hlt | rfl
    · obtain ⟨t',ht'⟩ := hnew.exists_shape (hlt.le.trans hm.layers)
      refine .inl ⟨layer,s',t',⟨hlt,hs',ht'⟩,?_⟩
      rw [mem_hiddenWeightPlaces (hfirst hs')]
      rw [← layerRole_hidden hlt] at ht'
      exact ⟨o,i,ho,hi,weightPlace hs' ht'⟩
    · obtain rfl := Option.some.inj (hs.symm.trans hs')
      rw [hold.outputWidth hs] at ho
      obtain rfl : o = 0 := Nat.lt_one_iff.mp ho
      refine .inr ⟨i,hi,?_⟩
      rw [weightPlace hs ht,inputRole_output hold]

theorem mem_biasPlaces (hold : Layout.Of m.source old) (hnew : Layout.Of m.target new)
    (hm : m.Grows) {p : ℕ×ℕ} : p ∈ biasPlaces m old new ↔
      ∃ b, old.HasBias b ∧ p = (new.biasAt (m.biasRole b),old.biasAt b) := by
  obtain ⟨s,hs⟩ := hold.exists_shape le_rfl
  obtain ⟨t,ht⟩ := hnew.exists_shape le_rfl
  rw [biasPlaces,getLast?_layers hold,getLast?_layers hnew,hs,ht,List.mem_append]
  simp only [List.mem_flatMap,Prod.exists,mem_hiddenPairs,hiddenBiasPlaces,List.mem_map,
    List.mem_range,List.mem_singleton]
  rw [← layerRole_output] at ht
  constructor
  · rintro (⟨layer,s',t',⟨hlt,hs',ht'⟩,o,ho,rfl⟩ | rfl)
    · rw [← layerRole_hidden hlt] at ht'
      exact ⟨⟨layer,o⟩,⟨s',hs',ho⟩,(biasPlace hs' ht').symm⟩
    · refine ⟨⟨m.source.hiddenLayerCount,0⟩,⟨s,hs,?_⟩,(biasPlace hs ht).symm⟩
      rw [hold.outputWidth hs]
      exact Nat.one_pos
  · rintro ⟨⟨layer,o⟩,⟨s',hs',ho⟩,rfl⟩
    rcases (hold.layer_le hs').lt_or_eq with hlt | rfl
    · obtain ⟨t',ht'⟩ := hnew.exists_shape (hlt.le.trans hm.layers)
      refine .inl ⟨layer,s',t',⟨hlt,hs',ht'⟩,o,ho,?_⟩
      rw [← layerRole_hidden hlt] at ht'
      exact (biasPlace hs' ht').symm
    · obtain rfl := Option.some.inj (hs.symm.trans hs')
      rw [hold.outputWidth hs] at ho
      obtain rfl : o = 0 := Nat.lt_one_iff.mp ho
      exact .inr (biasPlace hs ht)

end Copies

theorem copyAt_concat (target source : List Float32) (places : List (ℕ×ℕ)) (p : ℕ×ℕ) :
    copyAt target source (places++[p]) =
      (copyAt target source places).set p.1 (source.getD p.2 0) := by
  simp [copyAt]

@[simp] theorem copyAt_length (target source : List Float32) (places : List (ℕ×ℕ)) :
    (copyAt target source places).length = target.length := by
  induction places using List.reverseRecOn with
  | nil => rfl
  | append_singleton ps p ih => rw [copyAt_concat,List.length_set,ih]

/-- What is copied is read at its place, where no other copy goes to the same place. -/
theorem copyAt_copied {target source : List Float32} {places : List (ℕ×ℕ)} {p : ℕ×ℕ}
    (hone : ∀ q ∈ places, q.1 = p.1 → q = p) (hp : p ∈ places) (hlt : p.1 < target.length) :
    (copyAt target source places)[p.1]? = some (source.getD p.2 0) := by
  induction places using List.reverseRecOn with
  | nil => cases hp
  | append_singleton ps q ih =>
      rw [copyAt_concat]
      by_cases hq : q.1 = p.1
      · obtain rfl := hone q (by simp) hq
        rw [List.getElem?_set_self (by rwa [copyAt_length])]
      · rw [List.getElem?_set_ne hq]
        refine ih (fun x hx => hone x (by simp [hx])) ?_
        rcases List.mem_append.mp hp with h | h
        · exact h
        · obtain rfl := List.mem_singleton.mp h
          exact absurd rfl hq

theorem copyAt_other {target source : List Float32} {places : List (ℕ×ℕ)} {k : ℕ}
    (hk : ∀ q ∈ places, q.1 ≠ k) : (copyAt target source places)[k]? = target[k]? := by
  induction places using List.reverseRecOn with
  | nil => rfl
  | append_singleton ps q ih =>
      rw [copyAt_concat,List.getElem?_set_ne (hk q (by simp))]
      exact ih fun x hx => hk x (by simp [hx])

end Atperson.Core
