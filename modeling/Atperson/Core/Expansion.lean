import Atperson.Core.Roles
import Atperson.Core.Observe

/-!
# What an expansion keeps

A graph whose arrays have the sizes of its topology, as every graph made, taught or expanded
has, comes out of an expansion with every parameter at the place of its role. What is new is
drawn from a stream that the seed and the version of the migration determine, or is zero.
Nothing else changes but the topology and its history, and a refused expansion changes
nothing.
-/
namespace Atperson.Core
open Ledger (Status)

/-! ## The stream -/

def rngStep (state : UInt64) : UInt64 := (rngSigned state).1

/-- The number drawn after so many others. -/
def drawAt (state : UInt64) (k : ℕ) : Float32 := (rngSigned (rngStep^[k] state)).2

theorem rngDraws_state (scale : Float32) (n : ℕ) (state : UInt64) :
    (rngDraws scale n state).1 = rngStep^[n] state := by
  induction n generalizing state with
  | zero => rfl
  | succ n ih => exact ih (rngStep state)

@[simp] theorem rngDraws_length (scale : Float32) (n : ℕ) (state : UInt64) :
    (rngDraws scale n state).2.length = n := by
  induction n generalizing state with
  | zero => rfl
  | succ n ih => exact congrArg (·+1) (ih (rngStep state))

theorem rngDraws_at (scale : Float32) {n k : ℕ} (state : UInt64) (hk : k < n) :
    (rngDraws scale n state).2[k]? = some (drawAt state k*scale) := by
  induction n generalizing k state with
  | zero => exact absurd hk (Nat.not_lt_zero k)
  | succ n ih =>
      cases k with
      | zero => rfl
      | succ k => exact ih (rngStep state) (Nat.lt_of_succ_lt_succ hk)

theorem drawAt_step (state : UInt64) (n k : ℕ) :
    drawAt (rngStep^[n] state) k = drawAt state (n+k) := by
  rw [drawAt,drawAt,← Function.iterate_add_apply,Nat.add_comm k n]

/-- The stream of a migration, by its seed and version. -/
def expansionDraw (seed : UInt64) (version : UInt32) (k : ℕ) : Float32 :=
  let state := (seed^^^0x4D49475241544531)^^^(version.toUInt64*0x9E3779B97F4A7C15)
  drawAt (if state = 0 then 0xA7C15D1CEB00B135 else state) k

theorem expansionDraw_eq (m : Migration) (k : ℕ) :
    expansionDraw m.seed m.version k = drawAt m.rngState k := rfl

/-! ## Graphs that fit their topology -/

/-- The arrays have the sizes the topology asks for. -/
structure Graph.Fitted (g : Graph) : Prop where
  layout : layoutBuild g.neuralArchitecture = some g.network.layout
  weights : g.network.weights.length = g.network.layout.weightCount
  biases : g.network.biases.length = g.network.layout.biasCount
  weightImportance : g.network.weightImportance.length = g.network.layout.weightCount
  biasImportance : g.network.biasImportance.length = g.network.layout.biasCount
  nodes : ∀ n ∈ g.nodes, n.embedding.length = g.neuralArchitecture.embeddingDim ∧
    n.embeddingImportance.length = g.neuralArchitecture.embeddingDim

/-! ## The expansion -/

/-- `atp_graph_expand_neural`, where an allocation may fail: all of them come ahead of the
commit. -/
def Graph.expandNeuralIn (allocated : Bool) (g : Graph) (m : Migration) : Graph×Status :=
  if (g.expandNeural m).2 = .ok ∧ ¬allocated then (g,.outOfMemory) else g.expandNeural m

/-- What becomes of a graph that is expanded. -/
structure Expansion (m : Migration) (g g' : Graph) : Prop where
  fitted : g'.Fitted
  weights : ∀ r, g.network.layout.HasWeight r → ∃ value importance,
    g.network.weights[g.network.layout.weightAt r]? = some value ∧
    g.network.weightImportance[g.network.layout.weightAt r]? = some importance ∧
    g'.network.weights[g'.network.layout.weightAt (m.weightRole r)]? = some value ∧
    g'.network.weightImportance[g'.network.layout.weightAt (m.weightRole r)]? = some importance
  biases : ∀ b, g.network.layout.HasBias b → ∃ value importance,
    g.network.biases[g.network.layout.biasAt b]? = some value ∧
    g.network.biasImportance[g.network.layout.biasAt b]? = some importance ∧
    g'.network.biases[g'.network.layout.biasAt (m.biasRole b)]? = some value ∧
    g'.network.biasImportance[g'.network.layout.biasAt (m.biasRole b)]? = some importance
  everyWeight : ∀ k < g.network.weights.length,
    ∃ r, g.network.layout.HasWeight r ∧ g.network.layout.weightAt r = k
  everyBias : ∀ k < g.network.biases.length,
    ∃ b, g.network.layout.HasBias b ∧ g.network.layout.biasAt b = k
  apart : ∀ r r', g.network.layout.HasWeight r → g.network.layout.HasWeight r' →
    g'.network.layout.weightAt (m.weightRole r) = g'.network.layout.weightAt (m.weightRole r') →
    r = r'
  biasesApart : ∀ b b', g.network.layout.HasBias b → g.network.layout.HasBias b' →
    g'.network.layout.biasAt (m.biasRole b) = g'.network.layout.biasAt (m.biasRole b') → b = b'
  newWeights : ∀ k < g'.network.weights.length,
    (∀ r, g.network.layout.HasWeight r → g'.network.layout.weightAt (m.weightRole r) ≠ k) →
    g'.network.weights[k]? = some (expansionDraw m.seed m.version k*0.12) ∧
      g'.network.weightImportance[k]? = some 0
  newBiases : ∀ k < g'.network.biases.length,
    (∀ b, g.network.layout.HasBias b → g'.network.layout.biasAt (m.biasRole b) ≠ k) →
    g'.network.biases[k]? = some 0 ∧ g'.network.biasImportance[k]? = some 0
  nodeCount : g'.nodes.length = g.nodes.length
  node : ∀ (i : ℕ) (n : Node), g.nodes[i]? = some n → ∃ n', g'.nodes[i]? = some n' ∧
    n'.token = n.token ∧ n'.observations = n.observations ∧ n'.familiarity = n.familiarity ∧
    (∀ d < m.source.embeddingDim, n'.embedding[d]? = n.embedding[d]? ∧
      n'.embeddingImportance[d]? = n.embeddingImportance[d]?) ∧
    ∀ d, m.source.embeddingDim ≤ d → d < m.target.embeddingDim →
      n'.embedding[d]? = some (expansionDraw m.seed m.version (g'.network.weights.length+
        (i*(m.target.embeddingDim-m.source.embeddingDim)+(d-m.source.embeddingDim)))*0.05) ∧
      n'.embeddingImportance[d]? = some 0
  topology : g'.neuralArchitecture = m.target
  history : g'.neuralMigrations = g.neuralMigrations++[m]
  rest : {g' with
    network := g.network
    nodes := g.nodes
    neuralArchitecture := g.neuralArchitecture
    neuralMigrations := g.neuralMigrations} = g

/-! ## Nodes -/

/-- A node with its vectors grown. -/
theorem expandNodes_at (source target : ℕ) (rng : UInt64) {nodes : List Node} {i : ℕ} {n : Node}
    (h : nodes[i]? = some n) : (expandNodes source target rng nodes)[i]? = some {n with
      embedding := n.embedding.take source++
        (rngDraws 0.05 (target-source) (rngStep^[i*(target-source)] rng)).2
      embeddingImportance :=
        n.embeddingImportance.take source++List.replicate (target-source) 0} := by
  induction nodes generalizing rng i with
  | nil => cases h
  | cons x rest ih =>
      unfold expandNodes
      cases i with
      | zero =>
          obtain rfl := Option.some.inj h
          rw [Nat.zero_mul]
          rfl
      | succ i =>
          rw [List.getElem?_cons_succ,ih _ h,rngDraws_state,← Function.iterate_add_apply,
            Nat.succ_mul]

theorem expandNodes_length (source target : ℕ) (rng : UInt64) (nodes : List Node) :
    (expandNodes source target rng nodes).length = nodes.length := by
  induction nodes generalizing rng with
  | nil => rfl
  | cons x rest ih => rw [expandNodes,List.length_cons,List.length_cons,ih]

section Expand
variable {g g' : Graph} {m : Migration}

/-- An expansion that succeeds. -/
theorem expandNeural_ok (h : g.expandNeural m = (g',.ok)) : m.valid = true ∧
    g.neuralArchitecture = m.source ∧ ∃ layout, layoutBuild m.target = some layout ∧ g' = {g with
      network := (expandNetwork m g.network layout).2
      nodes := expandNodes m.source.embeddingDim m.target.embeddingDim
        (expandNetwork m g.network layout).1 g.nodes
      neuralArchitecture := m.target
      neuralMigrations := g.neuralMigrations++[m]} := by
  unfold Graph.expandNeural at h
  split at h
  · cases h
  · rename_i hpass
    split at h
    · cases h
    · rename_i layout hlayout
      cases h
      simp only [not_or,not_not] at hpass
      exact ⟨hpass.1,hpass.2.1,layout,hlayout,rfl⟩

/-- One that does not leaves the graph as it was. -/
theorem expandNeural_failed {status : Status} (h : g.expandNeural m = (g',status))
    (hne : status ≠ .ok) : g' = g := by
  unfold Graph.expandNeural at h
  split at h
  · cases h
    rfl
  · split at h
    · cases h
      rfl
    · cases h
      exact absurd rfl hne

section Arrays
variable {old new : Layout} {olds base : List Float32} {r : WeightRole} {b : BiasRole} {k : ℕ}

theorem weight_copied (hold : Layout.Of m.source old) (hnew : Layout.Of m.target new)
    (hm : m.Grows) (hbase : base.length = new.weightCount) (hr : old.HasWeight r) :
    (copyAt base olds (weightPlaces m old new))[new.weightAt (m.weightRole r)]? =
      some (olds.getD (old.weightAt r) 0) := by
  have hr' := hm.hasWeight hold hnew hr
  refine @copyAt_copied base olds _ (new.weightAt (m.weightRole r),old.weightAt r)
    (fun q hq hat => ?_) ((mem_weightPlaces hold hnew hm).mpr ⟨r,hr,rfl⟩)
    (hbase ▸ hnew.compact.weightAt_lt hr')
  obtain ⟨x,hx,rfl⟩ := (mem_weightPlaces hold hnew hm).mp hq
  have hrole := hnew.compact.weightAt_inj (hm.hasWeight hold hnew hx) hr' hat
  rw [hm.weightRole_inj hold hx hr hrole]

theorem weight_drawn (hold : Layout.Of m.source old) (hnew : Layout.Of m.target new)
    (hm : m.Grows) (hk : ∀ r, old.HasWeight r → new.weightAt (m.weightRole r) ≠ k) :
    (copyAt base olds (weightPlaces m old new))[k]? = base[k]? := by
  refine copyAt_other fun q hq => ?_
  obtain ⟨r,hr,rfl⟩ := (mem_weightPlaces hold hnew hm).mp hq
  exact hk r hr

theorem bias_copied (hold : Layout.Of m.source old) (hnew : Layout.Of m.target new)
    (hm : m.Grows) (hbase : base.length = new.biasCount) (hb : old.HasBias b) :
    (copyAt base olds (biasPlaces m old new))[new.biasAt (m.biasRole b)]? =
      some (olds.getD (old.biasAt b) 0) := by
  have hb' := hm.hasBias hold hnew hb
  refine @copyAt_copied base olds _ (new.biasAt (m.biasRole b),old.biasAt b)
    (fun q hq hat => ?_) ((mem_biasPlaces hold hnew hm).mpr ⟨b,hb,rfl⟩)
    (hbase ▸ hnew.compact.biasAt_lt hb')
  obtain ⟨x,hx,rfl⟩ := (mem_biasPlaces hold hnew hm).mp hq
  have hrole := hnew.compact.biasAt_inj (hm.hasBias hold hnew hx) hb' hat
  rw [hm.biasRole_inj hold hx hb hrole]

theorem bias_zero (hold : Layout.Of m.source old) (hnew : Layout.Of m.target new)
    (hm : m.Grows) (hk : ∀ b, old.HasBias b → new.biasAt (m.biasRole b) ≠ k) :
    (copyAt base olds (biasPlaces m old new))[k]? = base[k]? := by
  refine copyAt_other fun q hq => ?_
  obtain ⟨b,hb,rfl⟩ := (mem_biasPlaces hold hnew hm).mp hq
  exact hk b hb

theorem getElem?_of_getD {as : List Float32} (hk : k < as.length) :
    as[k]? = some (as.getD k 0) := by
  rw [List.getD_eq_getElem?_getD,List.getElem?_eq_getElem hk,Option.getD_some]

end Arrays

/-- The vectors of a node, old coordinates first. -/
theorem grown_vector {old drawn : List Float32} {source d : ℕ} (hlen : old.length = source) :
    (d < source → (old.take source++drawn)[d]? = old[d]?) ∧
      (source ≤ d → (old.take source++drawn)[d]? = drawn[d-source]?) := by
  rw [List.take_of_length_le hlen.le]
  refine ⟨fun hd => List.getElem?_append_left (hlen ▸ hd),fun hd => ?_⟩
  rw [List.getElem?_append_right (hlen ▸ hd),hlen]

/-- The vectors are drawn behind the weights. -/
theorem grown_entry (m : Migration) (net : Network) (layout : Layout) (k : ℕ) {n j : ℕ}
    (hj : j < n) :
    (rngDraws 0.05 n (rngStep^[k] (expandNetwork m net layout).1)).2[j]? =
      some (expansionDraw m.seed m.version (layout.weightCount+(k+j))*0.05) := by
  have hstate : (expandNetwork m net layout).1 = rngStep^[layout.weightCount] m.rngState :=
    rngDraws_state _ _ _
  rw [rngDraws_at _ _ hj,drawAt_step,hstate,drawAt_step,expansionDraw_eq]

theorem grown_lengths {source target : ℕ} (hle : source ≤ target) {rng : UInt64}
    {nodes : List Node} (hnodes : ∀ n ∈ nodes, n.embedding.length = source ∧
      n.embeddingImportance.length = source) {n' : Node}
    (h : n' ∈ expandNodes source target rng nodes) :
    n'.embedding.length = target ∧ n'.embeddingImportance.length = target := by
  obtain ⟨i,hi⟩ := List.mem_iff_getElem?.mp h
  obtain ⟨hlt,-⟩ := List.getElem?_eq_some_iff.mp hi
  rw [expandNodes_length] at hlt
  obtain ⟨hembedding,himportance⟩ := hnodes _ (List.getElem_mem hlt)
  rw [expandNodes_at source target rng (List.getElem?_eq_getElem hlt)] at hi
  obtain rfl := Option.some.inj hi
  refine ⟨?_,?_⟩
  · rw [List.length_append,rngDraws_length,List.take_of_length_le hembedding.le,hembedding]
    exact Nat.add_sub_cancel' hle
  · rw [List.length_append,List.length_replicate,List.take_of_length_le himportance.le,himportance]
    exact Nat.add_sub_cancel' hle

theorem Graph.Fitted.expansion (hg : g.Fitted) (h : g.expandNeural m = (g',.ok)) :
    Expansion m g g' := by
  obtain ⟨hvalid,hsource,layout,hlayout,rfl⟩ := expandNeural_ok h
  have hm := Migration.grows hvalid
  have hold : Layout.Of m.source g.network.layout := layoutBuild_of (hsource ▸ hg.layout)
  have hnew := layoutBuild_of hlayout
  have hnodes : ∀ n ∈ g.nodes, n.embedding.length = m.source.embeddingDim ∧
      n.embeddingImportance.length = m.source.embeddingDim := hsource ▸ hg.nodes
  have hzeros : ∀ n k : ℕ, k < n → (List.replicate n (0 : Float32))[k]? = some 0 :=
    fun n k hk => List.getElem?_replicate_of_lt hk
  have hweightCount : (rngDraws 0.12 layout.weightCount m.rngState).2.length =
      layout.weightCount := rngDraws_length _ _ _
  have hcount : (expandNetwork m g.network layout).2.weights.length = layout.weightCount := by
    rw [expandNetwork,copyAt_length,hweightCount]
  have hbiasCount : (expandNetwork m g.network layout).2.biases.length = layout.biasCount :=
    (copyAt_length _ _ _).trans List.length_replicate
  refine ⟨⟨hlayout,hcount,hbiasCount,?_,?_,?_⟩,?_,?_,?_,?_,?_,?_,?_,?_,?_,?_,rfl,rfl,rfl⟩
  · exact (copyAt_length _ _ _).trans List.length_replicate
  · exact (copyAt_length _ _ _).trans List.length_replicate
  · intro n hn
    exact grown_lengths hm.embedding hnodes hn
  · intro r hr
    have hlt := hold.compact.weightAt_lt hr
    exact ⟨_,_,getElem?_of_getD (hg.weights ▸ hlt),getElem?_of_getD (hg.weightImportance ▸ hlt),
      weight_copied hold hnew hm hweightCount hr,
      weight_copied hold hnew hm List.length_replicate hr⟩
  · intro b hb
    have hlt := hold.compact.biasAt_lt hb
    exact ⟨_,_,getElem?_of_getD (hg.biases ▸ hlt),getElem?_of_getD (hg.biasImportance ▸ hlt),
      bias_copied hold hnew hm List.length_replicate hb,
      bias_copied hold hnew hm List.length_replicate hb⟩
  · exact fun k hk => hold.compact.exists_weightAt (hg.weights ▸ hk)
  · exact fun k hk => hold.compact.exists_biasAt (hg.biases ▸ hk)
  · intro r r' hr hr' heq
    exact hm.weightRole_inj hold hr hr' (hnew.compact.weightAt_inj (hm.hasWeight hold hnew hr)
      (hm.hasWeight hold hnew hr') heq)
  · intro b b' hb hb' heq
    exact hm.biasRole_inj hold hb hb' (hnew.compact.biasAt_inj (hm.hasBias hold hnew hb)
      (hm.hasBias hold hnew hb') heq)
  · intro k hk hother
    have hlt : k < layout.weightCount := hcount ▸ hk
    refine ⟨?_,?_⟩
    · rw [expansionDraw_eq,← rngDraws_at 0.12 m.rngState hlt]
      exact weight_drawn hold hnew hm hother
    · exact (weight_drawn hold hnew hm hother).trans (hzeros _ k hlt)
  · intro k hk hother
    have hlt : k < layout.biasCount := hbiasCount ▸ hk
    exact ⟨(bias_zero hold hnew hm hother).trans (hzeros _ k hlt),
      (bias_zero hold hnew hm hother).trans (hzeros _ k hlt)⟩
  · exact expandNodes_length _ _ _ _
  · intro i n hn
    obtain ⟨hembedding,himportance⟩ := hnodes n (List.mem_of_getElem? hn)
    refine ⟨_,expandNodes_at _ _ _ hn,rfl,rfl,rfl,fun d hd => ?_,fun d hd hd' => ?_⟩
    · exact ⟨(grown_vector hembedding).1 hd,(grown_vector himportance).1 hd⟩
    · have hlt : d-m.source.embeddingDim < m.target.embeddingDim-m.source.embeddingDim := by omega
      refine ⟨?_,?_⟩
      · have hdrawn := grown_entry m g.network layout
          (i*(m.target.embeddingDim-m.source.embeddingDim)) hlt
        rw [← hcount] at hdrawn
        exact ((grown_vector hembedding).2 hd).trans hdrawn
      · exact ((grown_vector himportance).2 hd).trans (hzeros _ _ hlt)

/-! ## Every graph fits -/

theorem setAll_length (values : List Float32) (updates : List (ℕ×Float32)) :
    (setAll values updates).length = values.length := by
  unfold setAll
  induction updates generalizing values with
  | nil => rfl
  | cons u rest ih => rw [List.foldl_cons,ih,List.length_set]

theorem networkInit_sizes {a : Architecture} {rng rng' : UInt64} {net : Network}
    (h : networkInit a rng = some (rng',net)) : layoutBuild a = some net.layout ∧
      net.weights.length = net.layout.weightCount ∧ net.biases.length = net.layout.biasCount ∧
      net.weightImportance.length = net.layout.weightCount ∧
      net.biasImportance.length = net.layout.biasCount := by
  unfold networkInit at h
  cases hl : layoutBuild a with
  | none =>
      rw [hl] at h
      cases h
  | some layout =>
      rw [hl] at h
      cases h
      exact ⟨rfl,(setAll_length _ _).trans List.length_replicate,List.length_replicate,
        List.length_replicate,List.length_replicate⟩

/-- A graph that is made fits its topology. -/
theorem fitted_created {config : GraphConfig} {a : Architecture}
    (h : createWithArchitecture config a = some g) : g.Fitted := by
  obtain ⟨⟨rng,net⟩,hinit,rfl⟩ := Option.map_eq_some_iff.mp h
  obtain ⟨hlayout,hweights,hbiases,hweightImportance,hbiasImportance⟩ := networkInit_sizes hinit
  exact ⟨hlayout,hweights,hbiases,hweightImportance,hbiasImportance,nofun⟩

end Expand

/-- The sizes of the arrays. -/
def Graph.frame (g : Graph) : Architecture×(Layout×ℕ×ℕ×ℕ×ℕ)×List (ℕ×ℕ) :=
  (g.neuralArchitecture,g.network.frame,
    g.nodes.map fun n => (n.embedding.length,n.embeddingImportance.length))

namespace Graph
variable {g g' : Graph}

theorem Fitted.of_frame (h : g.Fitted) (hf : g'.frame = g.frame) : g'.Fitted := by
  simp only [frame,Network.frame,Prod.mk.injEq] at hf
  obtain ⟨harch,⟨hlayout,hweights,hbiases,hweightImportance,hbiasImportance⟩,hnodes⟩ := hf
  refine ⟨?_,?_,?_,?_,?_,fun n hn => ?_⟩
  · rw [harch,hlayout]
    exact h.layout
  · rw [hweights,hlayout]
    exact h.weights
  · rw [hbiases,hlayout]
    exact h.biases
  · rw [hweightImportance,hlayout]
    exact h.weightImportance
  · rw [hbiasImportance,hlayout]
    exact h.biasImportance
  · have hmem := List.mem_map_of_mem (f := fun n : Node =>
      (n.embedding.length,n.embeddingImportance.length)) hn
    rw [hnodes] at hmem
    obtain ⟨x,hx,hsame⟩ := List.mem_map.mp hmem
    obtain ⟨hembedding,himportance⟩ := Prod.mk.inj hsame
    rw [harch,← hembedding,← himportance]
    exact h.nodes x hx

theorem frame_trainOn (g : Graph) (source target : ℕ) (expected : Float32) :
    (g.trainOn source target expected).frame = g.frame := by
  have h := trainPair_reframes g.config.tuning g.neuralArchitecture.embeddingDim g.network
    g.nodes source target expected
  have hnodes := congrArg (List.map fun f => f.2.2.2) h.nodes
  rw [List.map_map,List.map_map] at hnodes
  have hsizes : (fun f : Token×UInt64×Float32×ℕ×ℕ => f.2.2.2) ∘ Node.frame =
      fun n => (n.embedding.length,n.embeddingImportance.length) := rfl
  rw [hsizes] at hnodes
  rw [frame,frame,Prod.mk.injEq,Prod.mk.injEq]
  exact ⟨rfl,h.network,hnodes⟩

theorem frame_rng (g : Graph) (rng : UInt64) : {g with rngState := rng}.frame = g.frame := rfl

theorem frame_trainNegative (g : Graph) (source target : ℕ) :
    (g.trainNegative source target).frame = g.frame := by
  unfold trainNegative
  generalize drawNegative g.nodes.length source target 8 g.rngState 0 = drawn
  split
  · simp only
    split
    · rw [frame_trainOn,frame_rng]
    · rw [frame_rng]
  · rfl

theorem frame_learnPair (g : Graph) (edge source target : ℕ) (sourceHash : UInt64) :
    (g.learnPair edge source target sourceHash).frame = g.frame := by
  have hstrengthen : ∀ g : Graph, (g.strengthen edge source target sourceHash).frame = g.frame :=
    fun _ => rfl
  rw [learnPair,hstrengthen,frame_trainNegative,frame_trainOn]

theorem frame_observePair (g : Graph) (source target : ℕ) (sourceHash : UInt64) :
    (g.observePair source target sourceHash).1.frame = g.frame := by
  unfold observePair
  split
  · rfl
  · split
    · exact frame_learnPair _ _ _ _ _
    · split
      · rfl
      · exact frame_learnPair _ _ _ _ _

theorem Fitted.internNode (h : g.Fitted) (token : Token) : (g.internNode token).1.Fitted := by
  unfold Graph.internNode
  split
  · refine h.of_frame ?_
    refine congrArg (fun nodes => (g.neuralArchitecture,g.network.frame,nodes)) ?_
    unfold exposeNode
    exact map_modify_same (fun _ => by simp) _ _
  · split
    · exact h.of_frame rfl
    · split
      · exact h
      · refine ⟨h.layout,h.weights,h.biases,h.weightImportance,h.biasImportance,fun n hn => ?_⟩
        rcases List.mem_append.mp hn with hn | hn
        · exact h.nodes n hn
        · obtain rfl := List.mem_singleton.mp hn
          exact ⟨rngDraws_length _ _ _,List.length_replicate⟩

theorem Fitted.observeEmit {w : ObserveWalk} (h : w.graph.Fitted) (hash : UInt64)
    (token : Token) : (Core.observeEmit hash w token).1.graph.Fitted := by
  have hintern := h.internNode token
  unfold Core.observeEmit
  generalize w.graph.internNode token = interned at hintern
  rcases interned with ⟨g,status | current⟩
  · exact hintern
  · have hcounted : Fitted {g with tokenObservations := g.tokenObservations+1} :=
      hintern.of_frame rfl
    cases w.previous with
    | none => exact hcounted
    | some previous =>
        have hpair := hcounted.of_frame (frame_observePair _ previous current hash)
        simp only
        generalize Graph.observePair {g with tokenObservations := g.tokenObservations+1} previous
          current hash = paired at hpair
        rcases paired with ⟨g',status⟩
        cases status <;> exact hpair

theorem Fitted.memoryWalk (hash : UInt64) {w : MemoryWalk} (h : w.base.graph.Fitted)
    (tokens : List Token) : (emitAll (memoryEmit hash) w tokens).base.graph.Fitted := by
  have hemit : ∀ (w : MemoryWalk) (token : Token), w.base.graph.Fitted →
      (memoryEmit hash w token).1.base.graph.Fitted := fun w token h => by
    have hobserved := h.observeEmit hash token
    unfold memoryEmit
    generalize Core.observeEmit hash w.base token = emitted at hobserved
    rcases emitted with ⟨base,_ | _⟩ <;> exact hobserved
  induction tokens generalizing w with
  | nil => exact h
  | cons token rest ih =>
      unfold emitAll
      split
      · exact ih (hemit w token h)
      · exact hemit w token h

/-- However an observation ends, the graph fits. -/
theorem Fitted.observed (h : g.Fitted) (U : Utf8proc) (env : IndexEnv) (text : Text)
    (p : Provenance) : (observeWithMemory U env g text p).1.Fitted := by
  unfold observeWithMemory
  have hwalk := Fitted.memoryWalk (hashSource p.sourceId.bytes) (w := ⟨.start g,[]⟩) h
    (tokenize U p.schemaVersion text)
  generalize emitAll (memoryEmit (hashSource p.sourceId.bytes)) ⟨.start g,[]⟩
    (tokenize U p.schemaVersion text) = w at hwalk
  split
  · exact h.of_frame rfl
  · simp only
    split
    · exact hwalk
    · have hcount : (w.base.graph.countObservation w.base.sawToken).Fitted := by
        refine hwalk.of_frame ?_
        unfold countObservation
        split <;> rfl
      split
      · exact hcount
      · refine hcount.of_frame ?_
        unfold rememberEpisode appendEpisode makeRoom
        split <;> split <;> rfl

/-- An expansion that succeeds leaves a graph that fits, and a refused one the graph it was. -/
theorem Fitted.expanded (h : g.Fitted) (m : Migration) : (g.expandNeural m).1.Fitted := by
  rcases hexpand : g.expandNeural m with ⟨g',status⟩
  by_cases hok : status = .ok
  · subst hok
    exact (h.expansion hexpand).fitted
  · rw [expandNeural_failed hexpand hok]
    exact h

end Graph

/-- An expansion that succeeds keeps every parameter by its role and draws the others; one
that fails, for whatever reason, leaves the graph alone. -/
theorem expansion_by_role {g : Graph} (hg : g.Fitted) (allocated : Bool) (m : Migration) :
    (∀ g', g.expandNeuralIn allocated m = (g',.ok) → Expansion m g g') ∧
      ∀ g' status, g.expandNeuralIn allocated m = (g',status) → status ≠ .ok → g' = g := by
  unfold Graph.expandNeuralIn
  refine ⟨fun g' h => ?_,fun g' status h hne => ?_⟩
  · split at h
    · cases h
    · exact hg.expansion h
  · split at h
    · exact (congrArg Prod.fst h).symm
    · exact expandNeural_failed h hne

namespace Sample

def shallow : Architecture := ⟨1,1,2,1,#v[1,0,0,0],1⟩

def deeper : Architecture := ⟨1,2,4,2,#v[2,1,0,0],1⟩

def deepening : Migration := ⟨1,7,0,shallow,deeper⟩

/-- A node, and a network of three weights and two biases. -/
def taught : Graph :=
  {Graph.fresh .default shallow 1
    ⟨⟨layoutLayers 2 0 0 [1,1],3,2⟩,[0.5,0.25,1],[0.5,2],[1,1,1],[1,1]⟩ with
    nodes := [⟨Wire.CText.truncate (Wire.CString.ofRaw [97]),1,1,[0.5],[1]⟩]}

theorem taught_fitted : taught.Fitted where
  layout := by decide +kernel
  weights := rfl
  biases := rfl
  weightImportance := rfl
  biasImportance := rfl
  nodes := by
    intro n hn
    obtain rfl := List.mem_singleton.mp hn
    exact ⟨rfl,rfl⟩

/-- Wider embeddings, a wider hidden layer and another one behind it. -/
theorem expansion_by_role_deepens :
    Expansion deepening taught (taught.expandNeuralIn true deepening).1 := by
  have hok : (taught.expandNeuralIn true deepening).2 = .ok := by decide +kernel
  exact (expansion_by_role taught_fitted true deepening).1 _ (Prod.ext rfl hok)

end Sample

end Atperson.Core
