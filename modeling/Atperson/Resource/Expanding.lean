import Atperson.Core.Expansion
import Atperson.Resource.Ceilings

/-!
# Planned expansions

What a network and its graph take up, whether a larger network is to be had, and the command that
expands the persisted one. The plan says that an expansion is available just where the core takes
it, and a graph that grows to its ceilings takes up no more than its growth budget.
-/
namespace Atperson.Resource
open Runs Wire
open Atperson.Core (Architecture Expansion Graph Migration layoutBuild)
open Ledger (Status)

/-! ## Footprints -/

def saturatingMulU64 (a b : ℕ) : ℕ :=
  if a = 0 ∨ b = 0 then 0 else if wordMax/b < a then wordMax else a*b

def saturatingAddU64 (a b : ℕ) : ℕ := if wordMax-a < b then wordMax else a+b

/-- `atp_neural_parameter_count`, as a caller sees it. -/
def parameterCountOf (a : Architecture) : ℕ := (Core.neuralParameterCount a).toOption.getD 0

/-- `neural_memory_footprint`. -/
def neuralMemoryFootprint (a : Architecture) (nodeCount edgeCount : ℕ) : ℕ :=
  if parameterCountOf a = 0 then 0
  else
    let activations := a.activeWidths.foldl saturatingAddU64 (a.inputDim+a.outputDim)
    let network := saturatingAddU64 (saturatingMulU64 (parameterCountOf a) 8)
      (saturatingMulU64 activations 8)
    let nodeBytes := if Core.embeddingDim < a.embeddingDim then
        saturatingAddU64 256 (saturatingMulU64 (a.embeddingDim-Core.embeddingDim) 8)
      else 256
    saturatingAddU64 (saturatingAddU64 network (saturatingMulU64 nodeCount nodeBytes))
      (saturatingMulU64 edgeCount 64)

/-- What is left of the available memory behind the reserve. -/
def availableAfterReserve (system : SystemResources) (budget : ResourceBudget) : ℕ :=
  subtractFloor system.effectiveMemoryAvailableBytes.toNat budget.memoryReserveBytes

/-- `print_hidden`. -/
def hiddenText (a : Architecture) : String := "x".intercalate (a.activeWidths.map toString)

/-- `require_runtime_neural_headroom`. -/
def requireNeuralHeadroom (system : SystemResources) (budget : ResourceBudget) (a : Architecture)
    (nodeCount edgeCount : ℕ) : Except BudgetStop Unit :=
  if system.effectiveMemoryAvailableBytes = 0 then .ok ()
  else if availableAfterReserve system budget < neuralMemoryFootprint a nodeCount edgeCount then
    .error (.thrown ("neural architecture (embedding "++toString a.embeddingDim++", hidden "++
      hiddenText a++") needs ~"++toString (neuralMemoryFootprint a nodeCount edgeCount)++
      " bytes of learned state, exceeding the "++toString (availableAfterReserve system budget)++
      " bytes available after the safety reserve; refusing to load instead of silently shrinking "++
      "a persisted model. Free memory or move this generation to a larger machine; "++
      "ATPERSON_NEURAL_* overrides do not reshape persisted models"))
  else .ok ()

/-- `require_runtime_write_headroom`. -/
def requireWriteHeadroom (budget : ResourceBudget) : Except BudgetStop Unit :=
  if budget.diskPressure then
    .error (.thrown ((if budget.limitingDisk.path = [] then "durable storage"
        else text budget.limitingDisk.path)++
      " is inside atperson's dynamic filesystem safety reserve; refusing durable mutation until "++
      "more space is available or ATPERSON_DISK_RESERVE_BYTES is explicitly adjusted"))
  else .ok ()

/-! ## Plans -/

inductive NeuralExpansionStatus where
  | atRecommendation | available | incompatible
  deriving DecidableEq

structure NeuralExpansionPlan where
  status : NeuralExpansionStatus
  active : Architecture
  proposed : Architecture
  activeParameterCount : ℕ
  proposedParameterCount : ℕ
  activeFootprintBytes : ℕ
  proposedFootprintBytes : ℕ
  additionalFootprintBytes : ℕ
  availableAfterReserveBytes : ℕ
  memoryHeadroomKnown : Bool
  fitsCurrentHeadroom : Bool
  reason : String

def widthAt (a : Architecture) (layer : ℕ) : ℕ := a.hiddenWidths.toList.getD layer 0

/-- The checks of `plan_neural_expansion`, in their order. -/
def expansionVerdict (active proposed : Architecture) (fits : Bool) : NeuralExpansionStatus×String :=
  if proposed.version ≠ active.version ∨ proposed.outputDim ≠ active.outputDim then
    (.incompatible,"architecture version/output contract differs from the active generation")
  else if proposed.embeddingDim < active.embeddingDim then
    (.incompatible,"recommended embedding width is smaller than the active generation")
  else if proposed.hiddenLayerCount < active.hiddenLayerCount then
    (.incompatible,"recommended hidden-layer count is smaller than the active generation")
  else match (List.range active.hiddenLayerCount).find?
      (fun layer => widthAt proposed layer < widthAt active layer) with
  | some layer => (.incompatible,"recommended hidden layer "++toString (layer+1)++
      " is narrower than the active generation")
  | none =>
  if widthAt proposed (proposed.hiddenLayerCount-1) < widthAt active (active.hiddenLayerCount-1) then
    (.incompatible,"recommended final hidden layer is too narrow to preserve all active "++
      "scalar-output weights")
  else if active.embeddingDim < proposed.embeddingDim ∨
      active.hiddenLayerCount < proposed.hiddenLayerCount ∨
      (List.range active.hiddenLayerCount).any
        (fun layer => widthAt active layer < widthAt proposed layer) then
    (.available,if fits then "monotonic expansion candidate is available"
      else "monotonic expansion exists but does not fit current safe memory headroom")
  else (.atRecommendation,"active topology already matches the current recommendation")

/-- `plan_neural_expansion`. -/
def planNeuralExpansion (system : SystemResources) (budget : ResourceBudget) (g : Graph) :
    Except BudgetStop NeuralExpansionPlan := do
  let proposed ← neuralArchitectureOf .wrapping budget.neural
  let active := g.neuralArchitecture
  let activeFootprint := neuralMemoryFootprint active g.nodes.length g.edges.length
  let proposedFootprint := neuralMemoryFootprint proposed g.nodes.length g.edges.length
  let known := decide (system.effectiveMemoryAvailableBytes ≠ 0)
  let available := if known then availableAfterReserve system budget else 0
  let fits := !known || proposedFootprint ≤ available
  return {
    status := (expansionVerdict active proposed fits).1
    active, proposed
    activeParameterCount := parameterCountOf active
    proposedParameterCount := parameterCountOf proposed
    activeFootprintBytes := activeFootprint
    proposedFootprintBytes := proposedFootprint
    additionalFootprintBytes := subtractFloor proposedFootprint activeFootprint
    availableAfterReserveBytes := available
    memoryHeadroomKnown := known
    fitsCurrentHeadroom := fits
    reason := (expansionVerdict active proposed fits).2}

/-! ## The command -/

/-- `migration_seed_mix`. -/
def migrationSeedMix (hash value : UInt64) : UInt64 :=
  ((List.range 8).foldl (fun (hash,value) _ =>
    ((hash^^^(value&&&0xff))*1099511628211,value>>>8)) (hash,value)).1

/-- `mix_architecture`. -/
def mixArchitecture (hash : UInt64) (a : Architecture) : UInt64 :=
  ([a.version.toNat,a.embeddingDim,a.inputDim,a.hiddenLayerCount]++a.hiddenWidths.toList++
    [a.outputDim]).foldl (fun hash n => migrationSeedMix hash (UInt64.ofNat n)) hash

/-- `derive_migration_seed`. -/
def deriveMigrationSeed (g : Graph) (ledgerBoundary : UInt64) (source target : Architecture) :
    UInt64 :=
  let hash := [0x4154504552534f4e,Core.migrationVersion.toUInt64,ledgerBoundary,
    UInt64.ofNat g.neuralMigrations.length,g.observations,g.tokenObservations,
    g.trainingSteps].foldl migrationSeedMix 1469598103934665603
  let hash := mixArchitecture (mixArchitecture hash source) target
  if hash = 0 then 0x6e657572616c7631 else hash

/-- What the command tells. -/
inductive ExpandReply where
  | unchanged (reason : String)
  | migrated (m : Migration)

/-- `atp_status_string`. -/
def atpStatusString : Status → String
  | .ok => "ok"
  | .invalidArgument => "invalid argument"
  | .outOfMemory => "out of memory"
  | .io => "I/O error"
  | .format => "invalid snapshot format"
  | .notFound => "not found"
  | .schema => "learning schema not replayable by this build"
  | .capacity => "configured resource ceiling reached"
  | .migration => "neural migration not permitted"

/-- `atp_graph_stats` of a graph. -/
def countsOf (g : Graph) : GraphCounts := ⟨UInt64.ofNat g.nodes.length,UInt64.ofNat g.edges.length⟩

/-- `refresh_runtime_resources` on a graph. -/
def refreshRuntimeResources (system : SystemResources) (overrides : ResourceOverrides) (g : Graph) :
    Except BudgetStop (ResourceBudget×Graph) := do
  let budget ← deriveResourceBudget .wrapping system (countsOf g) overrides
    (some g.neuralArchitecture)
  return (budget,g.setCapacity budget.nodeCapacityMax budget.edgeCapacityMax)

/-- `run_neural_expand` on the candidate it loaded, and what it saves: the last id of the ledger is
the boundary, and the core's allocations may fail. -/
def runNeuralExpand (system : SystemResources) (overrides : ResourceOverrides) (lastId : UInt64)
    (allocated : Bool) (candidate : Graph) : Except BudgetStop (Option Graph×ExpandReply) := do
  let (budget,candidate) ← refreshRuntimeResources system overrides candidate
  requireWriteHeadroom budget
  let plan ← planNeuralExpansion system budget candidate
  if plan.status = .atRecommendation then return (none,.unchanged plan.reason) else
  if plan.status ≠ .available then
    .error (.thrown ("neural expand refused: "++plan.reason)) else
  if ¬plan.fitsCurrentHeadroom then
    .error (.thrown
      "neural expand refused: proposed topology does not fit current safe memory headroom") else do
  requireNeuralHeadroom system budget plan.proposed candidate.nodes.length candidate.edges.length
  let m : Migration := ⟨Core.migrationVersion,
    deriveMigrationSeed candidate lastId plan.active plan.proposed,lastId,plan.active,plan.proposed⟩
  let (expanded,status) := candidate.expandNeuralIn allocated m
  if status ≠ .ok then
    .error (.thrown ("expand neural architecture: "++atpStatusString status)) else
  if expanded.neuralArchitecture ≠ plan.proposed then
    .error (.thrown "neural expand: core migration completed at an unexpected topology") else do
  requireNeuralHeadroom system budget plan.proposed expanded.nodes.length expanded.edges.length
  requireWriteHeadroom budget
  return (some expanded,.migrated m)

/-! ## Plans and the core -/

section Verdict
variable {a active proposed : Architecture}

theorem laid_accepted (h : (layoutBuild a).isSome) : a.accepted = true := (layoutBuild_isSome.mp h).1

/-- What the descriptor's checks say of its numbers. -/
theorem accepted_numbers (h : a.accepted = true) : a.version = Core.architectureVersion ∧
    a.embeddingDim ≤ Core.widthLimit ∧ 0 < a.hiddenLayerCount ∧
    a.hiddenLayerCount ≤ Core.maxHiddenLayers ∧ a.outputDim = 1 ∧
    a.inputDim = a.embeddingDim*2 ∧
    ∀ w ∈ a.hiddenWidths.toList.drop a.hiddenLayerCount, w = 0 := by
  simp only [Architecture.accepted,Bool.and_eq_true,decide_eq_true_eq,List.all_eq_true] at h
  obtain ⟨⟨⟨⟨⟨⟨⟨⟨hversion,-⟩,hmax⟩,hlayers⟩,hmost⟩,houtput⟩,hinput⟩,-⟩,hidle⟩ := h
  exact ⟨hversion,hmax,Nat.pos_of_ne_zero hlayers,hmost,houtput,hinput,hidle⟩

theorem activeWidths_length (h : a.hiddenLayerCount ≤ Core.maxHiddenLayers) :
    a.activeWidths.length = a.hiddenLayerCount := by
  rw [Architecture.activeWidths,List.length_take,Vector.length_toList]
  omega

theorem activeWidths_at {layer : ℕ} (h : a.hiddenLayerCount ≤ Core.maxHiddenLayers)
    (hlayer : layer < a.hiddenLayerCount) : a.activeWidths[layer]? = some (widthAt a layer) := by
  have hin : layer < a.hiddenWidths.toList.length := by
    rw [Vector.length_toList]
    omega
  rw [Architecture.activeWidths,List.getElem?_take_of_lt hlayer,widthAt,
    List.getD_eq_getElem _ _ hin,List.getElem?_eq_getElem hin]

theorem activeWidths_last (h : a.accepted = true) :
    a.activeWidths.getLastD 0 = widthAt a (a.hiddenLayerCount-1) := by
  obtain ⟨-,-,hpos,hmost,-⟩ := accepted_numbers h
  refine Migration.getLastD_of_length ?_ (activeWidths_at hmost (by omega))
  rw [activeWidths_length hmost]
  omega

/-- Comparing the widths that both have is comparing the first ones of the smaller. -/
theorem zip_widths (hs : active.hiddenLayerCount ≤ Core.maxHiddenLayers)
    (ht : proposed.hiddenLayerCount ≤ Core.maxHiddenLayers)
    (hle : active.hiddenLayerCount ≤ proposed.hiddenLayerCount) (w : ℕ×ℕ) :
    w ∈ active.activeWidths.zip proposed.activeWidths ↔
      ∃ layer < active.hiddenLayerCount, (widthAt active layer,widthAt proposed layer) = w := by
  rw [List.mem_iff_getElem?]
  constructor
  · rintro ⟨layer,hlayer⟩
    obtain ⟨hfirst,hsecond⟩ := List.getElem?_zip_eq_some.mp hlayer
    have hlt : layer < active.hiddenLayerCount := by
      rw [← activeWidths_length hs]
      exact (List.getElem?_eq_some_iff.mp hfirst).1
    rw [activeWidths_at hs hlt] at hfirst
    rw [activeWidths_at ht (by omega)] at hsecond
    exact ⟨layer,hlt,Prod.ext (Option.some.inj hfirst) (Option.some.inj hsecond)⟩
  · rintro ⟨layer,hlt,rfl⟩
    exact ⟨layer,List.getElem?_zip_eq_some.mpr
      ⟨activeWidths_at hs hlt,activeWidths_at ht (by omega)⟩⟩

/-- The proposed topology keeps every coordinate of the active one. -/
structure Covers (active proposed : Architecture) : Prop where
  embedding : active.embeddingDim ≤ proposed.embeddingDim
  layers : active.hiddenLayerCount ≤ proposed.hiddenLayerCount
  widths : ∀ layer < active.hiddenLayerCount, widthAt active layer ≤ widthAt proposed layer
  final : widthAt active (active.hiddenLayerCount-1) ≤ widthAt proposed (proposed.hiddenLayerCount-1)

/-- Some coordinate grows. -/
def Grew (active proposed : Architecture) : Prop :=
  active.embeddingDim < proposed.embeddingDim ∨ active.hiddenLayerCount < proposed.hiddenLayerCount ∨
    ∃ layer < active.hiddenLayerCount, widthAt active layer < widthAt proposed layer

/-- A migration of a seed between two topologies, at a boundary. -/
def migrationAt (active proposed : Architecture) (seed boundary : UInt64) : Migration :=
  ⟨Core.migrationVersion,seed,boundary,active,proposed⟩

theorem valid_unfolded {m : Migration} : m.valid = true ↔
    m.version = Core.migrationVersion ∧ m.seed ≠ 0 ∧ (layoutBuild m.source).isSome ∧
    (layoutBuild m.target).isSome ∧ m.source.version = m.target.version ∧
    m.source.outputDim = m.target.outputDim ∧ m.source.embeddingDim ≤ m.target.embeddingDim ∧
    m.source.hiddenLayerCount ≤ m.target.hiddenLayerCount ∧
    (∀ w ∈ m.source.activeWidths.zip m.target.activeWidths, w.1 ≤ w.2) ∧
    m.source.activeWidths.getLastD 0 ≤ m.target.activeWidths.getLastD 0 ∧
    (m.source.embeddingDim < m.target.embeddingDim ∨
      m.source.hiddenLayerCount < m.target.hiddenLayerCount ∨
      ∃ w ∈ m.source.activeWidths.zip m.target.activeWidths, w.1 < w.2) := by
  simp only [Migration.valid,Bool.and_eq_true,Bool.or_eq_true,decide_eq_true_eq,List.all_eq_true,
    List.any_eq_true,and_assoc,or_assoc]

theorem valid_iff (ha : (layoutBuild active).isSome) (hp : (layoutBuild proposed).isSome)
    {seed boundary : UInt64} (hseed : seed ≠ 0) :
    (migrationAt active proposed seed boundary).valid = true ↔
      Covers active proposed ∧ Grew active proposed := by
  have hactive := laid_accepted ha
  have hproposed := laid_accepted hp
  obtain ⟨hversion,-,-,hmost,houtput,-⟩ := accepted_numbers hactive
  obtain ⟨hversion',-,-,hmost',houtput',-⟩ := accepted_numbers hproposed
  rw [valid_unfolded]
  constructor
  · rintro ⟨-,-,-,-,-,-,hembedding,hlayers,hwidths,hfinal,hgrew⟩
    replace hfinal : active.activeWidths.getLastD 0 ≤ proposed.activeWidths.getLastD 0 := hfinal
    rw [activeWidths_last hactive,activeWidths_last hproposed] at hfinal
    refine ⟨⟨hembedding,hlayers,fun layer hlayer => ?_,hfinal⟩,?_⟩
    · exact hwidths _ ((zip_widths hmost hmost' hlayers _).mpr ⟨layer,hlayer,rfl⟩)
    · rcases hgrew with hgrew | hgrew | ⟨w,hw,hlt⟩
      · exact .inl hgrew
      · exact .inr (.inl hgrew)
      · obtain ⟨layer,hlayer,rfl⟩ := (zip_widths hmost hmost' hlayers _).mp hw
        exact .inr (.inr ⟨layer,hlayer,hlt⟩)
  · rintro ⟨⟨hembedding,hlayers,hwidths,hfinal⟩,hgrew⟩
    rw [← activeWidths_last hactive,← activeWidths_last hproposed] at hfinal
    refine ⟨rfl,hseed,ha,hp,hversion.trans hversion'.symm,houtput.trans houtput'.symm,hembedding,
      hlayers,fun w hw => ?_,hfinal,?_⟩
    · obtain ⟨layer,hlayer,rfl⟩ := (zip_widths hmost hmost' hlayers _).mp hw
      exact hwidths layer hlayer
    · rcases hgrew with hgrew | hgrew | ⟨layer,hlayer,hlt⟩
      · exact .inl hgrew
      · exact .inr (.inl hgrew)
      · exact .inr (.inr ⟨_,(zip_widths hmost hmost' hlayers _).mpr ⟨layer,hlayer,rfl⟩,hlt⟩)

open Classical in
/-- The verdict, whatever fits. -/
theorem expansionVerdict_eq (ha : (layoutBuild active).isSome) (hp : (layoutBuild proposed).isSome)
    (fits : Bool) : (expansionVerdict active proposed fits).1 =
      if Covers active proposed then
        if Grew active proposed then .available else .atRecommendation
      else .incompatible := by
  obtain ⟨hversion,-,-,-,houtput,-⟩ := accepted_numbers (laid_accepted ha)
  obtain ⟨hversion',-,-,-,houtput',-⟩ := accepted_numbers (laid_accepted hp)
  rw [expansionVerdict,if_neg (by simp [hversion,hversion',houtput,houtput'])]
  by_cases hembedding : proposed.embeddingDim < active.embeddingDim
  · rw [if_pos hembedding,if_neg fun h => absurd h.embedding (by omega)]
  by_cases hlayers : proposed.hiddenLayerCount < active.hiddenLayerCount
  · rw [if_neg hembedding,if_pos hlayers,if_neg fun h => absurd h.layers (by omega)]
  rw [if_neg hembedding,if_neg hlayers]
  cases hnarrow : (List.range active.hiddenLayerCount).find?
      (fun layer => widthAt proposed layer < widthAt active layer) with
  | some layer =>
      obtain ⟨hlt,hmem,-⟩ := List.find?_eq_some_iff_append.mp hnarrow
      have hin := List.mem_range.mp (List.mem_of_find?_eq_some hnarrow)
      refine (if_neg fun h => ?_).symm
      exact absurd (h.widths layer hin) (Nat.not_le.mpr (of_decide_eq_true hlt))
  | none =>
      dsimp only
      have hwidths : ∀ layer < active.hiddenLayerCount,
          widthAt active layer ≤ widthAt proposed layer := fun layer hlayer =>
        Nat.not_lt.mp fun hlt => List.find?_eq_none.mp hnarrow layer (List.mem_range.mpr hlayer)
          (decide_eq_true hlt)
      by_cases hfinal : widthAt proposed (proposed.hiddenLayerCount-1) <
          widthAt active (active.hiddenLayerCount-1)
      · rw [if_pos hfinal,if_neg fun h => absurd h.final (by omega)]
      have hcovers : Covers active proposed := ⟨by omega,by omega,hwidths,by omega⟩
      rw [if_neg hfinal,if_pos hcovers]
      have hgrew : (active.embeddingDim < proposed.embeddingDim ∨
          active.hiddenLayerCount < proposed.hiddenLayerCount ∨
          (List.range active.hiddenLayerCount).any
            (fun layer => decide (widthAt active layer < widthAt proposed layer)) = true) ↔
          Grew active proposed := by
        simp only [List.any_eq_true,List.mem_range,decide_eq_true_eq]
        rfl
      by_cases hg : Grew active proposed
      · rw [if_pos hg,if_pos (hgrew.mpr hg)]
      · rw [if_neg hg,if_neg fun h => hg (hgrew.mp h)]

theorem same_iff (ha : (layoutBuild active).isSome) (hp : (layoutBuild proposed).isSome) :
    Covers active proposed ∧ ¬Grew active proposed ↔ proposed = active := by
  constructor
  · rintro ⟨hcovers,hgrew⟩
    simp only [Grew,not_or,not_exists,not_and,Nat.not_lt] at hgrew
    obtain ⟨hembedding,hlayers,hwidths⟩ := hgrew
    obtain ⟨hversion,-,-,hmost,houtput,hinput,hidle⟩ := accepted_numbers (laid_accepted ha)
    obtain ⟨hversion',-,-,hmost',houtput',hinput',hidle'⟩ := accepted_numbers (laid_accepted hp)
    have hdim : proposed.embeddingDim = active.embeddingDim := le_antisymm hembedding hcovers.embedding
    have hcount : proposed.hiddenLayerCount = active.hiddenLayerCount :=
      le_antisymm hlayers hcovers.layers
    have hsame : proposed.hiddenWidths = active.hiddenWidths := by
      rw [← Vector.toList_inj]
      rw [hcount] at hidle'
      refine List.ext_getElem (by simp) fun i hi hi' => ?_
      by_cases hlt : i < active.hiddenLayerCount
      · have heq := le_antisymm (hwidths i hlt) (hcovers.widths i hlt)
        rwa [widthAt,widthAt,List.getD_eq_getElem _ _ hi,List.getD_eq_getElem _ _ hi'] at heq
      · have hzero {ws : List ℕ} (hws : ∀ w ∈ ws.drop active.hiddenLayerCount, w = 0)
            (hin : i < ws.length) : ws[i] = 0 := by
          refine hws _ (List.mem_drop_iff_getElem.mpr ⟨i-active.hiddenLayerCount,by omega,?_⟩)
          congr 1
          omega
        rw [hzero hidle' hi,hzero hidle hi']
    cases active
    cases proposed
    simp_all
  · rintro rfl
    refine ⟨⟨le_rfl,le_rfl,fun _ _ => le_rfl,le_rfl⟩,?_⟩
    rintro (h | h | ⟨layer,-,h⟩)
    · exact lt_irrefl _ h
    · exact lt_irrefl _ h
    · exact lt_irrefl _ h

/-- An expansion is available just where the core takes the migration, whatever its seed and
boundary, and nothing is to be done just where the topology is the one proposed. -/
theorem plan_agrees (ha : (layoutBuild active).isSome) (hp : (layoutBuild proposed).isSome)
    (fits : Bool) : ((expansionVerdict active proposed fits).1 = .available ↔
      ∀ seed boundary, seed ≠ 0 → (migrationAt active proposed seed boundary).valid = true) ∧
    ((expansionVerdict active proposed fits).1 = .atRecommendation ↔ proposed = active) := by
  classical
  rw [expansionVerdict_eq ha hp,← same_iff ha hp]
  have hvalid : (∀ seed boundary, seed ≠ 0 →
      (migrationAt active proposed seed boundary).valid = true) ↔
      Covers active proposed ∧ Grew active proposed :=
    ⟨fun h => (valid_iff ha hp (by decide)).mp (h 1 0 (by decide)),
      fun h seed boundary hseed => (valid_iff ha hp hseed).mpr h⟩
  rw [hvalid]
  by_cases hcovers : Covers active proposed <;> by_cases hgrew : Grew active proposed <;>
    simp [hcovers,hgrew]

end Verdict

/-! ## Growing to the ceilings -/

section Footprint
variable {a : Architecture}

end Footprint

theorem neuralArchitectureOf_laid {A : Arithmetic BudgetStop} (hA : A.Exact)
    {p : NeuralCapacityRecommendation} {a : Architecture} (h : neuralArchitectureOf A p = .ok a) :
    (layoutBuild a).isSome := by
  obtain ⟨⟨⟩,hvalid,h⟩ := bind_ok.mp h
  obtain rfl := Except.ok.inj h
  have hs := (validateNeuralShape_iff hA).mp hvalid
  exact hs.encodes.laid_iff.mpr hs

theorem deriveMigrationSeed_ne_zero (g : Graph) (boundary : UInt64) (source target : Architecture) :
    deriveMigrationSeed g boundary source target ≠ 0 := by
  unfold deriveMigrationSeed
  dsimp only
  split
  · decide
  · assumption

/-- The parts of a plan. -/
theorem planNeuralExpansion_ok {system : SystemResources} {budget : ResourceBudget} {g : Graph}
    {plan : NeuralExpansionPlan} (h : planNeuralExpansion system budget g = .ok plan) :
    plan.active = g.neuralArchitecture ∧ (layoutBuild plan.proposed).isSome ∧
      plan.status = (expansionVerdict plan.active plan.proposed plan.fitsCurrentHeadroom).1 := by
  obtain ⟨proposed,hproposed,h⟩ := bind_ok.mp h
  obtain rfl := Except.ok.inj h
  exact ⟨rfl,neuralArchitectureOf_laid Arithmetic.wrapping_exact hproposed,rfl⟩

/-- What the core makes of an expansion that is available. -/
theorem expand_available {g : Graph} (hg : g.Fitted) {proposed : Architecture}
    (hp : (layoutBuild proposed).isSome) {fits : Bool}
    (hplan : (expansionVerdict g.neuralArchitecture proposed fits).1 = .available)
    (allocated : Bool) {seed : UInt64} (hseed : seed ≠ 0) (boundary : UInt64) :
    (g.expandNeuralIn allocated (migrationAt g.neuralArchitecture proposed seed boundary)).2 =
      if (migrationAt g.neuralArchitecture proposed seed boundary).follows g.neuralMigrations then
        if allocated then .ok else .outOfMemory
      else .migration := by
  have ha : (layoutBuild g.neuralArchitecture).isSome := by rw [hg.layout]; rfl
  have hvalid : (migrationAt g.neuralArchitecture proposed seed boundary).valid = true := by
    refine (valid_iff ha hp hseed).mpr ?_
    classical
    rw [expansionVerdict_eq ha hp] at hplan
    split at hplan
    · split at hplan
      · exact ⟨‹_›,‹_›⟩
      · cases hplan
    · cases hplan
  obtain ⟨layout,hlayout⟩ := Option.isSome_iff_exists.mp hp
  have hstatus : (g.expandNeural (migrationAt g.neuralArchitecture proposed seed boundary)).2 =
      if (migrationAt g.neuralArchitecture proposed seed boundary).follows g.neuralMigrations then
        .ok else .migration := by
    unfold Graph.expandNeural
    by_cases hfollows :
        (migrationAt g.neuralArchitecture proposed seed boundary).follows g.neuralMigrations = true
    · rw [if_neg (by
        rintro (hno | hno | hno)
        · exact hno hvalid
        · exact hno rfl
        · exact hno hfollows),if_pos hfollows]
      have htarget : layoutBuild
          (migrationAt g.neuralArchitecture proposed seed boundary).target = some layout := hlayout
      rw [htarget]
    · rw [if_pos (.inr (.inr hfollows)),if_neg hfollows]
  unfold Graph.expandNeuralIn
  rw [hstatus]
  by_cases hfollows :
      (migrationAt g.neuralArchitecture proposed seed boundary).follows g.neuralMigrations = true
  · rw [if_pos hfollows] at hstatus ⊢
    cases allocated with
    | true => simpa [hfollows] using hstatus
    | false => simp [hfollows]
  · rw [if_neg hfollows] at hstatus ⊢
    simpa [hfollows] using hstatus

theorem expandNeuralIn_ok {g g' : Graph} (hg : g.Fitted) {allocated : Bool} {m : Migration}
    (h : g.expandNeuralIn allocated m = (g',.ok)) : Expansion m g g' := by
  unfold Graph.expandNeuralIn at h
  split at h
  · cases h
  · exact hg.expansion h

/-- What the command saves: the loaded graph under new ceilings, expanded to a topology that the
plan proposed and the memory behind the reserve hosts; or nothing. Where the plan says that an
expansion is available, nothing but an earlier boundary or a failed allocation makes the core
refuse it. -/
theorem neural_expand {g : Graph} (hg : g.Fitted) (system : SystemResources)
    (overrides : ResourceOverrides) (lastId : UInt64) (allocated : Bool) :
    (∀ saved reason, runNeuralExpand system overrides lastId allocated g =
      .ok (saved,.unchanged reason) → saved = none) ∧
    (∀ saved m, runNeuralExpand system overrides lastId allocated g = .ok (saved,.migrated m) →
      ∃ budget g', deriveResourceBudget .wrapping system (countsOf g) overrides
          (some g.neuralArchitecture) = .ok budget ∧ budget.diskPressure = false ∧
        saved = some g' ∧
        Expansion m (g.setCapacity budget.nodeCapacityMax budget.edgeCapacityMax) g' ∧
        m.source = g.neuralArchitecture ∧ m.ledgerBoundaryId = lastId ∧
        requireNeuralHeadroom system budget m.target g.nodes.length g.edges.length = .ok ()) ∧
    ∀ budget plan, planNeuralExpansion system budget g = .ok plan → plan.status = .available →
      ∀ seed, seed ≠ 0 →
        (g.expandNeuralIn allocated (migrationAt plan.active plan.proposed seed lastId)).2 =
          if (migrationAt plan.active plan.proposed seed lastId).follows g.neuralMigrations then
            if allocated then .ok else .outOfMemory
          else .migration := by
  refine ⟨fun saved reason h => ?_,fun saved m h => ?_,fun budget plan hplan havailable seed hseed => ?_⟩
  · obtain ⟨⟨budget,candidate⟩,-,h⟩ := bind_ok.mp h
    obtain ⟨⟨⟩,-,h⟩ := bind_ok.mp h
    obtain ⟨plan,-,h⟩ := bind_ok.mp h
    split at h
    · exact (congrArg Prod.fst (Except.ok.inj h)).symm
    split at h
    · cases h
    split at h
    · cases h
    obtain ⟨⟨⟩,-,h⟩ := bind_ok.mp h
    dsimp only at h
    split at h
    · cases h
    split at h
    · cases h
    obtain ⟨⟨⟩,-,h⟩ := bind_ok.mp h
    obtain ⟨⟨⟩,-,h⟩ := bind_ok.mp h
    cases h
  · obtain ⟨⟨budget,candidate⟩,hrefresh,h⟩ := bind_ok.mp h
    obtain ⟨derived,hderived,hrefresh⟩ := bind_ok.mp hrefresh
    cases hrefresh
    obtain ⟨⟨⟩,hwrite,h⟩ := bind_ok.mp h
    obtain ⟨plan,hplan,h⟩ := bind_ok.mp h
    split at h
    · cases h
    split at h
    · cases h
    split at h
    · cases h
    obtain ⟨⟨⟩,hhosted,h⟩ := bind_ok.mp h
    dsimp only at h
    split at h
    · cases h
    rename_i hstatus
    split at h
    · cases h
    obtain ⟨⟨⟩,-,h⟩ := bind_ok.mp h
    obtain ⟨⟨⟩,-,h⟩ := bind_ok.mp h
    cases h
    have hpressure : budget.diskPressure = false := by
      unfold requireWriteHeadroom at hwrite
      split at hwrite
      · cases hwrite
      · exact Bool.eq_false_iff.mpr ‹_›
    have hcapped : (g.setCapacity budget.nodeCapacityMax budget.edgeCapacityMax).Fitted :=
      hg.of_frame rfl
    obtain ⟨hactive,-,-⟩ := planNeuralExpansion_ok hplan
    exact ⟨budget,_,hderived,hpressure,rfl,
      expandNeuralIn_ok hcapped (Prod.ext rfl (not_not.mp hstatus)),hactive,rfl,hhosted⟩
  · obtain ⟨hactive,hp,hverdict⟩ := planNeuralExpansion_ok hplan
    rw [hactive] at hverdict ⊢
    exact expand_available hg hp (hverdict.symm.trans havailable) allocated hseed lastId

/-! ## Samples -/

namespace Sample

/-- The shape of the baseline class. -/
def baseline : Architecture := descriptorOf (applyClassShape {} .baseline false false)

theorem plan_agrees_baseline :
    (expansionVerdict .legacy baseline true).1 = .available ∧
      (migrationAt .legacy baseline 7 0).valid = true := by
  have havailable : (expansionVerdict .legacy baseline true).1 = .available := by decide +kernel
  have hagrees := @plan_agrees .legacy baseline (by decide +kernel) (by decide +kernel) true
  exact ⟨havailable,hagrees.1.mp havailable 7 0 (by decide)⟩

/-- Some budget, with the profile of the constrained class. -/
def narrow : ResourceBudget where
  memoryReserveBytes := 0
  memoryGrowthBudgetBytes := 0
  limitingDisk := noDisk
  nodeCapacityMax := 1
  edgeCapacityMax := 1
  maxInputBytes := 0
  inspectionItemLimit := 16
  syncPageSize := 1
  syncMaxObservations := 1
  neural := {}
  memoryPressure := true
  diskPressure := true

theorem neural_expand_taught :
    ((Core.Sample.taught.expandNeuralIn true
      (migrationAt Core.Sample.shallow (descriptorOf {}) 7 0)).2 = .ok) := by
  have hplan : ∃ plan, planNeuralExpansion unmeasured narrow Core.Sample.taught = .ok plan ∧
      plan.status = .available ∧ plan.active = Core.Sample.shallow ∧
      plan.proposed = descriptorOf {} := ⟨_,rfl,by decide +kernel,rfl,rfl⟩
  obtain ⟨plan,hplan,havailable,hactive,hproposed⟩ := hplan
  have hexpand := (neural_expand Core.Sample.taught_fitted unmeasured {} 0 true).2.2 narrow plan hplan
    havailable 7 (by decide)
  rw [hactive,hproposed] at hexpand
  exact hexpand

end Sample

end Atperson.Resource
