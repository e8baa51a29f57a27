import Atperson.Resource.Profile
import Atperson.Wire.Decimal

/-!
# Resource budgets

From what the host has free, what the operator asks for and what the graph holds: how much memory
the graph may grow by, how many nodes and edges that admits, how much may be written to disk, and
how large a page and a run of the synchronization are.
-/
namespace Atperson.Resource
open Runs Wire
open Atperson.Core (Architecture)

structure FilesystemResources where
  path : Bytes
  capacityBytes : UInt64
  availableBytes : UInt64
  deriving DecidableEq

/-- `SystemResources`. A measurement of zero is an unknown one. -/
structure SystemResources where
  effectiveCpuCapacity : Float
  effectiveMemoryTotalBytes : UInt64
  effectiveMemoryAvailableBytes : UInt64
  filesystems : List FilesystemResources
  diskCapacityBytes : UInt64
  diskAvailableBytes : UInt64

/-- What is read of `atp_graph_stats`. -/
structure GraphCounts where
  nodeCount : UInt64
  edgeCount : UInt64

structure LimitingDisk where
  path : Bytes
  capacityBytes : ℕ
  availableBytes : ℕ
  reserveBytes : ℕ
  writeBudgetBytes : ℕ
  deriving DecidableEq

structure ResourceBudget where
  memoryReserveBytes : ℕ
  memoryGrowthBudgetBytes : ℕ
  limitingDisk : LimitingDisk
  nodeCapacityMax : ℕ
  edgeCapacityMax : ℕ
  maxInputBytes : ℕ
  inspectionItemLimit : ℕ
  syncPageSize : ℤ
  syncMaxObservations : ℕ
  neural : NeuralCapacityRecommendation
  memoryPressure : Bool
  diskPressure : Bool

/-! ## Environment -/

def subtractFloor (value amount : ℕ) : ℕ := if amount < value then value-amount else 0

def automaticMemoryReserve (total : ℕ) : ℕ :=
  if total = 0 then 64*mib
  else min (2*gib) (max (min (64*mib) (total/4)) (total/8))

def automaticDiskReserve (capacity : ℕ) : ℕ :=
  if capacity = 0 then 256*mib
  else min (8*gib) (max (min (256*mib) (capacity/4)) (capacity/20))

namespace SystemResources

def memoryReserve (system : SystemResources) : ℕ :=
  automaticMemoryReserve system.effectiveMemoryTotalBytes.toNat

def memoryHeadroom (system : SystemResources) : ℕ :=
  subtractFloor system.effectiveMemoryAvailableBytes.toNat system.memoryReserve

/-- How much the graph may grow. -/
def memoryGrowth (system : SystemResources) (overrides : ResourceOverrides) :
    Except BudgetStop ℕ :=
  match overrides.memoryGrowthBudgetBytes with
  | some asked =>
      if system.effectiveMemoryAvailableBytes ≠ 0 ∧ system.memoryHeadroom < asked.toNat then
        .error (.thrown
          "ATPERSON_MEMORY_BUDGET_BYTES exceeds memory available after the safety reserve")
      else .ok asked.toNat
  | none => .ok (min (if system.effectiveMemoryTotalBytes = 0 then system.memoryHeadroom
      else system.effectiveMemoryTotalBytes.toNat/4) (system.memoryHeadroom/2))

/-- Whether memory is short, given how much the graph may grow. -/
def memoryPressure (system : SystemResources) (growth : ℕ) : Bool :=
  system.effectiveMemoryAvailableBytes.toNat ≤ system.memoryReserve || growth < 16*mib

/-- The file systems whose room is looked at. -/
def considered (system : SystemResources) : List FilesystemResources :=
  if system.filesystems = [] then [⟨[],system.diskCapacityBytes,system.diskAvailableBytes⟩]
  else system.filesystems

end SystemResources

/-! ## Disk -/

namespace FilesystemResources

def reserve (fs : FilesystemResources) (overrides : ResourceOverrides) : ℕ :=
  (overrides.diskReserveBytes.map UInt64.toNat).getD (automaticDiskReserve fs.capacityBytes.toNat)

/-- The record of a file system that limits what is written. -/
def limiting (fs : FilesystemResources) (overrides : ResourceOverrides) : LimitingDisk where
  path := fs.path
  capacityBytes := fs.capacityBytes.toNat
  availableBytes := fs.availableBytes.toNat
  reserveBytes := fs.reserve overrides
  writeBudgetBytes := subtractFloor fs.availableBytes.toNat (fs.reserve overrides)/2

end FilesystemResources

/-- One call of `consider_disk`. -/
def considerDisk (overrides : ResourceOverrides) (chosen : Option LimitingDisk)
    (fs : FilesystemResources) : Except BudgetStop (Option LimitingDisk) :=
  if fs.capacityBytes ≠ 0 ∧ fs.capacityBytes.toNat < fs.reserve overrides then
    .error (.thrown ("ATPERSON_DISK_RESERVE_BYTES exceeds filesystem capacity for "++text fs.path))
  else match chosen with
  | none => .ok (some (fs.limiting overrides))
  | some disk =>
      .ok (some (if (fs.limiting overrides).writeBudgetBytes < disk.writeBudgetBytes then
        fs.limiting overrides else disk))

/-- Where no file system was considered, the fields stay empty. -/
def noDisk : LimitingDisk := ⟨[],0,0,0,0⟩

/-! ## Ceilings -/

def observationDiskReserveBytes : ℕ := 512*kib

/-- `std::clamp`. -/
def clamp (value low high : ℕ) : ℕ := if value < low then low else if high < value then high else value

section Arithmetic
variable (A : Arithmetic BudgetStop)

/-- `node_growth_bytes`. -/
def nodeGrowthBytes (embeddingDim : ℕ) : Except BudgetStop ℕ :=
  if embeddingDim ≤ Core.embeddingDim then .ok 256
  else do
    let pairs ← A.mul (embeddingDim-Core.embeddingDim) 2
    let bytes ← A.mul pairs 4
    A.add 256 bytes

/-- `saturating_add`. -/
def saturatingAdd (current extra : ℕ) : Except BudgetStop ℕ :=
  A.add current (min extra (wordMax-current))

/-- `automatic_sync_page_size`. A processor count that no `int` holds is cut to the largest. -/
def automaticSyncPageSize (system : SystemResources) (growth writeBudget : ℕ) :
    Except BudgetStop ℤ := do
  let cpuBound := max 1 (min (usableCpu system.effectiveCpuCapacity*12.0).ceil.toInt32.toInt 100)
  let memorySteps ← A.add 1 (growth/(8*mib))
  let memoryBound := clamp memorySteps 1 100
  let diskBound := clamp (writeBudget/observationDiskReserveBytes) 1 100
  return min cpuBound (min (memoryBound : ℤ) (diskBound : ℤ))

/-- A ceiling for a count: what the budget admits and at least one, or what was asked for and at
least the count. -/
def ceilingOf (count : UInt64) (admitted : ℕ) (asked : Option UInt64) : ℕ :=
  match asked with
  | none => if admitted = 0 then 1 else admitted
  | some asked => max count.toNat asked.toNat

/-- `derive_resource_budget`. -/
def deriveResourceBudget (system : SystemResources) (graph : GraphCounts)
    (overrides : ResourceOverrides) (activeArchitecture : Option Architecture) :
    Except BudgetStop ResourceBudget := do
  let growth ← system.memoryGrowth overrides
  let neural ← deriveProfile A system.effectiveCpuCapacity growth (system.memoryPressure growth)
    overrides
  let chosen ← system.considered.foldlM (considerDisk overrides) none
  let disk := chosen.getD noDisk
  let tripled ← A.mul growth 3
  let nodeBudget := tripled/10
  let edgeBudget := growth-nodeBudget
  let nodeBytes ← nodeGrowthBytes A
    ((activeArchitecture.map Architecture.embeddingDim).getD neural.embeddingDim)
  let nodesAdmitted ← saturatingAdd A graph.nodeCount.toNat (nodeBudget/nodeBytes)
  let edgesAdmitted ← saturatingAdd A graph.edgeCount.toNat (edgeBudget/64)
  let automaticPage ← automaticSyncPageSize A system growth disk.writeBudgetBytes
  let syncPageSize := (overrides.syncPageSize.map Int32.toInt).getD automaticPage
  let observations := (overrides.syncMaxObservations.map UInt64.toNat).getD
    (max (syncPageSize%2^64).toNat (disk.writeBudgetBytes/observationDiskReserveBytes))
  return {
    memoryReserveBytes := system.memoryReserve
    memoryGrowthBudgetBytes := growth
    limitingDisk := disk
    nodeCapacityMax := ceilingOf graph.nodeCount nodesAdmitted overrides.nodeCapacityMax
    edgeCapacityMax := ceilingOf graph.edgeCount edgesAdmitted overrides.edgeCapacityMax
    maxInputBytes := clamp (growth/4) (64*kib) (64*mib)
    inspectionItemLimit := clamp (growth/(64*kib)) 16 10000
    syncPageSize
    syncMaxObservations := if observations = 0 then 1 else observations
    neural
    memoryPressure := system.memoryPressure growth
    diskPressure := chosen.isNone || disk.writeBudgetBytes < 16*mib}

end Arithmetic

end Atperson.Resource
