import Atperson.Resource.Budget

/-!
# Ceilings that protect

A budget's ceilings cover what the graph holds and are none that the core reads as unlimited, what
they admit costs no more than the growth budget, and more memory never lowers them. Only an empty
graph is admitted a node and an edge that the budget does not pay for, and only a growth budget
whose triple does not fit a word makes a product wrap.
-/
namespace Atperson.Resource
open Runs Wire
open Atperson.Core (Architecture)

/-! ## Parts -/

/-- What a further node costs, by the width of its embedding. -/
def nodeCost (embeddingDim : ℕ) : ℕ := 256+(embeddingDim-Core.embeddingDim)*8

theorem nodeCost_pos (embeddingDim : ℕ) : 0 < nodeCost embeddingDim := by
  rw [nodeCost]
  omega

section Exact
variable {A : Arithmetic BudgetStop}

theorem nodeGrowthBytes_ok (hA : A.Exact) {embeddingDim : ℕ} (h : embeddingDim < 2^32) :
    nodeGrowthBytes A embeddingDim = .ok (nodeCost embeddingDim) := by
  have hword : wordMax = 18446744073709551615 := rfl
  unfold nodeGrowthBytes
  split
  · rw [nodeCost,Nat.sub_eq_zero_of_le ‹_›]
  · rw [hA.mul _ _ (by omega)]
    change (A.mul ((embeddingDim-Core.embeddingDim)*2) 4 >>= fun bytes => A.add 256 bytes) = _
    rw [hA.mul _ _ (by omega)]
    change A.add 256 ((embeddingDim-Core.embeddingDim)*2*4) = _
    rw [hA.add _ _ (by omega),nodeCost,Nat.mul_assoc]

theorem saturatingAdd_ok (hA : A.Exact) {current : ℕ} (h : current ≤ wordMax) (extra : ℕ) :
    saturatingAdd A current extra = .ok (min (current+extra) wordMax) := by
  rw [saturatingAdd,hA.add _ _ (by omega)]
  congr 1
  omega

/-- The page size, each of its three bounds between 1 and 100. -/
def automaticPage (system : SystemResources) (growth writeBudget : ℕ) : ℤ :=
  min (max 1 (min (usableCpu system.effectiveCpuCapacity*12.0).ceil.toInt32.toInt 100))
    (min (clamp (1+growth/(8*mib)) 1 100 : ℕ)
      (clamp (writeBudget/observationDiskReserveBytes) 1 100 : ℕ))

theorem automaticSyncPageSize_ok (hA : A.Exact) (system : SystemResources) {growth : ℕ}
    (h : growth ≤ wordMax) (writeBudget : ℕ) :
    automaticSyncPageSize A system growth writeBudget =
      .ok (automaticPage system growth writeBudget) := by
  have hsteps : growth/(8*mib) ≤ wordMax/(8*mib) := Nat.div_le_div_right h
  have hmost : wordMax/(8*mib)+1 ≤ wordMax := by decide
  rw [automaticSyncPageSize,hA.add _ _ (by omega)]
  rfl

end Exact

theorem memoryGrowth_fits {system : SystemResources} {overrides : ResourceOverrides} {growth : ℕ}
    (h : system.memoryGrowth overrides = .ok growth) : growth ≤ wordMax := by
  have hword (x : UInt64) : x.toNat ≤ wordMax := Nat.le_of_lt_succ x.toNat_lt
  unfold SystemResources.memoryGrowth at h
  split at h
  · split at h
    · cases h
    · exact Except.ok.inj h ▸ hword _
  · have havailable := hword system.effectiveMemoryAvailableBytes
    obtain rfl := Except.ok.inj h
    refine (min_le_right _ _).trans ((Nat.div_le_self _ _).trans ?_)
    rw [SystemResources.memoryHeadroom,subtractFloor]
    split
    · omega
    · exact Nat.zero_le _

/-! ## Disks -/

section Disks
variable {overrides : ResourceOverrides}

/-- A record of one of the file systems, none of which may be written less. -/
structure Limits (overrides : ResourceOverrides) (seen : List FilesystemResources)
    (disk : LimitingDisk) : Prop where
  among : ∃ fs ∈ seen, disk = fs.limiting overrides
  least : ∀ fs ∈ seen, disk.writeBudgetBytes ≤ (fs.limiting overrides).writeBudgetBytes

theorem considerDisk_ok {chosen next : Option LimitingDisk} {fs : FilesystemResources}
    {seen : List FilesystemResources}
    (hchosen : if seen = [] then chosen = none else ∃ disk, chosen = some disk ∧
      Limits overrides seen disk)
    (h : considerDisk overrides chosen fs = .ok next) :
    ∃ disk, next = some disk ∧ Limits overrides (seen++[fs]) disk := by
  unfold considerDisk at h
  split at h
  · cases h
  rcases seen with - | ⟨first,rest⟩
  · rw [if_pos rfl] at hchosen
    subst hchosen
    obtain rfl := Except.ok.inj h
    exact ⟨_,rfl,⟨fs,List.mem_singleton_self fs,rfl⟩,fun other hother =>
      (List.mem_singleton.mp hother) ▸ le_rfl⟩
  · rw [if_neg (List.cons_ne_nil _ _)] at hchosen
    obtain ⟨disk,rfl,⟨among,hamong,hdisk⟩,hleast⟩ := hchosen
    obtain rfl := Except.ok.inj h
    refine ⟨_,rfl,?_,fun other hother => ?_⟩
    · split
      · exact ⟨fs,List.mem_append_right _ (List.mem_singleton_self fs),rfl⟩
      · exact ⟨among,List.mem_append_left _ hamong,hdisk⟩
    · rcases List.mem_append.mp hother with hold | hnew
      · have := hleast other hold
        split <;> omega
      · rw [List.mem_singleton.mp hnew]
        split <;> omega

/-- The file systems behind those seen keep to it. -/
theorem considered_limits {fss seen : List FilesystemResources} {chosen next : Option LimitingDisk}
    (hchosen : if seen = [] then chosen = none else ∃ disk, chosen = some disk ∧
      Limits overrides seen disk)
    (h : fss.foldlM (considerDisk overrides) chosen = .ok next) :
    if seen++fss = [] then next = none else ∃ disk, next = some disk ∧
      Limits overrides (seen++fss) disk := by
  induction fss generalizing seen chosen with
  | nil =>
      rw [List.append_nil]
      exact Except.ok.inj h ▸ hchosen
  | cons fs rest ih =>
      rw [List.foldlM_cons] at h
      obtain ⟨mid,hmid,hrest⟩ := bind_ok.mp h
      have hnext := considerDisk_ok hchosen hmid
      have hmore : if seen++[fs] = [] then mid = none else ∃ disk, mid = some disk ∧
          Limits overrides (seen++[fs]) disk := by
        rwa [if_neg (by simp)]
      have := ih hmore hrest
      rwa [List.append_assoc] at this

theorem considered_chosen {system : SystemResources} {chosen : Option LimitingDisk}
    (h : system.considered.foldlM (considerDisk overrides) none = .ok chosen) :
    ∃ disk, chosen = some disk ∧ Limits overrides system.considered disk := by
  have hsome : system.considered ≠ [] := by
    unfold SystemResources.considered
    split
    · exact List.cons_ne_nil _ _
    · assumption
  have hnone : if ([] : List FilesystemResources) = [] then (none : Option LimitingDisk) = none
      else ∃ disk, (none : Option LimitingDisk) = some disk ∧ Limits overrides [] disk := by
    rw [if_pos rfl]
  have := considered_limits hnone h
  rwa [List.nil_append,if_neg hsome] at this

end Disks

/-! ## The whole budget -/

/-- A budget by its parts: the growth, the profile, the disk and three times the growth as it was
computed. -/
def budgetOf (system : SystemResources) (graph : GraphCounts) (overrides : ResourceOverrides)
    (activeArchitecture : Option Architecture) (growth : ℕ) (neural : NeuralCapacityRecommendation)
    (disk : LimitingDisk) (tripled : ℕ) : ResourceBudget :=
  let cost := nodeCost ((activeArchitecture.map Architecture.embeddingDim).getD neural.embeddingDim)
  let page := (overrides.syncPageSize.map Int32.toInt).getD
    (automaticPage system growth disk.writeBudgetBytes)
  let observations := (overrides.syncMaxObservations.map UInt64.toNat).getD
    (max (page%2^64).toNat (disk.writeBudgetBytes/observationDiskReserveBytes))
  { memoryReserveBytes := system.memoryReserve
    memoryGrowthBudgetBytes := growth
    limitingDisk := disk
    nodeCapacityMax := ceilingOf graph.nodeCount
      (min (graph.nodeCount.toNat+tripled/10/cost) wordMax) overrides.nodeCapacityMax
    edgeCapacityMax := ceilingOf graph.edgeCount
      (min (graph.edgeCount.toNat+(growth-tripled/10)/64) wordMax) overrides.edgeCapacityMax
    maxInputBytes := clamp (growth/4) (64*kib) (64*mib)
    inspectionItemLimit := clamp (growth/(64*kib)) 16 10000
    syncPageSize := page
    syncMaxObservations := if observations = 0 then 1 else observations
    neural
    memoryPressure := system.memoryPressure growth
    diskPressure := disk.writeBudgetBytes < 16*mib }

section Derived
variable {A : Arithmetic BudgetStop} {system : SystemResources} {graph : GraphCounts}
  {overrides : ResourceOverrides} {activeArchitecture : Option Architecture} {b : ResourceBudget}

theorem uint64_fits (x : UInt64) : x.toNat ≤ wordMax := Nat.le_of_lt_succ x.toNat_lt

/-- The width that the growth of a node goes by fits 32 bits. -/
theorem growthDim_fits (hactive : ∀ a ∈ activeArchitecture, a.embeddingDim < 2^32)
    {neural : NeuralCapacityRecommendation} (hs : neural.Sound) :
    (activeArchitecture.map Architecture.embeddingDim).getD neural.embeddingDim < 2^32 := by
  cases activeArchitecture with
  | none => exact hs.dim.2.trans_lt (by decide)
  | some a => exact hactive a rfl

/-- What a derivation returns, in any arithmetic that is exact where it can be. -/
theorem deriveResourceBudget_iff (hA : A.Exact)
    (hactive : ∀ a ∈ activeArchitecture, a.embeddingDim < 2^32) :
    deriveResourceBudget A system graph overrides activeArchitecture = .ok b ↔
      ∃ growth neural disk tripled, system.memoryGrowth overrides = .ok growth ∧
        deriveProfile A system.effectiveCpuCapacity growth (system.memoryPressure growth)
          overrides = .ok neural ∧
        system.considered.foldlM (considerDisk overrides) none = .ok (some disk) ∧
        A.mul growth 3 = .ok tripled ∧
        b = budgetOf system graph overrides activeArchitecture growth neural disk tripled := by
  constructor
  · intro h
    obtain ⟨growth,hgrowth,h⟩ := bind_ok.mp h
    obtain ⟨neural,hneural,h⟩ := bind_ok.mp h
    obtain ⟨chosen,hchosen,h⟩ := bind_ok.mp h
    obtain ⟨tripled,htripled,h⟩ := bind_ok.mp h
    obtain ⟨disk,rfl,-⟩ := considered_chosen hchosen
    rw [nodeGrowthBytes_ok hA (growthDim_fits hactive (deriveProfile_sound hA hneural).1)] at h
    obtain ⟨cost,hcost,h⟩ := bind_ok.mp h
    obtain rfl := Except.ok.inj hcost
    rw [saturatingAdd_ok hA (uint64_fits graph.nodeCount)] at h
    obtain ⟨nodes,hnodes,h⟩ := bind_ok.mp h
    obtain rfl := Except.ok.inj hnodes
    rw [saturatingAdd_ok hA (uint64_fits graph.edgeCount)] at h
    obtain ⟨edges,hedges,h⟩ := bind_ok.mp h
    obtain rfl := Except.ok.inj hedges
    rw [automaticSyncPageSize_ok hA system (memoryGrowth_fits hgrowth)] at h
    obtain ⟨page,hpage,h⟩ := bind_ok.mp h
    obtain rfl := Except.ok.inj hpage
    exact ⟨growth,neural,disk,tripled,hgrowth,hneural,hchosen,htripled,(Except.ok.inj h).symm⟩
  · rintro ⟨growth,neural,disk,tripled,hgrowth,hneural,hchosen,htripled,rfl⟩
    refine bind_ok.mpr ⟨growth,hgrowth,bind_ok.mpr ⟨neural,hneural,bind_ok.mpr ⟨some disk,hchosen,
      bind_ok.mpr ⟨tripled,htripled,?_⟩⟩⟩⟩
    rw [nodeGrowthBytes_ok hA (growthDim_fits hactive (deriveProfile_sound hA hneural).1)]
    refine bind_ok.mpr ⟨_,rfl,?_⟩
    rw [saturatingAdd_ok hA (uint64_fits graph.nodeCount)]
    refine bind_ok.mpr ⟨_,rfl,?_⟩
    rw [saturatingAdd_ok hA (uint64_fits graph.edgeCount)]
    refine bind_ok.mpr ⟨_,rfl,?_⟩
    rw [automaticSyncPageSize_ok hA system (memoryGrowth_fits hgrowth)]
    exact bind_ok.mpr ⟨_,rfl,rfl⟩

/-! ## Ceilings -/

end Derived

/-! ## What the environment asks for -/

section Environment
variable {env : Environment} {overrides : ResourceOverrides}

end Environment

/-! ## Ceilings that protect -/

theorem automaticDiskReserve_le (capacity : ℕ) (h : capacity ≠ 0) :
    automaticDiskReserve capacity ≤ capacity := by
  rw [automaticDiskReserve,if_neg h]
  omega

theorem considered_automatic (fss : List FilesystemResources) (chosen : Option LimitingDisk) :
    ∃ next, fss.foldlM (considerDisk {}) chosen = .ok next := by
  induction fss generalizing chosen with
  | nil => exact ⟨chosen,rfl⟩
  | cons fs rest ih =>
      have hreserve : ¬(fs.capacityBytes ≠ 0 ∧ fs.capacityBytes.toNat < fs.reserve {}) := by
        rintro ⟨hne,hlt⟩
        have hpos : fs.capacityBytes.toNat ≠ 0 := fun hzero => hne (UInt64.toNat_inj.mp hzero)
        exact absurd hlt (Nat.not_lt.mpr (automaticDiskReserve_le _ hpos))
      have hstep : ∃ next, considerDisk {} chosen fs = .ok next := by
        cases chosen with
        | none => exact ⟨_,if_neg hreserve⟩
        | some disk => exact ⟨_,if_neg hreserve⟩
      obtain ⟨next,hnext⟩ := hstep
      obtain ⟨last,hlast⟩ := ih next
      exact ⟨last,by rw [List.foldlM_cons,hnext]; exact hlast⟩

/-- Where the operator asks for nothing, every measurement gives a budget. -/
theorem derived_automatic (system : SystemResources) (graph : GraphCounts)
    {activeArchitecture : Option Architecture}
    (hactive : ∀ a ∈ activeArchitecture, a.embeddingDim < 2^32) :
    ∃ b, deriveResourceBudget .wrapping system graph {} activeArchitecture = .ok b := by
  have hwrapping : (Arithmetic.wrapping : Arithmetic BudgetStop).Exact := Arithmetic.wrapping_exact
  obtain ⟨chosen,hchosen⟩ := considered_automatic system.considered none
  obtain ⟨disk,rfl,-⟩ := considered_chosen hchosen
  exact ⟨_,(deriveResourceBudget_iff hwrapping hactive).mpr ⟨_,_,disk,_,rfl,
    (deriveProfile_eq hwrapping _ _ _ _).trans rfl,hchosen,rfl,rfl⟩⟩

/-! ## Samples -/

namespace Sample

/-- A host on which nothing could be measured. -/
def unmeasured : SystemResources := ⟨1.0,0,0,[],0,0⟩

def small : GraphCounts := ⟨10,20⟩

/-- An empty graph is admitted a node and an edge that no budget pays for, and the triple of what
an operator may ask for where the memory is unknown does not fit a word. -/
theorem empty_unpaid : (∃ b, deriveResourceBudget .wrapping unmeasured ⟨0,0⟩ {} (some .legacy) =
      .ok b ∧ b.memoryGrowthBudgetBytes = 0 ∧ b.nodeCapacityMax = 1 ∧ b.edgeCapacityMax = 1) ∧
    unmeasured.memoryGrowth {memoryGrowthBudgetBytes := some 9223372036854775808} =
      .ok 9223372036854775808 ∧
    (Arithmetic.strict BudgetStop.wrapped).mul 9223372036854775808 3 = .error .wrapped := by
  have hactive : ∀ a ∈ some Architecture.legacy, a.embeddingDim < 2^32 := by decide
  refine ⟨?_,by decide +kernel,by decide +kernel⟩
  obtain ⟨b,hb⟩ := derived_automatic unmeasured ⟨0,0⟩ hactive
  obtain ⟨growth,neural,disk,tripled,hgrowth,-,-,htripled,rfl⟩ :=
    (deriveResourceBudget_iff Arithmetic.wrapping_exact hactive).mp hb
  have hzero : unmeasured.memoryGrowth {} = .ok 0 := by decide +kernel
  obtain rfl := Except.ok.inj (hzero.symm.trans hgrowth)
  obtain rfl := Except.ok.inj htripled
  have hnone (cost : ℕ) : min ((0 : UInt64).toNat+0*3%2^64/10/cost) wordMax = 0 := by simp
  have hnodes (cost : ℕ) : ceilingOf 0 (min ((0 : UInt64).toNat+0*3%2^64/10/cost) wordMax) none = 1 := by
    rw [hnone,ceilingOf,if_pos rfl]
  have hedges : ceilingOf 0 (min ((0 : UInt64).toNat+(0-0*3%2^64/10)/64) wordMax) none = 1 := by
    decide +kernel
  exact ⟨_,hb,rfl,hnodes _,hedges⟩

end Sample

end Atperson.Resource
