import Atperson.Outbound.Limits

/-!
# Policies whose record suffices

The record of a kind holds so many admissions. A policy whose windows, as many as cover a
cool-down, admit no more than that is never forgotten about: its limits hold however long it is
followed.
-/
namespace Atperson.Outbound
open Wire Runs

/-- How many windows cover the cool-down. -/
def windowsOf (budget : ActionBudget) : ℕ :=
  (budget.duplicateCooldownSeconds/(budget.windowSeconds+1)).toNat+1

/-- The record has room for all that can still matter. -/
structure Recordable (policy : OutboundPolicy) : Prop where
  window : ∀ kind, 0 ≤ (budgetFor policy kind).windowSeconds
  room : ∀ kind, windowsOf (budgetFor policy kind)*(budgetFor policy kind).maxInWindow ≤
    kMaxOutboundRecordsPerKind

/-- Every identity on record is one of an admission. -/
def Recorded (state : OutboundBudgetState) (log : List Admission) : Prop :=
  ∀ kind, ∀ record ∈ (state.usage kind).recentDuplicates, ∃ a ∈ ofKind kind log,
    a.key = record.key ∧ a.time = record.atTime

/-- The limits hold so far, and the state knows it. -/
structure Paced (policy : OutboundPolicy) (state : OutboundBudgetState) (clock : ℤ)
    (log : List Admission) : Prop where
  limits : WithinLimits policy log
  ordered : log.Pairwise (fun a b => a.time ≤ b.time)
  past : ∀ a ∈ log, a.time ≤ clock
  knows : Knows policy state clock log
  recorded : Recorded state log

section Paced
variable {policy : OutboundPolicy} {state : OutboundBudgetState} {clock : ℤ} {log : List Admission}
  {proposal : OutboundActionProposal}

/-- The cool-down lies within its windows. -/
theorem cooldown_covered {budget : ActionBudget} (hwindow : 0 ≤ budget.windowSeconds) :
    budget.duplicateCooldownSeconds ≤ windowsOf budget*(budget.windowSeconds+1) := by
  unfold windowsOf
  have hdiv := Int.lt_ediv_add_one_mul_self budget.duplicateCooldownSeconds
    (show 0 < budget.windowSeconds+1 by omega)
  have hnat := Int.self_le_toNat (budget.duplicateCooldownSeconds/(budget.windowSeconds+1))
  push_cast
  nlinarith

/-- What is on record and cools down is not more than what was admitted meanwhile. -/
theorem duplicates_le (hdistinct : ((state.usage proposal.kind).recentDuplicates.map (·.key)).Nodup)
    (hrecorded : Recorded state log) (bound : ℤ) :
    (state.usage proposal.kind).recentDuplicates.countP (fun record => bound ≤ record.atTime) ≤
      ((ofKind proposal.kind log).map (·.time)).countP (fun t => bound ≤ t) := by
  rw [List.countP_map,List.countP_eq_length_filter,List.countP_eq_length_filter]
  set records := (state.usage proposal.kind).recentDuplicates.filter fun record => bound ≤ record.atTime
  have hnodup : (records.map fun record => (record.key,record.atTime)).Nodup := by
    refine List.Nodup.of_map Prod.fst ?_
    rw [List.map_map]
    exact hdistinct.sublist (List.filter_sublist.map _)
  have hsub : (records.map fun record => (record.key,record.atTime)) ⊆
      ((ofKind proposal.kind log).filter fun a => bound ≤ a.time).map fun a => (a.key,a.time) := by
    intro x hx
    obtain ⟨record,hrecord,rfl⟩ := List.mem_map.mp hx
    obtain ⟨hmem,hbound⟩ := List.mem_filter.mp hrecord
    obtain ⟨a,ha,hkey,htime⟩ := hrecorded proposal.kind record hmem
    refine List.mem_map.mpr ⟨a,List.mem_filter.mpr ⟨ha,?_⟩,by rw [hkey,htime]⟩
    rw [htime]
    exact hbound
  have hle := (hnodup.subperm hsub).length_le
  rwa [List.length_map,List.length_map] at hle

/-- What is admitted fits the record. -/
theorem Paced.fits (h : Paced policy state clock log) (hpolicy : Recordable policy)
    (hadm : Admissible policy state proposal clock) :
    RecordFits (budgetFor policy proposal.kind) (state.usage proposal.kind)
      (outboundDedupKey proposal) clock := by
  have hremembers := (h.knows proposal.kind).1
  have hroom := hpolicy.room proposal.kind
  have hlimits := h.limits.propose h.ordered h.past hremembers hadm
  constructor
  · refine hadm.belowLimit.trans_le ((Nat.le_mul_of_pos_left _ ?_).trans hroom)
    exact Nat.succ_pos _
  · intro hcool
    set budget := budgetFor policy proposal.kind with hbudget
    set times := (ofKind proposal.kind log).map (·.time) with htimes
    have hcover := cooldown_covered (hpolicy.window proposal.kind)
    rw [← hbudget] at hcover
    -- The admission itself is one of those that the windows hold.
    have hall := (hlimits.window proposal.kind).cover (clock-budget.duplicateCooldownSeconds+1)
      (windowsOf budget)
    rw [ofKind_append,if_pos rfl,List.map_append,List.countP_append] at hall
    have hone : [clock].countP (fun t => clock-budget.duplicateCooldownSeconds+1 ≤ t ∧
        t < clock-budget.duplicateCooldownSeconds+1+windowsOf budget*(budget.windowSeconds+1)) = 1 := by
      simp only [List.countP_singleton]
      rw [if_pos]
      rw [decide_eq_true_eq]
      omega
    have hbefore : times.countP (fun t => clock-budget.duplicateCooldownSeconds+1 ≤ t) ≤
        times.countP (fun t => clock-budget.duplicateCooldownSeconds+1 ≤ t ∧
          t < clock-budget.duplicateCooldownSeconds+1+windowsOf budget*(budget.windowSeconds+1)) := by
      refine List.countP_mono_left fun t ht hbound => ?_
      obtain ⟨a,ha,rfl⟩ := List.mem_map.mp ht
      have hpast := h.past a (List.mem_of_mem_filter ha)
      simp only [decide_eq_true_eq] at hbound ⊢
      omega
    have hrecords := duplicates_le hremembers.distinct h.recorded
      (clock-budget.duplicateCooldownSeconds+1)
    have hothers : (state.usage proposal.kind).recentDuplicates.countP (fun record =>
          record.key ≠ outboundDedupKey proposal ∧
            clock-budget.duplicateCooldownSeconds+1 ≤ record.atTime) ≤
        (state.usage proposal.kind).recentDuplicates.countP (fun record =>
          clock-budget.duplicateCooldownSeconds+1 ≤ record.atTime) :=
      List.countP_mono_left fun record _ hrecord => by
        simp only [decide_eq_true_eq] at hrecord ⊢
        exact hrecord.2
    rw [← hbudget,← htimes,show [(⟨proposal,clock⟩ : Admission)].map (·.time) = [clock] from rfl,hone]
      at hall
    rw [← htimes] at hrecords
    omega

theorem keepLast_subset {α : Type} (records : List α) : keepLast records ⊆ records :=
  List.drop_subset _ _

theorem pruneKind_subset (usage : OutboundKindUsage) (budget : ActionBudget) (now : ℤ) :
    (pruneKind usage budget now).recentDuplicates ⊆ usage.recentDuplicates := by
  rw [pruneKind_duplicates]
  split
  · exact List.Subset.trans (keepLast_subset _) (List.filter_subset_self _)
  · exact List.Subset.trans (keepLast_subset _) (List.nil_subset _)

theorem Paced.prune (h : Paced policy state clock log) :
    Paced policy (pruneOutboundBudgetState state policy clock) clock log where
  limits := h.limits
  ordered := h.ordered
  past := h.past
  knows := h.knows.prune h.ordered
  recorded kind record hrecord := h.recorded kind record (pruneKind_subset _ _ _ hrecord)

theorem Paced.later (h : Paced policy state clock log) {clock' : ℤ} (hc : clock ≤ clock') :
    Paced policy state clock' log where
  limits := h.limits
  ordered := h.ordered
  past a ha := (h.past a ha).trans hc
  knows := h.knows.later hc
  recorded := h.recorded

/-- When the state was saved does not matter. -/
theorem Paced.saved (h : Paced policy state clock log) (savedAt : Option ℤ) :
    Paced policy {state with savedAt} clock log :=
  ⟨h.limits,h.ordered,h.past,h.knows,h.recorded⟩

/-- An admission keeps the pace. -/
theorem Paced.admitted (h : Paced policy state clock log) (hpolicy : Recordable policy)
    (hadm : Admissible policy state proposal clock) :
    Paced policy (recordOutboundAction state proposal (budgetFor policy proposal.kind) clock) clock
      (log++[⟨proposal,clock⟩]) where
  limits := h.limits.propose h.ordered h.past (h.knows proposal.kind).1 hadm
  ordered := List.pairwise_append.mpr ⟨h.ordered,List.pairwise_singleton _ _,fun a ha b hb => by
    rw [List.mem_singleton.mp hb]
    exact h.past a ha⟩
  past a ha := by
    rcases List.mem_append.mp ha with ha | ha
    · exact h.past a ha
    · rw [List.mem_singleton.mp ha]
  knows := h.knows.record h.ordered h.past (h.fits hpolicy hadm)
  recorded := by
    intro kind record hrecord
    rw [ofKind_append]
    by_cases hkind : proposal.kind = kind
    · subst hkind
      have husage : ((recordOutboundAction state proposal (budgetFor policy proposal.kind)
          clock).usage proposal.kind) = recordKind (state.usage proposal.kind)
            (outboundDedupKey proposal) (budgetFor policy proposal.kind) clock := by
        simp only [recordOutboundAction,OutboundBudgetState.setUsage,Function.update_self]
      rw [husage,(h.knows proposal.kind).1.recordKind_eq
        (fun a ha => h.past a (List.mem_of_mem_filter ha))] at hrecord
      rw [if_pos rfl]
      rcases List.mem_append.mp (pruneKind_subset _ _ _ hrecord) with hold | hnew
      · obtain ⟨a,ha,hkey,htime⟩ := h.recorded proposal.kind record (List.mem_of_mem_filter hold)
        exact ⟨a,List.mem_append_left _ ha,hkey,htime⟩
      · rw [List.mem_singleton.mp hnew]
        exact ⟨⟨proposal,clock⟩,List.mem_append_right _ (List.mem_singleton_self _),rfl,rfl⟩
    · have husage : ((recordOutboundAction state proposal (budgetFor policy proposal.kind)
          clock).usage kind) = state.usage kind := by
        simp only [recordOutboundAction,OutboundBudgetState.setUsage]
        exact Function.update_of_ne (Ne.symm hkind) _ _
      rw [husage] at hrecord
      rw [if_neg hkind]
      exact h.recorded kind record hrecord

end Paced

end Atperson.Outbound
