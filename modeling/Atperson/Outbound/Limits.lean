import Atperson.Outbound.Evaluate
import Atperson.Outbound.BudgetFile
import Atperson.Runs.Guarded
import Atperson.Runs.SlidingWindow

/-!
# Limits over whole runs

A host admits, prunes, saves and loads under one policy while its clock never goes back.
The log of what it admitted is compared with what the bounded record still remembers. The
record answers like the whole log as long as its cap drops no entry that can still matter;
a policy can ask for more than the cap holds.
-/
namespace Atperson.Outbound
open Wire Runs

structure Admission where
  proposal : OutboundActionProposal
  time : ℤ
  deriving DecidableEq

def Admission.key (a : Admission) : Bytes := outboundDedupKey a.proposal

def ofKind (kind : OutboundActionKind) (log : List Admission) : List Admission :=
  log.filter (·.proposal.kind = kind)

/-- The limits of a policy over a log of admissions. -/
structure WithinLimits (policy : OutboundPolicy) (log : List Admission) : Prop where
  window : ∀ kind, WindowLimit (budgetFor policy kind).windowSeconds
    (budgetFor policy kind).maxInWindow ((ofKind kind log).map (·.time))
  spacing : ∀ kind, (ofKind kind log).Pairwise
    (fun a b => a.time+(budgetFor policy kind).minIntervalSeconds ≤ b.time)
  cooldown : log.Pairwise (fun a b => a.key = b.key →
    a.time+(budgetFor policy a.proposal.kind).duplicateCooldownSeconds ≤ b.time)

/-! The host. -/

structure Host where
  state : OutboundBudgetState := {}
  file : Option (Json ℤ) := none
  clock : ℤ
  admitted : List Admission := []
  /-- How many admissions the file has seen. -/
  saved : ℕ := 0

inductive Act where
  | propose (proposal : OutboundActionProposal)
  | prune
  | save
  | load

/-- An act some seconds after the one before. -/
structure TimedAct where
  wait : ℕ
  act : Act

def budgetPath : String := "outbound-budget.json"

/-- A failed save writes nothing, and a failed load leaves the caller what it has. -/
def hostAct (policy : OutboundPolicy) (host : Host) (now : ℤ) : Act → Host
  | .propose proposal =>
      let result := admitOutboundAction policy host.state proposal now
      if result.1.outcome = .allow then
        {host with state := result.2, admitted := host.admitted++[⟨proposal,now⟩]}
      else {host with state := result.2}
  | .prune => {host with state := pruneOutboundBudgetState host.state policy now}
  | .save =>
      match serialiseOutboundBudgetState host.state with
      | .ok doc => {host with file := some doc, saved := host.admitted.length}
      | .error _ => host
  | .load =>
      match loadOutboundBudgetState host.file budgetPath with
      | .ok state => {host with state := state}
      | .error _ => host

def hostStep (policy : OutboundPolicy) (host : Host) (step : TimedAct) : Host :=
  let now := host.clock+step.wait
  {hostAct policy host now step.act with clock := now}

/-- Recording drops no action of the trailing window and no identity still cooling down. -/
def RecordFits (budget : ActionBudget) (usage : OutboundKindUsage) (key : Bytes) (now : ℤ) :
    Prop :=
  usage.recentActions.countP (fun t => now-budget.windowSeconds ≤ t)
      < kMaxOutboundRecordsPerKind ∧
    (budget.duplicateCooldownSeconds > 0 →
      usage.recentDuplicates.countP (fun record => record.key ≠ key ∧
        now-budget.duplicateCooldownSeconds+1 ≤ record.atTime) < kMaxOutboundRecordsPerKind)

instance (budget : ActionBudget) (usage : OutboundKindUsage) (key : Bytes) (now : ℤ) :
    Decidable (RecordFits budget usage key now) :=
  inferInstanceAs (Decidable (_ ∧ _))

/-- An admission fits the record, a saved state survives its conversions, and a loaded file
has seen every admission. -/
def Retentive (policy : OutboundPolicy) (host : Host) (step : TimedAct) : Prop :=
  match step.act with
  | .propose proposal =>
      Admissible policy host.state proposal (host.clock+step.wait) →
        RecordFits (budgetFor policy proposal.kind) (host.state.usage proposal.kind)
          (outboundDedupKey proposal) (host.clock+step.wait)
  | .prune => True
  | .save => Representable host.state
  | .load => host.saved = host.admitted.length

instance (policy : OutboundPolicy) (host : Host) (step : TimedAct) :
    Decidable (Retentive policy host step) :=
  match step with
  | ⟨_,.propose _⟩ => inferInstanceAs (Decidable (_ → _))
  | ⟨_,.prune⟩ => .isTrue trivial
  | ⟨_,.save⟩ => inferInstanceAs (Decidable (Representable _))
  | ⟨_,.load⟩ => inferInstanceAs (Decidable (_ = _))

/-! What the record of one kind remembers of its admissions. -/

/-- `log` holds the admissions of one kind. -/
structure Remembers (budget : ActionBudget) (usage : OutboundKindUsage) (clock : ℤ)
    (log : List Admission) : Prop where
  last : usage.lastActionAt = (log.map (·.time)).getLast?
  actions : KeepsFrom id (clock-budget.windowSeconds) (log.map (·.time)) usage.recentActions
  identities : budget.duplicateCooldownSeconds > 0 → ∀ a ∈ log,
    clock-budget.duplicateCooldownSeconds+1 ≤ a.time →
      ∃ record ∈ usage.recentDuplicates, record.key = a.key ∧ a.time ≤ record.atTime
  distinct : (usage.recentDuplicates.map (·.key)).Nodup
  aged : usage.recentDuplicates.Pairwise (fun r s => r.atTime ≤ s.atTime)
  past : ∀ record ∈ usage.recentDuplicates, record.atTime ≤ clock

/-- The cap of the file and of pruning. -/
structure Capped (usage : OutboundKindUsage) : Prop where
  actions : usage.recentActions.length ≤ kMaxOutboundRecordsPerKind
  duplicates : usage.recentDuplicates.length ≤ kMaxOutboundRecordsPerKind

theorem keepLast_length {α : Type} (records : List α) :
    (keepLast records).length ≤ kMaxOutboundRecordsPerKind := by
  rw [keepLast,List.length_drop]
  omega

theorem pruneKind_capped (usage : OutboundKindUsage) (budget : ActionBudget) (now : ℤ) :
    Capped (pruneKind usage budget now) := by
  constructor
  · rw [pruneKind_actions]; exact keepLast_length _
  · rw [pruneKind_duplicates]; exact keepLast_length _

section Kind
variable {budget : ActionBudget} {usage : OutboundKindUsage} {clock : ℤ}
variable {log : List Admission}

theorem Remembers.later (h : Remembers budget usage clock log) {clock' : ℤ}
    (hc : clock ≤ clock') : Remembers budget usage clock' log where
  last := h.last
  actions := h.actions.mono (by omega)
  identities hcool a ha hrecent := h.identities hcool a ha (by omega)
  distinct := h.distinct
  aged := h.aged
  past record hr := (h.past record hr).trans hc

theorem KeepsFrom.prune {α : Type} {time : α → ℤ} {bound cutoff : ℤ} {records : List α}
    (hs : records.Pairwise (fun a b => time a ≤ time b)) (hc : cutoff ≤ bound)
    (hfits : records.countP (fun a => bound ≤ time a) ≤ kMaxOutboundRecordsPerKind) :
    KeepsFrom time bound records (keepLast (records.filter (fun a => ¬time a < cutoff))) := by
  have hfilter := (keepsFrom_filter hs).mono hc
  refine hfilter.trans (keepsFrom_newest (hs.sublist List.filter_sublist) ?_) le_rfl
  rwa [hfilter.countP (fun a ha => by simpa using ha)]

/-- Pruning keeps what is remembered when few enough entries are recent. -/
theorem Remembers.prune (h : Remembers budget usage clock log)
    (hs : usage.recentActions.Pairwise (· ≤ ·))
    (hactions : usage.recentActions.countP (fun t => clock-budget.windowSeconds ≤ t)
      ≤ kMaxOutboundRecordsPerKind)
    (hduplicates : budget.duplicateCooldownSeconds > 0 →
      usage.recentDuplicates.countP
        (fun record => clock-budget.duplicateCooldownSeconds+1 ≤ record.atTime)
          ≤ kMaxOutboundRecordsPerKind) :
    Remembers budget (pruneKind usage budget clock) clock log := by
  have hkept : KeepsFrom id (clock-budget.windowSeconds) usage.recentActions
      (pruneKind usage budget clock).recentActions := by
    rw [pruneKind_actions]
    exact KeepsFrom.prune hs (by omega) hactions
  by_cases hcool : budget.duplicateCooldownSeconds > 0
  · have hdup : KeepsFrom OutboundDuplicateRecord.atTime
        (clock-budget.duplicateCooldownSeconds+1) usage.recentDuplicates
        (pruneKind usage budget clock).recentDuplicates := by
      rw [pruneKind_duplicates,if_pos hcool]
      exact KeepsFrom.prune h.aged (by omega) (hduplicates hcool)
    have hsub := hdup.sublist
    refine ⟨by rw [pruneKind_last,h.last],h.actions.trans hkept le_rfl,fun _ a ha hrecent => ?_,
      h.distinct.sublist (hsub.map _),h.aged.sublist hsub,fun r hr => h.past r (hsub.mem hr)⟩
    obtain ⟨record,hr,hkey,hle⟩ := h.identities hcool a ha hrecent
    exact ⟨record,hdup.mem hr (hrecent.trans hle),hkey,hle⟩
  · have hnone : (pruneKind usage budget clock).recentDuplicates = [] := by
      rw [pruneKind_duplicates,if_neg hcool,keepLast,List.drop_nil]
    refine ⟨by rw [pruneKind_last,h.last],h.actions.trans hkept le_rfl,fun hc => absurd hc hcool,?_,?_,?_⟩
    all_goals rw [hnone]; simp

theorem Remembers.ordered (h : Remembers budget usage clock log)
    (hs : log.Pairwise (fun a b => a.time ≤ b.time)) :
    usage.recentActions.Pairwise (· ≤ ·) := by
  have hmap : (log.map (·.time)).Pairwise (· ≤ ·) := List.pairwise_map.mpr hs
  exact hmap.sublist h.actions.sublist

/-- Recording an admission before any pruning. -/
def recordUnpruned (usage : OutboundKindUsage) (key : Bytes) (now : ℤ) :
    OutboundKindUsage where
  lastActionAt := some now
  recentActions := usage.recentActions++[now]
  recentDuplicates := usage.recentDuplicates.filter (·.key ≠ key)++[⟨key,now⟩]

theorem Remembers.recordKind_eq (h : Remembers budget usage clock log)
    (hpast : ∀ a ∈ log, a.time ≤ clock) (key : Bytes) :
    recordKind usage key budget clock =
      pruneKind (recordUnpruned usage key clock) budget clock := by
  have hclamp : clampToLast usage clock = clock := by
    unfold clampToLast
    split
    · rename_i last hl
      obtain ⟨a,ha,rfl⟩ := List.mem_map.mp (List.mem_of_getLast? (h.last.symm.trans hl))
      rw [if_neg (not_lt.mpr (hpast a ha))]
    · rfl
  simp only [recordKind,hclamp,recordUnpruned]

theorem Remembers.recordUnpruned (h : Remembers budget usage clock log)
    (proposal : OutboundActionProposal) :
    Remembers budget (recordUnpruned usage (outboundDedupKey proposal) clock) clock
      (log++[⟨proposal,clock⟩]) where
  last := by simp [Outbound.recordUnpruned]
  actions := by
    rw [List.map_append]
    exact h.actions.append clock
  identities hcool a ha hrecent := by
    rcases List.mem_append.mp ha with ha | ha
    · obtain ⟨record,hr,hkey,hle⟩ := h.identities hcool a ha hrecent
      by_cases hsame : record.key = outboundDedupKey proposal
      · refine ⟨⟨outboundDedupKey proposal,clock⟩,by simp [Outbound.recordUnpruned],
          by rw [← hkey,hsame],hle.trans (h.past record hr)⟩
      · exact ⟨record,by simp [Outbound.recordUnpruned,hr,hsame],hkey,hle⟩
    · rw [List.mem_singleton.mp ha]
      exact ⟨⟨outboundDedupKey proposal,clock⟩,by simp [Outbound.recordUnpruned],rfl,le_rfl⟩
  distinct := by
    simp only [Outbound.recordUnpruned,List.map_append,List.map_cons,List.map_nil]
    refine List.nodup_append.mpr ⟨h.distinct.sublist (List.filter_sublist.map _),by simp,?_⟩
    intro key hk key' hk'
    obtain ⟨record,hr,rfl⟩ := List.mem_map.mp hk
    rw [List.mem_singleton.mp hk']
    simpa using (List.mem_filter.mp hr).2
  aged := by
    refine List.pairwise_append.mpr ⟨h.aged.sublist List.filter_sublist,by simp,?_⟩
    intro record hr record' hr'
    rw [List.mem_singleton.mp hr']
    exact h.past record (List.mem_of_mem_filter hr)
  past record hr := by
    rcases List.mem_append.mp hr with hr | hr
    · exact h.past record (List.mem_of_mem_filter hr)
    · rw [List.mem_singleton.mp hr]

/-- Recording an admission that fits. -/
theorem Remembers.record (h : Remembers budget usage clock log)
    (hs : log.Pairwise (fun a b => a.time ≤ b.time)) (hpast : ∀ a ∈ log, a.time ≤ clock)
    {proposal : OutboundActionProposal}
    (hfits : RecordFits budget usage (outboundDedupKey proposal) clock) :
    Remembers budget (recordKind usage (outboundDedupKey proposal) budget clock) clock
      (log++[⟨proposal,clock⟩]) := by
  have hs' : (log++[⟨proposal,clock⟩] : List Admission).Pairwise
      (fun a b => a.time ≤ b.time) :=
    List.pairwise_append.mpr ⟨hs,by simp,fun a ha b hb => by
      rw [List.mem_singleton.mp hb]; exact hpast a ha⟩
  have hrec := h.recordUnpruned proposal
  rw [h.recordKind_eq hpast]
  refine hrec.prune (hrec.ordered hs') ?_ fun hcool => ?_
  · simp only [Outbound.recordUnpruned,List.countP_append]
    have hone := List.countP_le_length (l := [clock])
      (p := fun t => decide (clock-budget.windowSeconds ≤ t))
    have hlt := hfits.1
    simp only [List.length_singleton] at hone
    omega
  · simp only [Outbound.recordUnpruned,List.countP_append,List.countP_filter]
    have hone := List.countP_le_length (l := [(⟨outboundDedupKey proposal,clock⟩ :
      OutboundDuplicateRecord)])
      (p := fun r => decide (clock-budget.duplicateCooldownSeconds+1 ≤ r.atTime))
    have hlt := hfits.2 hcool
    have hcount : usage.recentDuplicates.countP (fun record =>
        decide (clock-budget.duplicateCooldownSeconds+1 ≤ record.atTime) &&
          decide (record.key ≠ outboundDedupKey proposal)) =
        usage.recentDuplicates.countP (fun record => record.key ≠ outboundDedupKey proposal ∧
          clock-budget.duplicateCooldownSeconds+1 ≤ record.atTime) := by
      refine List.countP_congr fun record _ => ?_
      simp [and_comm]
    simp only [List.length_singleton] at hone
    omega

end Kind

/-! An admitted proposal keeps the limits. -/

theorem outboundKindName_inj : ∀ kind kind' : OutboundActionKind,
    utf8 (outboundKindName kind) = utf8 (outboundKindName kind') → kind = kind' := by
  decide +kernel

/-- An identity names its kind: no kind's name holds the separator. -/
theorem outboundDedupKey_kind {a b : OutboundActionProposal}
    (h : outboundDedupKey a = outboundDedupKey b) : a.kind = b.kind := by
  have hname (p : OutboundActionProposal) :
      (outboundDedupKey p).takeWhile (· ≠ colon) = utf8 (outboundKindName p.kind) := by
    have hno : ∀ c ∈ utf8 (outboundKindName p.kind), decide (c ≠ colon) = true := by
      cases p.kind <;> decide +kernel
    rw [outboundDedupKey,List.takeWhile_append_of_pos hno,
      List.takeWhile_cons_of_neg (by simp),List.append_nil]
  exact outboundKindName_inj _ _ (by rw [← hname a,← hname b,h])

theorem ofKind_append (kind : OutboundActionKind) (log : List Admission) (a : Admission) :
    ofKind kind (log++[a]) =
      if a.proposal.kind = kind then ofKind kind log++[a] else ofKind kind log := by
  simp only [ofKind,List.filter_append,List.filter_cons,List.filter_nil]
  split <;> simp_all

theorem le_getLast {times : List ℤ} {last : ℤ} (hs : times.Pairwise (· ≤ ·))
    (hl : times.getLast? = some last) : ∀ t ∈ times, t ≤ last := by
  obtain ⟨front,rfl⟩ := List.getLast?_eq_some_iff.mp hl
  intro t ht
  rcases List.mem_append.mp ht with ht | ht
  · exact (List.pairwise_append.mp hs).2.2 t ht last (by simp)
  · rw [List.mem_singleton.mp ht]

section Admit
variable {policy : OutboundPolicy} {state : OutboundBudgetState} {now : ℤ}
variable {log : List Admission} {proposal : OutboundActionProposal}

theorem spacing_of_admissible {kindLog : List Admission}
    (hmem : Remembers (budgetFor policy proposal.kind) (state.usage proposal.kind) now kindLog)
    (hs : kindLog.Pairwise (fun a b => a.time ≤ b.time)) (hpast : ∀ a ∈ kindLog, a.time ≤ now)
    (hadm : Admissible policy state proposal now) :
    ∀ a ∈ kindLog, a.time+(budgetFor policy proposal.kind).minIntervalSeconds ≤ now := by
  intro a ha
  have htime : a.time ∈ kindLog.map (·.time) := List.mem_map_of_mem ha
  have hl := List.getLast?_eq_some_getLast (List.ne_nil_of_mem htime)
  have hle := le_getLast (List.pairwise_map.mpr hs) hl _ htime
  have hspaced := hadm.spaced _ (hmem.last.trans hl)
  have := hpast a ha
  omega

theorem cooldown_of_admissible {kindLog : List Admission}
    (hmem : Remembers (budgetFor policy proposal.kind) (state.usage proposal.kind) now kindLog)
    (hpast : ∀ a ∈ kindLog, a.time ≤ now) (hadm : Admissible policy state proposal now) :
    ∀ a ∈ kindLog, a.key = outboundDedupKey proposal →
      a.time+(budgetFor policy proposal.kind).duplicateCooldownSeconds ≤ now := by
  intro a ha hkey
  by_contra hnot
  have hle := hpast a ha
  have hcool : (budgetFor policy proposal.kind).duplicateCooldownSeconds > 0 := by omega
  obtain ⟨record,hr,hrkey,hrle⟩ := hmem.identities hcool a ha (by omega)
  have hfind : (state.usage proposal.kind).recentDuplicates.find?
      (·.key = outboundDedupKey proposal) = some record := by
    cases hf : (state.usage proposal.kind).recentDuplicates.find?
        (·.key = outboundDedupKey proposal) with
    | none => exact absurd (by simp [hrkey,hkey]) (List.find?_eq_none.mp hf record hr)
    | some other =>
        have hsame : other.key = record.key := by
          have := List.find?_some hf
          simp only [decide_eq_true_eq] at this
          rw [this,hrkey,hkey]
        rw [List.inj_on_of_nodup_map hmem.distinct (List.mem_of_find?_eq_some hf) hr hsame]
  have hfresh := hadm.fresh
  simp only [suppressedFor,if_pos hcool,duplicateOutboundRecordedAt,hfind,Option.map_some,
    Option.filter_eq_none_iff,Option.some.injEq,forall_eq',decide_eq_true_eq] at hfresh
  split at hfresh <;> omega

/-- A proposal the remembered record admits keeps the limits of the whole log. -/
theorem WithinLimits.propose (h : WithinLimits policy log)
    (hs : log.Pairwise (fun a b => a.time ≤ b.time)) (hpast : ∀ a ∈ log, a.time ≤ now)
    (hmem : Remembers (budgetFor policy proposal.kind) (state.usage proposal.kind) now
      (ofKind proposal.kind log))
    (hadm : Admissible policy state proposal now) :
    WithinLimits policy (log++[⟨proposal,now⟩]) := by
  have hpk : ∀ a ∈ ofKind proposal.kind log, a.time ≤ now :=
    fun a ha => hpast a (List.mem_of_mem_filter ha)
  have hsk := hs.sublist (List.filter_sublist (p := (·.proposal.kind = proposal.kind)))
  refine ⟨fun kind => ?_,fun kind => ?_,?_⟩
  · rw [ofKind_append]
    split
    · rename_i hkind
      subst hkind
      rw [List.map_append]
      refine (h.window _).extend ?_
      rw [← hmem.actions.countP (fun t ht => by simpa using ht)]
      exact hadm.belowLimit
    · exact h.window kind
  · rw [ofKind_append]
    split
    · rename_i hkind
      subst hkind
      refine List.pairwise_append.mpr ⟨h.spacing _,by simp,fun a ha b hb => ?_⟩
      rw [List.mem_singleton.mp hb]
      exact spacing_of_admissible hmem hsk hpk hadm a ha
    · exact h.spacing kind
  · refine List.pairwise_append.mpr ⟨h.cooldown,by simp,fun a ha b hb hkey => ?_⟩
    rw [List.mem_singleton.mp hb] at hkey ⊢
    have hkind : a.proposal.kind = proposal.kind := outboundDedupKey_kind hkey
    rw [hkind]
    exact cooldown_of_admissible hmem hpk hadm a
      (List.mem_filter.mpr ⟨ha,by simpa using hkind⟩) hkey

end Admit

/-! What every retentive run keeps. -/

/-- The record of every kind remembers the kind's admissions, within the cap. -/
def Knows (policy : OutboundPolicy) (state : OutboundBudgetState) (clock : ℤ)
    (log : List Admission) : Prop :=
  ∀ kind, Remembers (budgetFor policy kind) (state.usage kind) clock (ofKind kind log) ∧
    Capped (state.usage kind)

structure Sound (policy : OutboundPolicy) (host : Host) : Prop where
  limits : WithinLimits policy host.admitted
  ordered : host.admitted.Pairwise (fun a b => a.time ≤ b.time)
  past : ∀ a ∈ host.admitted, a.time ≤ host.clock
  knows : Knows policy host.state host.clock host.admitted
  savedLe : host.saved ≤ host.admitted.length
  /-- A file that has seen every admission loads as a state that knows them. -/
  file : host.saved = host.admitted.length → ∀ state,
    loadOutboundBudgetState host.file budgetPath = .ok state →
      Knows policy state host.clock host.admitted

section Host
variable {policy : OutboundPolicy} {host : Host} {log : List Admission}

theorem ofKind_ordered (kind : OutboundActionKind)
    (hs : log.Pairwise (fun a b => a.time ≤ b.time)) :
    (ofKind kind log).Pairwise (fun a b => a.time ≤ b.time) :=
  hs.sublist List.filter_sublist

theorem Knows.later {state : OutboundBudgetState} {clock clock' : ℤ}
    (h : Knows policy state clock log) (hc : clock ≤ clock') : Knows policy state clock' log :=
  fun kind => ⟨(h kind).1.later hc,(h kind).2⟩

theorem Knows.prune {state : OutboundBudgetState} {clock : ℤ}
    (h : Knows policy state clock log) (hs : log.Pairwise (fun a b => a.time ≤ b.time)) :
    Knows policy (pruneOutboundBudgetState state policy clock) clock log := by
  intro kind
  obtain ⟨hmem,hcap⟩ := h kind
  refine ⟨hmem.prune (hmem.ordered (ofKind_ordered kind hs)) ?_ fun _ => ?_,
    pruneKind_capped _ _ _⟩
  · exact List.countP_le_length.trans hcap.actions
  · exact List.countP_le_length.trans hcap.duplicates

theorem Knows.record {state : OutboundBudgetState} {clock : ℤ}
    (h : Knows policy state clock log) (hs : log.Pairwise (fun a b => a.time ≤ b.time))
    (hpast : ∀ a ∈ log, a.time ≤ clock) {proposal : OutboundActionProposal}
    (hfits : RecordFits (budgetFor policy proposal.kind) (state.usage proposal.kind)
      (outboundDedupKey proposal) clock) :
    Knows policy
      (recordOutboundAction state proposal (budgetFor policy proposal.kind) clock) clock
      (log++[⟨proposal,clock⟩]) := by
  intro kind
  rw [ofKind_append]
  by_cases hkind : proposal.kind = kind
  · subst hkind
    rw [if_pos rfl]
    have hrecord := (h proposal.kind).1.record (ofKind_ordered _ hs)
      (fun a ha => hpast a (List.mem_of_mem_filter ha)) hfits
    have hsame : (recordOutboundAction state proposal (budgetFor policy proposal.kind)
        clock).usage proposal.kind = recordKind (state.usage proposal.kind)
          (outboundDedupKey proposal) (budgetFor policy proposal.kind) clock := by
      simp only [recordOutboundAction,OutboundBudgetState.setUsage,Function.update_self]
    rw [hsame]
    exact ⟨hrecord,by rw [recordKind]; exact pruneKind_capped _ _ _⟩
  · rw [if_neg hkind]
    have hsame : (recordOutboundAction state proposal (budgetFor policy proposal.kind)
        clock).usage kind = state.usage kind := by
      simp only [recordOutboundAction,OutboundBudgetState.setUsage]
      exact Function.update_of_ne (Ne.symm hkind) _ _
    rw [hsame]
    exact h kind

theorem Sound.wait (h : Sound policy host) (wait : ℕ) :
    Sound policy {host with clock := host.clock+wait} where
  limits := h.limits
  ordered := h.ordered
  past a ha := (h.past a ha).trans (by simp)
  knows := h.knows.later (by simp)
  savedLe := h.savedLe
  file hsaved state hl := (h.file hsaved state hl).later (by simp)

theorem Sound.propose (h : Sound policy host) {proposal : OutboundActionProposal}
    (hadm : Admissible policy host.state proposal host.clock)
    (hfits : RecordFits (budgetFor policy proposal.kind) (host.state.usage proposal.kind)
      (outboundDedupKey proposal) host.clock) :
    Sound policy {host with
      state := recordOutboundAction host.state proposal (budgetFor policy proposal.kind)
        host.clock
      admitted := host.admitted++[⟨proposal,host.clock⟩]} where
  limits := h.limits.propose h.ordered h.past (h.knows proposal.kind).1 hadm
  ordered := List.pairwise_append.mpr ⟨h.ordered,by simp,fun a ha b hb => by
    rw [List.mem_singleton.mp hb]; exact h.past a ha⟩
  past a ha := by
    rcases List.mem_append.mp ha with ha | ha
    · exact h.past a ha
    · rw [List.mem_singleton.mp ha]
  knows := h.knows.record h.ordered h.past hfits
  savedLe := h.savedLe.trans (by simp)
  file hsaved := by
    have := h.savedLe
    simp only [List.length_append,List.length_singleton] at hsaved
    omega

theorem Sound.prune (h : Sound policy host) : Sound policy {host with
    state := pruneOutboundBudgetState host.state policy host.clock} where
  limits := h.limits
  ordered := h.ordered
  past := h.past
  knows := h.knows.prune h.ordered
  savedLe := h.savedLe
  file := h.file

/-- One step of a retentive run. -/
theorem Sound.step (h : Sound policy host) {step : TimedAct}
    (hret : Retentive policy host step) : Sound policy (hostStep policy host step) := by
  obtain ⟨wait,act⟩ := step
  have hw := h.wait wait
  cases act with
  | propose proposal =>
      have hiff := evaluate_allow_iff policy host.state proposal (host.clock+wait)
      simp only [hostStep,hostAct,admitOutboundAction]
      by_cases hallow : (evaluateOutboundPolicy policy host.state proposal
          (host.clock+wait)).outcome = .allow
      · simp only [if_pos hallow]
        exact hw.propose (hiff.mp hallow) (hret (hiff.mp hallow))
      · simp only [if_neg hallow]
        exact hw
  | prune =>
      simp only [hostStep,hostAct]
      exact hw.prune
  | save =>
      simp only [hostStep,hostAct]
      cases hdoc : serialiseOutboundBudgetState host.state with
      | error e => exact hw
      | ok doc =>
          refine {hw with savedLe := le_rfl, file := fun _ state hl => ?_}
          rw [load_serialise hret hdoc hl]
          exact hw.knows
  | load =>
      simp only [hostStep,hostAct]
      cases hload : loadOutboundBudgetState host.file budgetPath with
      | error e => exact hw
      | ok state => exact {hw with knows := hw.file hret state hload}

theorem sound_start (policy : OutboundPolicy) (clock : ℤ) : Sound policy {clock := clock} where
  limits := ⟨fun _ => WindowLimit.nil,fun _ => List.Pairwise.nil,List.Pairwise.nil⟩
  ordered := List.Pairwise.nil
  past a ha := by cases ha
  knows _ := ⟨⟨rfl,KeepsFrom.refl,by simp [ofKind],List.nodup_nil,List.Pairwise.nil,by simp⟩,
    ⟨by simp,by simp⟩⟩
  savedLe := le_rfl
  file _ state hl := by
    cases hl
    exact fun _ => ⟨⟨rfl,KeepsFrom.refl,by simp [ofKind],List.nodup_nil,List.Pairwise.nil,
      by simp⟩,⟨by simp,by simp⟩⟩

end Host

/-- Limits hold over every run in which no record that still matters is dropped. -/
theorem retentive_run_within_limits (policy : OutboundPolicy) (clock : ℤ)
    (steps : List TimedAct)
    (h : Guarded (hostStep policy) (Retentive policy) {clock := clock} steps) :
    WithinLimits policy (runFrom (hostStep policy) {clock := clock} steps).admitted :=
  (h.invariant (P := Sound policy) (fun _ _ hs hr => hs.step hr) (sound_start policy clock)).limits

def samplePost : OutboundActionProposal := ⟨.post,[],[97]⟩

def samplePolicy (maxInWindow : ℕ) (spacing cooldown : ℤ) : OutboundPolicy where
  budgets _ := {
    enabled := true
    maxInWindow := maxInWindow
    windowSeconds := 100
    minIntervalSeconds := spacing
    duplicateCooldownSeconds := cooldown }

/-- Three proposals across a restart; the second comes too soon after the first. -/
theorem retentive_run_within_limits_sample :
    WithinLimits (samplePolicy 2 10 30) (runFrom (hostStep (samplePolicy 2 10 30))
      {clock := 1000} [⟨0,.propose samplePost⟩,⟨1,.save⟩,⟨0,.load⟩,⟨20,.propose samplePost⟩,
        ⟨5,.prune⟩,⟨5,.propose samplePost⟩,⟨0,.save⟩]).admitted :=
  retentive_run_within_limits _ _ _ (by decide +kernel)

/-- The record while proposals arrive at one time under a limit above its cap. -/
structure Flooded (host : Host) (n : ℕ) : Prop where
  clock : host.clock = 0
  admitted : host.admitted = List.replicate n ⟨samplePost,0⟩
  last : ∀ t ∈ (host.state.usage .post).lastActionAt, t = 0
  actions : ∀ t ∈ (host.state.usage .post).recentActions, t = 0
  capped : (host.state.usage .post).recentActions.length ≤ kMaxOutboundRecordsPerKind

theorem Flooded.step {host : Host} {n : ℕ} (h : Flooded host n) :
    Flooded (hostStep (samplePolicy 257 0 0) host ⟨0,.propose samplePost⟩) (n+1) := by
  have hcap : kMaxOutboundRecordsPerKind = 256 := by unfold kMaxOutboundRecordsPerKind; rfl
  have hadm : Admissible (samplePolicy 257 0 0) host.state samplePost 0 := by
    refine ⟨rfl,by simp [suppressedFor,budgetFor,samplePolicy],fun t _ => .inr le_rfl,?_⟩
    have hlen := h.capped
    rw [hcap] at hlen
    exact List.countP_le_length.trans_lt (Nat.lt_succ_of_le hlen)
  have hclamp : clampToLast (host.state.usage .post) 0 = 0 := by
    unfold clampToLast
    split
    · rename_i last hl
      simp [h.last last hl]
    · rfl
  have hallow := (evaluate_allow_iff _ _ _ _).mpr hadm
  simp only [hostStep,hostAct,admitOutboundAction,h.clock,Nat.cast_zero,add_zero,hallow,if_true]
  have husage : ((recordOutboundAction host.state samplePost
      (budgetFor (samplePolicy 257 0 0) samplePost.kind) 0).usage .post) =
      recordKind (host.state.usage .post) (outboundDedupKey samplePost)
        (budgetFor (samplePolicy 257 0 0) samplePost.kind) 0 := by
    simp only [recordOutboundAction,OutboundBudgetState.setUsage]
    exact Function.update_self _ _ _
  refine ⟨rfl,?_,?_,?_,?_⟩
  · rw [h.admitted,List.replicate_succ']
  · rw [husage,recordKind,pruneKind_last,hclamp]
    simp
  · rw [husage,recordKind,pruneKind_actions,hclamp]
    intro t ht
    rcases List.mem_append.mp (List.mem_of_mem_filter (List.mem_of_mem_drop ht)) with ht | ht
    · exact h.actions t ht
    · exact List.mem_singleton.mp ht
  · rw [husage,recordKind]
    exact (pruneKind_capped _ _ _).actions

theorem flooded_run (n : ℕ) :
    Flooded (runFrom (hostStep (samplePolicy 257 0 0)) {clock := 0}
      (List.replicate n ⟨0,.propose samplePost⟩)) n := by
  induction n with
  | zero => exact ⟨rfl,rfl,by simp,by simp,by simp⟩
  | succ n ih =>
      rw [List.replicate_succ',runFrom_append]
      exact ih.step

/-- A limit of 257 never closes: the record holds 256 times. -/
theorem limit_above_cap_never_closes :
    validate (samplePolicy 257 0 0) "outbound-policy.json" = .ok () ∧
      ¬WithinLimits (samplePolicy 257 0 0) (runFrom (hostStep (samplePolicy 257 0 0))
        {clock := 0} (List.replicate 258 ⟨0,.propose samplePost⟩)).admitted := by
  refine ⟨by decide +kernel,fun h => ?_⟩
  have hcount := h.window .post 0
  rw [(flooded_run 258).admitted] at hcount
  revert hcount
  decide +kernel

end Atperson.Outbound
