import Atperson.Outbound.Evaluate

/-!
# Deferral hints

A deferred proposal comes with the seconds until it is worth another look. While nothing is
admitted and the clock does not go back, a cooldown only runs out and a window only empties,
so the reason of a deferral holds up to the hinted time and is gone at it.
-/
namespace Atperson.Outbound
open Wire

/-! ## The reasons -/

/-- The verdict at a time is a deferral for a reason. -/
def DefersFor (policy : OutboundPolicy) (state : OutboundBudgetState)
    (proposal : OutboundActionProposal) (reason : OutboundReason) (now : ℤ) : Prop :=
  (evaluateOutboundPolicy policy state proposal now).outcome = .defer ∧
    (evaluateOutboundPolicy policy state proposal now).reason = reason

instance (policy : OutboundPolicy) (state : OutboundBudgetState)
    (proposal : OutboundActionProposal) (reason : OutboundReason) (now : ℤ) :
    Decidable (DefersFor policy state proposal reason now) :=
  inferInstanceAs (Decidable (_ ∧ _))

/-- What a deferral for a reason comes from, in the order of the checks. -/
inductive Deferral (policy : OutboundPolicy) (state : OutboundBudgetState)
    (proposal : OutboundActionProposal) (now : ℤ) : OutboundReason → ℤ → Prop
  | duplicate (elapsed : ℤ)
      (suppressed : suppressedFor (budgetFor policy proposal.kind) state proposal now =
        some elapsed) :
      Deferral policy state proposal now .duplicateSuppressed
        (max 1 ((budgetFor policy proposal.kind).duplicateCooldownSeconds-elapsed))
  | cooldown
      (fresh : suppressedFor (budgetFor policy proposal.kind) state proposal now = none)
      (cooling : ¬Spaced (budgetFor policy proposal.kind)
        (lastOutboundActionAt state proposal.kind) now) :
      Deferral policy state proposal now .cooldownActive
        (max 1 ((budgetFor policy proposal.kind).minIntervalSeconds-
          (outboundBudgetStatus policy state proposal.kind now).secondsSinceLast))
  | window
      (fresh : suppressedFor (budgetFor policy proposal.kind) state proposal now = none)
      (spaced : Spaced (budgetFor policy proposal.kind)
        (lastOutboundActionAt state proposal.kind) now)
      (full : (budgetFor policy proposal.kind).maxInWindow ≤
        countOutboundActionsInWindow state proposal.kind
          (budgetFor policy proposal.kind).windowSeconds now) :
      Deferral policy state proposal now .windowExhausted
        (match earliestOutboundActionInWindow state proposal.kind
            (budgetFor policy proposal.kind).windowSeconds now with
        | some earliest => max 1 ((budgetFor policy proposal.kind).windowSeconds-
            (if now > earliest then now-earliest else 0)+1)
        | none => max 1 (budgetFor policy proposal.kind).windowSeconds)

section Reasons
variable {policy : OutboundPolicy} {state : OutboundBudgetState}
  {proposal : OutboundActionProposal} {now : ℤ} {reason : OutboundReason}

theorem deferral_of_defersFor (h : DefersFor policy state proposal reason now) :
    (budgetFor policy proposal.kind).enabled = true ∧ Deferral policy state proposal now reason
      (evaluateOutboundPolicy policy state proposal now).retryAfterSeconds := by
  have hs := spaced_iff policy state proposal.kind now
  obtain ⟨hdefer,rfl⟩ := h
  unfold evaluateOutboundPolicy at hdefer ⊢
  simp only at hdefer ⊢
  split at hdefer
  · cases hdefer
  · rename_i henabled
    rw [if_neg henabled]
    refine ⟨Bool.eq_true_of_not_eq_false henabled,?_⟩
    split at hdefer
    · rename_i elapsed hsup
      exact .duplicate elapsed hsup
    · rename_i hfresh
      split at hdefer
      · rename_i hcooling
        rw [if_pos hcooling]
        exact .cooldown hfresh (fun h => hs.mp h hcooling)
      · rename_i hspaced
        rw [if_neg hspaced]
        split at hdefer
        · rename_i hfull
          rw [if_pos hfull]
          exact .window hfresh (hs.mpr hspaced) hfull
        · cases hdefer

theorem defersFor_of_deferral {hint : ℤ} (he : (budgetFor policy proposal.kind).enabled = true)
    (h : Deferral policy state proposal now reason hint) :
    DefersFor policy state proposal reason now := by
  have hs := spaced_iff policy state proposal.kind now
  unfold DefersFor evaluateOutboundPolicy
  simp only [he,Bool.true_eq_false,if_false]
  cases h with
  | duplicate elapsed hsup => simp only [hsup,and_self]
  | cooldown hfresh hcooling =>
      simp only [hfresh,if_pos (not_not.mp fun h => hcooling (hs.mpr h)),and_self]
  | window hfresh hspaced hfull =>
      have hused : (budgetFor policy proposal.kind).maxInWindow ≤
          (outboundBudgetStatus policy state proposal.kind now).usedInWindow := hfull
      simp only [hfresh,if_neg (hs.mp hspaced),if_pos hused,and_self]

end Reasons

/-! ## Reachable states -/

/-- The states a host reaches by a time. A state that is read back from its file is one that
was reached before. -/
inductive Reached (policy : OutboundPolicy) : OutboundBudgetState → ℤ → Prop
  | start (clock : ℤ) : Reached policy {} clock
  | wait {state : OutboundBudgetState} {clock later : ℤ} (h : Reached policy state clock)
      (hle : clock ≤ later) : Reached policy state later
  | allow {state : OutboundBudgetState} {clock : ℤ} (h : Reached policy state clock)
      (proposal : OutboundActionProposal) :
      Reached policy (admitOutboundAction policy state proposal clock).2 clock
  | prune {state : OutboundBudgetState} {clock : ℤ} (h : Reached policy state clock) :
      Reached policy (pruneOutboundBudgetState state policy clock) clock

/-- The times of a kind are in order and past, and the window behind the clock holds no more
than its limit. -/
structure Timely (budget : ActionBudget) (usage : OutboundKindUsage) (clock : ℤ) : Prop where
  ordered : usage.recentActions.Pairwise (· ≤ ·)
  past : ∀ t ∈ usage.recentActions, t ≤ clock
  last : ∀ t ∈ usage.lastActionAt, t ≤ clock
  duplicates : ∀ record ∈ usage.recentDuplicates, record.atTime ≤ clock
  limited : usage.recentActions.countP (fun t => t ≥ clock-budget.windowSeconds) ≤
    budget.maxInWindow

section Timely
variable {budget : ActionBudget} {usage : OutboundKindUsage} {clock : ℤ}

theorem Timely.later (h : Timely budget usage clock) {later : ℤ} (hle : clock ≤ later) :
    Timely budget usage later where
  ordered := h.ordered
  past t ht := (h.past t ht).trans hle
  last t ht := (h.last t ht).trans hle
  duplicates record hr := (h.duplicates record hr).trans hle
  limited := by
    refine le_trans (List.countP_mono_left fun t _ ht => ?_) h.limited
    have ht := of_decide_eq_true ht
    exact decide_eq_true (by omega)

theorem keepLast_sublist {α : Type} (records : List α) : (keepLast records).Sublist records :=
  List.drop_sublist _ _

theorem Timely.prune (h : Timely budget usage clock) :
    Timely budget (pruneKind usage budget clock) clock := by
  have hactions : (pruneKind usage budget clock).recentActions.Sublist usage.recentActions := by
    rw [pruneKind_actions]
    exact (keepLast_sublist _).trans List.filter_sublist
  refine ⟨h.ordered.sublist hactions,fun t ht => h.past t (hactions.mem ht),?_,?_,
    (hactions.countP_le).trans h.limited⟩
  · rw [pruneKind_last]
    exact h.last
  · intro record hr
    rw [pruneKind_duplicates] at hr
    have hr := (keepLast_sublist _).mem hr
    split at hr
    · exact h.duplicates record (List.mem_of_mem_filter hr)
    · cases hr

/-- Recording an action the window has room for. -/
theorem Timely.record (h : Timely budget usage clock) (key : Bytes)
    (hroom : usage.recentActions.countP (fun t => t ≥ clock-budget.windowSeconds) <
      budget.maxInWindow) :
    Timely budget (recordKind usage key budget clock) clock := by
  have hclamp : clampToLast usage clock = clock := by
    unfold clampToLast
    split
    · rename_i last hlast
      exact if_neg (not_lt.mpr (h.last last hlast))
    · rfl
  unfold recordKind
  rw [hclamp]
  refine Timely.prune ⟨?_,?_,?_,?_,?_⟩
  · refine List.pairwise_append.mpr ⟨h.ordered,List.pairwise_singleton _ _,fun t ht s hs => ?_⟩
    rw [List.mem_singleton.mp hs]
    exact h.past t ht
  · intro t ht
    rcases List.mem_append.mp ht with ht | ht
    · exact h.past t ht
    · rw [List.mem_singleton.mp ht]
  · intro t ht
    rw [Option.some.inj ht]
  · intro record hr
    rcases List.mem_append.mp hr with hr | hr
    · exact h.duplicates record (List.mem_of_mem_filter hr)
    · rw [List.mem_singleton.mp hr]
  · have hone := List.countP_le_length (l := [clock])
      (p := fun t => decide (t ≥ clock-budget.windowSeconds))
    simp only [List.length_singleton] at hone
    rw [List.countP_append]
    omega

end Timely

/-- Every reached state is timely for every kind. -/
theorem Reached.timely {policy : OutboundPolicy} {state : OutboundBudgetState} {clock : ℤ}
    (h : Reached policy state clock) (kind : OutboundActionKind) :
    Timely (budgetFor policy kind) (state.usage kind) clock := by
  induction h with
  | start clock =>
      exact ⟨.nil,List.forall_mem_nil _,nofun,List.forall_mem_nil _,Nat.zero_le _⟩
  | wait _ hle ih => exact ih.later hle
  | prune _ ih => exact ih.prune
  | @allow state clock _ proposal ih =>
      unfold admitOutboundAction
      simp only
      split
      · rename_i hallow
        have hadm := (evaluate_allow_iff policy state proposal clock).mp hallow
        simp only [recordOutboundAction,OutboundBudgetState.setUsage]
        by_cases hkind : kind = proposal.kind
        · subst hkind
          rw [Function.update_self]
          exact ih.record _ hadm.belowLimit
        · rw [Function.update_of_ne hkind]
          exact ih
      · exact ih

/-! ## Running out -/

section Later
variable {policy : OutboundPolicy} {state : OutboundBudgetState}
  {proposal : OutboundActionProposal} {now t : ℤ}

/-- At a time behind the record, an identity is suppressed for what is left of its cooldown. -/
theorem suppressedFor_later
    (h : Timely (budgetFor policy proposal.kind) (state.usage proposal.kind) now)
    (hle : now ≤ t) (elapsed : ℤ) :
    suppressedFor (budgetFor policy proposal.kind) state proposal t = some elapsed ↔
      ∃ recorded ∈ duplicateOutboundRecordedAt state proposal, elapsed = t-recorded ∧
        elapsed < (budgetFor policy proposal.kind).duplicateCooldownSeconds := by
  have hpast : ∀ recorded ∈ duplicateOutboundRecordedAt state proposal, recorded ≤ now := by
    intro recorded hr
    obtain ⟨record,hfind,rfl⟩ := Option.map_eq_some_iff.mp hr
    exact h.duplicates record (List.mem_of_find?_eq_some hfind)
  unfold suppressedFor
  cases hrec : duplicateOutboundRecordedAt state proposal with
  | none => simp
  | some recorded =>
      have hold := hpast recorded hrec
      have hage : (if t > recorded then t-recorded else 0) = t-recorded := by
        split <;> omega
      simp only [Option.map_some,hage,Option.mem_some_iff,exists_eq_left']
      split
      · rw [Option.filter_eq_some_iff]
        simp only [Option.some.injEq,decide_eq_true_eq]
        constructor
        · rintro ⟨rfl,hlt⟩
          exact ⟨rfl,hlt⟩
        · rintro ⟨rfl,hlt⟩
          exact ⟨rfl,hlt⟩
      · constructor
        · nofun
        · rintro ⟨rfl,hlt⟩
          omega

/-- What is not suppressed now is not suppressed later. -/
theorem fresh_later
    (h : Timely (budgetFor policy proposal.kind) (state.usage proposal.kind) now)
    (hle : now ≤ t)
    (hfresh : suppressedFor (budgetFor policy proposal.kind) state proposal now = none) :
    suppressedFor (budgetFor policy proposal.kind) state proposal t = none := by
  refine Option.eq_none_iff_forall_ne_some.mpr fun elapsed hsup => ?_
  obtain ⟨recorded,hr,rfl,hlt⟩ := (suppressedFor_later h hle elapsed).mp hsup
  have hnow := (suppressedFor_later h le_rfl (now-recorded)).mpr
    ⟨recorded,hr,rfl,by omega⟩
  rw [hfresh] at hnow
  cases hnow

theorem Spaced.later {budget : ActionBudget} {last : Option ℤ} (h : Spaced budget last now)
    (hle : now ≤ t) : Spaced budget last t := by
  intro s hs
  rcases h s hs with hs | hs
  · exact .inl (by omega)
  · exact .inr hs

/-- The suppression of an identity ends when its hint says. -/
theorem duplicate_exact
    (h : Timely (budgetFor policy proposal.kind) (state.usage proposal.kind) now) {elapsed : ℤ}
    (hsup : suppressedFor (budgetFor policy proposal.kind) state proposal now = some elapsed)
    (hle : now ≤ t) :
    (∃ age, suppressedFor (budgetFor policy proposal.kind) state proposal t = some age) ↔
      t < now+max 1 ((budgetFor policy proposal.kind).duplicateCooldownSeconds-elapsed) := by
  obtain ⟨recorded,hr,rfl,hlt⟩ := (suppressedFor_later h le_rfl elapsed).mp hsup
  constructor
  · rintro ⟨age,hage⟩
    obtain ⟨recorded',hr',rfl,hlt'⟩ := (suppressedFor_later h hle age).mp hage
    obtain rfl := Option.some.inj (hr.symm.trans hr')
    omega
  · intro hbefore
    exact ⟨t-recorded,(suppressedFor_later h hle _).mpr ⟨recorded,hr,rfl,by omega⟩⟩

/-- The minimum interval is over when its hint says. -/
theorem cooldown_exact
    (h : Timely (budgetFor policy proposal.kind) (state.usage proposal.kind) now)
    (hcooling : ¬Spaced (budgetFor policy proposal.kind)
      (lastOutboundActionAt state proposal.kind) now) (hle : now ≤ t) :
    ¬Spaced (budgetFor policy proposal.kind) (lastOutboundActionAt state proposal.kind) t ↔
      t < now+max 1 ((budgetFor policy proposal.kind).minIntervalSeconds-
        (outboundBudgetStatus policy state proposal.kind now).secondsSinceLast) := by
  have hpast : ∀ s ∈ lastOutboundActionAt state proposal.kind, s ≤ now := h.last
  unfold outboundBudgetStatus
  simp only
  cases hlast : lastOutboundActionAt state proposal.kind with
  | none =>
      rw [hlast] at hcooling
      exact absurd (fun s hs => nomatch hs) hcooling
  | some last =>
      have hold := hpast last hlast
      rw [hlast] at hcooling
      simp only [Spaced,Option.mem_some_iff,forall_eq'] at hcooling ⊢
      rw [if_pos hold]
      omega

/-- While the cutoff has not passed the earliest action of the window, the window holds the
same actions; behind it there is one less at least. -/
theorem window_exact
    (h : Timely (budgetFor policy proposal.kind) (state.usage proposal.kind) now)
    (hpos : 1 ≤ (budgetFor policy proposal.kind).maxInWindow)
    (hwindow : 1 ≤ (budgetFor policy proposal.kind).windowSeconds)
    (hfull : (budgetFor policy proposal.kind).maxInWindow ≤
      countOutboundActionsInWindow state proposal.kind
        (budgetFor policy proposal.kind).windowSeconds now) (hle : now ≤ t) :
    (budgetFor policy proposal.kind).maxInWindow ≤
        countOutboundActionsInWindow state proposal.kind
          (budgetFor policy proposal.kind).windowSeconds t ↔
      t < now+(match earliestOutboundActionInWindow state proposal.kind
          (budgetFor policy proposal.kind).windowSeconds now with
        | some earliest => max 1 ((budgetFor policy proposal.kind).windowSeconds-
            (if now > earliest then now-earliest else 0)+1)
        | none => max 1 (budgetFor policy proposal.kind).windowSeconds) := by
  unfold countOutboundActionsInWindow earliestOutboundActionInWindow at *
  generalize (budgetFor policy proposal.kind) = budget at *
  generalize (state.usage proposal.kind) = usage at *
  cases hfind : usage.recentActions.find? (fun s => s ≥ now-budget.windowSeconds) with
  | none =>
      have hzero : usage.recentActions.countP (fun s => s ≥ now-budget.windowSeconds) = 0 :=
        List.countP_eq_zero.mpr fun s hs hin => List.find?_eq_none.mp hfind s hs hin
      omega
  | some earliest =>
      obtain ⟨hin,before,after,hsplit,hbefore⟩ := List.find?_eq_some_iff_append.mp hfind
      have hin := of_decide_eq_true hin
      have hmem : earliest ∈ usage.recentActions := List.mem_of_find?_eq_some hfind
      have hold := h.past earliest hmem
      have hordered := h.ordered
      rw [hsplit] at hordered
      have hafter : ∀ s ∈ after, earliest ≤ s :=
        (List.pairwise_cons.mp (List.pairwise_append.mp hordered).2.1).1
      have hage : (if now > earliest then now-earliest else 0) = now-earliest := by
        split <;> omega
      simp only [hage]
      have hcount : ∀ cutoff, usage.recentActions.countP (fun s => s ≥ cutoff) =
          before.countP (fun s => s ≥ cutoff)+(earliest::after).countP (fun s => s ≥ cutoff) :=
        fun cutoff => by rw [hsplit,List.countP_append]
      have hnone : ∀ cutoff, now-budget.windowSeconds ≤ cutoff →
          before.countP (fun s => s ≥ cutoff) = 0 := by
        intro cutoff hcut
        refine List.countP_eq_zero.mpr fun s hs hge => ?_
        have hlt := hbefore s hs
        simp only [ge_iff_le,Bool.not_eq_eq_eq_not,Bool.not_true,decide_eq_false_iff_not,
          not_le] at hlt
        have hge := of_decide_eq_true hge
        omega
      have hall : (earliest::after).countP (fun s => s ≥ now-budget.windowSeconds) =
          (earliest::after).length := by
        refine List.countP_eq_length.mpr fun s hs => decide_eq_true ?_
        rcases List.mem_cons.mp hs with rfl | hs
        · exact hin
        · exact le_trans hin (hafter s hs)
      have hlimit := h.limited
      rw [hcount,hnone _ le_rfl,hall,Nat.zero_add] at hlimit hfull
      rw [hcount,hnone _ (by omega),Nat.zero_add]
      by_cases hpassed : t-budget.windowSeconds ≤ earliest
      · have hsame : (earliest::after).countP (fun s => s ≥ t-budget.windowSeconds) =
            (earliest::after).length := by
          refine List.countP_eq_length.mpr fun s hs => decide_eq_true ?_
          rcases List.mem_cons.mp hs with rfl | hs
          · exact hpassed
          · exact le_trans hpassed (hafter s hs)
        rw [hsame]
        omega
      · have hfewer : (earliest::after).countP (fun s => s ≥ t-budget.windowSeconds) ≤
            after.length := by
          rw [List.countP_cons_of_neg (by simpa using hpassed)]
          exact List.countP_le_length
        rw [List.length_cons] at hlimit hfull
        omega

end Later

/-! ## The hint -/

theorem validateBudget_ok {budget : ActionBudget} (h : validateBudget budget = .ok ()) :
    1 ≤ budget.maxInWindow ∧ 1 ≤ budget.windowSeconds := by
  unfold validateBudget at h
  split at h
  · cases h
  · split at h
    · cases h
    · omega

theorem validateKinds_ok {policy : OutboundPolicy} {source : String}
    {kinds : List OutboundActionKind} (h : validateKinds policy source kinds = .ok ()) :
    ∀ kind ∈ kinds, validateBudget (policy.budgets kind) = .ok () := by
  induction kinds with
  | nil => exact List.forall_mem_nil _
  | cons kind rest ih =>
      unfold validateKinds at h
      split at h
      · cases h
      · rename_i hkind
        exact List.forall_mem_cons.mpr ⟨hkind,ih h⟩

theorem validate_budget {policy : OutboundPolicy} {source : String}
    (h : validate policy source = .ok ()) (kind : OutboundActionKind) :
    validateBudget (budgetFor policy kind) = .ok () := by
  unfold validate at h
  split at h
  · cases h
  · exact validateKinds_ok h kind kind.mem_all

theorem Deferral.hint_pos {policy : OutboundPolicy} {state : OutboundBudgetState}
    {proposal : OutboundActionProposal} {now hint : ℤ} {reason : OutboundReason}
    (h : Deferral policy state proposal now reason hint) : 1 ≤ hint := by
  cases h with
  | duplicate => exact le_max_left _ _
  | cooldown => exact le_max_left _ _
  | window =>
      split
      · exact le_max_left _ _
      · exact le_max_left _ _

/-- A deferral at a time behind it. -/
theorem deferral_at {policy : OutboundPolicy} {source : String} {state : OutboundBudgetState}
    {now : ℤ} (hvalid : validate policy source = .ok ()) (hreached : Reached policy state now)
    (proposal : OutboundActionProposal) (reason : OutboundReason)
    (hdefer : DefersFor policy state proposal reason now) (t : ℤ) (hle : now ≤ t) :
    (t < now+(evaluateOutboundPolicy policy state proposal now).retryAfterSeconds →
      DefersFor policy state proposal reason t) ∧
    (t = now+(evaluateOutboundPolicy policy state proposal now).retryAfterSeconds →
      ¬DefersFor policy state proposal reason t) := by
  have htimely := hreached.timely proposal.kind
  obtain ⟨hpos,hwindow⟩ := validateBudget_ok (validate_budget hvalid proposal.kind)
  obtain ⟨henabled,hwhy⟩ := deferral_of_defersFor hdefer
  generalize (evaluateOutboundPolicy policy state proposal now).retryAfterSeconds = hint at hwhy ⊢
  cases hwhy with
  | duplicate elapsed hsup =>
      have hexact := duplicate_exact htimely hsup hle
      refine ⟨fun hbefore => ?_,fun hat hlater => ?_⟩
      · obtain ⟨age,hage⟩ := hexact.mpr hbefore
        exact defersFor_of_deferral henabled (.duplicate age hage)
      · obtain ⟨-,hlater⟩ := deferral_of_defersFor hlater
        generalize (evaluateOutboundPolicy policy state proposal t).retryAfterSeconds = r at hlater
        cases hlater with
        | duplicate age hage =>
            have := hexact.mp ⟨age,hage⟩
            omega
  | cooldown hfresh hcooling =>
      have hexact := cooldown_exact htimely hcooling hle
      refine ⟨fun hbefore => ?_,fun hat hlater => ?_⟩
      · exact defersFor_of_deferral henabled
          (.cooldown (fresh_later htimely hle hfresh) (hexact.mpr hbefore))
      · obtain ⟨-,hlater⟩ := deferral_of_defersFor hlater
        generalize (evaluateOutboundPolicy policy state proposal t).retryAfterSeconds = r at hlater
        cases hlater with
        | cooldown _ hstill =>
            have := hexact.mp hstill
            omega
  | window hfresh hspaced hfull =>
      have hexact := window_exact htimely hpos hwindow hfull hle
      refine ⟨fun hbefore => ?_,fun hat hlater => ?_⟩
      · exact defersFor_of_deferral henabled
          (.window (fresh_later htimely hle hfresh) (hspaced.later hle) (hexact.mpr hbefore))
      · obtain ⟨-,hlater⟩ := deferral_of_defersFor hlater
        generalize (evaluateOutboundPolicy policy state proposal t).retryAfterSeconds = r at hlater
        cases hlater with
        | window _ _ hstill =>
            have := hexact.mp hstill
            omega

/-- In a state reached under a valid policy, a deferral holds for its reason at every time
before the hinted one, and not at that. -/
theorem deferral_exact {policy : OutboundPolicy} {source : String} {state : OutboundBudgetState}
    {now : ℤ} (hvalid : validate policy source = .ok ()) (hreached : Reached policy state now)
    (proposal : OutboundActionProposal) (reason : OutboundReason)
    (hdefer : DefersFor policy state proposal reason now) :
    (∀ t, now ≤ t →
      t < now+(evaluateOutboundPolicy policy state proposal now).retryAfterSeconds →
      DefersFor policy state proposal reason t) ∧
    ¬DefersFor policy state proposal reason
      (now+(evaluateOutboundPolicy policy state proposal now).retryAfterSeconds) := by
  have hpos := (deferral_of_defersFor hdefer).2.hint_pos
  exact ⟨fun t hle => (deferral_at hvalid hreached proposal reason hdefer t hle).1,
    (deferral_at hvalid hreached proposal reason hdefer _ (by omega)).2 rfl⟩

namespace Sample

/-- Two posts in ten seconds. -/
def pairPolicy : OutboundPolicy where
  budgets := fun _ => {enabled := true,maxInWindow := 2,windowSeconds := 10}

def note (digest : UInt8) : OutboundActionProposal := ⟨.post,[],[digest]⟩

/-- Posts at 0 and 3. -/
def busy : OutboundBudgetState :=
  (admitOutboundAction pairPolicy (admitOutboundAction pairPolicy {} (note 1) 0).2 (note 2) 3).2

/-- A third post at 5 is deferred to 11, when the first is out of the window. -/
theorem deferral_exact_busy :
    (∀ t, 5 ≤ t → t < 11 → DefersFor pairPolicy busy (note 3) .windowExhausted t) ∧
    ¬DefersFor pairPolicy busy (note 3) .windowExhausted 11 := by
  have hreached : Reached pairPolicy busy 5 :=
    .wait (.allow (.wait (.allow (.start 0) (note 1)) (by decide)) (note 2)) (by decide)
  have hvalid : validate pairPolicy "sample" = .ok () := by decide
  have hdefer : DefersFor pairPolicy busy (note 3) .windowExhausted 5 := by decide +kernel
  have hhint : (evaluateOutboundPolicy pairPolicy busy (note 3) 5).retryAfterSeconds = 6 := by
    decide +kernel
  have h := deferral_exact hvalid hreached (note 3) .windowExhausted hdefer
  rw [hhint] at h
  exact h

end Sample
end Atperson.Outbound
