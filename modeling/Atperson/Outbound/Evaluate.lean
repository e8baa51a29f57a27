import Atperson.Outbound.Budget

/-!
# Policy evaluation

The verdict on a proposal, read from the retained record only, and admission, which
records what it allows.
-/
namespace Atperson.Outbound
open Wire

inductive OutboundOutcome where
  | allow | deny | defer
  deriving DecidableEq

inductive OutboundReason where
  | allow | kindDisabled | unsupportedKind | duplicateSuppressed | cooldownActive
  | windowExhausted
  deriving DecidableEq

def outboundReasonCode : OutboundReason → String
  | .allow => "allow"
  | .kindDisabled => "kind_disabled"
  | .unsupportedKind => "unsupported_kind"
  | .duplicateSuppressed => "duplicate_suppressed"
  | .cooldownActive => "cooldown_active"
  | .windowExhausted => "window_exhausted"

structure OutboundBudgetStatus where
  enabled : Bool := false
  usedInWindow : ℕ := 0
  maxInWindow : ℕ := 0
  windowSeconds : ℤ := 0
  minIntervalSeconds : ℤ := 0
  secondsSinceLast : ℤ := -1
  deriving DecidableEq

structure OutboundPolicyDecision where
  outcome : OutboundOutcome := .deny
  reason : OutboundReason := .kindDisabled
  retryAfterSeconds : ℤ := 0
  budget : OutboundBudgetStatus := {}
  deriving DecidableEq

def outboundBudgetStatus (policy : OutboundPolicy) (state : OutboundBudgetState)
    (kind : OutboundActionKind) (now : ℤ) : OutboundBudgetStatus :=
  let budget := budgetFor policy kind
  { enabled := budget.enabled
    usedInWindow := countOutboundActionsInWindow state kind budget.windowSeconds now
    maxInWindow := budget.maxInWindow
    windowSeconds := budget.windowSeconds
    minIntervalSeconds := budget.minIntervalSeconds
    secondsSinceLast :=
      match lastOutboundActionAt state kind with
      | some last => if now ≥ last then now-last else 0
      | none => -1 }

/-- Seconds since the same identity was recorded, while its cooldown lasts. -/
def suppressedFor (budget : ActionBudget) (state : OutboundBudgetState)
    (proposal : OutboundActionProposal) (now : ℤ) : Option ℤ :=
  if budget.duplicateCooldownSeconds > 0 then
    ((duplicateOutboundRecordedAt state proposal).map
      (fun recorded => if now > recorded then now-recorded else 0)).filter
        (· < budget.duplicateCooldownSeconds)
  else none

def evaluateOutboundPolicy (policy : OutboundPolicy) (state : OutboundBudgetState)
    (proposal : OutboundActionProposal) (now : ℤ) : OutboundPolicyDecision :=
  let budget := budgetFor policy proposal.kind
  let status := outboundBudgetStatus policy state proposal.kind now
  if budget.enabled = false then
    {outcome := .deny, reason := .kindDisabled, budget := status}
  else match suppressedFor budget state proposal now with
    | some elapsed =>
        { outcome := .defer
          reason := .duplicateSuppressed
          retryAfterSeconds := max 1 (budget.duplicateCooldownSeconds-elapsed)
          budget := status }
    | none =>
        if budget.minIntervalSeconds > 0 ∧ status.secondsSinceLast ≥ 0 ∧
            status.secondsSinceLast < budget.minIntervalSeconds then
          { outcome := .defer
            reason := .cooldownActive
            retryAfterSeconds := max 1 (budget.minIntervalSeconds-status.secondsSinceLast)
            budget := status }
        else if status.usedInWindow ≥ budget.maxInWindow then
          { outcome := .defer
            reason := .windowExhausted
            retryAfterSeconds :=
              match earliestOutboundActionInWindow state proposal.kind budget.windowSeconds
                  now with
              | some earliest =>
                  max 1 (budget.windowSeconds-(if now > earliest then now-earliest else 0)+1)
              | none => max 1 budget.windowSeconds
            budget := status }
        else {outcome := .allow, reason := .allow, budget := status}

def admitOutboundAction (policy : OutboundPolicy) (state : OutboundBudgetState)
    (proposal : OutboundActionProposal) (now : ℤ) :
    OutboundPolicyDecision × OutboundBudgetState :=
  let decision := evaluateOutboundPolicy policy state proposal now
  if decision.outcome = .allow then
    (decision,recordOutboundAction state proposal (budgetFor policy proposal.kind) now)
  else (decision,state)

def describeOutboundDecision (decision : OutboundPolicyDecision) : String :=
  match decision.reason with
  | .allow => "action is permitted by policy"
  | .kindDisabled => "action kind is disabled by policy (default-deny)"
  | .unsupportedKind => "action kind is not supported by this runtime"
  | .duplicateSuppressed =>
      "an identical action was admitted within its duplicate cooldown"
  | .cooldownActive =>
      "the minimum interval between actions of this kind has not elapsed"
  | .windowExhausted => "the per-window rate limit for this kind is exhausted"

/-- The last admission of the kind lies a full interval back. -/
def Spaced (budget : ActionBudget) (last : Option ℤ) (now : ℤ) : Prop :=
  ∀ t ∈ last, t+budget.minIntervalSeconds ≤ now ∨ budget.minIntervalSeconds ≤ 0

instance (budget : ActionBudget) (now : ℤ) :
    (last : Option ℤ) → Decidable (Spaced budget last now)
  | none => isTrue (by simp [Spaced])
  | some t =>
      decidable_of_iff (t+budget.minIntervalSeconds ≤ now ∨ budget.minIntervalSeconds ≤ 0)
        (by simp [Spaced])

/-- What the retained record says in favour of a proposal. -/
structure Admissible (policy : OutboundPolicy) (state : OutboundBudgetState)
    (proposal : OutboundActionProposal) (now : ℤ) : Prop where
  enabled : (budgetFor policy proposal.kind).enabled = true
  fresh : suppressedFor (budgetFor policy proposal.kind) state proposal now = none
  spaced : Spaced (budgetFor policy proposal.kind) (lastOutboundActionAt state proposal.kind)
    now
  belowLimit : countOutboundActionsInWindow state proposal.kind
    (budgetFor policy proposal.kind).windowSeconds now
      < (budgetFor policy proposal.kind).maxInWindow

theorem spaced_iff (policy : OutboundPolicy) (state : OutboundBudgetState)
    (kind : OutboundActionKind) (now : ℤ) :
    Spaced (budgetFor policy kind) (lastOutboundActionAt state kind) now ↔
      ¬((budgetFor policy kind).minIntervalSeconds > 0 ∧
        (outboundBudgetStatus policy state kind now).secondsSinceLast ≥ 0 ∧
        (outboundBudgetStatus policy state kind now).secondsSinceLast
          < (budgetFor policy kind).minIntervalSeconds) := by
  simp only [outboundBudgetStatus,Spaced]
  cases lastOutboundActionAt state kind with
  | none => simp
  | some last =>
      simp only [Option.mem_some_iff,forall_eq']
      split <;> omega

theorem evaluate_allow_iff (policy : OutboundPolicy) (state : OutboundBudgetState)
    (proposal : OutboundActionProposal) (now : ℤ) :
    (evaluateOutboundPolicy policy state proposal now).outcome = .allow ↔
      Admissible policy state proposal now := by
  have hs := spaced_iff policy state proposal.kind now
  unfold evaluateOutboundPolicy
  constructor
  · intro h
    simp only at h
    split at h
    · cases h
    · split at h
      · cases h
      · split at h
        · cases h
        · split at h
          · cases h
          · refine ⟨by simp_all,‹_›,hs.mpr ‹_›,?_⟩
            exact not_le.mp ‹¬_ ≥ _›
  · intro h
    have hopen := h.belowLimit
    simp only [h.enabled,h.fresh,if_neg (hs.mp h.spaced),Bool.true_eq_false,if_false]
    rw [if_neg (by simpa [outboundBudgetStatus] using hopen)]

instance (policy : OutboundPolicy) (state : OutboundBudgetState)
    (proposal : OutboundActionProposal) (now : ℤ) :
    Decidable (Admissible policy state proposal now) :=
  decidable_of_iff _ (evaluate_allow_iff policy state proposal now)

end Atperson.Outbound
