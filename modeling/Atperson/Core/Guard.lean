import Atperson.Core.Plans

/-!
# Guarded decisions

A raw plan is read from its first step on. The guards are asked in turn about each step, and
the plan is cut before the first step that one of them rejects. Of what is left of the raw
plans, the best that is not empty is the decision.
-/
namespace Atperson.Core
open Floats (narrow widen)
open Ledger (Status)
open Runs (Ranked)

def actionMaxConsecutiveOccurrences : ℕ := 2

/-- `SIZE_MAX`. -/
def noIndex : ℕ := 2^64-1

structure GuardConfig where
  minCandidateScore : Float32
  minSupportScore : Float32
  maxScoreDrop : Float32
  maxConsecutiveOccurrences : ℕ
  valenceGuard : Bool
  minValence : Float32
  deriving DecidableEq

namespace GuardConfig

/-- `atp_action_guard_default_config`. -/
def default : GuardConfig := ⟨0.15,0.25,0.40,1,false,-0.25⟩

/-- `atp_guard_config_valid`. -/
def valid (guards : GuardConfig) : Bool :=
  guards.minCandidateScore.isFinite && 0 ≤ guards.minCandidateScore &&
    guards.minCandidateScore ≤ 1 && guards.minSupportScore.isFinite &&
    0 ≤ guards.minSupportScore && guards.minSupportScore ≤ 1 && guards.maxScoreDrop.isFinite &&
    0 ≤ guards.maxScoreDrop && guards.maxScoreDrop ≤ 1 && 1 ≤ guards.maxConsecutiveOccurrences &&
    guards.maxConsecutiveOccurrences ≤ actionMaxConsecutiveOccurrences &&
    guards.minValence.isFinite && -1 ≤ guards.minValence && guards.minValence ≤ 0

end GuardConfig

structure DecisionConfig where
  planner : PlanConfig
  guards : GuardConfig
  deriving DecidableEq

/-- `atp_action_decision_default_config`. -/
def DecisionConfig.default : DecisionConfig := ⟨.default,.default⟩

inductive AbstainReason where
  | none | emptyContext | noCandidates | lowScore | lowSupport | negativeValence
  deriving DecidableEq

structure StopEvidence where
  reason : PlanStop
  stepIndex : ℕ
  acceptedSteps : ℕ
  maxTokens : ℕ
  token : Token
  candidateScore : Float32
  minCandidateScore : Float32
  supportScore : Float32
  minSupportScore : Float32
  previousScore : Float32
  maxScoreDrop : Float32
  consecutiveOccurrences : ℕ
  maxConsecutiveOccurrences : ℕ
  cycleStartIndex : ℕ
  candidateValence : Float32
  valenceGuard : Bool
  minValence : Float32
  deriving DecidableEq

structure ActionDecision where
  abstained : Bool
  abstainReason : AbstainReason
  plan : ActionPlan
  evidence : StopEvidence
  rawPlanCount : ℕ
  viablePlanCount : ℕ
  deriving DecidableEq

/-- Nothing has stopped a plan yet. -/
def StopEvidence.cleared : StopEvidence where
  reason := .none
  stepIndex := 0
  acceptedSteps := 0
  maxTokens := 0
  token := Wire.CText.empty
  candidateScore := 0
  minCandidateScore := 0
  supportScore := 0
  minSupportScore := 0
  previousScore := 0
  maxScoreDrop := 0
  consecutiveOccurrences := 0
  maxConsecutiveOccurrences := 0
  cycleStartIndex := noIndex
  candidateValence := 0
  valenceGuard := false
  minValence := 0

def ActionDecision.cleared : ActionDecision := ⟨false,.none,⟨[],0,.none⟩,.cleared,0,0⟩

/-- `atp_evidence_init`. -/
def evidenceInit (config : DecisionConfig) : StopEvidence :=
  {StopEvidence.cleared with
    minCandidateScore := config.guards.minCandidateScore
    minSupportScore := config.guards.minSupportScore
    maxScoreDrop := config.guards.maxScoreDrop
    maxConsecutiveOccurrences := config.guards.maxConsecutiveOccurrences
    valenceGuard := config.guards.valenceGuard
    minValence := config.guards.minValence
    maxTokens := config.planner.maxTokens}

/-! ## The guards -/

/-- Why a guard rejects a step. -/
structure Rejection where
  reason : PlanStop
  consecutiveOccurrences : ℕ
  cycleStartIndex : ℕ
  deriving DecidableEq

/-- How often a token stands at the end of the accepted steps, with the step in question. -/
def consecutive (accepted : List ActionCandidate) (token : Token) : ℕ :=
  ((tokenPath accepted).reverse.takeWhile fun t => t = token).length+1

def previousScore (accepted : List ActionCandidate) : Float32 :=
  match accepted.getLast? with
  | none => 0
  | some last => last.score

/-- The guards of `atp_guard_raw_plan`, in their order. -/
def guardReject (guards : GuardConfig) (accepted : List ActionCandidate) (c : ActionCandidate) :
    Option Rejection :=
  if c.score < guards.minCandidateScore then some ⟨.lowScore,0,noIndex⟩
  else if c.supportScore < guards.minSupportScore then some ⟨.lowSupport,0,noIndex⟩
  else if guards.valenceGuard = true ∧ 0 < c.valenceEvents ∧ c.valence < guards.minValence then
    some ⟨.negativeValence,0,noIndex⟩
  else if accepted ≠ [] ∧ guards.maxScoreDrop < previousScore accepted-c.score then
    some ⟨.scoreDrop,0,noIndex⟩
  else if (tokenPath accepted).getLast? = some c.token then
    if guards.maxConsecutiveOccurrences < consecutive accepted c.token then
      some ⟨.repetition,consecutive accepted c.token,noIndex⟩
    else none
  else ((tokenPath accepted).findIdx? fun t => t = c.token).map fun j => ⟨.cycle,0,j⟩

structure GuardedPlan where
  plan : ActionPlan
  evidence : StopEvidence
  deriving DecidableEq

/-- A plan that ends before a rejected step. -/
def cutBefore (config : DecisionConfig) (i : ℕ) (accepted : List ActionCandidate)
    (score : Float32) (c : ActionCandidate) (r : Rejection) : GuardedPlan where
  plan := ⟨accepted,score,r.reason⟩
  evidence := {evidenceInit config with
    reason := r.reason
    stepIndex := i
    acceptedSteps := accepted.length
    candidateScore := c.score
    supportScore := c.supportScore
    candidateValence := c.valence
    previousScore := previousScore accepted
    token := c.token
    consecutiveOccurrences := r.consecutiveOccurrences
    cycleStartIndex := r.cycleStartIndex}

/-- The evidence of a plan that is accepted to its end. -/
def evidenceAtEnd (config : DecisionConfig) (reason : PlanStop) (accepted : List ActionCandidate) :
    StopEvidence :=
  let evidence := {evidenceInit config with
    reason
    stepIndex := accepted.length
    acceptedSteps := accepted.length}
  match accepted.getLast? with
  | none => evidence
  | some last => {evidence with
      candidateScore := last.score
      supportScore := last.supportScore
      previousScore := previousScore accepted.dropLast
      token := last.token}

/-- The loop over the steps of a raw plan, from a given one on. -/
def guardLoop (config : DecisionConfig) (reason : PlanStop) : ℕ → List ActionCandidate → Float →
    Float32 → List ActionCandidate → GuardedPlan
  | _, accepted, _, score, [] => ⟨⟨accepted,score,reason⟩,evidenceAtEnd config reason accepted⟩
  | i, accepted, sum, score, c::rest =>
      match guardReject config.guards accepted c with
      | some r => cutBefore config i accepted score c r
      | none =>
          let sum := sum+widen c.score
          guardLoop config reason (i+1) (accepted++[c]) sum
            (narrow (sum/Float.ofNat (accepted.length+1))) rest

/-- `atp_guard_raw_plan`. -/
def guardRawPlan (config : DecisionConfig) (raw : ActionPlan) : GuardedPlan :=
  guardLoop config raw.stopReason 0 [] 0 0 raw.steps

/-! ## The decision -/

/-- `atp_guarded_plan_compare`. -/
def guardedPlanCompare (a b : GuardedPlan) : Ordering := actionPlanCompare a.plan b.plan

/-- `atp_abstain_from_stop`. -/
def abstainFromStop : PlanStop → AbstainReason
  | .lowScore => .lowScore
  | .lowSupport => .lowSupport
  | .negativeValence => .negativeValence
  | _ => .noCandidates

/-- The guarded plans that are not empty. -/
def viablePlans (config : DecisionConfig) (raw : List ActionPlan) : List GuardedPlan :=
  (raw.map (guardRawPlan config)).filter fun q => q.plan.steps ≠ []

/-- The evidence of the first raw plan, where that is rejected at its first step. -/
def strongestRejection (config : DecisionConfig) (raw : List ActionPlan) : StopEvidence :=
  match raw with
  | [] => evidenceInit config
  | first::_ =>
      let guarded := guardRawPlan config first
      if guarded.plan.steps = [] then guarded.evidence else evidenceInit config

/-- What is decided over the raw plans, with any sort routine. -/
def Chooses (config : DecisionConfig) (raw : List ActionPlan) (d : ActionDecision) : Prop :=
  if raw = [] then
    d = {ActionDecision.cleared with
      abstained := true
      abstainReason := .noCandidates
      evidence := evidenceInit config}
  else if viablePlans config raw = [] then
    d = {ActionDecision.cleared with
      rawPlanCount := raw.length
      abstained := true
      abstainReason := abstainFromStop (strongestRejection config raw).reason
      plan := ⟨[],0,(strongestRejection config raw).reason⟩
      evidence := strongestRejection config raw}
  else ∃ best rest, Ranked guardedPlanCompare (viablePlans config raw) (best::rest) ∧
    d = {ActionDecision.cleared with
      rawPlanCount := raw.length
      viablePlanCount := (viablePlans config raw).length
      plan := best.plan
      evidence := best.evidence}

/-- What `atp_graph_action_decide` may return, with any sort routine. -/
def Decides (U : Utf8proc) (g : Graph) (context : Text) (config : Option DecisionConfig)
    (result : Status×ActionDecision) : Prop :=
  let decision := config.getD .default
  if decision.planner.valid = false ∨ decision.guards.valid = false then
    result = (.invalidArgument,.cleared)
  else if context.bytes = [] then
    result = (.ok,{ActionDecision.cleared with
      abstained := true
      abstainReason := .emptyContext
      evidence := evidenceInit decision})
  else ∃ status raw,
    Plans U g context (some decision.planner) decision.planner.beamWidth (status,raw) ∧
    ((status ≠ .ok ∧ result = (status,.cleared)) ∨
      (status = .ok ∧ result.1 = .ok ∧ Chooses decision raw result.2))

end Atperson.Core
