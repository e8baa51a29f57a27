import Atperson.Core.Guard
import Atperson.Outbound.Spool
import Atperson.Scheduler.Drives
import Atperson.Scheduler.Engagement
import Atperson.Scheduler.TextGuard
import Atperson.Wire.SortableDigits

/-!
# Proposing

A cycle decides on its contexts in order and freezes what is accepted, one file each under the
digest of the decision. What the planner decides is given. A decision or a write that fails ends
the pass with what is written so far; writing itself succeeds here.
-/
namespace Atperson.Scheduler
open Wire Journal Outbound
open Atperson.Core (ActionDecision ActionPlan ActionCandidate AbstainReason)
open Float.Model (UnpackedFloat)

/-! ## Record keys -/

/-- The 32 signs of a TID. -/
def kTidAlphabet : Bytes := utf8 "234567abcdefghijklmnopqrstuvwxyz"

def tidSign (n : ℕ) : UInt8 := kTidAlphabet.getD n 0

/-- The digest folded, four bits a character. -/
def digestBits (digest : Bytes) : UInt64 :=
  digest.foldl (fun bits c => bits <<< 4 ||| (c &&& 0x0f).toUInt64) 0

def tidValue (now : ℤ) (digest : Bytes) : UInt64 :=
  let clockid := digestBits digest &&& 0x3f
  let microseconds := (UInt64.ofInt now*1000000) &&& 0x3fffffffffffff
  microseconds <<< 6 ||| clockid

/-- The loop of `proposal_tid`, from the last sign back. -/
def tidSigns : ℕ → UInt64 → Bytes
  | 0, _ => []
  | n+1, value => tidSigns n (value >>> 5)++[tidSign (value &&& 0x1f).toNat]

def proposalTid (now : ℤ) (digest : Bytes) : Bytes := tidSigns 13 (tidValue now digest)

/-! ## Digests -/

/-- `%016llx`. -/
def hex16 (n : UInt64) : Bytes := sortableDigits hexDigit 16 16 n.toNat

def abstainCode : AbstainReason → UInt32
  | .none => 0
  | .emptyContext => 1
  | .noCandidates => 2
  | .lowScore => 3
  | .lowSupport => 4
  | .negativeValence => 5

def scoreBits (score : Float32) : Bytes := storeU32 score.toBits

def decisionDigest (context : Bytes) (plan : ActionPlan) : Bytes :=
  hex16 (Ledger.digest (context++[0]++storeU64 (UInt64.ofNat plan.steps.length)++
    plan.steps.flatMap (fun step => step.token.bytes++[0]++scoreBits step.score)++
    scoreBits plan.score++storeU32 (UInt32.ofNat plan.stopReason.code)))

def graduatedLikeDigest (subject : Bytes) (decision : ActionDecision) : Bytes :=
  hex16 (Ledger.digest (utf8 "like"++subject++[0]++storeU32 (abstainCode decision.abstainReason)++
    storeU64 (UInt64.ofNat decision.rawPlanCount)++storeU64 (UInt64.ofNat decision.viablePlanCount)))

/-! ## One context -/

/-- The tokens of the plan with blanks between. -/
def planText (plan : ActionPlan) : Bytes := [32].intercalate (plan.steps.map fun step => step.token.bytes)

def exactDouble : UnpackedFloat → Double
  | .infinity .positive => .infinite false
  | .infinity .negative => .infinite true
  | .notANumber => .nan
  | .zero _ => .finite 0
  | .finite .positive mantissa exponent _ => .finite (mantissa*2^exponent)
  | .finite .negative mantissa exponent _ => .finite (-(mantissa*2^exponent))

/-- A `float` stored as a `double`. -/
def scoreDouble (score : Float32) : Double := exactDouble score.toModel.unpack

structure ProposalSettings where
  maxProposals : ℕ := 1
  maxPendingProposals : ℕ := 50
  graduatedLikes : Bool := false
  intentsEnabled : Bool := false
  engagement : EngagementMode := .invited
  guard : TextGuardConfig := {}

/-- What a cycle has read when it proposes. -/
structure ProposalView where
  now : ℤ
  journal : JournalContents
  invited : List Bytes
  optedOut : List Bytes
  /-- `action_decide`, which throws where the planner refuses. -/
  decide : Bytes → Except String ActionDecision
  /-- Whether a file for the digest is queued or in quarantine. -/
  queued : Bytes → Bool

structure ProposalReport where
  decisions : ℕ := 0
  abstentions : ℕ := 0
  proposalsExisting : ℕ := 0
  proposalsCapped : ℕ := 0
  graduatedLikesWritten : ℕ := 0
  engagementRefused : ℕ := 0
  textRefused : ℕ := 0
  orderedByIntents : Bool := false

/-- The pass on its way: the proposals written, in order. -/
structure Proposing where
  written : List OutboundAction
  pending : ℕ
  recentTexts : List RecentText
  report : ProposalReport

namespace Proposing

def known (s : Proposing) (view : ProposalView) (digest : Bytes) : Bool :=
  view.queued digest || s.written.any fun action => action.digest = digest

def abstain (s : Proposing) : Proposing :=
  {s with report := {s.report with abstentions := s.report.abstentions+1}}

def existing (s : Proposing) : Proposing :=
  {s with report := {s.report with proposalsExisting := s.report.proposalsExisting+1}}

def write (s : Proposing) (action : OutboundAction) : Proposing :=
  {s with written := s.written++[action],pending := s.pending+1}

end Proposing

def likeable (sourceId : Bytes) : Bool :=
  (utf8 "at://").isPrefixOf sourceId && (find sourceId (utf8 "/app.bsky.feed.post/")).isSome

section Step
variable (settings : ProposalSettings) (view : ProposalView)

/-- A decision that abstained: perhaps a like of the subject. -/
def proposeLike (candidate : ContextCandidate) (decision : ActionDecision) (s : Proposing) :
    Proposing :=
  if ¬settings.graduatedLikes ∨ settings.maxProposals ≤ s.written.length then s.abstain
  else if decision.abstainReason = .emptyContext ∨ ¬likeable candidate.sourceId then s.abstain
  else if checkEngagement .like candidate.authorDid settings.engagement view.invited view.optedOut ≠
      .none then
    {s.abstain with report := {s.abstain.report with
      engagementRefused := s.report.engagementRefused+1}}
  else
    let digest := graduatedLikeDigest candidate.sourceId decision
    if s.known view digest then s.existing.abstain
    else
      let s := s.write {
        kind := .like
        subject := candidate.sourceId
        rkey := proposalTid view.now digest
        createdAt := rfc3339FromUnix view.now
        digest}
      {s.abstain with report := {s.abstain.report with
        graduatedLikesWritten := s.report.graduatedLikesWritten+1}}

/-- The conversation that the proposal goes on with, if any. -/
def proposalReply (candidate : ContextCandidate) : Option JournalIntent :=
  if settings.intentsEnabled then
    continuationIntent view.journal candidate.sourceId candidate.authorDid view.now
  else none

/-- What an accepted plan is frozen as. -/
def frozen (candidate : ContextCandidate) (plan : ActionPlan) : OutboundAction where
  kind := if (proposalReply settings view candidate).isSome then .reply else .post
  text := planText plan
  rkey := proposalTid view.now (decisionDigest candidate.payload plan)
  createdAt := rfc3339FromUnix view.now
  digest := decisionDigest candidate.payload plan
  replyRoot := ((proposalReply settings view candidate).map JournalIntent.id).getD []
  replyParent := if (proposalReply settings view candidate).isSome then candidate.sourceId else []
  planScore := plan.steps.head?.map fun step => scoreDouble step.score
  supportScore := plan.steps.head?.map fun step => scoreDouble step.supportScore

/-- An accepted plan: a post, or a reply to what it continues. -/
def proposePlan (candidate : ContextCandidate) (plan : ActionPlan) (s : Proposing) : Proposing :=
  let s := {s with report := {s.report with decisions := s.report.decisions+1}}
  if s.known view (decisionDigest candidate.payload plan) then s.existing else
  let action := frozen settings view candidate plan
  if action.kind = .reply ∧ checkEngagement .reply candidate.authorDid settings.engagement
      view.invited view.optedOut ≠ .none then
    {s with report := {s.report with engagementRefused := s.report.engagementRefused+1}}
  else if ¬(checkOutputText action.text settings.guard s.recentTexts view.now).allowed then
    {s with report := {s.report with textRefused := s.report.textRefused+1}}
  else
    let s := {s with recentTexts := s.recentTexts++[RecentText.mk action.text view.now]}.write action
    if action.kind = .reply then {s with report := {s.report with orderedByIntents := true}} else s

/-- How the loop goes on from a context. -/
inductive Going where
  | next (s : Proposing)
  | done (s : Proposing)
  | thrown (s : Proposing) (message : String)

def proposeOne (s : Proposing) (candidate : ContextCandidate) : Going :=
  if settings.maxProposals ≤ s.written.length then .done s
  else if settings.maxPendingProposals ≤ s.pending then
    .done {s with report := {s.report with proposalsCapped := s.report.proposalsCapped+1}}
  else match view.decide candidate.payload with
    | .error message => .thrown s message
    | .ok decision =>
        if decision.abstained then .next (proposeLike settings view candidate decision s)
        else .next (proposePlan settings view candidate decision.plan s)

/-- The loop over the contexts; with the message of what it throws. -/
def proposeFrom : Proposing → List ContextCandidate → Proposing×Option String
  | s, [] => (s,none)
  | s, candidate::rest => match proposeOne settings view s candidate with
      | .next s => proposeFrom s rest
      | .done s => (s,none)
      | .thrown s message => (s,some message)

end Step

end Atperson.Scheduler
