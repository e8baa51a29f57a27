import Atperson.Scheduler.ExecutionSteps

/-!
# Starvation

Attempts are bounded, and refused ones count. So a proposal that passes every gate is served only
if fewer than the bound of refused ones have file names before it; and file names are digests, which
know nothing of age.
-/
namespace Atperson.Scheduler
open Wire Journal Outbound Control

/-- When an action was created. -/
def createdEpoch (action : OutboundAction) : UInt64 := (parseRfc3339Epoch action.createdAt).getD 0

section Pass
variable (settings : ExecutionSettings) (view : ExecutionView) (desk : ExecutionDesk)

/-- By file name nothing breaks the pass, and fewer than the bound are refused, before the first
that passes every gate; and that one is the oldest of them. -/
def Steady : Prop := ∀ action ∈ actionsOf desk.queue, Passes settings view desk action →
  ∃ first, Foremost settings view desk (inOrder desk.queue) settings.maxExecutions first ∧
    createdEpoch first ≤ createdEpoch action

end Pass

section Fair
variable {settings : ExecutionSettings} {view : ExecutionView} {desk : ExecutionDesk}

end Fair

/-! ## Cycles -/

/-- A cycle's settings, what it reads, and what was done to the files before it. -/
structure ExecutionCycle where
  settings : ExecutionSettings
  view : ExecutionView
  arrange : ExecutionDesk → ExecutionDesk

/-- The passes of a run, each with the files it begins with. -/
def turns : ExecutionDesk → List ExecutionCycle → List (ExecutionCycle×ExecutionDesk)
  | _, [] => []
  | desk, cycle::rest => (cycle,cycle.arrange desk)::turns
      (executionPass cycle.settings cycle.view (cycle.arrange desk)).1.toExecutionDesk rest

namespace Sample

def zeros : Bytes := utf8 "0000000000000000"

def ones : Bytes := utf8 "1111111111111111"

/-- A like, which the policy does not enable. -/
def disabled : OutboundAction where
  kind := .like
  subject := utf8 "at://did:plc:a/app.bsky.feed.post/3"
  rkey := utf8 "3b"
  createdAt := utf8 "2024-01-02T00:00:00Z"
  digest := zeros

/-- An older post. -/
def greeting : OutboundAction where
  text := utf8 "hello"
  rkey := utf8 "3a"
  createdAt := utf8 "2024-01-01T00:00:00Z"
  digest := ones

def fileOf (action : OutboundAction) : ProposalFile := ⟨action.digest++utf8 ".json",.ok action⟩

def postingPolicy : OutboundPolicy where
  budgets := fun kind => {enabled := kind = .post}

def posting : ExecutionView where
  now := 1704200000
  steadyMs := none
  control := {writesEnabled := true,dryRun := false,approvedDigests := [zeros,ones]}
  policy := postingPolicy
  envelopes := none
  casts := Envelope.plainCasts
  invited := []
  optedOut := []
  spoolRoot := false
  transport := ⟨fun _ => .ok (),fun _ _ => .ok [],fun _ _ _ _ => .ok {uri := utf8 "at://a"}⟩
  documents := ⟨fun _ => [],fun _ => none⟩
  unicode := Core.Utf8proc.plain

def single : ExecutionSettings where
  maxExecutions := 1
  maxCycleMs := 0
  intents := ⟨false,3,4,100⟩
  engagement := .opened
  guard := {}
  breaker := .default

def queueOf (actions : List OutboundAction) : ExecutionDesk where
  queue := actions.map fileOf
  budget := {}
  journal := {}
  savedBreaker := .closed

example : (inOrder (queueOf []).queue).length = 0 := by decide +kernel

def quiet : ExecutionCycle := ⟨single,posting,fun _ => queueOf [greeting]⟩

end Sample

end Atperson.Scheduler
