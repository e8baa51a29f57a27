import Atperson.Wire.Timestamp
import Atperson.Core.Valence
import Atperson.Core.Replay

/-!
# The outcome-to-valence rules

A rule table maps the outcomes that the journal records onto valence events. Rules are tried
in the order of the table and the first that matches wins; an outcome that no rule names
derives nothing.
-/
namespace Atperson.Journal
open Wire
open Atperson.Core (Utf8proc ValenceKind valenceKindFromName tokenize textOf schemaVersion)

def valenceKindName : ValenceKind → String
  | .action => "action"
  | .interaction => "interaction"
  | .approach => "approach"
  | .avoid => "avoid"

theorem valenceKindFromName_name (kind : ValenceKind) :
    valenceKindFromName (utf8 (valenceKindName kind)) = some kind := by
  cases kind <;> decide +kernel

def kMaxRules : ℕ := 256

def kMaxWithinSeconds : UInt64 := 10*365*86400

/-- A rule as `parse_rule` accepts it. -/
structure ValenceRule where
  id : Bytes
  outcome : JournalActionOutcome
  minEvents : Option UInt32
  withinSeconds : Option UInt64
  expectation : Option JournalExpectationState
  kind : ValenceKind
  signal : Single
  named : id ≠ []
  counted : ∀ n ∈ minEvents, 1 ≤ n ∧ n ≤ 10^9
  windowed : ∀ n ∈ withinSeconds, 1 ≤ n ∧ n ≤ kMaxWithinSeconds
  terminal : ∀ s ∈ expectation, s ≠ .none ∧ s ≠ .pending
  bounded : ∃ q, signal.value = .finite q ∧ -1 ≤ q ∧ q ≤ 1

/-- A table as `parse_rule_table` accepts it. -/
structure RuleTable where
  rules : List ValenceRule
  count : rules.length ≤ kMaxRules
  distinct : (rules.map ValenceRule.id).Nodup

/-- `derive_intent_state`. -/
def deriveIntentState (latest : JournalIntent) (now : ℤ) : IntentState :=
  if latest.state ≠ .opened then latest.state
  else if latest.expiresAtEpoch.toInt64.toInt < now then .expired
  else if latest.maxContinuations.toUInt64 ≤ UInt64.ofNat latest.actions.length-1 then .closed
  else .opened

def kExpectationWindowSeconds : ℕ := 7*24*3600

def JournalAction.epoch (action : JournalAction) : UInt64 := (parseRfc3339Epoch action.time).getD 0

def JournalEvent.epoch (event : JournalEvent) : UInt64 := (parseRfc3339Epoch event.time).getD 0

/-- The events linked to an action. -/
def linkedEvents (action : JournalAction) (events : List JournalEvent) : List JournalEvent :=
  events.filter fun event => event.actionId = action.id

/-- `derive_expectation_state`. -/
def deriveExpectationState (action : JournalAction) (events : List JournalEvent) (now : ℤ)
    (intents : List JournalIntent) : JournalExpectationState :=
  if action.expectation.isNone ∨ action.outcome ≠ .executed ∨ action.epoch = 0 then .none
  else
    let linked := linkedEvents action events
    let window := UInt64.ofNat kExpectationWindowSeconds
    if linked.any fun event => action.epoch < event.epoch ∧ event.epoch-action.epoch ≤ window then
      .met
    else if linked ≠ [] then .unmet
    else if intents.any fun intent => deriveIntentState intent now = .expired &&
        intent.actions.contains action.id then .unmet
    else if action.epoch.toInt64.toInt+kExpectationWindowSeconds < now then .expired
    else .pending

section Match
variable (action : JournalAction) (events : List JournalEvent) (now : ℤ)
  (intents : List JournalIntent)

/-- An event within the window of a rule. -/
def ValenceRule.counts (rule : ValenceRule) (event : JournalEvent) : Bool :=
  match rule.withinSeconds with
  | none => true
  | some seconds => action.epoch ≤ event.epoch ∧ event.epoch-action.epoch ≤ seconds

def ValenceRule.enoughEvents (rule : ValenceRule) : Bool :=
  match rule.minEvents with
  | none => true
  | some n => n ≤ UInt32.ofNat ((linkedEvents action events).countP (rule.counts action))

def ValenceRule.expects (rule : ValenceRule) : Bool :=
  match rule.expectation with
  | none => true
  | some state => deriveExpectationState action events now intents = state

/-- `first_matching_rule`. -/
def firstMatchingRule (table : RuleTable) : Option ValenceRule :=
  table.rules.find? fun rule => rule.outcome = action.outcome &&
    rule.enoughEvents action events && rule.expects action events now intents

end Match

/-- `distinct_tokens`: each once, in the order they first appear. -/
def distinctTokens (U : Utf8proc) (text : Bytes) : List Bytes :=
  if text = [] then []
  else ((tokenize U schemaVersion (textOf text)).map fun t => t.bytes).eraseDups

end Atperson.Journal
