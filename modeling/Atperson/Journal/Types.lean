import Atperson.Wire.Json
import Atperson.Wire.Double

/-!
# Journal entries

The five kinds of line of the action journal, with the names their enumerations have in
the file.
-/
namespace Atperson.Journal
open Wire

inductive JournalActionOutcome where
  | executed | denied | deferred | failed | dryRun
  deriving DecidableEq

def journalActionOutcomeName : JournalActionOutcome → String
  | .executed => "executed"
  | .denied => "denied"
  | .deferred => "deferred"
  | .failed => "failed"
  | .dryRun => "dry_run"

def journalActionOutcomeFromName (name : Bytes) : Option JournalActionOutcome :=
  [JournalActionOutcome.executed,.denied,.deferred,.failed,.dryRun].find?
    (fun outcome => utf8 (journalActionOutcomeName outcome) == name)

inductive JournalExpectationState where
  | none | pending | met | unmet | expired
  deriving DecidableEq

def journalExpectationStateName : JournalExpectationState → String
  | .none => "none"
  | .pending => "pending"
  | .met => "met"
  | .unmet => "unmet"
  | .expired => "expired"

def journalExpectationStateFromName (name : Bytes) : Option JournalExpectationState :=
  [JournalExpectationState.none,.pending,.met,.unmet,.expired].find?
    (fun state => utf8 (journalExpectationStateName state) == name)

inductive IntentState where
  | opened | expired | closed
  deriving DecidableEq

def intentStateName : IntentState → String
  | .opened => "open"
  | .expired => "expired"
  | .closed => "closed"

def intentStateFromName (name : Bytes) : Option IntentState :=
  [IntentState.opened,.expired,.closed].find?
    (fun state => utf8 (intentStateName state) == name)

theorem journalActionOutcomeFromName_name (outcome : JournalActionOutcome) :
    journalActionOutcomeFromName (utf8 (journalActionOutcomeName outcome)) = some outcome := by
  cases outcome <;> decide +kernel

theorem journalExpectationStateFromName_name (state : JournalExpectationState) :
    journalExpectationStateFromName (utf8 (journalExpectationStateName state)) =
      some state := by
  cases state <;> decide +kernel

theorem intentStateFromName_name (state : IntentState) :
    intentStateFromName (utf8 (intentStateName state)) = some state := by
  cases state <;> decide +kernel

structure JournalMac where
  mode : Bytes
  keyHint : Bytes
  sig : Bytes
  digest : Bytes
  deriving DecidableEq

structure JournalExpectation where
  kind : Bytes
  replyLikelihood : Single
  tokens : List Bytes
  deriving DecidableEq

def kExpectationMaxTokens : ℕ := 8

structure JournalAction where
  id : Bytes
  kind : Bytes
  text : Bytes
  digest : Bytes
  outcome : JournalActionOutcome
  reason : Bytes
  uri : Bytes
  cid : Bytes
  time : Bytes
  mac : Option JournalMac
  expectation : Option JournalExpectation
  deriving DecidableEq

structure JournalEvent where
  actionId : Bytes
  eventUri : Bytes
  authorDid : Bytes
  via : Bytes
  time : Bytes
  deriving DecidableEq

structure JournalValence where
  token : Bytes
  kind : Bytes
  signal : Single
  source : Bytes
  atEpoch : UInt64
  time : Bytes
  provenance : Bytes
  deriving DecidableEq

structure JournalResolution where
  actionId : Bytes
  state : JournalExpectationState
  atEpoch : UInt64
  time : Bytes
  deriving DecidableEq

structure JournalIntent where
  id : Bytes
  actions : List Bytes
  responder : Bytes
  expiresAtEpoch : UInt64
  expiresAt : Bytes
  maxContinuations : UInt32
  state : IntentState
  atEpoch : UInt64
  time : Bytes
  deriving DecidableEq

/-- The loaded journal, each kind in the order its lines have. -/
structure JournalContents where
  actions : List JournalAction := []
  events : List JournalEvent := []
  valence : List JournalValence := []
  resolutions : List JournalResolution := []
  intents : List JournalIntent := []
  repairedTornTail : Bool := false
  deriving DecidableEq

end Atperson.Journal
