import Atperson.Lock.StateLock
import Atperson.Wire.Json

/-!
# The circuit breaker

Failures in a row open the breaker, each one longer than the last, and a proposal that fails too
often is set aside. The state is one file. Signed arithmetic that leaves 64 bits is undefined,
so it gives no state at all. Reading and writing files succeeds, and the numbers of a file are
whole.
-/
namespace Atperson.Scheduler
open Wire
open Lock (isSpace strtoll)

structure BreakerConfig where
  failureThreshold : UInt32
  baseCooldownSeconds : ℤ
  maxCooldownSeconds : ℤ
  proposalFailureLimit : UInt32
  deriving DecidableEq

def BreakerConfig.default : BreakerConfig := ⟨3,15*60,6*60*60,3⟩

/-- The failures of each proposal, in the order they were first seen. -/
abbrev Tally := List (Bytes×UInt32)

namespace Tally

def count (t : Tally) (digest : Bytes) : UInt32 := (t.lookup digest).getD 0

def forget (t : Tally) (digest : Bytes) : Tally := t.filter fun entry => entry.1 ≠ digest

/-- `operator[]` and an assignment. -/
def assign (t : Tally) (digest : Bytes) (n : UInt32) : Tally :=
  if (t.map Prod.fst).contains digest then
    t.map fun entry => if entry.1 = digest then (digest,n) else entry
  else t++[(digest,n)]

end Tally

structure BreakerState where
  consecutiveFailures : UInt32
  openUntil : ℤ
  cooldownSeconds : ℤ
  trips : UInt64
  lastFailureAt : ℤ
  lastFailureDetail : Bytes
  proposalFailures : Tally
  deriving DecidableEq

def BreakerState.closed : BreakerState := ⟨0,0,0,0,0,[],[]⟩

inductive BreakerGate where
  | closed | opened | halfOpen
  deriving DecidableEq

def breakerGate (state : BreakerState) (now : ℤ) : BreakerGate :=
  if state.openUntil = 0 then .closed
  else if now < state.openUntil then .opened else .halfOpen

def recordSuccess (state : BreakerState) (digest : Bytes) : BreakerState :=
  {state with
    consecutiveFailures := 0
    openUntil := 0
    cooldownSeconds := 0
    proposalFailures := state.proposalFailures.forget digest}

structure FailureEffect where
  tripped : Bool
  quarantine : Bool
  deriving DecidableEq

/-- A signed result that fits 64 bits. -/
def checked64 (n : ℤ) : Option ℤ := if -2^63 ≤ n ∧ n < 2^63 then some n else none

/-- The breaker opens, or opens again with twice the cool-down. -/
def BreakerState.trip (state : BreakerState) (config : BreakerConfig) (now : ℤ) :
    Option BreakerState := do
  let cooldown ←
    if state.cooldownSeconds = 0 then some config.baseCooldownSeconds
    else (checked64 (state.cooldownSeconds*2)).map (min · config.maxCooldownSeconds)
  let cooldownSeconds := min cooldown config.maxCooldownSeconds
  let openUntil ← checked64 (now+cooldownSeconds)
  some {state with cooldownSeconds,openUntil,trips := state.trips+1}

def recordFailure (state : BreakerState) (config : BreakerConfig) (digest detail : Bytes)
    (now : ℤ) : Option (BreakerState×FailureEffect) := do
  let state := {state with
    lastFailureAt := now
    lastFailureDetail := detail.take 200
    consecutiveFailures := state.consecutiveFailures+1}
  let tripped : Bool :=
    state.openUntil ≠ 0 || config.failureThreshold ≤ state.consecutiveFailures
  let state ← if tripped then state.trip config now else some state
  let failures := state.proposalFailures.count digest+1
  if config.proposalFailureLimit ≤ failures then
    some ({state with proposalFailures := state.proposalFailures.forget digest},⟨tripped,true⟩)
  else
    some ({state with proposalFailures := state.proposalFailures.assign digest failures},
      ⟨tripped,false⟩)

/-! ## The file -/

/-- The bytes of a member's name. -/
def nameBytes (name : String) : Bytes := name.toList.map fun c => UInt8.ofNat c.toNat

def tallyJson (t : Tally) : Json ℤ :=
  .object (t.map fun entry => (text (CString.ofRaw entry.1).bytes,.number entry.2.toNat))

def saveBreakerState (state : BreakerState) : Json ℤ :=
  .object [
    ("version",.number 1),
    ("consecutive_failures",.number state.consecutiveFailures.toNat),
    ("open_until",.number (nearestDouble state.openUntil)),
    ("cooldown_seconds",.number (nearestDouble state.cooldownSeconds)),
    ("trips",.number (nearestDouble state.trips.toNat)),
    ("last_failure_at",.number (nearestDouble state.lastFailureAt)),
    ("last_failure_detail",.ofCString state.lastFailureDetail),
    ("proposal_failures",tallyJson state.proposalFailures)]

def invalidBreaker {α : Type} (what : String) : Except String α :=
  .error ("scheduler breaker state: "++what)

/-- The bound of a number in the file. -/
def numberBound : ℤ := 9000000000000000

def numberField (object : Json ℤ) (name : String) : Except String ℤ :=
  match object.get? name with
  | some (.number n) =>
      if nearestDouble n < 0 ∨ numberBound < nearestDouble n then
        invalidBreaker ("field '"++name++"' is missing or not a non-negative number")
      else .ok (nearestDouble n)
  | _ => invalidBreaker ("field '"++name++"' is missing or not a non-negative number")

def detailField (object : Json ℤ) : Bytes :=
  match object.get? "last_failure_detail" with
  | some (.string raw) => (CString.ofRaw raw).bytes
  | _ => []

def readTally (t : Tally) : List (String×Json ℤ) → Except String Tally
  | [] => .ok t
  | (name,.number n)::rest =>
      if nearestDouble n < 0 then
        invalidBreaker "'proposal_failures' entries must be non-negative numbers"
      else readTally (t.assign (nameBytes name) (UInt32.ofNat (nearestDouble n).toNat)) rest
  | _ => invalidBreaker "'proposal_failures' entries must be non-negative numbers"

def tallyField (object : Json ℤ) : Except String Tally :=
  match object.get? "proposal_failures" with
  | some (.object members) => readTally [] members
  | _ => invalidBreaker "'proposal_failures' must be an object"

def isVersionOne (object : Json ℤ) : Bool :=
  match object.get? "version" with
  | some (.number n) => nearestDouble n = 1
  | _ => false

/-- The streak as it is read: no more than a million. -/
def maxStreak : ℤ := 1000000

def readBreaker (object : Json ℤ) : Except String BreakerState := do
  if ¬isVersionOne object then invalidBreaker "unsupported version" else
  let consecutive ← numberField object "consecutive_failures"
  let openUntil ← numberField object "open_until"
  let cooldownSeconds ← numberField object "cooldown_seconds"
  let trips ← numberField object "trips"
  let lastFailureAt ← numberField object "last_failure_at"
  let proposalFailures ← tallyField object
  .ok {
    consecutiveFailures := UInt32.ofNat (min consecutive maxStreak).toNat
    openUntil,cooldownSeconds
    trips := UInt64.ofNat trips.toNat
    lastFailureAt
    lastFailureDetail := detailField object
    proposalFailures}

def loadBreakerState : Option (Json ℤ) → Except String BreakerState
  | none => .ok .closed
  | some (.object members) => readBreaker (.object members)
  | some _ => invalidBreaker "not a JSON object"

/-! ## The configuration -/

/-- A number with an optional sign and nothing behind it, read by `strtoll`. -/
def wholeNumber (raw : Bytes) : Option ℤ :=
  let word := raw.dropWhile isSpace
  let digits := if word.head? = some 45 ∨ word.head? = some 43 then word.tail else word
  if digits ≠ [] ∧ digits.all (fun c => 48 ≤ c && c ≤ 57) then some (strtoll word) else none

/-- `positive_env`. -/
def positiveEnv (name : String) (raw : Option Bytes) (target minimum : ℤ) :
    Except String ℤ :=
  match raw with
  | none | some [] => .ok target
  | some raw => match wholeNumber raw with
      | some value =>
          if value < minimum then
            .error (name++" must be a whole number of at least "++toString minimum)
          else .ok value
      | none => .error (name++" must be a whole number of at least "++toString minimum)

/-- The variables of the breaker. -/
structure BreakerEnvironment where
  threshold : Option Bytes
  cooldown : Option Bytes
  maxCooldown : Option Bytes
  limit : Option Bytes

/-- The breaker's part of `scheduler_config_from_environment`. -/
def breakerConfigFromEnvironment (env : BreakerEnvironment) : Except String BreakerConfig := do
  let config := BreakerConfig.default
  let threshold ← positiveEnv "ATPERSON_BREAKER_THRESHOLD" env.threshold
    config.failureThreshold.toNat 1
  let cooldown ← positiveEnv "ATPERSON_BREAKER_COOLDOWN" env.cooldown config.baseCooldownSeconds 1
  let maxCooldown ← positiveEnv "ATPERSON_BREAKER_MAX_COOLDOWN" env.maxCooldown
    config.maxCooldownSeconds 1
  let limit ← positiveEnv "ATPERSON_PROPOSAL_FAILURE_LIMIT" env.limit
    config.proposalFailureLimit.toNat 1
  if maxCooldown < cooldown then
    .error "ATPERSON_BREAKER_MAX_COOLDOWN must not be below ATPERSON_BREAKER_COOLDOWN"
  else .ok {
    failureThreshold := UInt32.ofNat (min threshold 1000000).toNat
    baseCooldownSeconds := cooldown
    maxCooldownSeconds := maxCooldown
    proposalFailureLimit := UInt32.ofNat (min limit 1000000).toNat}

end Atperson.Scheduler
