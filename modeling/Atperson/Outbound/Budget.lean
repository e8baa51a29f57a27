import Atperson.Wire.Json

/-!
# Outbound kinds, policy and budget state

The rules an operator sets for each action kind, and the rolling record of admitted
actions the rules are checked against. The record keeps at most 256 times and 256
identities for a kind; a policy may ask for limits up to 100000.
-/
namespace Atperson.Outbound
open Wire

inductive OutboundActionKind where
  | post | reply | like | repost | follow | unfollow | moderation
  deriving DecidableEq

namespace OutboundActionKind

def all : List OutboundActionKind :=
  [.post,.reply,.like,.repost,.follow,.unfollow,.moderation]

theorem mem_all (kind : OutboundActionKind) : kind ∈ all := by cases kind <;> decide

instance : Fintype OutboundActionKind := ⟨⟨all,by decide⟩,mem_all⟩

end OutboundActionKind

def outboundKindName : OutboundActionKind → String
  | .post => "post"
  | .reply => "reply"
  | .like => "like"
  | .repost => "repost"
  | .follow => "follow"
  | .unfollow => "unfollow"
  | .moderation => "moderation"

def parseOutboundKind (name : String) : Option OutboundActionKind :=
  OutboundActionKind.all.find? (fun kind => outboundKindName kind == name)

theorem parseOutboundKind_name (kind : OutboundActionKind) :
    parseOutboundKind (outboundKindName kind) = some kind := by
  cases kind <;> decide +kernel

structure OutboundActionProposal where
  kind : OutboundActionKind
  target : Bytes
  actionDigest : Bytes
  deriving DecidableEq

/-- The byte between the parts of an identity, `':'`. -/
def colon : UInt8 := 58

def outboundDedupKey (proposal : OutboundActionProposal) : Bytes :=
  utf8 (outboundKindName proposal.kind)++colon::(proposal.target++colon::proposal.actionDigest)

def kMaxOutboundWindowSeconds : ℤ := 366*24*60*60
def kMaxActionsInWindow : ℕ := 100000
@[irreducible] def kMaxOutboundRecordsPerKind : ℕ := 256

structure ActionBudget where
  enabled : Bool := false
  maxInWindow : ℕ := 1
  windowSeconds : ℤ := 24*60*60
  minIntervalSeconds : ℤ := 0
  duplicateCooldownSeconds : ℤ := 0
  deriving DecidableEq

structure OutboundPolicy where
  version : ℕ := 1
  budgets : OutboundActionKind → ActionBudget := fun _ => {}

def budgetFor (policy : OutboundPolicy) (kind : OutboundActionKind) : ActionBudget :=
  policy.budgets kind

/-- The checks of one kind's budget, in the source's order, with the field each names. -/
def validateBudget (budget : ActionBudget) : Except String Unit :=
  if budget.maxInWindow = 0 ∨ budget.maxInWindow > kMaxActionsInWindow then
    .error "max_in_window"
  else if budget.windowSeconds < 1 ∨ budget.windowSeconds > kMaxOutboundWindowSeconds then
    .error "window_seconds"
  else if budget.minIntervalSeconds < 0 ∨
      budget.minIntervalSeconds > kMaxOutboundWindowSeconds then
    .error "min_interval_seconds"
  else if budget.duplicateCooldownSeconds < 0 ∨
      budget.duplicateCooldownSeconds > kMaxOutboundWindowSeconds then
    .error "duplicate_cooldown_seconds"
  else .ok ()

def validateKinds (policy : OutboundPolicy) (source : String) :
    List OutboundActionKind → Except String Unit
  | [] => .ok ()
  | kind::rest =>
      match validateBudget (policy.budgets kind) with
      | .error field => .error ("outbound policy ("++source++"): kind '"++
          outboundKindName kind++"' has an impossible "++field)
      | .ok () => validateKinds policy source rest

def validate (policy : OutboundPolicy) (source : String) : Except String Unit :=
  if policy.version ≠ 1 then
    .error ("outbound policy ("++source++"): unsupported version "++toString policy.version)
  else validateKinds policy source OutboundActionKind.all

/-! The record of admitted actions. -/

structure OutboundDuplicateRecord where
  key : Bytes
  atTime : ℤ
  deriving DecidableEq

structure OutboundKindUsage where
  lastActionAt : Option ℤ := none
  recentActions : List ℤ := []
  recentDuplicates : List OutboundDuplicateRecord := []
  deriving DecidableEq

@[ext] structure OutboundBudgetState where
  version : ℕ := 1
  usage : OutboundActionKind → OutboundKindUsage := fun _ => {}
  savedAt : Option ℤ := none

def OutboundBudgetState.setUsage (state : OutboundBudgetState) (kind : OutboundActionKind)
    (usage : OutboundKindUsage) : OutboundBudgetState :=
  {state with usage := Function.update state.usage kind usage}

/-- The newest records, as many as the cap allows. -/
def keepLast {α : Type} (records : List α) : List α :=
  records.drop (records.length-kMaxOutboundRecordsPerKind)

def pruneKind (usage : OutboundKindUsage) (budget : ActionBudget) (now : ℤ) :
    OutboundKindUsage :=
  let horizon := max (max budget.windowSeconds budget.minIntervalSeconds) 1
  let actions := usage.recentActions.filter (fun t => ¬t < now-horizon)
  let duplicates :=
    if budget.duplicateCooldownSeconds > 0 then
      usage.recentDuplicates.filter
        (fun record => ¬record.atTime < now-budget.duplicateCooldownSeconds)
    else []
  {usage with recentActions := keepLast actions, recentDuplicates := keepLast duplicates}

@[simp] theorem pruneKind_last (usage : OutboundKindUsage) (budget : ActionBudget) (now : ℤ) :
    (pruneKind usage budget now).lastActionAt = usage.lastActionAt := by
  simp only [pruneKind]

theorem pruneKind_actions (usage : OutboundKindUsage) (budget : ActionBudget) (now : ℤ) :
    (pruneKind usage budget now).recentActions = keepLast (usage.recentActions.filter
      (fun t => ¬t < now-max (max budget.windowSeconds budget.minIntervalSeconds) 1)) := by
  simp only [pruneKind]

theorem pruneKind_duplicates (usage : OutboundKindUsage) (budget : ActionBudget) (now : ℤ) :
    (pruneKind usage budget now).recentDuplicates =
      keepLast (if budget.duplicateCooldownSeconds > 0 then usage.recentDuplicates.filter
        (fun record => ¬record.atTime < now-budget.duplicateCooldownSeconds) else []) := by
  simp only [pruneKind]

def pruneOutboundBudgetState (state : OutboundBudgetState) (policy : OutboundPolicy)
    (now : ℤ) : OutboundBudgetState :=
  {state with usage := fun kind => pruneKind (state.usage kind) (budgetFor policy kind) now}

/-- A backwards clock records at the last admitted time. -/
def clampToLast (usage : OutboundKindUsage) (now : ℤ) : ℤ :=
  match usage.lastActionAt with
  | some last => if now < last then last else now
  | none => now

def recordKind (usage : OutboundKindUsage) (key : Bytes) (budget : ActionBudget) (now : ℤ) :
    OutboundKindUsage :=
  let now := clampToLast usage now
  pruneKind {
    lastActionAt := some now
    recentActions := usage.recentActions++[now]
    recentDuplicates := usage.recentDuplicates.filter (·.key ≠ key)++[⟨key,now⟩] } budget now

def recordOutboundAction (state : OutboundBudgetState) (proposal : OutboundActionProposal)
    (budget : ActionBudget) (now : ℤ) : OutboundBudgetState :=
  state.setUsage proposal.kind
    (recordKind (state.usage proposal.kind) (outboundDedupKey proposal) budget now)

def countOutboundActionsInWindow (state : OutboundBudgetState) (kind : OutboundActionKind)
    (windowSeconds now : ℤ) : ℕ :=
  (state.usage kind).recentActions.countP (fun t => t ≥ now-windowSeconds)

def lastOutboundActionAt (state : OutboundBudgetState) (kind : OutboundActionKind) :
    Option ℤ :=
  (state.usage kind).lastActionAt

def earliestOutboundActionInWindow (state : OutboundBudgetState) (kind : OutboundActionKind)
    (windowSeconds now : ℤ) : Option ℤ :=
  (state.usage kind).recentActions.find? (fun t => t ≥ now-windowSeconds)

def duplicateOutboundRecordedAt (state : OutboundBudgetState)
    (proposal : OutboundActionProposal) : Option ℤ :=
  ((state.usage proposal.kind).recentDuplicates.find?
    (·.key = outboundDedupKey proposal)).map (·.atTime)

/-! The state's file. -/

def kFormat : String := "atperson-outbound-budget"

def optionalTime : Option ℤ → Json ℤ
  | some t => .number t
  | none => .null

def duplicateJson (record : OutboundDuplicateRecord) : Json ℤ :=
  .object [("key",.ofCString record.key),("at",.number record.atTime)]

def usageJson (usage : OutboundKindUsage) : Json ℤ :=
  .object [
    ("last_action_at",optionalTime usage.lastActionAt),
    ("recent_actions",.array (usage.recentActions.map .number)),
    ("recent_duplicates",.array (usage.recentDuplicates.map duplicateJson))]

def serialiseOutboundBudgetState (state : OutboundBudgetState) : Except String (Json ℤ) :=
  if state.version ≠ 1 then
    .error ("outbound budget: unsupported version "++toString state.version)
  else .ok (.object [
    ("format",.string (utf8 kFormat)),
    ("version",.number state.version),
    ("saved_at",optionalTime state.savedAt),
    ("kinds",.object (OutboundActionKind.all.map
      (fun kind => (outboundKindName kind,usageJson (state.usage kind)))))])

def invalid {α : Type} (message : String) : Except String α :=
  .error ("outbound budget: "++message)

def requireTimestamp (value : Option (Json ℤ)) (what : String) : Except String ℤ :=
  match value with
  | some (.number n) =>
      if nearestDouble n < 0 then invalid (what++" must not be negative")
      else .ok (nearestDouble n)
  | _ => invalid (what++" must be an integer timestamp")

def parseOptionalTime (value : Option (Json ℤ)) (what : String) :
    Except String (Option ℤ) :=
  match value with
  | none | some .null => .ok none
  | some v => (requireTimestamp (some v) what).map some

def parseActions (value : Option (Json ℤ)) (kind : String) : Except String (List ℤ) :=
  match value with
  | none => .ok []
  | some (.array items) =>
      items.mapM (fun v => requireTimestamp (some v) "recent_actions entry")
  | some _ => invalid ("kind '"++kind++"' recent_actions must be an array")

def parseDuplicate (entry : Json ℤ) (kind : String) :
    Except String OutboundDuplicateRecord :=
  match entry with
  | .object _ =>
      match entry.get? "key" with
      | some (.string raw) =>
          let key := (CString.ofRaw raw).bytes
          if key = [] then invalid ("kind '"++kind++"' duplicate record is missing a key")
          else (requireTimestamp (entry.get? "at") "duplicate at").map (⟨key,·⟩)
      | _ => invalid ("kind '"++kind++"' duplicate record is missing a key")
  | _ => invalid ("kind '"++kind++"' recent_duplicates entries must be objects")

def parseDuplicates (value : Option (Json ℤ)) (kind : String) :
    Except String (List OutboundDuplicateRecord) :=
  match value with
  | none => .ok []
  | some (.array items) => items.mapM (parseDuplicate · kind)
  | some _ => invalid ("kind '"++kind++"' recent_duplicates must be an array")

def nonDecreasing : List ℤ → Bool
  | a::b::rest => a ≤ b && nonDecreasing (b::rest)
  | _ => true

def parseUsage (object : Json ℤ) (kind : String) : Except String OutboundKindUsage := do
  let last ← parseOptionalTime (object.get? "last_action_at") "last_action_at"
  let actions ← parseActions (object.get? "recent_actions") kind
  let duplicates ← parseDuplicates (object.get? "recent_duplicates") kind
  if actions.length > kMaxOutboundRecordsPerKind then
    invalid ("kind '"++kind++"' has too many recent_actions")
  else if duplicates.length > kMaxOutboundRecordsPerKind then
    invalid ("kind '"++kind++"' has too many recent_duplicates")
  else if nonDecreasing actions = false then
    invalid ("kind '"++kind++"' recent_actions must be non-decreasing")
  else .ok ⟨last,actions,duplicates⟩

/-- The members of `kinds` in file order; `seen` are the kinds already read. -/
def parseKinds : List (String × Json ℤ) → List OutboundActionKind → OutboundBudgetState →
    Except String OutboundBudgetState
  | [], _, state => .ok state
  | (name,entry)::rest, seen, state =>
      match entry with
      | .object _ =>
          match parseOutboundKind name with
          | none => invalid ("unknown action kind '"++name++"'")
          | some kind =>
              if kind ∈ seen then invalid ("duplicate kind '"++name++"'")
              else do
                let usage ← parseUsage entry name
                parseKinds rest (kind::seen) (state.setUsage kind usage)
      | _ => invalid "'kinds' entries must be named objects"

/-- A missing file is the empty state. -/
def loadOutboundBudgetState (file : Option (Json ℤ)) (path : String) :
    Except String OutboundBudgetState :=
  match file with
  | none => .ok {}
  | some root =>
      match root with
      | .object _ =>
          match root.get? "format" with
          | some (.string format) =>
              if format ≠ utf8 kFormat then invalid ("unexpected format '"++text format++"'")
              else match root.get? "version" with
                | some (.number version) =>
                    if nearestDouble version ≠ 1 then
                      invalid ("unsupported version "++toString (nearestDouble version)++".000000")
                    else do
                      let saved ← parseOptionalTime (root.get? "saved_at") "saved_at"
                      match root.get? "kinds" with
                      | none => .ok {savedAt := saved}
                      | some (.object members) => parseKinds members [] {savedAt := saved}
                      | some _ => invalid "'kinds' must be an object"
                | _ => invalid "missing or invalid 'version'"
          | _ => invalid "missing string field 'format'"
      | _ => invalid (path++" is not a JSON object")

end Atperson.Outbound
