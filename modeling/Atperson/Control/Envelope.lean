import Atperson.Wire.Double
import Atperson.Wire.Search
import Atperson.Wire.Json
import Atperson.Outbound.Budget

/-!
# Authorization envelopes

A standing pre-approval as it is parsed from its document under the outbound policy, the verdict
it gives on an action, and the search of a directory of them for the first that covers. A number
outside the range of the C type it is converted to has no defined value; the conversions are
arbitrary there.
-/
namespace Atperson.Envelope
open Wire Outbound

def kAuthorizationEnvelopeFormat : Bytes := utf8 "atperson-authorization-envelope"
def kAuthorizationEnvelopeVersion : ℕ := 1

/-- The conversions of a double to `uint32_t` and `int64_t`. -/
structure Casts where
  word : Double → ℕ
  seconds : Double → ℤ
  word_lt : ∀ d, word d < 2^32
  word_exact : ∀ q : ℚ, 0 ≤ q → q < 2^32 → (word (.finite q) : ℤ) = ⌊q⌋
  seconds_exact : ∀ q : ℚ, 0 ≤ q → q < 2^63 → seconds (.finite q) = ⌊q⌋

/-- Out of range, zero. -/
def plainWord : Double → ℕ
  | .finite q => if 0 ≤ q ∧ q < 2^32 then ⌊q⌋.toNat else 0
  | _ => 0

def plainSeconds : Double → ℤ
  | .finite q => ⌊q⌋
  | _ => 0

theorem plainWord_lt (d : Double) : plainWord d < 2^32 := by
  cases d with
  | finite q =>
      unfold plainWord
      dsimp only
      split
      · next h =>
          have hfloor : ⌊q⌋ < 2^32 := Int.floor_lt.mpr (by exact_mod_cast h.2)
          omega
      · decide
  | infinite negative => exact Nat.two_pow_pos 32
  | nan => exact Nat.two_pow_pos 32

theorem plainWord_exact (q : ℚ) (hlow : 0 ≤ q) (hhigh : q < 2^32) :
    (plainWord (.finite q) : ℤ) = ⌊q⌋ := by
  have hfloor := Int.floor_nonneg.mpr hlow
  simp only [plainWord,if_pos (And.intro hlow hhigh)]
  omega

theorem plainSeconds_exact (q : ℚ) (_ : 0 ≤ q) (_ : q < 2^63) :
    plainSeconds (.finite q) = ⌊q⌋ := rfl

def plainCasts : Casts := ⟨plainWord,plainSeconds,plainWord_lt,plainWord_exact,plainSeconds_exact⟩

structure EnvelopeKindRule where
  kind : OutboundActionKind
  maxInWindow : ℕ
  windowSeconds : ℤ
  minPlanScore : Double
  minSupportScore : Double
  deriving DecidableEq

structure AuthorizationEnvelope where
  version : ℕ
  id : Bytes
  expiresAt : Option Bytes
  scopeTerms : List Bytes
  kinds : List EnvelopeKindRule
  note : Bytes
  createdAt : Bytes
  deriving DecidableEq

def envelopeIdByte (c : UInt8) : Bool := (97 ≤ c && c ≤ 122) || (48 ≤ c && c ≤ 57) || c = 45

def isEnvelopeId (id : Bytes) : Bool :=
  id ≠ [] && id.length ≤ 64 && id.head? ≠ some 45 && id.getLast? ≠ some 45 &&
    id.all envelopeIdByte

/-! ## The document -/

def invalid {α : Type} (message : String) : Except String α :=
  .error ("authorization envelope: "++message)

/-- A string member's C string, when it is not empty. -/
def filledString : Option (Json Double) → Option Bytes
  | some (.string s) =>
      if (CString.ofRaw s).bytes = [] then none else some (CString.ofRaw s).bytes
  | _ => none

def requireString (object : Json Double) (key : String) : Except String Bytes :=
  match filledString (object.get? key) with
  | some value => .ok value
  | none => invalid ("missing or empty string field '"++key++"'")

def optionalString (object : Json Double) (key : String) : Except String (Option Bytes) :=
  match object.get? key with
  | none | some .null => .ok none
  | some member =>
      match filledString (some member) with
      | some value => .ok (some value)
      | none => invalid ("field '"++key++"' must be a string or null")

def requireInstant (key : String) (value : Bytes) : Except String Unit :=
  if (parseRfc3339Epoch value).isNone then
    invalid (key++" '"++text value++"' is not a valid RFC 3339 instant")
  else .ok ()

def scopeTerm (term : Json Double) : Except String Bytes :=
  match filledString (some term) with
  | some value => .ok value
  | none => invalid "scope_terms entries must be non-empty strings"

def requireArray (object : Json Double) (key : String) : Except String (List (Json Double)) :=
  match object.get? key with
  | some (.array items) => .ok items
  | _ => invalid ("missing '"++key++"' array")

/-- A ceiling or a window: a number that is not below one. -/
def numberFromOne (entry : Json Double) (key : String) : Except String Double :=
  match entry.get? key with
  | some (.number value) =>
      if value.lt (.finite 1) then invalid ("field '"++key++"' must be a number >= 1") else .ok value
  | _ => invalid ("field '"++key++"' must be a number >= 1")

/-- A floor: zero unless it is a number; only a string is refused. -/
def scoreFloor (entry : Json Double) (key : String) : Except String Double :=
  match entry.get? key with
  | some (.number value) => .ok value
  | some (.string _) => invalid ("field '"++key++"' must be a number")
  | _ => .ok (.finite 0)

def parseKindName (name : Bytes) : Option OutboundActionKind :=
  OutboundActionKind.all.find? fun kind => utf8 (outboundKindName kind) == name

/-- The policy bounds every rule. -/
def withinPolicy (policy : OutboundPolicy) (kindName : Bytes) (rule : EnvelopeKindRule) :
    Except String Unit :=
  let budget := budgetFor policy rule.kind
  if budget.enabled = false then
    invalid ("kind '"++text kindName++"' is not enabled in the outbound policy; an "++
      "envelope cannot enable it")
  else if budget.maxInWindow < rule.maxInWindow then
    invalid ("max_in_window "++toString rule.maxInWindow++" exceeds the policy ceiling "++
      toString budget.maxInWindow++" for kind '"++text kindName++"'")
  else if budget.windowSeconds < rule.windowSeconds then
    invalid ("window_seconds "++toString rule.windowSeconds++" exceeds the policy window "++
      toString budget.windowSeconds++" for kind '"++text kindName++"'")
  else .ok ()

def requireObject (entry : Json Double) : Except String Unit :=
  match entry with
  | .object _ => .ok ()
  | _ => invalid "kinds entries must be objects"

def requireKind (name : Bytes) : Except String OutboundActionKind :=
  match parseKindName name with
  | some kind => .ok kind
  | none => invalid ("unknown action kind '"++text name++"'")

def requireWindow (seconds : ℤ) : Except String Unit :=
  if kMaxOutboundWindowSeconds < seconds then
    invalid "window_seconds exceeds the maximum of 366 days"
  else .ok ()

variable (casts : Casts)

def parseKindRule (policy : OutboundPolicy) (entry : Json Double) :
    Except String EnvelopeKindRule := do
  requireObject entry
  let kindName ← requireString entry "kind"
  let kind ← requireKind kindName
  let ceiling ← numberFromOne entry "max_in_window"
  let window ← numberFromOne entry "window_seconds"
  requireWindow (casts.seconds window)
  let plan ← scoreFloor entry "min_plan_score"
  let support ← scoreFloor entry "min_support_score"
  let rule : EnvelopeKindRule :=
    { kind
      maxInWindow := casts.word ceiling
      windowSeconds := casts.seconds window
      minPlanScore := plan
      minSupportScore := support }
  withinPolicy policy kindName rule
  pure rule

def requireFormat (format : Bytes) : Except String Unit :=
  if format ≠ kAuthorizationEnvelopeFormat then
    invalid ("unexpected format '"++text format++"'")
  else .ok ()

def requireVersion (root : Json Double) : Except String ℕ :=
  match root.get? "version" with
  | some (.number value) =>
      if casts.word value ≠ kAuthorizationEnvelopeVersion then
        invalid ("unsupported version "++toString (casts.word value))
      else .ok (casts.word value)
  | _ => invalid "missing or invalid 'version'"

def requireId (id : Bytes) : Except String Unit :=
  if isEnvelopeId id then .ok ()
  else invalid ("id '"++text id++"' must be 1-64 of [a-z0-9-], no edge hyphens")

def requireKinds (kinds : List EnvelopeKindRule) : Except String Unit :=
  if kinds = [] then invalid "an envelope must cover at least one action kind" else .ok ()

def parseRoot (root : Json Double) (policy : OutboundPolicy) :
    Except String AuthorizationEnvelope := do
  let format ← requireString root "format"
  requireFormat format
  let version ← requireVersion casts root
  let id ← requireString root "id"
  requireId id
  let expiresAt ← optionalString root "expires_at"
  expiresAt.forM (requireInstant "expires_at")
  let createdAt ← requireString root "created_at"
  requireInstant "created_at" createdAt
  let note ← optionalString root "note"
  let scope ← requireArray root "scope_terms"
  let scopeTerms ← scope.mapM scopeTerm
  let entries ← requireArray root "kinds"
  let kinds ← entries.mapM (parseKindRule casts policy)
  requireKinds kinds
  pure
    { version
      id
      expiresAt
      scopeTerms
      kinds
      note := note.getD []
      createdAt }

/-- `parse_authorization_envelope`, over what the JSON parser makes of the text. -/
def parseAuthorizationEnvelope (document : Option (Json Double)) (policy : OutboundPolicy)
    (source : String) : Except String AuthorizationEnvelope :=
  match document with
  | some (.object members) => parseRoot casts (.object members) policy
  | _ => invalid (source++": not a valid JSON object")

/-! ## Coverage -/

def countInWindow (usage : OutboundKindUsage) (windowSeconds now : ℤ) : ℕ :=
  (usage.recentActions.reverse.takeWhile fun t => now-t < windowSeconds).length

/-- ASCII letters in lower case. -/
def lowerByte (c : UInt8) : UInt8 := if 65 ≤ c ∧ c ≤ 90 then c-65+97 else c

def textContainsTerm (content term : Bytes) : Bool :=
  term ≠ [] && (find (content.map lowerByte) (term.map lowerByte)).isSome

structure EnvelopeCoverage where
  covered : Bool := false
  envelopeId : Bytes := []
  reason : String := ""
  deriving DecidableEq

structure EnvelopeEvidence where
  planScore : Option Double
  supportScore : Option Double

def expired (e : AuthorizationEnvelope) (now : ℤ) : Bool :=
  match e.expiresAt with
  | none => false
  | some value =>
      match parseRfc3339Epoch value with
      | none => true
      | some expires => (expires.toNat : ℤ) ≤ now

/-- A configured floor is missed by a lower score and by none. -/
def missesFloor (minimum : Double) (score : Option Double) : Bool :=
  (Double.finite 0).lt minimum && (match score with
    | none => true
    | some value => value.lt minimum)

def outOfScope (e : AuthorizationEnvelope) (content : Bytes) : Bool :=
  e.scopeTerms ≠ [] && !e.scopeTerms.any (textContainsTerm content)

def coversAction (e : AuthorizationEnvelope) (kind : OutboundActionKind) (content : Bytes)
    (evidence : EnvelopeEvidence) (usage : OutboundKindUsage) (now : ℤ) : EnvelopeCoverage :=
  if expired e now then {envelopeId := e.id, reason := "expired"}
  else
    match e.kinds.find? (·.kind = kind) with
    | none => {envelopeId := e.id, reason := "kind_not_covered"}
    | some rule =>
        if rule.maxInWindow ≤ countInWindow usage rule.windowSeconds now then
          {envelopeId := e.id, reason := "rate_ceiling"}
        else if missesFloor rule.minPlanScore evidence.planScore then
          {envelopeId := e.id, reason := "score_floor"}
        else if missesFloor rule.minSupportScore evidence.supportScore then
          {envelopeId := e.id, reason := "score_floor"}
        else if outOfScope e content then {envelopeId := e.id, reason := "scope"}
        else {covered := true, envelopeId := e.id}

/-! ## The directory -/

inductive DirEntry where
  | file (document : Option (Json Double))
  | other

/-- What the directory holds, by name. -/
structure EnvelopeDir where
  entries : List (Bytes × DirEntry)
  distinct : (entries.map (·.1)).Nodup

def jsonExtension : Bytes := utf8 ".json"

def envelopeFile (id : Bytes) : Bytes := id++jsonExtension

/-- The stem of a regular `.json` file, when it is an identifier. -/
def listedId : Bytes × DirEntry → Option Bytes
  | (name,.file _) =>
      let stem := name.take (name.length-jsonExtension.length)
      if name = envelopeFile stem && isEnvelopeId stem then some stem else none
  | (_,.other) => none

def listAuthorizationEnvelopes (dir : EnvelopeDir) : List Bytes :=
  (dir.entries.filterMap listedId).mergeSort (fun a b => decide (a ≤ b))

/-- `load_authorization_envelope`; what is at the name may have been no regular file. -/
def loadAuthorizationEnvelope (dir : EnvelopeDir) (id : Bytes) (policy : OutboundPolicy) :
    Except String (Option AuthorizationEnvelope) :=
  if isEnvelopeId id = false then .ok none
  else
    match dir.entries.find? (·.1 = envelopeFile id) with
    | none => .ok none
    | some (name,.other) => .error ("authorization envelope: could not read "++text name)
    | some (name,.file document) =>
        (parseAuthorizationEnvelope casts document policy (text name)).map some

/-- The best reason so far: a concrete one replaces anything, an expiry only a generic one. -/
def betterReason (best coverage : EnvelopeCoverage) : EnvelopeCoverage :=
  if coverage.reason ≠ "expired" ∨ best.reason = "no_envelope" ∨ best.reason = "not_covered" then
    coverage
  else best

def searchEnvelopes (load : Bytes → Except String (Option AuthorizationEnvelope))
    (covers : AuthorizationEnvelope → EnvelopeCoverage) :
    List Bytes → EnvelopeCoverage → Except String EnvelopeCoverage
  | [], best => .ok best
  | id::ids, best =>
      match load id with
      | .error e => .error e
      | .ok none => searchEnvelopes load covers ids best
      | .ok (some envelope) =>
          if (covers envelope).covered then .ok (covers envelope)
          else searchEnvelopes load covers ids (betterReason best (covers envelope))

def findCoveringEnvelope (dir : EnvelopeDir) (policy : OutboundPolicy) (kind : OutboundActionKind)
    (content : Bytes) (evidence : EnvelopeEvidence) (budget : OutboundBudgetState) (now : ℤ) :
    Except String EnvelopeCoverage :=
  let ids := listAuthorizationEnvelopes dir
  searchEnvelopes (fun id => loadAuthorizationEnvelope casts dir id policy)
    (fun e => coversAction e kind content evidence (budget.usage kind) now) ids
    {reason := if ids = [] then "no_envelope" else "not_covered"}

end Atperson.Envelope
