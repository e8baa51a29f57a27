import Atperson.Control.State
import Atperson.Wire.Double
import Atperson.Wire.Timestamp

/-!
# Remote operator requests

The request document with its parser, the durable watermark, and the decision that applies
one request. A request is accepted at the next sequence number only; what is refused
leaves the state and the watermark alone. Applied a second time a command changes at most
the time of a shutdown.
-/
namespace Atperson.Control
open Wire Runs

inductive ControlOp where
  | pause | resume | writesOn | writesOff | dryRunOn | dryRunOff | offlineOn | offlineOff
  | approvalOn | approvalOff | approve | revoke | shutdown | cancelShutdown
  deriving DecidableEq

def controlOpName : ControlOp → String
  | .pause => "pause"
  | .resume => "resume"
  | .writesOn => "writes-on"
  | .writesOff => "writes-off"
  | .dryRunOn => "dry-run-on"
  | .dryRunOff => "dry-run-off"
  | .offlineOn => "offline-on"
  | .offlineOff => "offline-off"
  | .approvalOn => "approval-on"
  | .approvalOff => "approval-off"
  | .approve => "approve"
  | .revoke => "revoke"
  | .shutdown => "shutdown"
  | .cancelShutdown => "cancel-shutdown"

def kAll : List ControlOp :=
  [.pause,.resume,.writesOn,.writesOff,.dryRunOn,.dryRunOff,.offlineOn,.offlineOff,
    .approvalOn,.approvalOff,.approve,.revoke,.shutdown,.cancelShutdown]

def controlOpFromName (name : Bytes) : Option ControlOp :=
  kAll.find? fun candidate => utf8 (controlOpName candidate) = name

def controlOpTakesArgument : ControlOp → Bool
  | .approve | .revoke => true
  | _ => false

/-- Every operation is read back from its name. -/
theorem controlOpFromName_name (op : ControlOp) :
    controlOpFromName (utf8 (controlOpName op)) = some op := by
  cases op <;> decide

inductive OperatorChannelStatus where
  | disabled | ready | conflict
  deriving DecidableEq

def checkOperatorChannel (accountDid operatorDid : Bytes) : OperatorChannelStatus :=
  if operatorDid = [] then .disabled
  else if accountDid ≠ [] ∧ accountDid = operatorDid then .conflict
  else .ready

def operatorChannelDenial (accountDid operatorDid : Bytes) : String :=
  match checkOperatorChannel accountDid operatorDid with
  | .disabled =>
      "remote control is disabled: set ATPERSON_OPERATOR_DID to a DID that is "++
        "not this entity's account"
  | .ready => ""
  | .conflict =>
      "remote control refused: ATPERSON_OPERATOR_DID is "++text operatorDid++
        ", which is also this entity's own account DID. The operator must be a "++
        "separate account, or the entity could command itself; set "++
        "ATPERSON_OPERATOR_DID to a different DID or unset it to disable the "++
        "channel"

structure ControlRequest where
  seq : UInt64
  op : ControlOp
  arg : Bytes
  time : Option Bytes
  deriving DecidableEq

def kControlRequestFormat : String := "atperson-control-request"
def kControlRequestType : String := "click.croft.atperson.control#request"
def kCursorFormat : String := "atperson-control-cursor"

namespace Remote

def invalid {α : Type} (message : String) : Except String α :=
  .error ("remote control: "++message)

def requireString (object : Json Double) (key : String) : Except String Bytes :=
  match object.get? key with
  | some (.string raw) =>
      let value := (CString.ofRaw raw).bytes
      if value = [] then invalid ("missing or invalid string field '"++key++"'")
      else .ok value
  | _ => invalid ("missing or invalid string field '"++key++"'")

def optionalString (object : Json Double) (key : String) : Except String (Option Bytes) :=
  match object.get? key with
  | none | some .null => .ok none
  | some (.string raw) => .ok (some (CString.ofRaw raw).bytes)
  | some _ => invalid ("field '"++key++"' must be a string or null")

/-- The versions of both documents are 1. -/
def versionOne (object : Json Double) : Bool :=
  match object.get? "version" with
  | some (.number d) => d = .finite 1
  | _ => false

/-- A double from `2^64` on is no whole number of 64 bits. -/
def wholeNumber (d : Double) : Option UInt64 :=
  match d with
  | .finite q => if q.den = 1 ∧ 0 ≤ q.num ∧ q.num < 2^64 then some (.ofNat q.num.toNat) else none
  | _ => none

def requireU64Field (object : Json Double) (key : String) : Except String UInt64 :=
  match object.get? key with
  | some (.string raw) =>
      let digits := (CString.ofRaw raw).bytes
      if digits = [] ∨ ¬ digits.all (fun c => 48 ≤ c && c ≤ 57) then
        invalid ("field '"++key++"' is not a decimal string")
      else if decimalValue digits < 2^64 then .ok (.ofNat (decimalValue digits))
      else invalid ("field '"++key++"' overflows u64")
  | some (.number d) =>
      if d.lt (.finite 0) then invalid ("missing or invalid field '"++key++"'")
      else match wholeNumber d with
        | some n => .ok n
        | none => invalid ("field '"++key++"' must be a whole number")
  | _ => invalid ("missing or invalid field '"++key++"'")

end Remote

/-- The text is none when the service gave no value that prints. -/
def parseControlRequest (json : Option (Json Double)) : Except String ControlRequest :=
  match json with
  | some (.object members) => do
      let root : Json Double := .object members
      let format ← Remote.requireString root "format"
      if format ≠ utf8 kControlRequestFormat then Remote.invalid "unknown request format"
      else if ¬ Remote.versionOne root then Remote.invalid "unsupported request version"
      else do
        let type ← Remote.requireString root "type"
        if type ≠ utf8 kControlRequestType then Remote.invalid "unexpected record type"
        else do
          let seq ← Remote.requireU64Field root "seq"
          let opName ← Remote.requireString root "op"
          match controlOpFromName opName with
          | none => Remote.invalid ("unknown op '"++text opName++"'")
          | some op => do
              let arg := (← Remote.optionalString root "arg").getD []
              let time ← Remote.optionalString root "at"
              if controlOpTakesArgument op then
                if arg = [] then
                  Remote.invalid ("op '"++text opName++"' requires a digest argument")
                else if !isControlDigestShape arg then
                  Remote.invalid
                    ("op '"++text opName++"' needs a digest of 16 lowercase hex digits")
                else .ok { seq := seq, op := op, arg := arg, time := time }
              else if arg ≠ [] then
                Remote.invalid ("op '"++text opName++"' does not take an argument")
              else .ok { seq := seq, op := op, arg := arg, time := time }
  | _ => Remote.invalid "not a JSON object"

structure RemoteApplyReport where
  applied : Bool := false
  seq : UInt64
  op : String
  reason : String := ""
  deriving DecidableEq

/-- A report with the state and the watermark as the call leaves them. -/
structure Decision where
  report : RemoteApplyReport
  state : ControlState
  watermark : UInt64

/-- What an accepted command does; `now` is the time a shutdown is stamped with. -/
def mutate (op : ControlOp) (arg now : Bytes) (state : ControlState) : ControlState :=
  match op with
  | .pause => { state with paused := true }
  | .resume => { state with paused := false }
  | .writesOn => { state with writesEnabled := true }
  | .writesOff => { state with writesEnabled := false }
  | .dryRunOn => { state with dryRun := true }
  | .dryRunOff => { state with dryRun := false }
  | .offlineOn => { state with offlineMode := true }
  | .offlineOff => { state with offlineMode := false }
  | .approvalOn => { state with approvalRequired := true }
  | .approvalOff => { state with approvalRequired := false }
  | .approve =>
      if isDigestApproved state arg then state
      else { state with approvedDigests := arg::state.approvedDigests }
  | .revoke => { state with approvedDigests := state.approvedDigests.filter (· ≠ arg) }
  | .shutdown => { state with shutdownRequestedAt := some now }
  | .cancelShutdown => { state with shutdownRequestedAt := none }

def controlNowRfc3339 (clock : ℤ) : Bytes := rfc3339FromUnix clock

def applyControlRequest (state : ControlState) (watermark : UInt64) (request : ControlRequest)
    (operatorDid requestDid : Bytes) (clock : ℤ) : Decision :=
  let report : RemoteApplyReport := { seq := request.seq, op := controlOpName request.op }
  let refuse (reason : String) : Decision :=
    { report := { report with reason := reason }, state := state, watermark := watermark }
  if operatorDid = [] then
    refuse "no operator DID configured; remote control is disabled"
  else if requestDid ≠ operatorDid then
    refuse "record author is not the configured operator"
  -- the sum wraps, so that behind the last watermark comes zero
  else if request.seq ≠ watermark+1 then
    refuse (if request.seq ≤ watermark then "sequence already applied or replayed"
      else "sequence gap; an earlier command is missing")
  else if controlOpTakesArgument request.op ∧ request.arg = [] then
    refuse "op requires a digest argument"
  else if controlOpTakesArgument request.op ∧ !isControlDigestShape request.arg then
    refuse "digest argument must be 16 lowercase hex digits"
  else if ¬ controlOpTakesArgument request.op ∧ request.arg ≠ [] then
    refuse "op does not take an argument"
  else if request.op = .approve ∧ ¬ isDigestApproved state request.arg ∧
      state.approvedDigests.length ≥ kMaxApprovedDigests then
    refuse "approval list is full; revoke an action first"
  else
    { report := { report with applied := true, reason := "applied" }
      state := mutate request.op request.arg (controlNowRfc3339 clock) state
      watermark := request.seq }

structure RemoteControlCursor where
  version : ℕ := 1
  lastSeq : UInt64 := 0
  deriving DecidableEq

def loadRemoteControlCursor (file : Option (Json Double)) :
    Except String RemoteControlCursor :=
  match file with
  | none => .ok {}
  | some (.object members) => do
      let root : Json Double := .object members
      let format ← Remote.requireString root "format"
      if format ≠ utf8 kCursorFormat then Remote.invalid "unknown cursor format"
      else if ¬ Remote.versionOne root then Remote.invalid "unsupported cursor version"
      else do
        let lastSeq ← Remote.requireU64Field root "last_seq"
        .ok { lastSeq := lastSeq }
  | some _ => .error "remote control: cursor is not a JSON object"

def serialiseCursor (cursor : RemoteControlCursor) : Json Double :=
  .object [
    ("format",.string (utf8 kCursorFormat)),
    ("version",.number (.finite 1)),
    ("last_seq",.string (decimalString cursor.lastSeq.toNat))]

section Cursor

theorem requireU64Field_decimal {object : Json Double} {key : String} {n : UInt64}
    (hget : object.get? key = some (.string (decimalString n.toNat))) :
    Remote.requireU64Field object key = .ok n := by
  have hraw : (CString.ofRaw (decimalString n.toNat)).bytes = decimalString n.toNat :=
    ofRaw_bytes_of_noNul (formatPadded_noNul 1 n.toNat)
  have hall : (decimalString n.toNat).all (fun c => 48 ≤ c && c ≤ 57) = true := by
    rw [List.all_eq_true]
    intro c hc
    simpa using digit_of_mem_decimalString hc
  simp only [Remote.requireU64Field,hget,hraw]
  rw [if_neg (by simp [decimalString_ne_nil,hall]),decimalValue_string,if_pos n.toNat_lt]
  simp

/-- The saved watermark loads back, at any of its 64 bits. -/
theorem load_serialiseCursor (lastSeq : UInt64) :
    loadRemoteControlCursor (some (serialiseCursor { lastSeq := lastSeq })) =
      .ok { lastSeq := lastSeq } := by
  have hseq : Remote.requireU64Field (serialiseCursor { lastSeq := lastSeq }) "last_seq" =
      .ok lastSeq := requireU64Field_decimal rfl
  have hformat : Remote.requireString (serialiseCursor { lastSeq := lastSeq }) "format" =
      .ok (utf8 kCursorFormat) := by
    have hget : (serialiseCursor { lastSeq := lastSeq }).get? "format" =
        some (.string (utf8 kCursorFormat)) := rfl
    rw [Remote.requireString,hget]
    rfl
  have hversion : Remote.versionOne (serialiseCursor { lastSeq := lastSeq }) = true := by
    simp [Remote.versionOne,serialiseCursor,Json.get?]
  simp only [loadRemoteControlCursor,serialiseCursor] at hseq hformat hversion ⊢
  rw [hformat]
  simp only [bind,Except.bind,ne_eq,not_true,if_false,hversion,hseq]

end Cursor

section Decision
variable {state : ControlState} {watermark : UInt64} {request : ControlRequest}
  {operatorDid requestDid : Bytes} {clock : ℤ}

/-- What the state and the request must meet besides provenance and freshness. -/
def Admissible (approved : List Bytes) (request : ControlRequest) : Prop :=
  (if controlOpTakesArgument request.op then isControlDigestShape request.arg = true
    else request.arg = []) ∧
  (request.op = .approve → request.arg ∉ approved → approved.length < kMaxApprovedDigests)

theorem applyControlRequest_applied_iff :
    (applyControlRequest state watermark request operatorDid requestDid clock).report.applied
        = true ↔
      operatorDid ≠ [] ∧ requestDid = operatorDid ∧ request.seq = watermark+1 ∧
        Admissible state.approvedDigests request := by
  have hempty : isControlDigestShape [] = false := by decide
  unfold applyControlRequest Admissible isDigestApproved
  grind

/-- A refusal changes nothing. -/
theorem applyControlRequest_refused
    (h : (applyControlRequest state watermark request operatorDid requestDid
      clock).report.applied = false) :
    (applyControlRequest state watermark request operatorDid requestDid clock).state = state ∧
    (applyControlRequest state watermark request operatorDid requestDid clock).watermark =
      watermark := by
  unfold applyControlRequest at h ⊢
  grind

theorem applyControlRequest_accepted
    (h : (applyControlRequest state watermark request operatorDid requestDid
      clock).report.applied = true) :
    (applyControlRequest state watermark request operatorDid requestDid clock).state =
      mutate request.op request.arg (controlNowRfc3339 clock) state ∧
    (applyControlRequest state watermark request operatorDid requestDid clock).watermark =
      request.seq ∧
    (applyControlRequest state watermark request operatorDid requestDid clock).report.op =
      controlOpName request.op := by
  unfold applyControlRequest at h ⊢
  grind

end Decision

section Commands

/-- The state without the time of a shutdown, which is still requested or not. -/
def ControlState.timeless (state : ControlState) : ControlState :=
  { state with shutdownRequestedAt := state.shutdownRequestedAt.map fun _ => [] }

@[simp] theorem timeless_approvedDigests (state : ControlState) :
    state.timeless.approvedDigests = state.approvedDigests := rfl

theorem mutate_timeless (op : ControlOp) (arg now : Bytes) (state : ControlState) :
    (mutate op arg now state).timeless = mutate op arg [] state.timeless := by
  cases op
  case approve =>
    have hsame : isDigestApproved state.timeless arg = isDigestApproved state arg := rfl
    by_cases h : isDigestApproved state arg = true
    · simp only [mutate,hsame,if_pos h]
    · simp only [mutate,hsame,if_neg h]
      rfl
  all_goals rfl

/-- A command that was just carried out changes nothing more. -/
theorem mutate_again (op : ControlOp) (arg now : Bytes) (state : ControlState) :
    mutate op arg now (mutate op arg now state) = mutate op arg now state := by
  cases op
  case approve =>
    by_cases h : isDigestApproved state arg = true
    · simp only [mutate,if_pos h]
    · have hin : isDigestApproved { state with approvedDigests := arg::state.approvedDigests }
          arg = true := by simp [isDigestApproved]
      simp only [mutate,if_neg h,if_pos hin]
  case revoke => simp [mutate,List.filter_filter]
  all_goals rfl

theorem mutate_stored {state : ControlState} {request : ControlRequest} {clock : ℤ}
    (h : state.Stored) (ha : Admissible state.approvedDigests request) :
    (mutate request.op request.arg (controlNowRfc3339 clock) state).Stored := by
  obtain ⟨hversion,hlen,hshape⟩ := validate_iff.mp h.valid
  obtain ⟨hargument,hroom⟩ := ha
  have hframe (s : ControlState) (hv : s.version = state.version)
      (hd : s.approvedDigests = state.approvedDigests) : validate s = .ok () :=
    validate_iff.mpr ⟨hv ▸ hversion,hd ▸ hlen,hd ▸ hshape⟩
  cases hop : request.op
  case approve =>
    simp only [hop,controlOpTakesArgument,if_true] at hargument
    by_cases hin : isDigestApproved state request.arg = true
    · simpa only [mutate,if_pos hin] using h
    · have hnot : request.arg ∉ state.approvedDigests := by simpa [isDigestApproved] using hin
      simp only [mutate,if_neg hin]
      refine ⟨validate_iff.mpr ⟨hversion,?_,?_⟩,h.syncPrintable,h.shutdownPrintable⟩
      · exact hroom hop hnot
      · intro digest hd
        rcases List.mem_cons.mp hd with rfl | hd
        · exact hargument
        · exact hshape digest hd
  case revoke =>
    refine ⟨validate_iff.mpr ⟨hversion,?_,?_⟩,h.syncPrintable,h.shutdownPrintable⟩
    · exact (List.length_filter_le _ _).trans hlen
    · intro digest hd
      exact hshape digest (List.mem_of_mem_filter hd)
  case shutdown =>
    refine ⟨hframe _ rfl rfl,h.syncPrintable,?_⟩
    intro s hs
    cases hs
    exact ⟨rfc3339FromUnix_ne_nil clock,rfc3339FromUnix_noNul clock⟩
  case cancelShutdown =>
    refine ⟨hframe _ rfl rfl,h.syncPrintable,?_⟩
    intro s hs
    cases hs
  all_goals exact ⟨hframe _ rfl rfl,h.syncPrintable,h.shutdownPrintable⟩

end Commands

end Atperson.Control
