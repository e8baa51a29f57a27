import Atperson.Wire.Json
import Atperson.Runs.Fallible

/-!
# Operator control state

The switches that bound what the runtime may do, with the file they persist in. A missing
file is the fail-closed default. What is saved loads back, but for text fields that the
file cannot hold: an empty string is refused on load and a string ends at its first NUL.
-/
namespace Atperson.Control
open Wire Runs

structure ControlState where
  version : ℕ := 1
  paused : Bool := false
  writesEnabled : Bool := false
  dryRun : Bool := true
  offlineMode : Bool := false
  approvalRequired : Bool := true
  approvedDigests : List Bytes := []
  lastSyncAt : Option Bytes := none
  shutdownRequestedAt : Option Bytes := none
  deriving DecidableEq

def kFormat : String := "atperson-control-state"
def kMaxApprovedDigests : ℕ := 64

/-- A lowercase hexadecimal digit. -/
def isHexDigit (c : UInt8) : Bool := (48 ≤ c && c ≤ 57) || (97 ≤ c && c ≤ 102)

def isControlDigestShape (digest : Bytes) : Bool :=
  digest.length = 16 && digest.all isHexDigit

def isDigestApproved (state : ControlState) (digest : Bytes) : Bool :=
  state.approvedDigests.contains digest

def invalid {α : Type} (message : String) : Except String α :=
  .error ("control state: "++message)

def validate (state : ControlState) : Except String Unit :=
  if state.version ≠ 1 then invalid ("unsupported version "++toString state.version)
  else if state.approvedDigests.length > kMaxApprovedDigests then
    invalid ("too many approved digests (max "++toString kMaxApprovedDigests++")")
  else match state.approvedDigests.find? (fun digest => !isControlDigestShape digest) with
    | some digest =>
        invalid ("approved digest '"++text digest++"' is not 16 lowercase hex digits")
    | none => .ok ()

def nullableString : Option Bytes → Json ℤ
  | some s => .ofCString s
  | none => .null

def stateJson (state : ControlState) : Json ℤ :=
  .object [
    ("format",.string (utf8 kFormat)),
    ("version",.number state.version),
    ("paused",.bool state.paused),
    ("writes_enabled",.bool state.writesEnabled),
    ("dry_run",.bool state.dryRun),
    ("offline_mode",.bool state.offlineMode),
    ("approval_required",.bool state.approvalRequired),
    ("approved_digests",.array (state.approvedDigests.map .ofCString)),
    ("last_sync_at",nullableString state.lastSyncAt),
    ("shutdown_requested_at",nullableString state.shutdownRequestedAt)]

def serialiseControlState (state : ControlState) : Except String (Json ℤ) :=
  (validate state).map fun _ => stateJson state

def requireString (object : Json ℤ) (key : String) : Except String Bytes :=
  match object.get? key with
  | some (.string raw) =>
      let value := (CString.ofRaw raw).bytes
      if value = [] then invalid ("missing or empty string field '"++key++"'") else .ok value
  | _ => invalid ("missing or empty string field '"++key++"'")

def requireBool (object : Json ℤ) (key : String) : Except String Bool :=
  match object.get? key with
  | some (.bool b) => .ok b
  | _ => invalid ("field '"++key++"' must be a boolean")

def requireVersion (object : Json ℤ) : Except String ℕ :=
  match object.get? "version" with
  | some (.number n) =>
      if nearestDouble n < 0 then invalid "missing or invalid 'version'"
      else if nearestDouble n ≠ 1 then
        invalid ("unsupported version "++toString (nearestDouble n)++" (supported: 1)")
      else .ok 1
  | _ => invalid "missing or invalid 'version'"

def offlineField (object : Json ℤ) : Except String Bool :=
  match object.get? "offline_mode" with
  | none => .ok false
  | some (.bool b) => .ok b
  | some _ => invalid "field 'offline_mode' must be a boolean"

def readDigest : Json ℤ → Except String Bytes
  | .string raw => .ok (CString.ofRaw raw).bytes
  | _ => invalid "approved_digests entries must be strings"

def readDigests (object : Json ℤ) : Except String (List Bytes) :=
  match object.get? "approved_digests" with
  | some (.array items) => items.mapM readDigest
  | _ => invalid "missing 'approved_digests' array"

def optionalString (object : Json ℤ) (key : String) : Except String (Option Bytes) :=
  match object.get? key with
  | none | some .null => .ok none
  | some (.string raw) =>
      let value := (CString.ofRaw raw).bytes
      if value = [] then invalid ("field '"++key++"' must not be an empty string")
      else .ok (some value)
  | some _ => invalid ("field '"++key++"' must be a string or null")

def parseControlState (root : Json ℤ) (path : String) : Except String ControlState :=
  match root with
  | .object _ => do
      let format ← requireString root "format"
      if format ≠ utf8 kFormat then invalid ("unexpected format '"++text format++"'")
      else do
        let version ← requireVersion root
        let paused ← requireBool root "paused"
        let writesEnabled ← requireBool root "writes_enabled"
        let dryRun ← requireBool root "dry_run"
        let offlineMode ← offlineField root
        let approvalRequired ← requireBool root "approval_required"
        let approvedDigests ← readDigests root
        let lastSyncAt ← optionalString root "last_sync_at"
        let shutdownRequestedAt ← optionalString root "shutdown_requested_at"
        let state : ControlState := {
          version := version, paused := paused, writesEnabled := writesEnabled
          dryRun := dryRun, offlineMode := offlineMode
          approvalRequired := approvalRequired, approvedDigests := approvedDigests
          lastSyncAt := lastSyncAt, shutdownRequestedAt := shutdownRequestedAt }
        (validate state).map fun _ => state
  | _ => invalid (path++" is not a JSON object")

/-- A missing file is the fail-closed default. -/
def loadControlState (file : Option (Json ℤ)) (path : String) : Except String ControlState :=
  match file with
  | none => .ok {}
  | some root => parseControlState root path

/-- The file holds the text: nonempty, with no NUL. -/
def Printable (value : Option Bytes) : Prop := ∀ s ∈ value, s ≠ [] ∧ (0 : UInt8) ∉ s

instance (value : Option Bytes) : Decidable (Printable value) :=
  inferInstanceAs (Decidable (∀ s ∈ value, _))

theorem noNul_of_shape {digest : Bytes} (h : isControlDigestShape digest = true) :
    (0 : UInt8) ∉ digest := by
  intro hz
  simp only [isControlDigestShape,Bool.and_eq_true,List.all_eq_true] at h
  exact absurd (h.2 0 hz) (by decide)

theorem validate_shape {state : ControlState} (h : validate state = .ok ()) :
    ∀ digest ∈ state.approvedDigests, isControlDigestShape digest = true := by
  unfold validate at h
  split at h
  · cases h
  split at h
  · cases h
  split at h
  · cases h
  · rename_i hnone
    intro digest hd
    simpa using List.find?_eq_none.mp hnone digest hd

theorem validate_iff {state : ControlState} : validate state = .ok () ↔
    state.version = 1 ∧ state.approvedDigests.length ≤ kMaxApprovedDigests ∧
      ∀ digest ∈ state.approvedDigests, isControlDigestShape digest = true := by
  refine ⟨fun h => ⟨?_,?_,validate_shape h⟩,fun ⟨hversion,hlen,hshape⟩ => ?_⟩
  · by_contra hne
    rw [validate,if_pos hne] at h
    cases h
  · by_contra hlen
    rw [validate] at h
    split at h
    · cases h
    · rw [if_pos (Nat.lt_of_not_le hlen)] at h
      cases h
  · have hnone : state.approvedDigests.find? (fun digest => !isControlDigestShape digest) =
        none := by
      rw [List.find?_eq_none]
      intro digest hd
      simp [hshape digest hd]
    rw [validate,if_neg (not_not_intro hversion),if_neg (Nat.not_lt.mpr hlen),hnone]

theorem readDigests_map {digests : List Bytes}
    (h : ∀ digest ∈ digests, isControlDigestShape digest = true) :
    ((digests.map Json.ofCString).mapM readDigest : Except String (List Bytes)) =
      .ok digests := by
  refine mapM_write fun digest hd => ?_
  simp only [Json.ofCString,readDigest,ofRaw_bytes_of_noNul (noNul_of_shape (h digest hd))]

theorem optionalString_nullable {object : Json ℤ} {key : String} {value : Option Bytes}
    (hget : object.get? key = some (nullableString value)) (hp : Printable value) :
    optionalString object key = .ok value := by
  rw [optionalString,hget]
  cases value with
  | none => rfl
  | some s =>
      obtain ⟨hne,hnul⟩ := hp s rfl
      simp only [nullableString,Json.ofCString,ofRaw_bytes_of_noNul hnul,if_neg hne]

/-- What is saved loads back when the file can hold its text. -/
theorem parse_stateJson {state : ControlState} (hv : validate state = .ok ())
    (hsync : Printable state.lastSyncAt) (hshut : Printable state.shutdownRequestedAt)
    (path : String) : parseControlState (stateJson state) path = .ok state := by
  have hversion : state.version = 1 := (validate_iff.mp hv).1
  have hformat : requireString (stateJson state) "format" = .ok (utf8 kFormat) := by
    have hget : (stateJson state).get? "format" = some (.string (utf8 kFormat)) := rfl
    rw [requireString,hget]
    rfl
  have hver : requireVersion (stateJson state) = .ok 1 := by
    have hget : (stateJson state).get? "version" = some (.number state.version) := rfl
    rw [requireVersion,hget,hversion]
    rfl
  have hdigests : readDigests (stateJson state) = .ok state.approvedDigests :=
    readDigests_map (validate_shape hv)
  have hlast : optionalString (stateJson state) "last_sync_at" = .ok state.lastSyncAt :=
    optionalString_nullable rfl hsync
  have hshutdown : optionalString (stateJson state) "shutdown_requested_at" =
      .ok state.shutdownRequestedAt := optionalString_nullable rfl hshut
  have hbool (b : Bool) (key : String)
      (hget : (stateJson state).get? key = some (.bool b)) :
      requireBool (stateJson state) key = .ok b := by rw [requireBool,hget]
  have hoffline : offlineField (stateJson state) = .ok state.offlineMode := rfl
  have hroot : parseControlState (stateJson state) path =
      (validate state).map fun _ => state := by
    unfold parseControlState
    simp only [stateJson]
    rw [show (Json.object _ : Json ℤ) = stateJson state from rfl,hformat]
    simp only [bind,Except.bind,ne_eq,not_true,if_false,hver,hoffline,hdigests,hlast,hshutdown,
      hbool state.paused "paused" rfl,hbool state.writesEnabled "writes_enabled" rfl,
      hbool state.dryRun "dry_run" rfl,hbool state.approvalRequired "approval_required" rfl]
    cases state
    simp only at hversion
    subst hversion
    rfl
  rw [hroot,hv]
  rfl

/-- A state that the file holds whole. -/
structure ControlState.Stored (state : ControlState) : Prop where
  valid : validate state = .ok ()
  syncPrintable : Printable state.lastSyncAt
  shutdownPrintable : Printable state.shutdownRequestedAt

instance (state : ControlState) : Decidable state.Stored :=
  decidable_of_iff (validate state = .ok () ∧ Printable state.lastSyncAt ∧
      Printable state.shutdownRequestedAt)
    ⟨fun ⟨hv,hsync,hshut⟩ => ⟨hv,hsync,hshut⟩,fun h => ⟨h.1,h.2,h.3⟩⟩

theorem optionalString_printable {object : Json ℤ} {key : String} {value : Option Bytes}
    (h : optionalString object key = .ok value) : Printable value := by
  unfold optionalString at h
  split at h
  · cases h
    intro s hs
    cases hs
  · cases h
    intro s hs
    cases hs
  · rename_i raw _
    simp only at h
    split at h
    · cases h
    · rename_i hne
      cases h
      intro s hs
      cases hs
      exact ⟨hne,(CString.ofRaw raw).noNul⟩
  · cases h

/-- Whatever loads can be stored. -/
theorem loadControlState_stored {file : Option (Json ℤ)} {path : String} {state : ControlState}
    (h : loadControlState file path = .ok state) : state.Stored := by
  cases file with
  | none =>
      cases h
      decide
  | some root =>
      simp only [loadControlState,parseControlState] at h
      split at h
      case h_2 => cases h
      obtain ⟨format,-,h⟩ := bind_ok.mp h
      split at h
      · cases h
      obtain ⟨version,-,h⟩ := bind_ok.mp h
      obtain ⟨paused,-,h⟩ := bind_ok.mp h
      obtain ⟨writesEnabled,-,h⟩ := bind_ok.mp h
      obtain ⟨dryRun,-,h⟩ := bind_ok.mp h
      obtain ⟨offlineMode,-,h⟩ := bind_ok.mp h
      obtain ⟨approvalRequired,-,h⟩ := bind_ok.mp h
      obtain ⟨approvedDigests,-,h⟩ := bind_ok.mp h
      obtain ⟨lastSyncAt,hsync,h⟩ := bind_ok.mp h
      obtain ⟨shutdownRequestedAt,hshut,h⟩ := bind_ok.mp h
      obtain ⟨_,hvalid,rfl⟩ := map_ok.mp h
      exact ⟨hvalid,optionalString_printable hsync,optionalString_printable hshut⟩

/-- A stored state saves, and the file loads back as the state. -/
theorem ControlState.Stored.saved {state : ControlState} (h : state.Stored) (path : String) :
    ∃ json, serialiseControlState state = .ok json ∧
      loadControlState (some json) path = .ok state :=
  ⟨stateJson state,by rw [serialiseControlState,h.valid]; rfl,
    parse_stateJson h.valid h.syncPrintable h.shutdownPrintable path⟩

end Atperson.Control
