import Atperson.Journal.Types
import Atperson.Core.Types

/-!
# Valence events

An explicit event moves the valence of a known token towards its signal and is kept in a
bounded log. Events alone make records. The records are sorted by node, so the binary search
of the core is the first match here and its insertion point is behind all smaller nodes.
-/
namespace Atperson.Core
open Wire
open Ledger (Status)

/-- The float that is a given rational, by its bits. -/
def floatOf (q : ℚ) : Float32 :=
  let exponent := singleExponent q
  let significand := ⌊|q|/2^exponent⌋.toNat
  let sign := if q < 0 then 2^31 else 0
  .ofBits (UInt32.ofNat (sign+(if significand < 2^23 then significand
    else (exponent+150).toNat*2^23+(significand-2^23))))

def valenceKindFromName (name : Bytes) : Option ValenceKind :=
  if name = utf8 "action" then some .action
  else if name = utf8 "interaction" then some .interaction
  else if name = utf8 "approach" then some .approach
  else if name = utf8 "avoid" then some .avoid
  else none

def clampSignal (q : ℚ) : ℚ := if 1 < q then 1 else if q < -1 then -1 else q

/-- `atp_valence_effective_rate`. -/
def effectiveValenceRate (config : GraphConfig) : Float32 :=
  if ¬0 < config.valenceRate ∨ 1 < config.valenceRate ∨ ¬config.valenceRate.isFinite then 0.25
  else config.valenceRate

/-- A record after one more event. -/
def ValenceRecord.bump (rate : Float32) (signal : ℚ) (atEpoch : UInt64) (r : ValenceRecord) :
    ValenceRecord :=
  {r with
    valence := r.valence+rate*(floatOf signal-r.valence)
    eventCount := r.eventCount+1
    positiveEvents := if 0 < signal then r.positiveEvents+1 else r.positiveEvents
    negativeEvents := if signal < 0 then r.negativeEvents+1 else r.negativeEvents
    lastEventAt := atEpoch}

/-- The record of a node's first event. -/
def ValenceRecord.first (node : ℕ) (rate : Float32) (signal : ℚ) (atEpoch : UInt64) :
    ValenceRecord where
  nodeIndex := node
  valence := rate*floatOf signal
  eventCount := 1
  positiveEvents := if 0 < signal then 1 else 0
  negativeEvents := if signal < 0 then 1 else 0
  lastEventAt := atEpoch

/-- Update the record of a node, or insert one at its place. -/
def recordValence (rate : Float32) (node : ℕ) (signal : ℚ) (atEpoch : UInt64)
    (records : List ValenceRecord) : List ValenceRecord :=
  match records.findIdx? fun r => r.nodeIndex = node with
  | some i => records.modify i (ValenceRecord.bump rate signal atEpoch)
  | none =>
      let before := records.takeWhile fun r => r.nodeIndex < node
      before++ValenceRecord.first node rate signal atEpoch::records.drop before.length

namespace Graph

/-- `atp_find_node`, for any C string. -/
def findToken (g : Graph) (token : CString) : Option ℕ := CText.ofCString? token >>= g.findNode

/-- `atp_valence_log_append`. -/
def logValence (g : Graph) (event : ValenceEvent) : Graph :=
  if g.valenceEvents.length = valenceEventCapacity then
    {g with
      valenceEvents := g.valenceEvents.drop 1++[event]
      valenceEventEvictions := g.valenceEventEvictions+1}
  else {g with valenceEvents := g.valenceEvents++[event]}

/-- `atp_graph_valence_event`. -/
def valenceEvent (g : Graph) (token : CString) (kind : ValenceKind) (signal : Single)
    (atEpoch : UInt64) (sourceId : CString) : Graph×Status :=
  match signal.value with
  | .finite q =>
      match g.findToken token with
      | none => (g,.notFound)
      | some node =>
          let q := clampSignal q
          let records := recordValence (effectiveValenceRate g.config) node q atEpoch
            g.valenceRecords
          (logValence {g with valenceRecords := records}
            ⟨node,kind,floatOf q,atEpoch,CText.truncate sourceId⟩,.ok)
  | _ => (g,.invalidArgument)

theorem logValence_kept (g : Graph) (event : ValenceEvent) : (g.logValence event).valenceEvents ≠ [] := by
  unfold logValence
  split <;> simp

theorem logValence_migrations (g : Graph) (event : ValenceEvent) :
    (g.logValence event).neuralMigrations = g.neuralMigrations := by
  unfold logValence
  split <;> rfl

/-- An event that is recorded is in the log, and the migration history stays. -/
theorem valenceEvent_ok {g g' : Graph} {token sourceId : CString} {kind : ValenceKind}
    {signal : Single} {atEpoch : UInt64}
    (h : g.valenceEvent token kind signal atEpoch sourceId = (g',.ok)) :
    g'.valenceEvents ≠ [] ∧ g'.neuralMigrations = g.neuralMigrations := by
  unfold valenceEvent at h
  split at h
  · split at h
    · cases h
    · cases h
      exact ⟨logValence_kept _ _,logValence_migrations _ _⟩
  · cases h

end Graph

end Atperson.Core
