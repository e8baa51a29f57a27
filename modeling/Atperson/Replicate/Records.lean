import Atperson.Journal.Types
import Atperson.Ledger.Query
import Atperson.Thought.Store
import Atperson.Wire.Decimal

/-!
# Published records

The documents that durable experience is published as, each under its key. Numbers of 64
bits are text. The key of an observation is its ledger id in thirteen digits, so different
ids have different keys.
-/
namespace Atperson.Replicate
open Wire Journal Thought

inductive Collection where
  | observation | action | valence | thought | intent
  deriving DecidableEq

abbrev Key := Collection × Bytes

/-- The records of one repository. -/
abbrev Records := Key → Option (Json Double)

def rkeyAlphabet : Bytes := utf8 "abcdefghijklmnopqrstuvwxyz234567"

/-- The last `n` digits of `id` in base 32. -/
def rkeyDigits : ℕ → ℕ → Bytes
  | 0, _ => []
  | n+1, id => rkeyDigits n (id/32)++[rkeyAlphabet.getD (id%32) 0]

def observationRkey (id : UInt64) : Bytes := rkeyDigits 13 id.toNat

def ledgerOutcomeName : Ledger.Outcome → String
  | .pending => "pending"
  | .learned => "learned"
  | .skipped => "skipped"
  | .failed => "failed"
  | .withdrawn => "withdrawn"

/-- A number as it is printed: one that is not finite becomes null. -/
def printedNumber (d : Double) : Json Double :=
  match d with
  | .finite q => .number (.finite q)
  | _ => .null

def u64String (n : UInt64) : Json Double := .string (decimalString n.toNat)

/-- The members every record starts with. -/
def recordHead : List (String × Json Double) :=
  [("format",.string (utf8 "atperson-record")),("version",.number (.finite 1))]

structure ObservationRecord where
  id : UInt64
  sourceId : Bytes
  authorDid : Bytes
  observedAt : UInt64
  contentDigest : UInt64
  schemaVersion : UInt32
  outcome : Bytes
  context : Ledger.ConversationContext

def serialiseObservationRecord (record : ObservationRecord) : Json Double :=
  .object (recordHead++[
    ("id",u64String record.id),
    ("sourceId",.ofCString record.sourceId),
    ("authorDid",.ofCString record.authorDid),
    ("observedAt",u64String record.observedAt),
    ("contentDigest",u64String record.contentDigest),
    ("schemaVersion",.number (.finite record.schemaVersion.toNat)),
    ("outcome",.ofCString record.outcome),
    ("context",.object [
      ("replyRoot",.string record.context.replyRootUri.bytes),
      ("replyParent",.string record.context.replyParentUri.bytes),
      ("quote",.string record.context.quoteUri.bytes)])])

structure ActionRecord where
  id : Bytes
  kind : Bytes
  text : Bytes
  digest : Bytes
  outcome : Bytes
  reason : Bytes
  uri : Bytes
  cid : Bytes
  time : Bytes

def serialiseActionRecord (record : ActionRecord) : Json Double :=
  .object (recordHead++[
    ("id",.ofCString record.id),
    ("kind",.ofCString record.kind),
    ("text",.ofCString record.text),
    ("digest",.ofCString record.digest),
    ("outcome",.ofCString record.outcome),
    ("reason",.ofCString record.reason),
    ("uri",.ofCString record.uri),
    ("cid",.ofCString record.cid),
    ("at",.ofCString record.time)])

structure ValenceRecord where
  token : Bytes
  kind : Bytes
  signal : Single
  source : Bytes
  atEpoch : UInt64
  time : Bytes
  provenance : Bytes

def serialiseValenceRecord (record : ValenceRecord) : Json Double :=
  .object (recordHead++[
    ("token",.ofCString record.token),
    ("kind",.ofCString record.kind),
    ("signal",printedNumber record.signal.value),
    ("source",.ofCString record.source),
    ("atEpoch",u64String record.atEpoch),
    ("at",.ofCString record.time),
    ("provenance",.ofCString record.provenance)])

structure ThoughtRecord where
  id : Bytes
  kind : Bytes
  text : Bytes
  aboutUri : Bytes
  time : Bytes

def serialiseThoughtRecord (record : ThoughtRecord) : Except String (Json Double) :=
  if thoughtKindIsValid record.kind = false then
    .error ("atperson record: unknown thought kind '"++Wire.text record.kind++"'")
  else .ok (.object (recordHead++[
    ("id",.ofCString record.id),
    ("kind",.ofCString record.kind),
    ("text",.ofCString record.text),
    ("about",.ofCString record.aboutUri),
    ("at",.ofCString record.time)]))

structure IntentRecord where
  id : Bytes
  actions : List Bytes
  responder : Bytes
  expiresAtEpoch : UInt64
  expiresAt : Bytes
  maxContinuations : UInt32
  state : Bytes
  atEpoch : UInt64
  time : Bytes

def serialiseIntentRecord (record : IntentRecord) : Except String (Json Double) :=
  if intentStateFromName record.state = none then
    .error ("atperson record: unknown intent state '"++Wire.text record.state++"'")
  else .ok (.object (recordHead++[
    ("id",.ofCString record.id),
    ("actions",.array (record.actions.map .ofCString)),
    ("responder",.ofCString record.responder),
    ("expires_at_epoch",u64String record.expiresAtEpoch),
    ("expires_at",.ofCString record.expiresAt),
    ("max_continuations",.number (.finite record.maxContinuations.toNat)),
    ("state",.ofCString record.state),
    ("at_epoch",u64String record.atEpoch),
    ("at",.ofCString record.time)]))

section Keys

theorem rkeyDigits_length (n id : ℕ) : (rkeyDigits n id).length = n := by
  induction n generalizing id with
  | zero => rfl
  | succ n ih => rw [rkeyDigits,List.length_append,ih,List.length_singleton]

theorem rkeyAlphabet_injective : ∀ a < 32, ∀ b < 32,
    rkeyAlphabet.getD a 0 = rkeyAlphabet.getD b 0 → a = b := by
  decide +kernel

theorem rkeyDigits_injective {n id id' : ℕ} (h : rkeyDigits n id = rkeyDigits n id') :
    id%32^n = id'%32^n := by
  induction n generalizing id id' with
  | zero => simp [Nat.mod_one]
  | succ n ih =>
      rw [rkeyDigits,rkeyDigits] at h
      obtain ⟨hfront,hlast⟩ := List.append_inj h (by rw [rkeyDigits_length,rkeyDigits_length])
      have hdigit : id%32 = id'%32 := rkeyAlphabet_injective _ (Nat.mod_lt _ (by decide)) _
        (Nat.mod_lt _ (by decide)) (List.singleton_inj.mp hlast)
      have hrest := ih hfront
      rw [pow_succ',Nat.mod_mul,Nat.mod_mul,hdigit,hrest]

theorem observationRkey_injective {id id' : UInt64}
    (h : observationRkey id = observationRkey id') : id = id' := by
  have hmod := rkeyDigits_injective h
  have hlt := id.toNat_lt
  have hlt' := id'.toNat_lt
  have hsize : 2^64 ≤ 32^13 := by norm_num
  rw [Nat.mod_eq_of_lt (hlt.trans_le hsize),Nat.mod_eq_of_lt (hlt'.trans_le hsize)] at hmod
  exact UInt64.toNat_inj.mp hmod

end Keys

end Atperson.Replicate
