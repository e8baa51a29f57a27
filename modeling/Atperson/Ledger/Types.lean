import Atperson.Wire.CText

/-!
# Ledger data model

One observation in memory: the fixed entry record, the retained payload and the
retained conversational context. The C core keeps these in three parallel arrays;
here an `Item` is one index of all three. A payload that was released to bound
the log is its own constructor, in place of the reserved length `SIZE_MAX`, and a
retained payload carries the bound that both the append path and the parser check.
-/
namespace Atperson.Ledger
open Wire

inductive Status where
  | ok | invalidArgument | outOfMemory | io | format | notFound | schema | capacity | migration
  deriving DecidableEq, Repr

inductive Outcome where
  | pending | learned | skipped | failed | withdrawn
  deriving DecidableEq, Repr

namespace Outcome

def toByte : Outcome → UInt8
  | pending => 0
  | learned => 1
  | skipped => 2
  | failed => 3
  | withdrawn => 4

/-- The outcome a byte stands for, `none` where `atp_ledger_outcome_valid` fails. -/
def ofByte? (b : UInt8) : Option Outcome :=
  if b = 0 then some pending
  else if b = 1 then some learned
  else if b = 2 then some skipped
  else if b = 3 then some failed
  else if b = 4 then some withdrawn
  else none

@[simp] theorem ofByte?_toByte (o : Outcome) : ofByte? o.toByte = some o := by
  cases o <;> rfl

theorem ofByte?_eq {b : UInt8} {o : Outcome} (h : ofByte? b = some o) : b = o.toByte := by
  unfold ofByte? at h
  split_ifs at h with h0 h1 h2 h3 h4 <;> (cases h; assumption)

/-- `atp_ledger_is_committed`. -/
def isCommitted (o : Outcome) : Bool := o = learned || o = skipped || o = withdrawn

end Outcome

def sourceBytes : ℕ := 256
def authorBytes : ℕ := 256
def contextUriBytes : ℕ := 256
def payloadLimit : ℕ := 65536

/-- The learning schema stamped on new entries, `ATPERSON_SCHEMA_VERSION`. -/
def schemaVersion : UInt32 := 2

structure LedgerEntry where
  id : UInt64
  observedAt : UInt64
  contentDigest : UInt64
  schemaVersion : UInt32
  outcome : Outcome
  sourceId : CText sourceBytes
  authorDid : CText authorBytes
  deriving DecidableEq

structure ConversationContext where
  replyRootUri : CText contextUriBytes
  replyParentUri : CText contextUriBytes
  quoteUri : CText contextUriBytes
  deriving DecidableEq

def emptyText : CText 256 := CText.empty

/-- The zeroed context of an entry that never carried one. -/
def ConversationContext.empty : ConversationContext := ⟨emptyText,emptyText,emptyText⟩

structure PayloadText where
  bytes : Bytes
  bounded : bytes.length ≤ payloadLimit
  deriving DecidableEq

def PayloadText.none : PayloadText := ⟨[],by simp⟩

inductive Payload where
  | text (t : PayloadText)
  | released
  deriving DecidableEq

/-- Retained bytes as a caller can see them: none for a released payload. -/
def Payload.retained : Payload → Bytes
  | .text t => t.bytes
  | .released => []

structure Item where
  entry : LedgerEntry
  payload : Payload
  context : ConversationContext
  deriving DecidableEq

namespace Item

def outcome (it : Item) : Outcome := it.entry.outcome

def withOutcome (o : Outcome) (it : Item) : Item := {it with entry := {it.entry with outcome := o}}

def withPayload (p : Payload) (it : Item) : Item := {it with payload := p}

/-- The unique key of the dedup index. -/
def key (it : Item) : Bytes×UInt64 := (it.entry.sourceId.bytes,it.entry.contentDigest)

@[simp] theorem withOutcome_outcome (o : Outcome) (it : Item) :
    (it.withOutcome o).outcome = o := rfl

@[simp] theorem withOutcome_key (o : Outcome) (it : Item) : (it.withOutcome o).key = it.key := rfl

@[simp] theorem withOutcome_id (o : Outcome) (it : Item) :
    (it.withOutcome o).entry.id = it.entry.id := rfl

@[simp] theorem withOutcome_payload (o : Outcome) (it : Item) :
    (it.withOutcome o).payload = it.payload := rfl

@[simp] theorem withOutcome_context (o : Outcome) (it : Item) :
    (it.withOutcome o).context = it.context := rfl

@[simp] theorem withOutcome_withOutcome (o o' : Outcome) (it : Item) :
    (it.withOutcome o).withOutcome o' = it.withOutcome o' := rfl

@[simp] theorem withOutcome_self (it : Item) : it.withOutcome it.outcome = it := rfl

@[simp] theorem withPayload_entry (p : Payload) (it : Item) :
    (it.withPayload p).entry = it.entry := rfl

@[simp] theorem withPayload_context (p : Payload) (it : Item) :
    (it.withPayload p).context = it.context := rfl

@[simp] theorem withPayload_payload (p : Payload) (it : Item) :
    (it.withPayload p).payload = p := rfl

@[simp] theorem withPayload_key (p : Payload) (it : Item) : (it.withPayload p).key = it.key := rfl

end Item

/-- Set the outcome of the entry at one position, as a patch record does. -/
def setOutcomeAt (i : ℕ) (o : Outcome) (items : List Item) : List Item :=
  items.modify i (Item.withOutcome o)

@[simp] theorem setOutcomeAt_length (i : ℕ) (o : Outcome) (items : List Item) :
    (setOutcomeAt i o items).length = items.length := List.length_modify _ _ _

theorem getElem?_setOutcomeAt (i j : ℕ) (o : Outcome) (items : List Item) :
    (setOutcomeAt i o items)[j]? =
      if i = j then items[j]?.map (Item.withOutcome o) else items[j]? := by
  rw [setOutcomeAt,List.getElem?_modify]
  split <;> simp

theorem setOutcomeAt_append {i : ℕ} {items : List Item} (h : i < items.length) (o : Outcome)
    (more : List Item) : setOutcomeAt i o (items++more) = setOutcomeAt i o items++more := by
  refine List.ext_getElem? fun j => ?_
  rw [getElem?_setOutcomeAt,List.getElem?_append,List.getElem?_append,setOutcomeAt_length,
    getElem?_setOutcomeAt]
  split_ifs <;> first | rfl | omega

end Atperson.Ledger
