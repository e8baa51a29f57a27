import Atperson.Ledger.Recover

/-!
# Appends and outcome changes

The durable commit writes one record behind the log, makes it durable and then
publishes the marker. Each of these steps can fail, and a `CommitFault` says which
one does and how much of the record is on the log by then. `append` and `setOutcome`
are the two callers; both leave the entries in memory alone when the commit fails.

A record that would take the log past `fileMax` is a short write.
-/
namespace Atperson.Ledger
open Wire

inductive OffFault where
  | opening | staging | renaming
  deriving DecidableEq, Repr

/-- Where a commit fails: seeking, after a short write of `k` bytes, in the flush of
a record of which `k` bytes reached the log, or while the marker is published. -/
inductive CommitFault where
  | seek
  | write (k : ℕ)
  | sync (k : ℕ)
  | marker (f : OffFault)
  deriving DecidableEq, Repr

/-- An open ledger: what is on disk and what the handle holds in memory. -/
structure Session where
  disk : Disk
  handle : Handle
  deriving DecidableEq

def Disk.logBytes (d : Disk) : Bytes := d.log.getD []

def Disk.appendLog (d : Disk) (tail : Bytes) : Disk := {d with log := some (d.logBytes++tail)}

def Session.withItems (s : Session) (items : List Item) : Session :=
  {s with handle := {s.handle with items := items}}

def Session.appendLog (s : Session) (tail : Bytes) : Session := {s with disk := s.disk.appendLog tail}

/-- `atp_write_off`: whether the marker was published, and the disk it leaves. -/
def tryWriteOff (fault : Option OffFault) (d : Disk) (count offset : ℕ) : Disk×Bool :=
  match fault with
  | none => (writeOff d count offset,true)
  | some .opening => (d,false)
  | some _ => ({d with offTmp := none},false)

/-- `atp_ledger_commit_record`. The committed offset moves before the marker does. -/
def commitRecord (fault : Option CommitFault) (s : Session) (count : ℕ) (record : Bytes) :
    Session×Status :=
  let room := fileMax-s.disk.logBytes.length
  match fault with
  | some .seek => (s,.io)
  | some (.write k) => (s.appendLog (record.take (min k (min room (record.length-1)))),.io)
  | some (.sync k) => (s.appendLog (record.take (min k room)),.io)
  | _ =>
      if fileMax < s.disk.logBytes.length+record.length then (s.appendLog (record.take room),.io)
      else
        let offset := s.handle.committedOffset+record.length
        let off := match fault with
          | some (.marker f) => some f
          | _ => none
        let (disk,published) := tryWriteOff off (s.disk.appendLog record) count offset
        (⟨disk,{s.handle with committedOffset := offset}⟩,if published then .ok else .io)

/-! ## Lookup -/

inductive LookupResult where
  | notFound | existsPending | existsCommitted | new
  deriving DecidableEq, Repr

/-- The first entry with the key, as the dedup index finds it. -/
def indexFind (items : List Item) (source : Bytes) (digest : UInt64) : Option Item :=
  items.find? fun it => it.key = (source,digest)

def lookup (items : List Item) (source : Bytes) (digest : UInt64) :
    LookupResult×Option LedgerEntry :=
  match indexFind items source digest with
  | none => (.notFound,none)
  | some it =>
      (if it.outcome.isCommitted then .existsCommitted else .existsPending,some it.entry)

/-! ## Append -/

/-- A payload argument: a null pointer with a length, or that many bytes. -/
inductive PayloadArg where
  | null (len : ℕ)
  | bytes (bs : Bytes)
  deriving DecidableEq

/-- The three context arrays as `strnlen` sees them; one without a terminator is
read to its full capacity. -/
structure ContextArg where
  replyRootUri : CString
  replyParentUri : CString
  quoteUri : CString
  deriving DecidableEq

structure AppendArgs where
  sourceId : Option CString
  authorDid : Option CString
  observedAt : UInt64
  contentDigest : UInt64
  schemaVersion : UInt32
  outcome : UInt8
  payload : PayloadArg
  context : Option ContextArg
  deriving DecidableEq

/-- An observation whose arguments passed every check, as the entry it becomes. -/
structure Observation where
  entry : LedgerEntry
  payload : PayloadText
  context : ConversationContext
  sourced : entry.sourceId.bytes ≠ []

def contextOf : Option ContextArg → Option ConversationContext
  | none => some .empty
  | some c => do
      return ⟨← CText.ofCString? c.replyRootUri,← CText.ofCString? c.replyParentUri,
        ← CText.ofCString? c.quoteUri⟩

def payloadOf : PayloadArg → Option PayloadText
  | .null len => if len = 0 then some .none else none
  | .bytes bs => if h : bs.length ≤ payloadLimit then some ⟨bs,h⟩ else none

/-- The argument checks of `atp_ledger_append_with_context`, with the entry numbered
behind `count` earlier ones. -/
def AppendArgs.validate (a : AppendArgs) (count : ℕ) : Option Observation := do
  let source ← a.sourceId
  let sourceId : CText sourceBytes ← CText.ofCString? source
  let authorDid : CText authorBytes ← CText.ofCString? (a.authorDid.getD CString.empty)
  let outcome ← Outcome.ofByte? a.outcome
  let context ← contextOf a.context
  let payload ← payloadOf a.payload
  if h : sourceId.bytes ≠ [] then
    return {
      entry := {
        id := UInt64.ofNat (count+1)
        observedAt := a.observedAt
        contentDigest := a.contentDigest
        schemaVersion := if a.schemaVersion = 0 then Ledger.schemaVersion else a.schemaVersion
        outcome,sourceId,authorDid }
      payload,context,sourced := h }
  else none

def Observation.item (v : Observation) : Item := ⟨v.entry,.text v.payload,v.context⟩

structure AppendReply where
  result : LookupResult
  id : UInt64
  status : Status
  deriving DecidableEq, Repr

/-- Everything `atp_ledger_append_with_context` decides before it writes: the reply that
ends the call early, or the entry to commit. -/
def appendDecision (items : List Item) (a : AppendArgs) : Except AppendReply Observation :=
  match a.validate items.length with
  | none => .error ⟨.notFound,0,.invalidArgument⟩
  | some v =>
      match lookup items v.entry.sourceId.bytes v.entry.contentDigest with
      | (found,some existing) => .error ⟨found,existing.id,.ok⟩
      | (_,none) =>
          if ¬reserveEntries (items.length+1) then .error ⟨.notFound,0,.outOfMemory⟩
          else .ok v

/-- `atp_ledger_append_with_context`. -/
def append (fault : Option CommitFault) (s : Session) (a : AppendArgs) : Session×AppendReply :=
  let items := s.handle.items
  match appendDecision items a with
  | .error reply => (s,reply)
  | .ok v =>
      match commitRecord fault s (items.length+1) (buildRecord (entryFrame v.item)) with
      | (s,.ok) => (s.withItems (items++[v.item]),⟨.new,v.entry.id,.ok⟩)
      | (s,status) => (s,⟨.notFound,0,status⟩)

/-! ## Outcome changes -/

/-- Everything `atp_ledger_set_outcome` decides before it writes: the status that ends
the call early, or the outcome to commit. -/
def setOutcomeDecision (items : List Item) (id : UInt64) (byte : UInt8) : Except Status Outcome :=
  if id = 0 ∨ items.length < id.toNat then .error .notFound
  else match Outcome.ofByte? byte,items[id.toNat-1]? with
    | some o,some it =>
        if it.outcome.isCommitted ∧ o = .pending then .error .invalidArgument
        else if it.outcome = o then .error .ok
        else .ok o
    | _,_ => .error .invalidArgument

/-- `atp_ledger_set_outcome`. -/
def setOutcome (fault : Option CommitFault) (s : Session) (id : UInt64) (byte : UInt8) :
    Session×Status :=
  let items := s.handle.items
  match setOutcomeDecision items id byte with
  | .error status => (s,status)
  | .ok o =>
      match commitRecord fault s items.length (buildRecord (patchFrame id o)) with
      | (s,.ok) => (s.withItems (setOutcomeAt (id.toNat-1) o items),.ok)
      | (s,status) => (s,status)

def withdraw (fault : Option CommitFault) (s : Session) (id : UInt64) : Session×Status :=
  setOutcome fault s id Outcome.withdrawn.toByte

/-- The loop of `atp_ledger_withdraw_source` and `atp_ledger_withdraw_author` over the first
`n` entries: each that matches and is not withdrawn yet is withdrawn, with the status of
each attempt. Each position has its own fault. -/
def withdrawWhere (matching : LedgerEntry → Bool) (faults : ℕ → Option CommitFault) :
    ℕ → Session → Session×List Status
  | 0, s => (s,[])
  | n+1, s =>
      let r := withdrawWhere matching faults n s
      match r.1.handle.items[n]? with
      | none => r
      | some it =>
          if it.outcome ≠ .withdrawn ∧ matching it.entry then
            let w := withdraw (faults n) r.1 it.entry.id
            (w.1,r.2++[w.2])
          else r

def fromSource (source : CString) (e : LedgerEntry) : Bool := e.sourceId.bytes = source.bytes
def fromAuthor (author : CString) (e : LedgerEntry) : Bool := e.authorDid.bytes = author.bytes

/-- `atp_ledger_withdraw_source`: the number of entries it withdrew. -/
def withdrawSource (faults : ℕ → Option CommitFault) (s : Session) (source : CString) : Session×ℕ :=
  let r := withdrawWhere (fromSource source) faults s.handle.items.length s
  (r.1,r.2.count .ok)

def withdrawAuthor (faults : ℕ → Option CommitFault) (s : Session) (author : CString) : Session×ℕ :=
  let r := withdrawWhere (fromAuthor author) faults s.handle.items.length s
  (r.1,r.2.count .ok)

/-! ## What the decisions guarantee -/

/-- An entry about to be appended: its id continues the entries, its key is new and it
fits the arrays. -/
structure Fresh (items : List Item) (v : Observation) : Prop where
  id : v.entry.id = UInt64.ofNat (items.length+1)
  unseen : ∀ it ∈ items, it.key ≠ v.item.key
  reserved : items.length+1 ≤ 2^63

theorem AppendArgs.validate_id {a : AppendArgs} {count : ℕ} {v : Observation}
    (h : a.validate count = some v) : v.entry.id = UInt64.ofNat (count+1) := by
  simp only [AppendArgs.validate,Option.bind_eq_bind,Option.bind_eq_some_iff] at h
  obtain ⟨source,-,sourceId,-,authorDid,-,o,-,c,-,t,-,h⟩ := h
  split at h
  · cases h
    rfl
  · cases h

theorem lookup_none {items : List Item} {source : Bytes} {digest : UInt64} {r : LookupResult}
    (h : lookup items source digest = (r,none)) : ∀ it ∈ items, it.key ≠ (source,digest) := by
  unfold lookup at h
  split at h
  · rename_i hf
    simpa [indexFind,List.find?_eq_none] using hf
  · simp at h

theorem lookup_ne_new (items : List Item) (source : Bytes) (digest : UInt64) :
    (lookup items source digest).1 ≠ .new := by
  unfold lookup
  split
  · simp
  · split <;> simp

/-- An append that ends early never reports a new entry. -/
theorem appendDecision_error {items : List Item} {a : AppendArgs} {r : AppendReply}
    (h : appendDecision items a = .error r) : r.result ≠ .new := by
  unfold appendDecision at h
  split at h
  · cases h
    simp
  · rename_i v _
    split at h
    · rename_i hl
      cases h
      exact fun hn => lookup_ne_new items v.entry.sourceId.bytes v.entry.contentDigest
        (by rw [hl]; exact hn)
    · split at h
      · cases h
        simp
      · cases h

theorem appendDecision_validate {items : List Item} {a : AppendArgs} {v : Observation}
    (h : appendDecision items a = .ok v) : a.validate items.length = some v := by
  unfold appendDecision at h
  split at h
  · cases h
  · rename_i w hv
    split at h
    · cases h
    · split at h
      · cases h
      · exact Except.ok.inj h ▸ hv

theorem appendDecision_ok {items : List Item} {a : AppendArgs} {v : Observation}
    (h : appendDecision items a = .ok v) : Fresh items v := by
  unfold appendDecision at h
  split at h
  · cases h
  · rename_i w hv
    split at h
    · cases h
    · rename_i hl
      split at h
      · cases h
      · rename_i hr
        obtain rfl := Except.ok.inj h
        refine ⟨AppendArgs.validate_id hv,lookup_none hl,?_⟩
        simpa [reserveEntries] using hr

theorem Fresh.id_toNat {items : List Item} {v : Observation} (h : Fresh items v) :
    v.item.entry.id.toNat = items.length+1 := by
  have hid : v.item.entry.id = UInt64.ofNat (items.length+1) := h.id
  have hr := h.reserved
  rw [hid,UInt64.toNat_ofNat',Nat.mod_eq_of_lt (by omega)]

/-- An outcome change about to be committed. -/
structure Changes (items : List Item) (id : UInt64) (byte : UInt8) (o : Outcome) (it : Item) :
    Prop where
  nonzero : id ≠ 0
  valid : Outcome.ofByte? byte = some o
  at_id : items[id.toNat-1]? = some it
  allowed : ¬(it.outcome.isCommitted = true∧o = .pending)
  differs : it.outcome ≠ o

theorem setOutcomeDecision_ok {items : List Item} {id : UInt64} {byte : UInt8} {o : Outcome}
    (h : setOutcomeDecision items id byte = .ok o) : ∃ it, Changes items id byte o it := by
  unfold setOutcomeDecision at h
  split at h
  · cases h
  · rename_i hid
    split at h
    · rename_i o' it hb hit
      split at h
      · cases h
      · rename_i hc
        split at h
        · cases h
        · rename_i hd
          obtain rfl := Except.ok.inj h
          exact ⟨it,fun hz => hid (.inl hz),hb,hit,hc,hd⟩
    · cases h

/-- A change that ends early with success finds the entry at that outcome already. -/
theorem setOutcomeDecision_same {items : List Item} {id : UInt64} {byte : UInt8}
    (h : setOutcomeDecision items id byte = .error .ok) :
    ∃ o it, Outcome.ofByte? byte = some o ∧ items[id.toNat-1]? = some it ∧ it.outcome = o := by
  unfold setOutcomeDecision at h
  split at h
  · cases h
  · split at h
    · rename_i o it hb hit
      split at h
      · cases h
      · split at h
        · rename_i hs
          exact ⟨o,it,hb,hit,hs⟩
        · cases h
    · cases h

/-! ## What a commit can do -/

/-- A commit that returned an error before the marker: some prefix of the record is
on the log and nothing else changed. -/
structure CommitTorn (s s' : Session) (record : Bytes) (k : ℕ) : Prop where
  log : s'.disk.logBytes = s.disk.logBytes++record.take k
  present : s.disk.log.isSome → s'.disk.log.isSome
  off : s'.disk.off = s.disk.off
  handle : s'.handle = s.handle
  bounded : s.disk.logBytes.length ≤ fileMax → s'.disk.logBytes.length ≤ fileMax

/-- A commit that wrote the record whole and advanced the offset, with the marker that
is on disk afterwards. -/
structure CommitWritten (s s' : Session) (record : Bytes) (off : Option Bytes) : Prop where
  log : s'.disk.log = some (s.disk.logBytes++record)
  bounded : s.disk.logBytes.length+record.length ≤ fileMax
  off : s'.disk.off = off
  items : s'.handle.items = s.handle.items
  offset : s'.handle.committedOffset = s.handle.committedOffset+record.length

theorem commitTorn_take (s : Session) (record : Bytes) {k : ℕ}
    (hk : k ≤ fileMax-s.disk.logBytes.length) :
    CommitTorn s (s.appendLog (record.take k)) record k := by
  refine ⟨rfl,fun _ => rfl,rfl,rfl,fun h => ?_⟩
  show (s.disk.logBytes++record.take k).length ≤ fileMax
  rw [List.length_append,List.length_take]
  omega

/-- Every outcome of a commit: torn before the marker, written without a new marker,
or published. -/
theorem commitRecord_cases (fault : Option CommitFault) (s : Session) (count : ℕ)
    (record : Bytes) :
    (∃ s' k, commitRecord fault s count record = (s',.io)∧CommitTorn s s' record k) ∨
    (∃ s', commitRecord fault s count record = (s',.io)∧
      CommitWritten s s' record s.disk.off) ∨
    (∃ s', commitRecord fault s count record = (s',.ok)∧
      CommitWritten s s' record
        (some (offHeader count (s.handle.committedOffset+record.length)))) := by
  have hseek : CommitTorn s s record 0 := ⟨by simp,id,rfl,rfl,id⟩
  match fault with
  | some .seek => exact .inl ⟨s,0,rfl,hseek⟩
  | some (.write k) => exact .inl ⟨_,_,rfl,commitTorn_take s record (by omega)⟩
  | some (.sync k) => exact .inl ⟨_,_,rfl,commitTorn_take s record (by omega)⟩
  | none =>
      by_cases hroom : fileMax < s.disk.logBytes.length+record.length
      · exact .inl ⟨_,_,if_pos hroom,commitTorn_take s record le_rfl⟩
      · refine .inr (.inr ⟨_,if_neg hroom,?_⟩)
        exact ⟨rfl,Nat.not_lt.mp hroom,rfl,rfl,rfl⟩
  | some (.marker f) =>
      by_cases hroom : fileMax < s.disk.logBytes.length+record.length
      · exact .inl ⟨_,_,if_pos hroom,commitTorn_take s record le_rfl⟩
      · cases f
        all_goals
          refine .inr (.inl ⟨_,if_neg hroom,?_⟩)
          exact ⟨rfl,Nat.not_lt.mp hroom,rfl,rfl,rfl⟩

/-- The session after a call that reached its commit, with the entries the call meant to
have in memory, and whether the commit succeeded. -/
inductive Committed (s : Session) (record : Bytes) (mem' : List Item) : Session → Bool → Prop
  | torn {s' : Session} {k : ℕ} : CommitTorn s s' record k → Committed s record mem' s' false
  | written {s' : Session} : CommitWritten s s' record s.disk.off →
      Committed s record mem' s' false
  | published {s' : Session} : CommitWritten s s' record
        (some (offHeader mem'.length (s.handle.committedOffset+record.length))) →
      Committed s record mem' (s'.withItems mem') true

theorem Committed.items {s s' : Session} {record : Bytes} {mem' : List Item} {ok : Bool}
    (h : Committed s record mem' s' ok) :
    s'.handle.items = if ok then mem' else s.handle.items := by
  cases h with
  | torn hc => rw [hc.handle]; rfl
  | written hc => exact hc.items
  | published _ => rfl

/-- What an append can do: end early without touching anything, or commit one record. -/
theorem append_cases (fault : Option CommitFault) (s : Session) (a : AppendArgs) :
    (∃ reply, appendDecision s.handle.items a = .error reply ∧ append fault s a = (s,reply)) ∨
    (∃ v ok, appendDecision s.handle.items a = .ok v ∧ Fresh s.handle.items v ∧
      Committed s (buildRecord (entryFrame v.item)) (s.handle.items++[v.item])
        (append fault s a).1 ok ∧
      (append fault s a).2 = if ok then ⟨.new,v.entry.id,.ok⟩ else ⟨.notFound,0,.io⟩) := by
  cases hd : appendDecision s.handle.items a with
  | error reply => exact .inl ⟨reply,rfl,by simp only [append,hd]⟩
  | ok v =>
      right
      rcases commitRecord_cases fault s (s.handle.items.length+1)
        (buildRecord (entryFrame v.item)) with ⟨s',k,he,hc⟩ | ⟨s',he,hc⟩ | ⟨s',he,hc⟩
      · have h : append fault s a = (s',⟨.notFound,0,.io⟩) := by simp only [append,hd,he]
        exact ⟨v,false,rfl,appendDecision_ok hd,by rw [h]; exact .torn hc,by rw [h]; rfl⟩
      · have h : append fault s a = (s',⟨.notFound,0,.io⟩) := by simp only [append,hd,he]
        exact ⟨v,false,rfl,appendDecision_ok hd,by rw [h]; exact .written hc,by rw [h]; rfl⟩
      · have h : append fault s a =
            (s'.withItems (s.handle.items++[v.item]),⟨.new,v.entry.id,.ok⟩) := by
          simp only [append,hd,he]
        exact ⟨v,true,rfl,appendDecision_ok hd,
          by rw [h]; exact .published (by simpa using hc),by rw [h]; rfl⟩

theorem setOutcome_cases (fault : Option CommitFault) (s : Session) (id : UInt64) (byte : UInt8) :
    (∃ status, setOutcomeDecision s.handle.items id byte = .error status ∧
      setOutcome fault s id byte = (s,status)) ∨
    (∃ o it ok, setOutcomeDecision s.handle.items id byte = .ok o ∧
      Changes s.handle.items id byte o it ∧
      Committed s (buildRecord (patchFrame id o)) (setOutcomeAt (id.toNat-1) o s.handle.items)
        (setOutcome fault s id byte).1 ok ∧
      (setOutcome fault s id byte).2 = if ok then .ok else .io) := by
  cases hd : setOutcomeDecision s.handle.items id byte with
  | error status => exact .inl ⟨status,rfl,by simp only [setOutcome,hd]⟩
  | ok o =>
      right
      obtain ⟨it,hch⟩ := setOutcomeDecision_ok hd
      rcases commitRecord_cases fault s s.handle.items.length
        (buildRecord (patchFrame id o)) with ⟨s',k,he,hc⟩ | ⟨s',he,hc⟩ | ⟨s',he,hc⟩
      · have h : setOutcome fault s id byte = (s',.io) := by simp only [setOutcome,hd,he]
        exact ⟨o,it,false,rfl,hch,by rw [h]; exact .torn hc,by rw [h]; rfl⟩
      · have h : setOutcome fault s id byte = (s',.io) := by simp only [setOutcome,hd,he]
        exact ⟨o,it,false,rfl,hch,by rw [h]; exact .written hc,by rw [h]; rfl⟩
      · have h : setOutcome fault s id byte =
            (s'.withItems (setOutcomeAt (id.toNat-1) o s.handle.items),.ok) := by
          simp only [setOutcome,hd,he]
        exact ⟨o,it,true,rfl,hch,by rw [h]; exact .published (by simpa using hc),by rw [h]; rfl⟩

end Atperson.Ledger
