import Atperson.Ledger.Operations

/-!
# Compaction and payload release

One pass rewrites the log as one entry record for each entry in memory. Withdrawn
text is dropped on the way, and with a release budget the oldest learned or skipped
texts are released until the budget is met. The staged log then replaces the old
one, with the marker removed before and written again after.

The pass changes the entries in memory as it goes, so an entry that was released or
dropped stays so when a later step fails.
-/
namespace Atperson.Ledger
open Wire

/-- A payload pointer that is not null: the released marker and the empty text have none. -/
def Payload.holdsText : Payload → Bool
  | .text t => t.bytes ≠ []
  | .released => false

def Item.releasable (it : Item) : Bool :=
  it.payload.holdsText && (it.outcome = .learned || it.outcome = .skipped)

structure CompactReport where
  entries : ℕ
  patchesFlattened : ℕ
  payloadsDropped : ℕ
  payloadsReleased : ℕ
  bytesBefore : ℕ
  bytesAfter : ℕ
  deriving DecidableEq, Repr

def CompactReport.zero : CompactReport := ⟨0,0,0,0,0,0⟩

inductive CompactFault where
  | scan
  | opening
  | header
  | record (i : ℕ)
  | stamp
  | sync
  | rename
  | closeLog
  | reopen
  | seek
  | marker (f : OffFault)
  deriving DecidableEq, Repr

/-! ## The pass over the entries -/

structure Pass where
  out : Bytes
  releasedBytes : ℕ
  anyReleased : Bool
  payloadsReleased : ℕ
  payloadsDropped : ℕ
  entries : ℕ
  deriving DecidableEq

def Pass.start : Pass := ⟨[],0,false,0,0,0⟩

def releaseItem (releaseBytes : ℕ) (p : Pass) (it : Item) : Pass×Item :=
  if 0 < releaseBytes ∧ p.releasedBytes < releaseBytes ∧ it.releasable then
    ({p with
        releasedBytes := p.releasedBytes+it.payload.retained.length
        payloadsReleased := p.payloadsReleased+1},
      it.withPayload .released)
  else (p,it)

def dropItem (p : Pass) (it : Item) : Pass×Item :=
  if it.outcome = .withdrawn ∧ it.payload.holdsText then
    ({p with payloadsDropped := p.payloadsDropped+1},it.withPayload (.text .none))
  else (p,it)

def passItem (releaseBytes : ℕ) (p : Pass) (it : Item) : Pass×Item :=
  let r := releaseItem releaseBytes p it
  let d := dropItem r.1 r.2
  ({d.1 with anyReleased := d.1.anyReleased || d.2.payload = .released},d.2)

def writeItem (p : Pass) (it : Item) : Pass :=
  {p with out := p.out++buildRecord (entryFrame it),entries := p.entries+1}

/-- The loop of `atp_ledger_compact_release`: the pass so far, the entries as they are
in memory afterwards, and whether every record was written. -/
def passItems (releaseBytes : ℕ) (fault : Option ℕ) : Pass → List Item → Pass×List Item×Bool
  | p, [] => (p,[],true)
  | p, it::rest =>
      let (p,it) := passItem releaseBytes p it
      if fault = some 0 ∨ fileMax < ledgerHeaderSize+p.out.length+recordSize it then
        (p,it::rest,false)
      else
        let (p,items,ok) := passItems releaseBytes (fault.map (·-1)) (writeItem p it) rest
        (p,it::items,ok)

/-! ## The scan for the report -/

/-- Walk the record heads of the committed log and count the patch records. -/
def countPatches : ℕ → Bytes → ℕ → Except Status ℕ
  | 0, _, left => if left = 0 then .ok 0 else .error .format
  | fuel+1, bs, left =>
      if left < 9 then if left = 0 then .ok 0 else .error .format
      else if bs.length < 9 then .error .io
      else
        let len := (loadU32 bs).toNat
        if len = 0 ∨ ledgerBodyMax < len ∨ left < 9+len then .error .format
        else match countPatches fuel (bs.drop (9+len)) (left-(9+len)) with
          | .error e => .error e
          | .ok n => .ok (n+if (bs.drop 8).head? = some recordPatch then 1 else 0)

def scanReport (fault : Option CompactFault) (s : Session) : Except Status ℕ :=
  let offset := s.handle.committedOffset
  if fault = some .scan then .error .io
  else if offset < ledgerHeaderSize then .error .format
  else countPatches offset (s.disk.logBytes.drop ledgerHeaderSize) (offset-ledgerHeaderSize)

/-! ## The rewrite -/

/-- What a pass returned. A handle whose log was closed and could not be opened again
has no log: `logOpen` is false and the ledger has to be reopened. -/
structure CompactReply where
  session : Session
  logOpen : Bool
  status : Status
  report : CompactReport
  deriving DecidableEq

def recordFault : Option CompactFault → Option ℕ
  | some (.record i) => some i
  | _ => none

/-- Publish a staged log: remove the marker, rename, reopen and write the marker. -/
def swapLog (fault : Option CompactFault) (s : Session) (image : Bytes) (report : CompactReport) :
    CompactReply :=
  let unmarked : Session := {s with disk := {s.disk with off := none,logTmp := none}}
  let renamed : Session := {s with disk := {s.disk with off := none,logTmp := none,log := some image}}
  if fault = some .rename then ⟨unmarked,true,.io,report⟩
  else if fault = some .closeLog ∨ fault = some .reopen then ⟨renamed,false,.io,report⟩
  else if fault = some .seek then ⟨renamed,true,.io,report⟩
  else
    let offFault := match fault with
      | some (.marker f) => some f
      | _ => none
    let (disk,published) := tryWriteOff offFault renamed.disk s.handle.items.length image.length
    ⟨⟨disk,{s.handle with committedOffset := image.length}⟩,true,
      if published then .ok else .io,{report with bytesAfter := image.length}⟩

/-- The part of `atp_ledger_compact_release` behind the scan and the staging header: the
pass, and the swap if everything was staged. -/
def rewriteLog (fault : Option CompactFault) (s : Session) (releaseBytes : ℕ)
    (report : CompactReport) : CompactReply :=
  let r := passItems releaseBytes (recordFault fault) .start s.handle.items
  let report := {report with
    entries := r.1.entries
    payloadsDropped := r.1.payloadsDropped
    payloadsReleased := r.1.payloadsReleased}
  let rewritten := s.withItems r.2.1
  if r.2.2 = false ∨ (fault = some .stamp ∧ r.1.anyReleased) ∨ fault = some .sync then
    ⟨{rewritten with disk := {s.disk with logTmp := none}},true,.io,report⟩
  else
    let header := if r.1.anyReleased then releasedHeader else currentHeader
    swapLog fault rewritten (header++r.1.out) report

/-- `atp_ledger_compact_release`. The patch scan runs only when a report is asked for. -/
def compactRelease (fault : Option CompactFault) (wantReport : Bool) (s : Session)
    (releaseBytes : ℕ) : CompactReply :=
  match if wantReport then scanReport fault s else .ok 0 with
  | .error e => ⟨s,true,e,.zero⟩
  | .ok patches =>
      let report := {CompactReport.zero with
        patchesFlattened := patches,bytesBefore := s.handle.committedOffset}
      if fault = some .opening then ⟨s,true,.io,report⟩
      else if fault = some .header then ⟨{s with disk := {s.disk with logTmp := none}},true,.io,report⟩
      else rewriteLog fault s releaseBytes report

def compact (fault : Option CompactFault) (wantReport : Bool) (s : Session) : CompactReply :=
  compactRelease fault wantReport s 0

/-- Room below the cap that a release leaves, so the next append does not cross it. -/
def releaseTarget (maxBytes : ℕ) : ℕ := maxBytes-maxBytes/5

def releasePayloads (fault : Option CompactFault) (wantReport : Bool) (s : Session)
    (maxBytes : ℕ) : CompactReply :=
  let offset := s.handle.committedOffset
  let unchanged := {CompactReport.zero with bytesBefore := offset,bytesAfter := offset}
  if maxBytes = 0 then ⟨s,true,.invalidArgument,.zero⟩
  else if offset ≤ maxBytes then ⟨s,true,.ok,unchanged⟩
  else if ¬s.handle.items.any Item.releasable then ⟨s,true,.ok,unchanged⟩
  else compactRelease fault wantReport s (offset-releaseTarget maxBytes)

/-- The loop of `atp_ledger_release_plan`: bytes and payloads it would release. -/
def planItems (need : ℕ) : ℕ×ℕ → List Item → ℕ×ℕ
  | acc, [] => acc
  | (bytes,payloads), it::rest =>
      if need ≤ bytes then (bytes,payloads)
      else if it.releasable then planItems need (bytes+it.payload.retained.length,payloads+1) rest
      else planItems need (bytes,payloads) rest

/-- A `uint64_t` difference. -/
def subU64 (a b : ℕ) : ℕ := (a+2^64-b)%2^64

def releasePlan (h : Handle) (maxBytes : ℕ) : Status×CompactReport :=
  let offset := h.committedOffset
  let unchanged := {CompactReport.zero with bytesBefore := offset,bytesAfter := offset}
  if maxBytes = 0 then (.invalidArgument,.zero)
  else if offset ≤ maxBytes then (.ok,unchanged)
  else
    let (bytes,payloads) := planItems (subU64 offset (releaseTarget maxBytes)) (0,0) h.items
    (.ok,{unchanged with payloadsReleased := payloads,bytesAfter := subU64 offset bytes})

/-! ## What a complete pass writes -/

def records (items : List Item) : Bytes := items.flatMap fun it => buildRecord (entryFrame it)

def anyReleased (items : List Item) : Bool := items.any fun it => it.payload = .released

/-- The log that holds exactly the given entries, with the header their payloads need. -/
def logImage (items : List Item) : Bytes :=
  (if anyReleased items then releasedHeader else currentHeader)++records items

/-- What a pass may do to an entry: nothing but its payload, and that only to release or
drop text. -/
structure Rewritten (it it' : Item) : Prop where
  entry : it'.entry = it.entry
  context : it'.context = it.context
  payload : it'.payload = it.payload ∨
    (it.releasable = true∧it'.payload = .released) ∨
    (it.outcome = .withdrawn∧it'.payload = .text .none)

theorem releaseItem_out (releaseBytes : ℕ) (p : Pass) (it : Item) :
    (releaseItem releaseBytes p it).1.out = p.out ∧
      (releaseItem releaseBytes p it).1.anyReleased = p.anyReleased := by
  unfold releaseItem
  split <;> exact ⟨rfl,rfl⟩

theorem dropItem_out (p : Pass) (it : Item) :
    (dropItem p it).1.out = p.out ∧ (dropItem p it).1.anyReleased = p.anyReleased := by
  unfold dropItem
  split <;> exact ⟨rfl,rfl⟩

theorem passItem_out (releaseBytes : ℕ) (p : Pass) (it : Item) :
    (passItem releaseBytes p it).1.out = p.out :=
  (dropItem_out _ _).1.trans (releaseItem_out _ _ _).1

theorem passItem_anyReleased (releaseBytes : ℕ) (p : Pass) (it : Item) :
    (passItem releaseBytes p it).1.anyReleased =
      (p.anyReleased || (passItem releaseBytes p it).2.payload = .released) :=
  congrArg (· || _) ((dropItem_out _ _).2.trans (releaseItem_out _ _ _).2)

/-- The payload a pass leaves with an entry. -/
theorem passItem_item (releaseBytes : ℕ) (p : Pass) (it : Item) :
    (passItem releaseBytes p it).2 =
      if 0 < releaseBytes ∧ p.releasedBytes < releaseBytes ∧ it.releasable then
        it.withPayload .released
      else if it.outcome = .withdrawn ∧ it.payload.holdsText then
        it.withPayload (.text .none)
      else it := by
  by_cases hr : 0 < releaseBytes ∧ p.releasedBytes < releaseBytes ∧ it.releasable
  · have hd : ¬((it.withPayload .released).outcome = .withdrawn ∧
        (it.withPayload .released).payload.holdsText) := by simp [Payload.holdsText]
    simp only [passItem,releaseItem,if_pos hr,dropItem,if_neg hd]
  · simp only [passItem,releaseItem,if_neg hr,dropItem]
    split <;> rfl

theorem passItem_rewritten (releaseBytes : ℕ) (p : Pass) (it : Item) :
    Rewritten it (passItem releaseBytes p it).2 := by
  rw [passItem_item]
  split
  · rename_i hr
    exact ⟨rfl,rfl,.inr (.inl ⟨hr.2.2,rfl⟩)⟩
  · split
    · rename_i hd
      exact ⟨rfl,rfl,.inr (.inr ⟨hd.1,rfl⟩)⟩
    · exact ⟨rfl,rfl,.inl rfl⟩

theorem passItems_rewritten (releaseBytes : ℕ) (fault : Option ℕ) (p : Pass)
    (items : List Item) :
    List.Forall₂ Rewritten items (passItems releaseBytes fault p items).2.1 := by
  induction items generalizing fault p with
  | nil => exact .nil
  | cons it rest ih =>
      have hrefl : ∀ l : List Item, List.Forall₂ Rewritten l l := fun l =>
        List.forall₂_same.mpr fun _ _ => ⟨rfl,rfl,.inl rfl⟩
      simp only [passItems]
      split
      · exact .cons (passItem_rewritten releaseBytes p it) (hrefl rest)
      · exact .cons (passItem_rewritten releaseBytes p it) (ih _ _)

theorem passItems_written {releaseBytes : ℕ} {fault : Option ℕ} {p q : Pass}
    {items items' : List Item} (h : passItems releaseBytes fault p items = (q,items',true)) :
    q.out = p.out++records items' ∧ q.anyReleased = (p.anyReleased || anyReleased items') := by
  induction items generalizing fault p items' with
  | nil =>
      obtain ⟨rfl,rfl,-⟩ := by simpa [passItems] using h
      simp [records,anyReleased]
  | cons it rest ih =>
      simp only [passItems] at h
      split at h
      · simp at h
      · rename_i hc
        simp only [Prod.mk.injEq] at h
        obtain ⟨rfl,rfl,hok⟩ := h
        obtain ⟨hout,hany⟩ := ih (Prod.ext rfl (Prod.ext rfl hok))
        constructor
        · rw [hout,writeItem,passItem_out,List.append_assoc]
          rfl
        · rw [hany,writeItem,passItem_anyReleased,Bool.or_assoc]
          rfl

theorem passItems_bounded {releaseBytes : ℕ} {fault : Option ℕ} {p q : Pass}
    {items items' : List Item} (h : passItems releaseBytes fault p items = (q,items',true))
    (hp : ledgerHeaderSize+p.out.length ≤ fileMax) :
    ledgerHeaderSize+q.out.length ≤ fileMax := by
  induction items generalizing fault p items' with
  | nil =>
      obtain ⟨rfl,rfl,-⟩ := by simpa [passItems] using h
      exact hp
  | cons it rest ih =>
      simp only [passItems] at h
      split at h
      · simp at h
      · rename_i hc
        simp only [not_or,Nat.not_lt] at hc
        simp only [Prod.mk.injEq] at h
        obtain ⟨rfl,-,hok⟩ := h
        refine ih (Prod.ext rfl (Prod.ext rfl hok)) ?_
        simp only [writeItem,List.length_append]
        exact (Nat.add_assoc _ _ _).symm.trans_le hc.2

/-! ## What a rewrite can do -/

theorem logImage_length (items : List Item) :
    (logImage items).length = ledgerHeaderSize+(records items).length := by
  rw [logImage,List.length_append]
  split <;> rfl

theorem logImage_header (items : List Item) : ledgerHeaderSize ≤ (logImage items).length ∧
    headerAccepted ((logImage items).take ledgerHeaderSize) = true := by
  rw [logImage_length]
  refine ⟨Nat.le_add_right _ _,?_⟩
  rw [logImage]
  split
  · exact congrArg headerAccepted (List.take_left' releasedHeader_length)
  · exact congrArg headerAccepted (List.take_left' currentHeader_length)

/-- Every entry has a source id, as the append path demands. -/
def Sourced (items : List Item) : Prop := ∀ it ∈ items, it.entry.sourceId.bytes ≠ []

theorem reads_records {items rest : List Item} (hids : IdsMatch (items++rest))
    (hs : Sourced rest) (hcount : (items++rest).length ≤ 2^63) :
    framing.Reads applyRecord items (records rest) (items++rest) [] := by
  induction rest generalizing items with
  | nil =>
      rw [List.append_nil]
      exact .done items []
  | cons it rest ih =>
      have hid : it.entry.id.toNat = items.length+1 := hids items.length it (by simp)
      rw [List.length_append,List.length_cons] at hcount
      have hr : reserveEntries (items.length+1) := by
        rw [reserveEntries,decide_eq_true_eq]
        omega
      have hone := Framing.reads_encode (entryFrame_fits it)
        (applyRecord_entry (hs it List.mem_cons_self) hid hr)
      have happ : items++it::rest = (items++[it])++rest := by simp
      rw [happ] at hids ⊢
      exact hone.behind (ih hids (fun x hx => hs x (List.mem_cons_of_mem it hx))
        (by simp only [List.length_append,List.length_singleton]; omega))

/-- The rewritten log decodes to the entries it was written from. -/
theorem decodes_logImage {items : List Item} (hids : IdsMatch items) (hs : Sourced items)
    (hcount : items.length ≤ 2^63) : Decodes (logImage items) items := by
  have hdrop : (logImage items).drop ledgerHeaderSize = records items := by
    rw [logImage]
    split
    · exact List.drop_left' releasedHeader_length
    · exact List.drop_left' currentHeader_length
  rw [Decodes,hdrop]
  exact reads_records (List.nil_append _ ▸ hids) hs hcount

/-- What a compaction can leave: everything as it was, the old log under a rewritten
memory, that log without its marker, the new log without a marker, or the new log with its
marker. -/
inductive Compacted (s : Session) : Session → Bool → Status → Prop
  | unchanged {e : Status} : e ≠ .ok → Compacted s s true e
  | kept {s' : Session} : List.Forall₂ Rewritten s.handle.items s'.handle.items →
      s'.handle.committedOffset = s.handle.committedOffset → s'.disk.log = s.disk.log →
      s'.disk.off = s.disk.off → Compacted s s' true .io
  | unmarked {s' : Session} : List.Forall₂ Rewritten s.handle.items s'.handle.items →
      s'.handle.committedOffset = s.handle.committedOffset → s'.disk.log = s.disk.log →
      s'.disk.off = none → Compacted s s' true .io
  | swapped {s' : Session} {logOpen : Bool} :
      List.Forall₂ Rewritten s.handle.items s'.handle.items →
      s'.disk.log = some (logImage s'.handle.items) → s'.disk.off = none →
      (logImage s'.handle.items).length ≤ fileMax → Compacted s s' logOpen .io
  | published {s' : Session} : List.Forall₂ Rewritten s.handle.items s'.handle.items →
      s'.disk.log = some (logImage s'.handle.items) →
      s'.disk.off = some (offHeader s'.handle.items.length (logImage s'.handle.items).length) →
      s'.handle.committedOffset = (logImage s'.handle.items).length →
      (logImage s'.handle.items).length ≤ fileMax → Compacted s s' true .ok

theorem swapLog_compacted {s s0 : Session} {fault : Option CompactFault} {report : CompactReport}
    (hrw : List.Forall₂ Rewritten s0.handle.items s.handle.items)
    (hoff : s.handle.committedOffset = s0.handle.committedOffset) (hdisk : s.disk = s0.disk)
    (hsize : (logImage s.handle.items).length ≤ fileMax) :
    Compacted s0 (swapLog fault s (logImage s.handle.items) report).session
      (swapLog fault s (logImage s.handle.items) report).logOpen
      (swapLog fault s (logImage s.handle.items) report).status := by
  unfold swapLog
  by_cases h1 : fault = some .rename
  · simp only [if_pos h1]
    exact .unmarked hrw hoff (by rw [hdisk]) rfl
  simp only [if_neg h1]
  by_cases h2 : fault = some .closeLog ∨ fault = some .reopen
  · simp only [if_pos h2]
    exact .swapped hrw rfl rfl hsize
  simp only [if_neg h2]
  by_cases h3 : fault = some .seek
  · simp only [if_pos h3]
    exact .swapped hrw rfl rfl hsize
  simp only [if_neg h3]
  split
  · rename_i f
    cases f <;> exact .swapped hrw rfl rfl hsize
  · exact .published hrw rfl rfl rfl hsize

/-- A complete pass has written the image of the entries it leaves in memory. -/
theorem passItems_image {releaseBytes : ℕ} {fault : Option ℕ} {items : List Item}
    (h : (passItems releaseBytes fault .start items).2.2 = true) :
    (if (passItems releaseBytes fault .start items).1.anyReleased then releasedHeader
        else currentHeader)++(passItems releaseBytes fault .start items).1.out =
      logImage (passItems releaseBytes fault .start items).2.1 ∧
    (logImage (passItems releaseBytes fault .start items).2.1).length ≤ fileMax := by
  have heq : passItems releaseBytes fault .start items =
      ((passItems releaseBytes fault .start items).1,
        (passItems releaseBytes fault .start items).2.1,true) := Prod.ext rfl (Prod.ext rfl h)
  obtain ⟨hout,hany⟩ := passItems_written heq
  have hb := passItems_bounded heq (by decide)
  rw [hout] at hb
  rw [hout,hany,logImage_length]
  exact ⟨rfl,hb⟩

theorem rewriteLog_compacted (fault : Option CompactFault) (s : Session) (releaseBytes : ℕ)
    (report : CompactReport) :
    Compacted s (rewriteLog fault s releaseBytes report).session
      (rewriteLog fault s releaseBytes report).logOpen
      (rewriteLog fault s releaseBytes report).status := by
  have hrw := passItems_rewritten releaseBytes (recordFault fault) .start s.handle.items
  unfold rewriteLog
  simp only
  split
  · exact .kept hrw rfl rfl rfl
  · rename_i hok
    simp only [not_or,Bool.not_eq_false] at hok
    obtain ⟨himage,hsize⟩ := passItems_image hok.1
    rw [himage]
    exact swapLog_compacted (s := s.withItems _) hrw rfl rfl hsize

theorem countPatches_error {fuel left : ℕ} {bs : Bytes} {e : Status}
    (h : countPatches fuel bs left = .error e) : e ≠ .ok := by
  induction fuel generalizing bs left with
  | zero =>
      unfold countPatches at h
      split at h <;> cases h
      simp
  | succ fuel ih =>
      unfold countPatches at h
      split at h
      · split at h <;> cases h
        simp
      · split at h
        · cases h
          simp
        · simp only at h
          split at h
          · cases h
            simp
          · split at h
            · rename_i he
              cases h
              exact ih he
            · cases h

theorem scanReport_error {fault : Option CompactFault} {s : Session} {e : Status}
    (h : scanReport fault s = .error e) : e ≠ .ok := by
  unfold scanReport at h
  simp only at h
  split at h
  · cases h
    simp
  · split at h
    · cases h
      simp
    · exact countPatches_error h

theorem compactRelease_compacted (fault : Option CompactFault) (wantReport : Bool) (s : Session)
    (releaseBytes : ℕ) :
    Compacted s (compactRelease fault wantReport s releaseBytes).session
      (compactRelease fault wantReport s releaseBytes).logOpen
      (compactRelease fault wantReport s releaseBytes).status := by
  have hsame : List.Forall₂ Rewritten s.handle.items s.handle.items :=
    List.forall₂_same.mpr fun _ _ => ⟨rfl,rfl,.inl rfl⟩
  unfold compactRelease
  split
  · rename_i e he
    refine .unchanged ?_
    split at he
    · exact scanReport_error he
    · cases he
  · simp only
    split
    · exact .unchanged (by simp)
    · split
      · exact .kept hsame rfl rfl rfl
      · exact rewriteLog_compacted fault s releaseBytes _

/-- A release does nothing or is a compaction with a budget. -/
theorem releasePayloads_cases (fault : Option CompactFault) (wantReport : Bool) (s : Session)
    (maxBytes : ℕ) :
    ((releasePayloads fault wantReport s maxBytes).session = s ∧
      (releasePayloads fault wantReport s maxBytes).logOpen = true ∧
      (releasePayloads fault wantReport s maxBytes).status ≠ .io) ∨
    (maxBytes < s.handle.committedOffset ∧ s.handle.items.any Item.releasable = true ∧
      releasePayloads fault wantReport s maxBytes = compactRelease fault wantReport s
        (s.handle.committedOffset-releaseTarget maxBytes)) := by
  unfold releasePayloads
  simp only
  split
  · exact .inl ⟨rfl,rfl,by simp⟩
  · split
    · exact .inl ⟨rfl,rfl,by simp⟩
    · rename_i hbig
      split
      · exact .inl ⟨rfl,rfl,by simp⟩
      · rename_i hany
        exact .inr ⟨Nat.not_le.mp hbig,by simpa using hany,rfl⟩

end Atperson.Ledger
