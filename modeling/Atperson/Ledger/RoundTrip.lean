import Atperson.Ledger.Compact

/-!
# A log and its records

A log is the encoding of a sequence of records. Where each continues the ones before it,
recovery reads them back one by one, and what it arrives at is every entry in its order with
the outcome of its last patch. The other way round, an entry body that is accepted is the
encoding of its entry, but for strings with a NUL in them, which are cut at it.
-/
namespace Atperson.Ledger
open Wire

/-- `ATP_LEDGER_RECORD_MAX`. -/
def ledgerRecordMax : ℕ := 9+ledgerBodyMax

inductive LogRecord where
  | entry (it : Item)
  | patch (id : UInt64) (o : Outcome)

namespace LogRecord

def frame : LogRecord → Frame
  | .entry it => entryFrame it
  | .patch id o => patchFrame id o

def apply (items : List Item) : LogRecord → List Item
  | .entry it => items++[it]
  | .patch id o => setOutcomeAt (id.toNat-1) o items

/-- A record that continues a log: the next entry, which the arrays have room for, or the
patch of an entry, which takes back no commitment. -/
def Continues (items : List Item) : LogRecord → Prop
  | .entry it => it.entry.sourceId.bytes ≠ [] ∧ it.entry.id.toNat = items.length+1 ∧
      items.length+1 ≤ 2^63
  | .patch id o => id ≠ 0 ∧ ∃ it, items[id.toNat-1]? = some it ∧
      ¬(it.outcome.isCommitted = true ∧ o = .pending)

/-- A record that follows a log: the next entry by its id, or such a patch. -/
def Follows (items : List Item) : LogRecord → Prop
  | .entry it => it.entry.id.toNat = items.length+1
  | .patch id o => id ≠ 0 ∧ ∃ it, items[id.toNat-1]? = some it ∧
      ¬(it.outcome.isCommitted = true ∧ o = .pending)

theorem Continues.follows {items : List Item} {r : LogRecord} (h : r.Continues items) :
    r.Follows items := by
  cases r with
  | entry it => exact h.2.1
  | patch id o => exact h

def entryOf : LogRecord → Option Item
  | .entry it => some it
  | .patch _ _ => none

def patchOf (id : UInt64) : LogRecord → Option Outcome
  | .entry _ => none
  | .patch i o => if i = id then some o else none

end LogRecord

/-- Each record continues the ones before it. -/
def Legal : List Item → List LogRecord → Prop
  | _, [] => True
  | items, r::rest => r.Continues items ∧ Legal (r.apply items) rest

/-- Each record follows the ones before it. -/
def Lawful : List Item → List LogRecord → Prop
  | _, [] => True
  | items, r::rest => r.Follows items ∧ Lawful (r.apply items) rest

def encodeLog (records : List LogRecord) : Bytes := records.flatMap fun r => buildRecord r.frame

/-- An entry with the outcome of its last patch. -/
def patched (records : List LogRecord) (it : Item) : Item :=
  it.withOutcome ((records.filterMap (LogRecord.patchOf it.entry.id)).getLast?.getD it.outcome)

/-- The entries of a log with their outcomes. -/
def recovered (records : List LogRecord) : List Item :=
  (records.filterMap LogRecord.entryOf).map (patched records)

section Log
variable {items : List Item} {records : List LogRecord} {r : LogRecord}

/-! ## Records -/

theorem frame_fits (r : LogRecord) : framing.Fits r.frame := by
  cases r with
  | entry it => exact entryFrame_fits it
  | patch id o => exact patchFrame_fits id o

theorem buildRecord_le (r : LogRecord) : (buildRecord r.frame).length ≤ ledgerRecordMax := by
  have hlen : (buildRecord r.frame).length = 9+r.frame.body.length := framing.encode_length _
  have hmax : r.frame.body.length ≤ ledgerBodyMax := (frame_fits r).2
  rw [hlen,ledgerRecordMax]
  omega

theorem applyRecord_continues (h : r.Continues items) :
    applyRecord items r.frame = some (r.apply items) := by
  cases r with
  | entry it =>
      obtain ⟨hsource,hid,hroom⟩ := h
      exact applyRecord_entry hsource hid (decide_eq_true hroom)
  | patch id o =>
      obtain ⟨hid,it,hit,hlegal⟩ := h
      exact applyRecord_patch hid hit hlegal

theorem encodeLog_cons (r : LogRecord) (rest : List LogRecord) :
    encodeLog (r::rest) = framing.encode r.frame++encodeLog rest := by
  rw [encodeLog,List.flatMap_cons]
  rfl

theorem legal_append {before after : List LogRecord} : Legal items (before++after) ↔
    Legal items before ∧ Legal (before.foldl LogRecord.apply items) after := by
  induction before generalizing items with
  | nil => simp [Legal]
  | cons r rest ih => simp only [List.cons_append,Legal,List.foldl_cons,ih,and_assoc]

/-- Recovery takes the records one by one. -/
theorem reads_legal (h : Legal items records) :
    framing.Reads applyRecord items (encodeLog records) (records.foldl LogRecord.apply items)
      [] := by
  induction records generalizing items with
  | nil => exact .done items []
  | cons r rest ih =>
      rw [encodeLog_cons]
      exact .frame (Framing.next_encode (frame_fits r) _) (applyRecord_continues h.1) (ih h.2)

/-! ## What the records add up to -/

theorem Legal.lawful (h : Legal items records) : Lawful items records := by
  induction records generalizing items with
  | nil => trivial
  | cons r rest ih => exact ⟨LogRecord.Continues.follows h.1,ih h.2⟩

theorem Lawful.later (h : Lawful items records) :
    ∀ it ∈ records.filterMap LogRecord.entryOf, items.length < it.entry.id.toNat := by
  induction records generalizing items with
  | nil => nofun
  | cons r rest ih =>
      cases r with
      | entry x =>
          obtain ⟨hid,hrest⟩ := h
          replace hid : x.entry.id.toNat = items.length+1 := hid
          refine List.forall_mem_cons.mpr ⟨by omega,fun it hit => ?_⟩
          have hlater := ih hrest it hit
          rw [LogRecord.apply,List.length_append] at hlater
          omega
      | patch id o =>
          intro it hit
          have hlater := ih h.2 it hit
          rwa [LogRecord.apply,setOutcomeAt_length] at hlater

theorem patched_nil : patched [] = id := funext fun _ => rfl

theorem patched_entry (x : Item) (rest : List LogRecord) :
    patched (.entry x::rest) = patched rest := rfl

theorem patched_patch_self {id : UInt64} {o : Outcome} {it : Item} (rest : List LogRecord)
    (h : id = it.entry.id) : patched (.patch id o::rest) it = patched rest (it.withOutcome o) := by
  have hone : LogRecord.patchOf it.entry.id (.patch id o) = some o := if_pos h
  rw [patched,patched,List.filterMap_cons_some hone,List.getLast?_cons,Option.getD_some]
  rfl

theorem patched_patch_other {id : UInt64} {o : Outcome} {it : Item} (rest : List LogRecord)
    (h : id ≠ it.entry.id) : patched (.patch id o::rest) it = patched rest it := by
  have hnone : LogRecord.patchOf it.entry.id (.patch id o) = none := if_neg h
  rw [patched,patched,List.filterMap_cons_none hnone]

/-- A patch of one entry, told by its id. -/
theorem map_patched_patch (hids : IdsMatch items) {id : UInt64} (hid : id ≠ 0) (o : Outcome)
    (rest : List LogRecord) : items.map (patched (.patch id o::rest)) =
      (setOutcomeAt (id.toNat-1) o items).map (patched rest) := by
  refine List.ext_getElem? fun i => ?_
  rw [List.getElem?_map,List.getElem?_map,getElem?_setOutcomeAt]
  have hpos : id.toNat ≠ 0 := fun h => hid (UInt64.toNat_inj.mp h)
  cases hi : items[i]? with
  | none => split <;> rfl
  | some it =>
      have hat := hids i it hi
      split
      · rename_i hsame
        have heq : id = it.entry.id := UInt64.toNat_inj.mp (by omega)
        exact congrArg some (patched_patch_self rest heq)
      · rename_i hother
        have hne : id ≠ it.entry.id := fun h => hother (by rw [h]; omega)
        exact congrArg some (patched_patch_other rest hne)

/-- The records behind some entries leave those with the outcomes of their last patches, and
their own entries likewise. -/
theorem foldl_apply (hids : IdsMatch items) (h : Lawful items records) :
    records.foldl LogRecord.apply items =
      items.map (patched records)++(records.filterMap LogRecord.entryOf).map (patched records) := by
  induction records generalizing items with
  | nil => rw [patched_nil,List.map_id,List.filterMap_nil,List.map_nil,List.append_nil]; rfl
  | cons r rest ih =>
      rw [List.foldl_cons]
      cases r with
      | entry it =>
          have hnext : IdsMatch (items++[it]) := hids.append h.1
          rw [LogRecord.apply,ih hnext h.2,patched_entry,List.map_append]
          simp [LogRecord.entryOf]
      | patch id o =>
          have hnext := hids.setOutcomeAt (id.toNat-1) o
          obtain ⟨⟨hid,x,hx,-⟩,hrest⟩ := h
          have hlater := Lawful.later hrest
          rw [LogRecord.apply,ih hnext hrest,map_patched_patch hids hid o rest]
          refine congrArg _ (List.map_congr_left fun it hit => ?_)
          refine (patched_patch_other rest fun heq => ?_).symm
          have hlt := hlater it hit
          obtain ⟨hlen,-⟩ := List.getElem?_eq_some_iff.mp hx
          rw [LogRecord.apply,setOutcomeAt_length,← heq] at hlt
          omega

theorem foldl_recovered (h : Lawful [] records) :
    records.foldl LogRecord.apply [] = recovered records :=
  foldl_apply (by simp [IdsMatch]) h

/-- What recovery makes of a log of legal records, without a marker or with its own. -/
theorem recover_legal (h : Legal [] records) {d : Disk} {header : Bytes}
    (hheader : header.length = ledgerHeaderSize)
    (hsize : (header++encodeLog records).length ≤ fileMax)
    (hoff : readOff d = none ∨
      readOff d = some ((recovered records).length,(header++encodeLog records).length)) :
    ∃ d', recover d (header++encodeLog records) =
        (d',.ok ⟨recovered records,(header++encodeLog records).length⟩) ∧
      d'.log = some (header++encodeLog records) := by
  have hreads := reads_legal h
  rw [foldl_recovered h.lawful] at hreads
  have hdrop : (header++encodeLog records).drop ledgerHeaderSize = encodeLog records :=
    List.drop_left' hheader
  rcases hoff with hoff | hoff
  · have hscan : scanLog ((header++encodeLog records).drop ledgerHeaderSize) =
        (recovered records,[]) := by
      rw [hdrop]
      exact scanLog_eq.mpr hreads
    have hrecover := recover_healed hsize hoff hscan
    simp only [List.length_nil,Nat.sub_zero,List.take_length] at hrecover
    exact ⟨_,hrecover,rfl⟩
  · have hdec : Decodes ((header++encodeLog records).take (header++encodeLog records).length)
        (recovered records) := by
      rw [List.take_length,Decodes,hdrop]
      exact hreads
    have hlow : ledgerHeaderSize ≤ (header++encodeLog records).length := by
      rw [List.length_append,hheader]
      exact Nat.le_add_right _ _
    exact ⟨_,recover_fenced hsize hoff hlow le_rfl hdec rfl,by rw [List.take_length]⟩

end Log

/-! ## Bodies that are accepted -/

/-- A length-prefixed string with all its bytes. -/
def rawString : Reader Bytes := do
  let len ← Reader.u32
  Reader.bytes len.toNat

/-- The strings of an entry body as they stand there: source, author and the three URIs. -/
def bodyStrings : Reader (List Bytes) := do
  let _ ← Reader.u64
  let source ← rawString
  let author ← rawString
  let _ ← Reader.bytes 21
  let len ← Reader.u32
  let _ ← Reader.bytes (if len = payloadReleasedWire then 0 else len.toNat)
  let root ← rawString
  let parent ← rawString
  let quote ← rawString
  return [source,author,root,parent,quote]

section Accepted
variable {α β : Type} {bs rest : Bytes}

theorem bind_taken {r : Reader α} {k : α → Reader β} {w : β}
    (h : (r >>= k) bs = some (w,rest)) :
    ∃ v mid, r bs = some (v,mid) ∧ k v mid = some (w,rest) := by
  change (r bs).bind (fun p => k p.1 p.2) = some (w,rest) at h
  obtain ⟨⟨v,mid⟩,hr,hk⟩ := Option.bind_eq_some_iff.mp h
  exact ⟨v,mid,hr,hk⟩

theorem bytes_taken {n : ℕ} {v : Bytes} (h : Reader.bytes n bs = some (v,rest)) :
    v.length = n ∧ bs = v++rest := by
  unfold Reader.bytes at h
  split at h
  · cases h
  · cases h
    exact ⟨by rw [List.length_take]; omega,(List.take_append_drop n bs).symm⟩

theorem u32_taken {v : UInt32} (h : Reader.u32 bs = some (v,rest)) : bs = storeU32 v++rest := by
  obtain ⟨raw,mid,hraw,hv⟩ := bind_taken h
  obtain ⟨hlen,rfl⟩ := bytes_taken hraw
  cases hv
  rw [storeU32_load hlen.ge,List.take_of_length_le hlen.le]

theorem storeU64_load {raw : Bytes} (h : raw.length = 8) : storeU64 (loadU64 raw) = raw := by
  have hlt : ofLE raw < 2^64 := by
    have hbound := ofLE_lt raw
    rw [h] at hbound
    omega
  have hle := toLE_ofLE raw
  rw [storeU64,loadU64,List.take_of_length_le h.le,UInt64.toNat_ofNat',Nat.mod_eq_of_lt hlt]
  rwa [h] at hle

theorem u64_taken {v : UInt64} (h : Reader.u64 bs = some (v,rest)) : bs = storeU64 v++rest := by
  obtain ⟨raw,mid,hraw,hv⟩ := bind_taken h
  obtain ⟨hlen,rfl⟩ := bytes_taken hraw
  cases hv
  rw [storeU64_load hlen]

/-- A string is taken with all its bytes and kept up to its first NUL. -/
theorem readString_taken {cap : ℕ} {s : CText cap} (h : readString cap bs = some (s,rest)) :
    ∃ raw : Bytes, raw.length < 2^32 ∧ bs = storeString raw++rest ∧
      ((0 : UInt8) ∉ raw → s.bytes = raw) := by
  obtain ⟨len,mid,hlen,hs⟩ := bind_taken h
  obtain rfl := u32_taken hlen
  split at hs
  · beta_reduce at hs
    split at hs
    · cases hs
    · rename_i hroom
      cases hs
      have hraw : (mid.take len.toNat).length = len.toNat := by
        rw [List.length_take]
        omega
      refine ⟨mid.take len.toNat,by rw [hraw]; exact len.toNat_lt,?_,fun hnul => ?_⟩
      · rw [storeString,hraw,UInt32.ofNat_toNat,List.append_assoc,List.take_append_drop]
      · exact congrArg CString.bytes (CString.ofRaw_bytes ⟨_,hnul⟩)
  · cases hs

theorem readSource_taken {s : CText sourceBytes} (h : readSource bs = some (s,rest)) :
    ∃ raw : Bytes, raw.length < 2^32 ∧ bs = storeString raw++rest ∧
      ((0 : UInt8) ∉ raw → s.bytes = raw) := by
  unfold readSource at h
  split at h
  · cases h
  · exact readString_taken h

theorem readOutcome_taken {o : Outcome} (h : readOutcome bs = some (o,rest)) :
    bs = [o.toByte]++rest := by
  obtain ⟨b,mid,hb,ho⟩ := bind_taken h
  obtain ⟨x,hx,heq⟩ := Option.map_eq_some_iff.mp ho
  obtain ⟨rfl,rfl⟩ := Prod.mk.inj heq
  rw [← Outcome.ofByte?_eq hx]
  cases bs with
  | nil => cases hb
  | cons c tail =>
      cases hb
      rfl

theorem readPayload_taken {p : Payload} (h : readPayload bs = some (p,rest)) :
    bs = p.wire++rest := by
  obtain ⟨len,mid,hlen,hp⟩ := bind_taken h
  obtain rfl := u32_taken hlen
  split at hp
  · rename_i hreleased
    cases hp
    rw [hreleased]
    rfl
  · split at hp
    · beta_reduce at hp
      split at hp
      · cases hp
      · cases hp
        have hraw : (mid.take len.toNat).length = len.toNat := by
          rw [List.length_take]
          omega
        rw [Payload.wire,storeString,hraw,UInt32.ofNat_toNat,List.append_assoc,
          List.take_append_drop]
    · cases hp

/-- An entry body with strings of its own. -/
def bodyWith (it : Item) (source author root parent quote : Bytes) : Bytes :=
  storeU64 it.entry.id++
  (storeString source++
  (storeString author++
  (storeU64 it.entry.observedAt++
  (storeU64 it.entry.contentDigest++
  (storeU32 it.entry.schemaVersion++
  ([it.entry.outcome.toByte]++
  (it.payload.wire++
  (storeString root++
  (storeString parent++
  storeString quote)))))))))

theorem entryReader_taken {it : Item} (h : entryReader bs = some (it,[])) :
    ∃ source author root parent quote : Bytes,
      (∀ raw ∈ [source,author,root,parent,quote], raw.length < 2^32) ∧
      bs = bodyWith it source author root parent quote ∧
      ((∀ raw ∈ [source,author,root,parent,quote], (0 : UInt8) ∉ raw) →
        bodyWith it source author root parent quote = serializeEntry it) := by
  obtain ⟨id,bs₁,hid,h⟩ := bind_taken h
  obtain ⟨sourceId,bs₂,hsource,h⟩ := bind_taken h
  obtain ⟨authorDid,bs₃,hauthor,h⟩ := bind_taken h
  obtain ⟨observedAt,bs₄,hobserved,h⟩ := bind_taken h
  obtain ⟨digest,bs₅,hdigest,h⟩ := bind_taken h
  obtain ⟨schema,bs₆,hschema,h⟩ := bind_taken h
  obtain ⟨outcome,bs₇,houtcome,h⟩ := bind_taken h
  obtain ⟨payload,bs₈,hpayload,h⟩ := bind_taken h
  obtain ⟨rootUri,bs₉,hroot,h⟩ := bind_taken h
  obtain ⟨parentUri,bs₁₀,hparent,h⟩ := bind_taken h
  obtain ⟨quoteUri,bs₁₁,hquote,h⟩ := bind_taken h
  cases h
  obtain ⟨source,hsourceLen,rfl,hsourceRaw⟩ := readSource_taken hsource
  obtain ⟨author,hauthorLen,rfl,hauthorRaw⟩ := readString_taken hauthor
  obtain rfl := u64_taken hobserved
  obtain rfl := u64_taken hdigest
  obtain rfl := u32_taken hschema
  obtain rfl := readOutcome_taken houtcome
  obtain rfl := readPayload_taken hpayload
  obtain ⟨root,hrootLen,rfl,hrootRaw⟩ := readString_taken hroot
  obtain ⟨parent,hparentLen,rfl,hparentRaw⟩ := readString_taken hparent
  obtain ⟨quote,hquoteLen,rfl,hquoteRaw⟩ := readString_taken hquote
  refine ⟨source,author,root,parent,quote,?_,?_,fun hnul => ?_⟩
  · simp only [List.mem_cons,List.not_mem_nil,or_false]
    rintro raw (rfl | rfl | rfl | rfl | rfl) <;> assumption
  · rw [u64_taken hid,List.append_nil]
    rfl
  · rw [← hsourceRaw (hnul _ (by simp)),← hauthorRaw (hnul _ (by simp)),
      ← hrootRaw (hnul _ (by simp)),← hparentRaw (hnul _ (by simp)),
      ← hquoteRaw (hnul _ (by simp))]
    rfl

theorem rawString_decodes {raw : Bytes} (h : raw.length < 2^32) :
    Reader.Decodes rawString (storeString raw) raw := by
  have hlen : (UInt32.ofNat raw.length).toNat = raw.length := by
    rw [UInt32.toNat_ofNat',Nat.mod_eq_of_lt h]
  refine (Reader.decodes_u32 _).bind ?_
  rw [hlen]
  exact Reader.decodes_bytes raw

/-- The length word of a payload. -/
def lengthWord (p : Payload) : UInt32 :=
  match p with
  | .text t => UInt32.ofNat t.bytes.length
  | .released => payloadReleasedWire

theorem wire_eq (p : Payload) : p.wire = storeU32 (lengthWord p)++p.retained := by
  cases p with
  | text t => rfl
  | released => exact (List.append_nil _).symm

theorem lengthWord_reads (p : Payload) :
    (if lengthWord p = payloadReleasedWire then 0 else (lengthWord p).toNat) =
      p.retained.length := by
  cases p with
  | released => rfl
  | text t =>
      have hb : t.bytes.length ≤ 65536 := t.bounded
      have hlen : (lengthWord (.text t)).toNat = t.bytes.length := by
        rw [lengthWord,UInt32.toNat_ofNat',Nat.mod_eq_of_lt (by omega)]
      have hne : lengthWord (.text t) ≠ payloadReleasedWire := by
        intro h
        rw [h] at hlen
        have hw : payloadReleasedWire.toNat = 4294967295 := rfl
        omega
      rw [if_neg hne,hlen]
      rfl

theorem bodyStrings_with {it : Item} {source author root parent quote : Bytes}
    (h : ∀ raw ∈ [source,author,root,parent,quote], raw.length < 2^32) :
    bodyStrings.whole (bodyWith it source author root parent quote) =
      some [source,author,root,parent,quote] := by
  let fixed := storeU64 it.entry.observedAt++(storeU64 it.entry.contentDigest++
    (storeU32 it.entry.schemaVersion++[it.entry.outcome.toByte]))
  have hfixed : fixed.length = 21 := by simp [fixed]
  have hshape : bodyWith it source author root parent quote = storeU64 it.entry.id++
      (storeString source++(storeString author++(fixed++(storeU32 (lengthWord it.payload)++
        (it.payload.retained++(storeString root++(storeString parent++storeString quote))))))) := by
    rw [bodyWith,wire_eq]
    simp only [fixed,List.append_assoc]
  have hskip : Reader.Decodes (Reader.bytes 21) fixed fixed := hfixed ▸ Reader.decodes_bytes fixed
  have hpayload := Reader.decodes_bytes it.payload.retained
  rw [← lengthWord_reads] at hpayload
  rw [hshape]
  refine Reader.Decodes.whole ((Reader.decodes_u64 _).bind ((rawString_decodes (h _ ?_)).bind
    ((rawString_decodes (h _ ?_)).bind (hskip.bind ((Reader.decodes_u32 _).bind (hpayload.bind
    ((rawString_decodes (h _ ?_)).bind ((rawString_decodes (h _ ?_)).bind
    ((rawString_decodes (h _ ?_)).last rfl)))))))))
  all_goals simp

/-- An accepted body without a NUL in its strings is the encoding of its entry. -/
theorem serializeEntry_parse {body : Bytes} {it : Item} (h : parseEntry body = some it)
    (hnul : ∀ strings, bodyStrings.whole body = some strings → ∀ raw ∈ strings, (0 : UInt8) ∉ raw) :
    serializeEntry it = body := by
  unfold parseEntry at h
  split at h
  · cases h
  · unfold Reader.whole at h
    split at h
    · rename_i v htaken
      obtain rfl := Option.some.inj h
      obtain ⟨source,author,root,parent,quote,hlen,rfl,hraw⟩ := entryReader_taken htaken
      exact (hraw (hnul _ (bodyStrings_with hlen))).symm
    · cases h

end Accepted

/-- A log of records that each continue the ones before it: every record has room in the
buffer, recovery takes them one by one and ends at the entries with the outcomes of their
last patches. And an accepted body with no NUL in its strings is the encoding of its entry. -/
theorem log_round_trip :
    (∀ records, Legal [] records →
      (∀ r ∈ records, (buildRecord r.frame).length ≤ ledgerRecordMax) ∧
      (∀ before r after, records = before++r::after →
        framing.next (encodeLog (r::after)) = some (r.frame,encodeLog after) ∧
          applyRecord (recovered before) r.frame = some (recovered (before++[r]))) ∧
      scanLog (encodeLog records) = (recovered records,[]) ∧
      ∀ d header, header.length = ledgerHeaderSize →
        (header++encodeLog records).length ≤ fileMax →
        (readOff d = none ∨
          readOff d = some ((recovered records).length,(header++encodeLog records).length)) →
        ∃ d', recover d (header++encodeLog records) =
            (d',.ok ⟨recovered records,(header++encodeLog records).length⟩) ∧
          d'.log = some (header++encodeLog records)) ∧
    ∀ body it, parseEntry body = some it →
      (∀ strings, bodyStrings.whole body = some strings → ∀ raw ∈ strings, (0 : UInt8) ∉ raw) →
      serializeEntry it = body := by
  refine ⟨fun records h => ⟨fun r _ => buildRecord_le r,fun before r after hsplit => ?_,?_,
    fun d header hheader hsize hoff => recover_legal h hheader hsize hoff⟩,
    fun body it hparse hnul => serializeEntry_parse hparse hnul⟩
  · subst hsplit
    obtain ⟨hbefore,hr,-⟩ := legal_append.mp h
    have hnext : Legal [] (before++[r]) := legal_append.mpr ⟨hbefore,hr,trivial⟩
    have happly := applyRecord_continues hr
    rw [foldl_recovered hbefore.lawful] at happly
    refine ⟨?_,?_⟩
    · rw [encodeLog_cons]
      exact Framing.next_encode (frame_fits r) _
    · rw [happly,← foldl_recovered hnext.lawful,List.foldl_append,foldl_recovered hbefore.lawful]
      rfl
  · rw [scanLog_eq,← foldl_recovered h.lawful]
    exact reads_legal h

namespace Sample

def kept : Item where
  entry := ⟨1,0,0,2,.pending,CText.truncate (CString.ofRaw [115]),emptyText⟩
  payload := .text ⟨[0,97],by decide⟩
  context := .empty

def released : Item where
  entry := ⟨2,0,0,2,.skipped,CText.truncate (CString.ofRaw [116]),emptyText⟩
  payload := .released
  context := ⟨CText.truncate (CString.ofRaw [117]),emptyText,emptyText⟩

/-- An entry that is learned later, and behind it one whose text was released. -/
def written : List LogRecord :=
  [.entry kept,.patch 1 .failed,.entry released,.patch 1 .learned]

theorem log_round_trip_written :
    scanLog (encodeLog written) = ([kept.withOutcome .learned,released],[]) := by
  have hlegal : Legal [] written :=
    ⟨⟨by decide,rfl,by decide⟩,⟨by decide,kept,rfl,by decide⟩,⟨by decide,rfl,by decide⟩,
      ⟨by decide,kept.withOutcome .failed,rfl,by decide⟩,trivial⟩
  exact (log_round_trip.1 written hlegal).2.2.1

end Sample

end Atperson.Ledger
