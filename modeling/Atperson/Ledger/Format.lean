import Atperson.Wire.Cursor
import Atperson.Wire.FramedLog
import Atperson.Ledger.Types

/-!
# Ledger record wire format

Encoding and decoding of entry and patch bodies, the record framing, the file
headers and the commit marker. Everything here is pure: no file and no ledger
state beyond the values handed in.
-/
namespace Atperson.Ledger
open Wire

/-! ## Records -/

def recordEntry : UInt8 := 1
def recordPatch : UInt8 := 2

def ledgerPayloadMax : ℕ := 1024
def ledgerContextMax : ℕ := 3*(4+contextUriBytes)
def ledgerBodyMax : ℕ := ledgerPayloadMax+ledgerContextMax+payloadLimit

/-- FNV-1a folded to its low 32 bits. -/
def ledgerChecksum (data : Bytes) : UInt32 :=
  let hash := fnv1a64 data
  (hash^^^(hash>>>32)).toUInt32

def ledgerDigest (data : Bytes) : UInt64 := fnv1a64 data

def framing : Framing where
  bodyMax := ledgerBodyMax
  bodyMax_lt := by decide
  checksum := ledgerChecksum

/-- `ATP_LEDGER_PAYLOAD_RELEASED_WIRE`. -/
def payloadReleasedWire : UInt32 := 4294967295

def storeString (value : Bytes) : Bytes := storeU32 (UInt32.ofNat value.length)++value

def Payload.wire : Payload → Bytes
  | .text t => storeString t.bytes
  | .released => storeU32 payloadReleasedWire

def serializeEntry (it : Item) : Bytes :=
  storeU64 it.entry.id++
  (storeString it.entry.sourceId.bytes++
  (storeString it.entry.authorDid.bytes++
  (storeU64 it.entry.observedAt++
  (storeU64 it.entry.contentDigest++
  (storeU32 it.entry.schemaVersion++
  ([it.entry.outcome.toByte]++
  (it.payload.wire++
  (storeString it.context.replyRootUri.bytes++
  (storeString it.context.replyParentUri.bytes++
  storeString it.context.quoteUri.bytes)))))))))

/-- A length-prefixed string for a terminated array of `cap` bytes. -/
def readString (cap : ℕ) : Reader (CText cap) := do
  let len ← Reader.u32
  if h : len.toNat < cap then
    fun bs =>
      if bs.length < len.toNat then none
      else some (CText.ofRaw (bs.take len.toNat)
        ((List.length_take_le _ _).trans_lt h),bs.drop len.toNat)
  else fun _ => none

def readOutcome : Reader Outcome := do
  let b ← Reader.u8
  fun bs => (Outcome.ofByte? b).map (·,bs)

def readPayload : Reader Payload := do
  let len ← Reader.u32
  if len = payloadReleasedWire then return .released
  else if h : len.toNat ≤ payloadLimit then
    fun bs =>
      if bs.length < len.toNat then none
      else some (.text ⟨bs.take len.toNat,(List.length_take_le _ _).trans h⟩,
        bs.drop len.toNat)
  else fun _ => none

/-- The source length is refused at zero before its bytes are looked at. -/
def readSource : Reader (CText sourceBytes) := fun bs =>
  if loadU32 bs = 0 then none else readString sourceBytes bs

def entryReader : Reader Item := do
  let id ← Reader.u64
  let sourceId ← readSource
  let authorDid ← readString authorBytes
  let observedAt ← Reader.u64
  let contentDigest ← Reader.u64
  let schemaVersion ← Reader.u32
  let outcome ← readOutcome
  let payload ← readPayload
  let replyRootUri ← readString contextUriBytes
  let replyParentUri ← readString contextUriBytes
  let quoteUri ← readString contextUriBytes
  return {
    entry := {id,observedAt,contentDigest,schemaVersion,outcome,sourceId,authorDid}
    payload
    context := {replyRootUri,replyParentUri,quoteUri} }

def parseEntry (body : Bytes) : Option Item :=
  if body.length < 42 then none else entryReader.whole body

def serializePatch (id : UInt64) (o : Outcome) : Bytes := storeU64 id++[o.toByte]

/-- The outcome byte comes back raw: its range is checked by the caller. -/
def parsePatch (body : Bytes) : Option (UInt64×UInt8) :=
  if body.length ≠ 9 then none else some (loadU64 body,(body.drop 8).headD 0)

def entryFrame (it : Item) : Frame := ⟨recordEntry,serializeEntry it⟩
def patchFrame (id : UInt64) (o : Outcome) : Frame := ⟨recordPatch,serializePatch id o⟩

/-- `atp_build_record`. -/
def buildRecord (f : Frame) : Bytes := framing.encode f

/-! ## Round trips -/

theorem storeString_length (value : Bytes) : (storeString value).length = 4+value.length := by
  simp [storeString]

theorem serializeEntry_length (it : Item) :
    (serializeEntry it).length = 53+it.entry.sourceId.bytes.length+
      it.entry.authorDid.bytes.length+it.payload.retained.length+
      it.context.replyRootUri.bytes.length+it.context.replyParentUri.bytes.length+
      it.context.quoteUri.bytes.length := by
  have hp : it.payload.wire.length = 4+it.payload.retained.length := by
    cases it.payload with
    | text t => exact storeString_length t.bytes
    | released => rfl
  simp only [serializeEntry,List.length_append,storeU64_length,storeU32_length,
    storeString_length,hp,List.length_singleton]
  omega

theorem readString_decodes {cap : ℕ} (hcap : cap ≤ 2^32) (s : CText cap) :
    Reader.Decodes (readString cap) (storeString s.bytes) s := by
  have hlen : (UInt32.ofNat s.bytes.length).toNat = s.bytes.length := by
    have := s.fits
    rw [UInt32.toNat_ofNat',Nat.mod_eq_of_lt (by omega)]
  refine (Reader.decodes_u32 _).bind ?_
  rw [dif_pos (by rw [hlen]; exact s.fits)]
  intro rest
  simp only [hlen,List.length_append,List.take_left,List.drop_left]
  rw [if_neg (by omega)]
  exact congrArg (fun t => some (t,rest)) (CText.ofRaw_bytes s)

theorem readSource_decodes (s : CText sourceBytes) (hs : s.bytes ≠ []) :
    Reader.Decodes readSource (storeString s.bytes) s := by
  intro rest
  have hne : loadU32 (storeString s.bytes++rest) ≠ 0 := by
    rw [storeString,List.append_assoc,loadU32_store]
    intro h
    have hlen := congrArg UInt32.toNat h
    have hfit : s.bytes.length < 256 := s.fits
    rw [UInt32.toNat_ofNat',Nat.mod_eq_of_lt (by omega)] at hlen
    exact hs (List.length_eq_zero_iff.mp hlen)
  rw [readSource,if_neg hne]
  exact readString_decodes (by decide) s rest

theorem readOutcome_decodes (o : Outcome) : Reader.Decodes readOutcome [o.toByte] o := by
  refine (Reader.decodes_u8 _).last ?_
  rw [Outcome.ofByte?_toByte]
  rfl

theorem readPayload_decodes (p : Payload) : Reader.Decodes readPayload p.wire p := by
  cases p with
  | released => exact (Reader.decodes_u32 _).last (by rw [if_pos rfl])
  | text t =>
      have hb : t.bytes.length ≤ 65536 := t.bounded
      have hlen : (UInt32.ofNat t.bytes.length).toNat = t.bytes.length := by
        rw [UInt32.toNat_ofNat',Nat.mod_eq_of_lt (by omega)]
      have hne : UInt32.ofNat t.bytes.length ≠ payloadReleasedWire := by
        intro h
        have := congrArg UInt32.toNat h
        rw [hlen] at this
        have hw : payloadReleasedWire.toNat = 4294967295 := rfl
        omega
      refine (Reader.decodes_u32 _).bind ?_
      rw [if_neg hne,dif_pos (by rw [hlen]; exact t.bounded)]
      intro rest
      simp only [hlen,List.length_append,List.take_left,List.drop_left]
      rw [if_neg (by omega)]

theorem entryReader_decodes (it : Item) (hs : it.entry.sourceId.bytes ≠ []) :
    Reader.Decodes entryReader (serializeEntry it) it := by
  have hc : (256 : ℕ) ≤ 2^32 := by decide
  refine (Reader.decodes_u64 _).bind ((readSource_decodes _ hs).bind
    ((readString_decodes hc _).bind ((Reader.decodes_u64 _).bind ((Reader.decodes_u64 _).bind
    ((Reader.decodes_u32 _).bind ((readOutcome_decodes _).bind ((readPayload_decodes _).bind
    ((readString_decodes hc _).bind ((readString_decodes hc _).bind
    ((readString_decodes hc _).last ?_))))))))))
  rfl

/-- Every entry with a source id reads back whole. -/
theorem parseEntry_serialize (it : Item) (hs : it.entry.sourceId.bytes ≠ []) :
    parseEntry (serializeEntry it) = some it := by
  have hlen := serializeEntry_length it
  rw [parseEntry,if_neg (by omega)]
  exact (entryReader_decodes it hs).whole

theorem parsePatch_serialize (id : UInt64) (o : Outcome) :
    parsePatch (serializePatch id o) = some (id,o.toByte) := by
  have hlen : (serializePatch id o).length = 9 := by simp [serializePatch]
  rw [parsePatch,if_neg (by simp [hlen]),serializePatch,loadU64_store,
    List.drop_left' (storeU64_length id)]
  rfl

theorem entryFrame_fits (it : Item) : framing.Fits (entryFrame it) := by
  have hlen := serializeEntry_length it
  have hs : it.entry.sourceId.bytes.length < 256 := it.entry.sourceId.fits
  have ha : it.entry.authorDid.bytes.length < 256 := it.entry.authorDid.fits
  have h1 : it.context.replyRootUri.bytes.length < 256 := it.context.replyRootUri.fits
  have h2 : it.context.replyParentUri.bytes.length < 256 := it.context.replyParentUri.fits
  have h3 : it.context.quoteUri.bytes.length < 256 := it.context.quoteUri.fits
  have hp : it.payload.retained.length ≤ 65536 := by
    cases it.payload with
    | text t => exact t.bounded
    | released => simp [Payload.retained]
  have hmax : framing.bodyMax = 67340 := rfl
  constructor
  · intro h
    have : (serializeEntry it).length = 0 := congrArg List.length h
    omega
  · show (serializeEntry it).length ≤ framing.bodyMax
    omega

theorem patchFrame_fits (id : UInt64) (o : Outcome) : framing.Fits (patchFrame id o) := by
  have hlen : (patchFrame id o).body.length = 9 := by simp [patchFrame,serializePatch]
  have hmax : framing.bodyMax = 67340 := rfl
  constructor
  · intro h
    simp [h] at hlen
  · omega

/-- Size of the record that holds one entry. -/
def recordSize (it : Item) : ℕ := (buildRecord (entryFrame it)).length

theorem recordSize_eq (it : Item) : recordSize it = 9+(serializeEntry it).length :=
  framing.encode_length _

/-! ## Headers and the commit marker -/

/-- `ATPLDG`, shared by every log header. -/
def fileMagicPrefix : Bytes := [65,84,80,76,68,71,48]
def offMagic : Bytes := [65,84,80,76,79,70,48,51]

def ledgerVersion : UInt32 := 3
def releasedVersion : UInt32 := 4
def ledgerHeaderSize : ℕ := 12
def offHeaderSize : ℕ := 28

def currentHeader : Bytes := fileMagicPrefix++(51::storeU32 ledgerVersion)
def releasedHeader : Bytes := fileMagicPrefix++(52::storeU32 releasedVersion)

@[simp] theorem currentHeader_length : currentHeader.length = 12 := rfl
@[simp] theorem releasedHeader_length : releasedHeader.length = 12 := rfl

def offHeader (count offset : ℕ) : Bytes :=
  offMagic++(storeU32 ledgerVersion++(storeU64 (UInt64.ofNat count)++
    storeU64 (UInt64.ofNat offset)))

/-- What `atp_read_off` makes of a marker file: the count and the offset of a
marker that is long enough, carries the magic and has the version. -/
def parseOff (file : Bytes) : Option (ℕ×ℕ) :=
  if file.length < offHeaderSize then none
  else if file.take 8 ≠ offMagic then none
  else if loadU32 (file.drop 8) ≠ ledgerVersion then none
  else some ((loadU64 (file.drop 12)).toNat,(loadU64 (file.drop 20)).toNat)

theorem parseOff_offHeader {count offset : ℕ} (hc : count < 2^64) (ho : offset < 2^64) :
    parseOff (offHeader count offset) = some (count,offset) := by
  have hm : offMagic.length = 8 := rfl
  have h12 : (offHeader count offset).drop 12 =
      storeU64 (UInt64.ofNat count)++storeU64 (UInt64.ofNat offset) := by
    rw [offHeader,← List.append_assoc]
    exact List.drop_left' (by simp [hm])
  have h20 : (offHeader count offset).drop 20 = storeU64 (UInt64.ofNat offset) := by
    rw [offHeader,← List.append_assoc,← List.append_assoc]
    exact List.drop_left' (by simp [hm])
  have hlen : (offHeader count offset).length = 28 := by simp [offHeader,hm]
  rw [parseOff,if_neg (by rw [hlen]; decide),if_neg (by rw [offHeader,List.take_left' hm]; simp),
    h12,h20,loadU64_store,loadU64_store_nil,offHeader,List.drop_left' hm,loadU32_store,
    if_neg (by simp),UInt64.toNat_ofNat',UInt64.toNat_ofNat',Nat.mod_eq_of_lt hc,
    Nat.mod_eq_of_lt ho]

end Atperson.Ledger
