import Atperson.Journal.Mac
import Atperson.Protocol.Grammar
import Atperson.Wire.Instant

/-!
# What a MAC is bound to

The signed text joins DID, record key, hash and time by colons, which DIDs, keys and times may
have themselves. Hash and time are read back from its end. DID and key are not: a piece between
two colons may stand at the end of the one or at the start of the other.
-/
namespace Atperson.Journal
open Wire Protocol
open Sync (isDid)

/-! ## The words of a signed text -/

def isHexSign (c : UInt8) : Bool := (48 ≤ c && c ≤ 57) || (97 ≤ c && c ≤ 102)

/-- The form of a hash in hexadecimal digits. -/
def HashText (w : Bytes) : Prop := w.length = 64 ∧ ∀ c ∈ w, isHexSign c = true

theorem hexSigns_hex (b : UInt8) :
    isHexSign (hexSign (b >>> 4)) = true ∧ isHexSign (hexSign (b &&& 15)) = true := by
  revert b
  decide +kernel

theorem length_hexText (bytes : Bytes) : (hexText bytes).length = 2*bytes.length := by
  induction bytes with
  | nil => rfl
  | cons b bytes ih =>
      rw [List.length_cons,Nat.mul_succ,← ih]
      rfl

theorem length_final (s : Sha256) : s.final.length = 32 := rfl

theorem sha256Hex_hash (data : Bytes) : HashText (sha256Hex data) := by
  refine ⟨?_,fun c hc => ?_⟩
  · rw [sha256Hex,length_hexText,length_final]
  · rw [sha256Hex,hexText,List.mem_flatMap] at hc
    obtain ⟨b,-,hc⟩ := hc
    rcases List.mem_pair.mp hc with rfl | rfl
    · exact (hexSigns_hex b).1
    · exact (hexSigns_hex b).2

theorem HashText.free {w : Bytes} (h : HashText w) : (58 : UInt8) ∉ w := by
  intro hmem
  have hbyte := h.2 _ hmem
  exact absurd hbyte (by decide)

theorem HashText.signless {w : Bytes} (h : HashText w) : (43 : UInt8) ∉ w ∧ (45 : UInt8) ∉ w := by
  refine ⟨fun hmem => ?_,fun hmem => ?_⟩
  · have hbyte := h.2 _ hmem
    exact absurd hbyte (by decide)
  · have hbyte := h.2 _ hmem
    exact absurd hbyte (by decide)

/-! ## The words of a time -/

theorem length_paddedDecimal (width n : ℕ) : (paddedDecimal width n).length = width := by
  induction width generalizing n with
  | zero => rfl
  | succ width ih => rw [paddedDecimal,List.length_append,ih,List.length_singleton]

theorem digits_free {width n : ℕ} {c : UInt8} (h : 57 < c) : c ∉ paddedDecimal width n := by
  intro hmem
  exact absurd (digit_of_mem_paddedDecimal hmem).2 (UInt8.not_le.mpr h)

/-- Between its colons a time has no piece that could be a hash. -/
theorem time_words {value : Bytes} {i : Instant} (h : Denotes value i) :
    ∃ words last, value = joined 58 words last ∧ (∀ w ∈ words, (58 : UInt8) ∉ w ∧ ¬HashText w) ∧
      (58 : UInt8) ∉ last := by
  obtain ⟨rest,rfl,fraction,zone,rfl,hfraction,hzone⟩ := h.spelled
  have hdigits : ∀ width n, (58 : UInt8) ∉ paddedDecimal width n := fun width n =>
    digits_free (by decide)
  have hfree : (58 : UInt8) ∉ fraction := by
    cases hfraction with
    | absent => exact List.not_mem_nil
    | digits _ hds =>
        intro hmem
        rcases List.mem_cons.mp hmem with hdot | hmem
        · exact absurd hdot (by decide)
        · exact absurd (hds _ hmem) (by decide)
  let date := paddedDecimal 4 i.year++45::(paddedDecimal 2 i.month++45::(paddedDecimal 2 i.day++84::
    paddedDecimal 2 i.hour))
  have hdate : (58 : UInt8) ∉ date ∧ ¬HashText date := by
    refine ⟨?_,fun hhash => hhash.signless.2 (List.mem_append_right _ List.mem_cons_self)⟩
    simp only [date,List.mem_append,List.mem_cons,not_or]
    exact ⟨hdigits _ _,by decide,hdigits _ _,by decide,hdigits _ _,by decide,hdigits _ _⟩
  have hminute : (58 : UInt8) ∉ paddedDecimal 2 i.minute ∧ ¬HashText (paddedDecimal 2 i.minute) := by
    refine ⟨hdigits _ _,fun hhash => ?_⟩
    have hlength := hhash.1
    rw [length_paddedDecimal] at hlength
    cases hlength
  have hsecond : (58 : UInt8) ∉ paddedDecimal 2 i.second++fraction :=
    fun hmem => (List.mem_append.mp hmem).elim (hdigits _ _) hfree
  -- a zone of hours and minutes has one colon more, and a sign before it
  have hsigned : ∀ sign hours, sign ≠ 58 → sign = 43 ∨ sign = 45 →
      (58 : UInt8) ∉ paddedDecimal 2 i.second++fraction++sign::paddedDecimal 2 hours ∧
        ¬HashText (paddedDecimal 2 i.second++fraction++sign::paddedDecimal 2 hours) := by
    intro sign hours hcolon hsign
    refine ⟨fun hmem => ?_,fun hhash => ?_⟩
    · rcases List.mem_append.mp hmem with hmem | hmem
      · exact hsecond hmem
      · exact (List.mem_cons.mp hmem).elim (fun heq => hcolon heq.symm) (hdigits _ _)
    · have hmem : sign ∈ paddedDecimal 2 i.second++fraction++sign::paddedDecimal 2 hours :=
        List.mem_append_right _ List.mem_cons_self
      rcases hsign with rfl | rfl
      · exact hhash.signless.1 hmem
      · exact hhash.signless.2 hmem
  have hparts : ∀ tail, i.stamp++tail =
      date++58::(paddedDecimal 2 i.minute++58::(paddedDecimal 2 i.second++tail)) := by
    intro tail
    simp only [Instant.stamp,date,List.append_assoc,List.cons_append]
  have hshort : ∀ zone, (58 : UInt8) ∉ zone → ∃ words last, i.stamp++(fraction++zone) =
      joined 58 words last ∧ (∀ w ∈ words, (58 : UInt8) ∉ w ∧ ¬HashText w) ∧ (58 : UInt8) ∉ last := by
    intro zone hzone
    refine ⟨[date,paddedDecimal 2 i.minute],paddedDecimal 2 i.second++(fraction++zone),hparts _,?_,?_⟩
    · exact List.forall_mem_cons.mpr ⟨hdate,List.forall_mem_singleton.mpr hminute⟩
    · rw [← List.append_assoc]
      exact fun hmem => (List.mem_append.mp hmem).elim hsecond hzone
  have hlong : ∀ sign hours minutes, sign ≠ 58 → sign = 43 ∨ sign = 45 →
      ∃ words last, i.stamp++(fraction++sign::(paddedDecimal 2 hours++58::paddedDecimal 2 minutes)) =
        joined 58 words last ∧ (∀ w ∈ words, (58 : UInt8) ∉ w ∧ ¬HashText w) ∧
        (58 : UInt8) ∉ last := by
    intro sign hours minutes hcolon hsign
    refine ⟨[date,paddedDecimal 2 i.minute,
      paddedDecimal 2 i.second++fraction++sign::paddedDecimal 2 hours],paddedDecimal 2 minutes,?_,?_,
      hdigits _ _⟩
    · rw [hparts]
      simp only [joined_cons,joined_nil,List.append_assoc,List.cons_append]
    · exact List.forall_mem_cons.mpr ⟨hdate,List.forall_mem_cons.mpr ⟨hminute,
        List.forall_mem_singleton.mpr (hsigned sign hours hcolon hsign)⟩⟩
  generalize i.offset = offset at hzone
  cases hzone with
  | absent => exact hshort _ List.not_mem_nil
  | utc => exact hshort _ (by decide)
  | lower => exact hshort _ (by decide)
  | east _ _ => exact hlong 43 _ _ (by decide) (.inl rfl)
  | west _ _ => exact hlong 45 _ _ (by decide) (.inr rfl)

/-! ## Reading a signed text back -/

theorem joined_append (d : UInt8) (words words' : List Bytes) (w last : Bytes) :
    joined d (words++w::words') last = joined d words w++d::joined d words' last := by
  induction words with
  | nil => rfl
  | cons v words ih =>
      rw [List.cons_append,joined_cons,ih,joined_cons,List.append_assoc]
      rfl

/-- The last place where something holds is one place. -/
theorem last_place {α : Type} {p : α → Prop} {before before' after after' : List α} {x x' : α}
    (hx : p x) (hx' : p x') (hafter : ∀ y ∈ after, ¬p y) (hafter' : ∀ y ∈ after', ¬p y)
    (h : before++x::after = before'++x'::after') : before = before' ∧ x = x' ∧ after = after' := by
  rcases List.append_eq_append_iff.mp h with ⟨middle,hbefore,htail⟩ | ⟨middle,hbefore,htail⟩
  · cases middle with
    | nil =>
        obtain ⟨rfl,rfl⟩ := List.cons.inj htail
        exact ⟨by rw [hbefore,List.append_nil],rfl,rfl⟩
    | cons y middle =>
        obtain ⟨-,rfl⟩ := List.cons.inj htail
        exact absurd hx' (hafter x' (List.mem_append_right _ List.mem_cons_self))
  · cases middle with
    | nil =>
        obtain ⟨rfl,rfl⟩ := List.cons.inj htail
        exact ⟨by rw [hbefore,List.append_nil],rfl,rfl⟩
    | cons y middle =>
        obtain ⟨-,rfl⟩ := List.cons.inj htail
        exact absurd hx (hafter' x (List.mem_append_right _ List.mem_cons_self))

/-- Hash and time stand at the end of a text without doubt. -/
theorem hash_time_inj {head head' hash hash' time time' : Bytes} {i i' : Instant}
    (hhash : HashText hash) (hhash' : HashText hash') (htime : Denotes time i)
    (htime' : Denotes time' i') (h : head++58::(hash++58::time) = head'++58::(hash'++58::time')) :
    head = head' ∧ hash = hash' ∧ time = time' := by
  obtain ⟨words,last,rfl,hwords,hlast⟩ := time_words htime
  obtain ⟨words',last',rfl,hwords',hlast'⟩ := time_words htime'
  obtain ⟨parts,part,rfl,hparts,hpart⟩ := exists_joined 58 head
  obtain ⟨parts',part',rfl,hparts',hpart'⟩ := exists_joined 58 head'
  rw [← joined_cons,← joined_append,← joined_cons,← joined_append] at h
  have hfree : ∀ {parts words : List Bytes} {part hash : Bytes}, (∀ w ∈ parts, (58 : UInt8) ∉ w) →
      (58 : UInt8) ∉ part → HashText hash → (∀ w ∈ words, (58 : UInt8) ∉ w ∧ ¬HashText w) →
      ∀ w ∈ parts++part::hash::words, (58 : UInt8) ∉ w := by
    intro parts words part hash hparts hpart hhash hwords w hw
    rcases List.mem_append.mp hw with hw | hw
    · exact hparts w hw
    · rcases List.mem_cons.mp hw with rfl | hw
      · exact hpart
      · rcases List.mem_cons.mp hw with rfl | hw
        · exact hhash.free
        · exact (hwords w hw).1
  obtain ⟨hall,rfl⟩ := joined_inj (hfree hparts hpart hhash hwords) hlast
    (hfree hparts' hpart' hhash' hwords') hlast' h
  rw [List.append_cons parts,List.append_cons parts'] at hall
  obtain ⟨hbefore,rfl,rfl⟩ := last_place hhash hhash' (fun w hw => (hwords w hw).2)
    (fun w hw => (hwords' w hw).2) hall
  obtain ⟨rfl,hlastPart⟩ := List.append_inj' hbefore rfl
  rw [List.singleton_inj.mp hlastPart]
  exact ⟨rfl,rfl,rfl⟩

/-! ## Records -/

structure SignedRecord.Valid (r : SignedRecord) : Prop where
  did : isDid r.repoDid = true
  rkey : isRecordKey r.rkey = true
  time : ∃ i, Denotes r.createdAt i

/-- No two of the texts and signed texts that occur have one hash. -/
structure CollisionFree (occurring : Set SignedRecord) : Prop where
  texts : ∀ r ∈ occurring, ∀ r' ∈ occurring, sha256Hex r.text = sha256Hex r'.text → r.text = r'.text
  signed : ∀ r ∈ occurring, ∀ r' ∈ occurring,
    sha256Hex (computeJournalMacCanonicalString r) =
      sha256Hex (computeJournalMacCanonicalString r') →
    computeJournalMacCanonicalString r = computeJournalMacCanonicalString r'

/-- The same text and time, and a piece of the one key ends the other DID. -/
def Shifted (r r' : SignedRecord) : Prop :=
  r.text = r'.text ∧ r.createdAt = r'.createdAt ∧
    ∃ piece, r'.repoDid = r.repoDid++58::piece ∧ r.rkey = piece++58::r'.rkey

theorem canonical_eq (r : SignedRecord) : computeJournalMacCanonicalString r =
    utf8 "atperson-journal-mac-v1:"++
      (r.repoDid++58::r.rkey++58::(sha256Hex r.text++58::r.createdAt)) := by
  simp only [computeJournalMacCanonicalString,List.append_assoc,List.nil_append,
    List.cons_append]

theorem Shifted.canonical {r r' : SignedRecord} (h : Shifted r r') :
    computeJournalMacCanonicalString r = computeJournalMacCanonicalString r' := by
  obtain ⟨htext,htime,piece,hdid,hkey⟩ := h
  rw [canonical_eq,canonical_eq,htext,htime,hdid,hkey]
  simp only [List.append_assoc,List.cons_append]

/-- Signed texts are equal only of one record, or of two with a piece shifted. -/
theorem canonical_cases {r r' : SignedRecord} (hr : r.Valid) (hr' : r'.Valid)
    (hfree : sha256Hex r.text = sha256Hex r'.text → r.text = r'.text)
    (h : computeJournalMacCanonicalString r = computeJournalMacCanonicalString r') :
    r = r' ∨ Shifted r r' ∨ Shifted r' r := by
  obtain ⟨i,htime⟩ := hr.time
  obtain ⟨i',htime'⟩ := hr'.time
  rw [canonical_eq,canonical_eq] at h
  obtain ⟨hhead,hhash,hcreated⟩ := hash_time_inj (sha256Hex_hash _) (sha256Hex_hash _) htime htime'
    (List.append_cancel_left h)
  have htext := hfree hhash
  rcases List.append_eq_append_iff.mp hhead with ⟨middle,hdid,htail⟩ | ⟨middle,hdid,htail⟩
  · cases middle with
    | nil =>
        left
        rw [List.append_nil] at hdid
        cases r
        cases r'
        simp_all
    | cons c piece =>
        obtain ⟨rfl,hkey⟩ := List.cons.inj htail
        exact .inr (.inl ⟨htext,hcreated,piece,hdid,hkey⟩)
  · cases middle with
    | nil =>
        left
        rw [List.append_nil] at hdid
        cases r
        cases r'
        simp_all
    | cons c piece =>
        obtain ⟨rfl,hkey⟩ := List.cons.inj htail
        exact .inr (.inr ⟨htext.symm,hcreated.symm,piece,hdid,hkey⟩)

/-! ## Making and checking a MAC -/

theorem sha256Hex_ne_nil (data : Bytes) : sha256Hex data ≠ [] := by
  intro hnil
  have hlength := (sha256Hex_hash data).1
  rw [hnil] at hlength
  cases hlength

theorem hmac_ne_nil (key message : Bytes) : hmacSha256Hex key message ≠ [] := by
  intro hnil
  have hlength := congrArg List.length hnil
  rw [hmacSha256Hex,length_hexText,length_final] at hlength
  cases hlength

/-- A MAC that was made is valid where digest and signature are made again. -/
theorem verify_created {key : Bytes} {r r' : SignedRecord} {mac : JournalMac}
    (h : createJournalMac key r = some mac) : (verifyJournalMac mac key r').valid = true ↔
      sha256Hex (computeJournalMacCanonicalString r) =
          sha256Hex (computeJournalMacCanonicalString r') ∧
        hmacSha256Hex key (computeJournalMacCanonicalString r) =
          hmacSha256Hex key (computeJournalMacCanonicalString r') := by
  unfold createJournalMac at h
  split at h
  · cases h
  · next hkey =>
      cases h
      have hfilled : ¬(hmacSha256Hex key (computeJournalMacCanonicalString r) = [] ∨
          sha256Hex (computeJournalMacCanonicalString r) = []) :=
        not_or.mpr ⟨hmac_ne_nil _ _,sha256Hex_ne_nil _⟩
      unfold verifyJournalMac
      dsimp only
      rw [if_neg hfilled,if_neg hkey]
      split
      · next hdigest => exact iff_of_false Bool.false_ne_true fun hboth => hdigest hboth.1
      · next hdigest =>
          rw [not_not] at hdigest
          split
          · next hsig => exact iff_of_false Bool.false_ne_true fun hboth => hsig hboth.2
          · next hsig =>
              rw [not_not] at hsig
              exact iff_of_true rfl ⟨hdigest,hsig⟩

/-- Each MAC is valid for its own record only, and signed texts tell the records apart. -/
structure Binds (key : Bytes) (occurring : Set SignedRecord) : Prop where
  macs : ∀ r ∈ occurring, ∀ mac, createJournalMac key r = some mac → ∀ r' ∈ occurring,
    (verifyJournalMac mac key r').valid = true ↔ r' = r
  signed : ∀ r ∈ occurring, ∀ r' ∈ occurring,
    computeJournalMacCanonicalString r = computeJournalMacCanonicalString r' → r = r'

/-- MACs bind their records exactly where no piece is shifted between the DID and the key. -/
theorem mac_binds_iff (key : Bytes) {occurring : Set SignedRecord}
    (hvalid : ∀ r ∈ occurring, r.Valid) (hfree : CollisionFree occurring) :
    Binds key occurring ↔ ∀ r ∈ occurring, ∀ r' ∈ occurring, ¬Shifted r r' := by
  constructor
  · intro h r hr r' hr' hshifted
    have hsame := h.signed r hr r' hr' hshifted.canonical
    obtain ⟨-,-,piece,hdid,-⟩ := hshifted
    have hlength := congrArg List.length hdid
    rw [hsame,List.length_append,List.length_cons] at hlength
    omega
  · intro h
    have hsigned : ∀ r ∈ occurring, ∀ r' ∈ occurring,
        computeJournalMacCanonicalString r = computeJournalMacCanonicalString r' → r = r' := by
      intro r hr r' hr' heq
      rcases canonical_cases (hvalid r hr) (hvalid r' hr') (hfree.texts r hr r' hr') heq with
        hsame | hshifted | hshifted
      · exact hsame
      · exact absurd hshifted (h r hr r' hr')
      · exact absurd hshifted (h r' hr' r hr)
    refine ⟨fun r hr mac hmac r' hr' => ?_,hsigned⟩
    rw [verify_created hmac]
    constructor
    · rintro ⟨hdigest,-⟩
      exact (hsigned r hr r' hr' (hfree.signed r hr r' hr' hdigest)).symm
    · rintro rfl
      exact ⟨rfl,rfl⟩

namespace Sample

def nested : SignedRecord where
  repoDid := utf8 "did:plc:abcdef"
  rkey := utf8 "x:y"
  text := utf8 "hello"
  createdAt := utf8 "2024-01-01T00:00:00Z"

def shifted : SignedRecord where
  repoDid := utf8 "did:plc:abcdef:x"
  rkey := utf8 "y"
  text := utf8 "hello"
  createdAt := utf8 "2024-01-01T00:00:00Z"

def later : SignedRecord := {nested with createdAt := utf8 "2024-01-02T00:00:00Z"}

theorem newYear_denoted (day : ℕ) (h : 1 ≤ day ∧ day ≤ 31) :
    Denotes (Instant.stamp ⟨2024,1,day,0,0,0,0⟩++[90]) ⟨2024,1,day,0,0,0,0⟩ where
  real := ⟨⟨show 1 ≤ 1 ∧ 1 ≤ 12 by decide,h.1,h.2⟩,show 2024 ≤ 9999 by decide,
    show 0 ≤ 23 by decide,show 0 ≤ 59 by decide,show 0 ≤ 60 by decide⟩
  spelled := ⟨_,rfl,[],[90],rfl,.absent,.utc⟩

/-- The parts of a record of that month, as they are checked. -/
def Dated (day : ℕ) (r : SignedRecord) : Prop :=
  isDid r.repoDid = true ∧ isRecordKey r.rkey = true ∧
    r.createdAt = Instant.stamp ⟨2024,1,day,0,0,0,0⟩++[90]

theorem samples_dated : Dated 1 nested ∧ Dated 1 shifted ∧ Dated 2 later := by
  unfold Dated
  decide +kernel

theorem Dated.valid {day : ℕ} {r : SignedRecord} (h : Dated day r) (hday : 1 ≤ day ∧ day ≤ 31) :
    r.Valid where
  did := h.1
  rkey := h.2.1
  time := ⟨_,h.2.2 ▸ newYear_denoted day hday⟩

theorem nested_valid : nested.Valid := samples_dated.1.valid (by decide)

theorem shifted_valid : shifted.Valid := samples_dated.2.1.valid (by decide)

theorem later_valid : later.Valid := samples_dated.2.2.valid (by decide)

/-- The MAC of one record is valid for another. -/
theorem shifted_accepted : (nested.Valid ∧ shifted.Valid ∧ nested ≠ shifted ∧
    ∃ mac, createJournalMac (utf8 "key") nested = some mac ∧
      (verifyJournalMac mac (utf8 "key") shifted).valid = true) ∧
    ¬∀ key occurring, (∀ r ∈ occurring, SignedRecord.Valid r) → CollisionFree occurring →
      Binds key occurring := by
  have hshifted : Shifted nested shifted := ⟨rfl,rfl,utf8 "x",by decide +kernel,by decide +kernel⟩
  have hne : nested ≠ shifted := by decide +kernel
  have hsame := hshifted.canonical
  refine ⟨⟨nested_valid,shifted_valid,hne,_,rfl,?_⟩,fun h => hne ?_⟩
  · rw [verify_created rfl]
    exact ⟨by rw [hsame],by rw [hsame]⟩
  · have hvalid : ∀ r ∈ ({nested,shifted} : Set SignedRecord), r.Valid := by
      rintro r (rfl | rfl)
      · exact nested_valid
      · exact shifted_valid
    have hfree : CollisionFree {nested,shifted} := by
      constructor
      · rintro r (rfl | rfl) r' (rfl | rfl) - <;> rfl
      · rintro r (rfl | rfl) r' (rfl | rfl) -
        · rfl
        · exact hsame
        · exact hsame.symm
        · rfl
    exact (h [] _ hvalid hfree).signed _ (.inl rfl) _ (.inr rfl) hsame

theorem mac_binds_later : Binds (utf8 "key") {nested,later} ↔
    ∀ r ∈ ({nested,later} : Set SignedRecord), ∀ r' ∈ ({nested,later} : Set SignedRecord),
      ¬Shifted r r' := by
  have hapart : sha256Hex (computeJournalMacCanonicalString nested) ≠
      sha256Hex (computeJournalMacCanonicalString later) := by decide +kernel
  refine mac_binds_iff (utf8 "key") ?_ ⟨?_,?_⟩
  · rintro r (rfl | rfl)
    · exact nested_valid
    · exact later_valid
  · rintro r (rfl | rfl) r' (rfl | rfl) - <;> rfl
  · rintro r (rfl | rfl) r' (rfl | rfl) h
    · rfl
    · exact absurd h hapart
    · exact absurd h.symm hapart
    · rfl

end Sample

end Atperson.Journal
