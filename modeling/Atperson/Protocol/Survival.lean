import Atperson.Protocol.Evidence
import Atperson.Runs.Guarded

/-!
# Evidence survives crashes

One ledger is open at a time. Appends that write fields no longer than what is read back, and
crashes that leave no empty file, keep the file readable: its entries are the acknowledged
facts in order, with a fact that was being written when the process died kept or lost.
-/
namespace Atperson.Protocol
open Wire Runs

/-- What became of a fact that was handed to the ledger. -/
inductive Fate where
  | accepted (e : ProtocolEvidence)
  | refused (e : ProtocolEvidence)
  | threw (e : ProtocolEvidence) (message : String)
  | cut (e : ProtocolEvidence)

structure EvidenceHost where
  file : Option Bytes := none
  ledger : Option EvidenceLedger := none
  fates : List Fate := []

inductive EvidenceAct where
  | reopen
  | append (crash : Option CrashPoint) (e : ProtocolEvidence)

def fateOf (e : ProtocolEvidence) : AppendOutcome → Fate
  | .returned true => .accepted e
  | .returned false => .refused e
  | .threw message => .threw e message
  | .crashed => .cut e

def EvidenceHost.step (s : EvidenceHost) : EvidenceAct → EvidenceHost
  | .reopen =>
      match openEvidence s.file with
      | .ok l => { s with ledger := some l }
      | .error _ => { s with ledger := none }
  | .append crash e =>
      match s.ledger with
      | none => s
      | some l =>
          let reply := l.append crash s.file e
          { file := reply.file
            ledger := if reply.outcome = .crashed then none else some reply.ledger
            fates := s.fates++[fateOf e reply.outcome] }

/-- The entries that the fates leave: acknowledged facts in order, and of those that were being
written at a crash any. A call that throws leaves none of them right. -/
inductive Explained : List Fate → List ProtocolEvidence → Prop where
  | nil : Explained [] []
  | accepted {fates es e} : Explained fates es → Explained (fates++[.accepted e]) (es++[e])
  | refused {fates es e} : Explained fates es → Explained (fates++[.refused e]) es
  | lost {fates es e} : Explained fates es → Explained (fates++[.cut e]) es
  | survived {fates es e} : Explained fates es → Explained (fates++[.cut e]) (es++[e])

/-- The reader takes every field back. -/
def ProtocolEvidence.FieldsFit (e : ProtocolEvidence) : Prop :=
  e.source.length ≤ kEvidenceFieldMax ∧ e.eventType.length ≤ kEvidenceFieldMax ∧
    e.subject.length ≤ kEvidenceFieldMax ∧ e.payload.length ≤ kEvidenceFieldMax

/-- The fact is not refused and not stored. -/
def EvidenceHost.Writes (s : EvidenceHost) (e : ProtocolEvidence) : Prop :=
  e.refused = false ∧ ∀ x ∈ (scanEvidence s.file).entries, evidenceDigest x ≠ evidenceDigest e

instance (e : ProtocolEvidence) : Decidable e.FieldsFit := inferInstanceAs (Decidable (_ ∧ _))

instance (s : EvidenceHost) (e : ProtocolEvidence) : Decidable (s.Writes e) :=
  inferInstanceAs (Decidable (_ ∧ _))

/-- A fact that is written fits the reader, and a crash in its write leaves no file empty. -/
def EvidenceHost.Safe (s : EvidenceHost) : EvidenceAct → Prop
  | .reopen => True
  | .append crash e => s.Writes e → e.FieldsFit ∧
      (crash = some (.written 0) → (scanEvidence s.file).entries ≠ []) ∧
      (crash = some .repaired → (scanEvidence s.file).entries ≠ [] ∨ s.file = none)

instance (s : EvidenceHost) : (act : EvidenceAct) → Decidable (s.Safe act)
  | .reopen => .isTrue trivial
  | .append _ _ => inferInstanceAs (Decidable (_ → _ ∧ _ ∧ _))

/-! ## The record -/

section Record
variable {e : ProtocolEvidence}
open StreamReader

theorem readField_tells {value : Bytes} (h : value.length ≤ kEvidenceFieldMax) :
    readField.Tells (writeField value) value := by
  have hlen : (UInt64.ofNat value.length).toNat = value.length := by
    rw [UInt64.toNat_ofNat',Nat.mod_eq_of_lt (by rw [kEvidenceFieldMax] at h; omega)]
  refine (tells_u64 _).bind ?_
  rw [hlen,if_neg (not_lt.mpr h)]
  exact tells_bytes value

theorem readEvidence_tells (h : e.FieldsFit) : readEvidence.Tells (writeEvidence e) e := by
  obtain ⟨hsource,htype,hsubject,hpayload⟩ := h
  refine (tells_u32 _).bind ?_
  rw [if_neg (not_not.mpr rfl)]
  refine (tells_u8 _).bind ((tells_u8 _).bind ((tells_u64 _).bind ((tells_u64 _).bind
    ((tells_u64 _).bind ?_))))
  rw [EvidenceKind.ofByte?_toByte,Verification.ofByte?_toByte]
  exact (readField_tells hsource).bind ((readField_tells htype).bind
    ((readField_tells hsubject).bind ((readField_tells hpayload).last rfl)))

theorem writeEvidence_ne_nil (e : ProtocolEvidence) : writeEvidence e ≠ [] := by
  intro h
  have hlen := congrArg List.length h
  simp [writeEvidence] at hlen

end Record

/-! ## The file -/

/-- Complete records and, behind them, the beginning of one that was cut short. -/
structure Stored (file : Option Bytes) (es : List ProtocolEvidence) (tail : Bytes) : Prop where
  content : file.getD [] = es.flatMap writeEvidence++tail
  present : file ≠ some []
  torn : tail ≠ [] → readEvidence tail = .error .torn
  fit : ∀ e ∈ es, e.FieldsFit

/-- What a ledger knows of a file that it has read. -/
structure Current (l : EvidenceLedger) (file : Option Bytes) (es : List ProtocolEvidence)
    (tail : Bytes) : Prop where
  valid : l.indexValid = true
  index : ∀ d, d ∈ l.index ↔ d ∈ es.map evidenceDigest
  size : l.indexedSize = fileSize file
  torn : l.torn = decide (tail ≠ [])
  goodEnd : tail ≠ [] → l.goodEnd = (es.flatMap writeEvidence).length

section File
variable {file : Option Bytes} {es : List ProtocolEvidence} {tail : Bytes} {l : EvidenceLedger}
  {e : ProtocolEvidence}

theorem flatMap_writeEvidence_eq_nil : es.flatMap writeEvidence = [] ↔ es = [] := by
  rw [List.flatMap_eq_nil_iff]
  constructor
  · intro h
    exact List.eq_nil_iff_forall_not_mem.mpr fun e he => writeEvidence_ne_nil e (h e he)
  · rintro rfl e he
    cases he

/-- A file that is there holds its records. -/
theorem Stored.written {bs : Bytes} (hcontent : bs = es.flatMap writeEvidence++tail)
    (hne : es ≠ [] ∨ tail ≠ []) (htorn : tail ≠ [] → readEvidence tail = .error .torn)
    (hfit : ∀ e ∈ es, e.FieldsFit) : Stored (some bs) es tail where
  content := hcontent
  present h := by
    obtain rfl := Option.some.inj h
    obtain ⟨hes,htail⟩ := List.append_eq_nil_iff.mp hcontent.symm
    rcases hne with hne | hne
    · exact hne (flatMap_writeEvidence_eq_nil.mp hes)
    · exact hne htail
  torn := htorn
  fit := hfit

theorem Stored.scan (h : Stored file es tail) :
    scanEvidence file = ⟨es,(es.flatMap writeEvidence).length,decide (tail ≠ []),none⟩ := by
  cases file with
  | none =>
      obtain ⟨hes,rfl⟩ := List.append_eq_nil_iff.mp h.content.symm
      obtain rfl := flatMap_writeEvidence_eq_nil.mp hes
      rfl
  | some bs =>
      obtain rfl : bs = _ := h.content
      exact scanRecords_encoded (fun e he => readEvidence_tells (h.fit e he))
        (fun e _ => writeEvidence_ne_nil e) h.torn

theorem Stored.opens (h : Stored file es tail) : openEvidence file = .ok {} :=
  if_neg h.present

theorem Stored.entries (h : Stored file es tail) : evidenceEntries file = .ok es := by
  rw [evidenceEntries,h.scan]

/-- An index that is valid is the file's, or the file is read again. -/
theorem Stored.refresh (h : Stored file es tail)
    (hl : l.indexValid = true → Current l file es tail) :
    ∃ l', l.refreshIndex file = (l',none) ∧ Current l' file es tail := by
  rw [EvidenceLedger.refreshIndex]
  split
  · rename_i hvalid
    exact ⟨l,rfl,hl hvalid.1⟩
  · rw [h.scan]
    exact ⟨_,rfl,rfl,fun _ => Iff.rfl,rfl,rfl,fun _ => rfl⟩

/-- Behind the repair the file ends with its last complete record. -/
theorem Current.repair (hc : Current l file es tail) (h : Stored file es tail) :
    ∃ file' l', l.repair file = (file',l') ∧ file'.getD [] = es.flatMap writeEvidence ∧
      (file = none → file' = none) ∧ l'.index = l.index ∧ l'.torn = false ∧
      l'.indexValid = true := by
  rw [EvidenceLedger.repair,hc.torn]
  by_cases htail : tail = []
  · subst htail
    refine ⟨file,l,rfl,?_,id,rfl,hc.torn,hc.valid⟩
    rw [h.content,List.append_nil]
  · rw [if_pos (decide_eq_true htail),hc.goodEnd htail]
    cases file with
    | none => exact absurd (List.append_eq_nil_iff.mp h.content.symm).2 htail
    | some bs =>
        obtain rfl : bs = _ := h.content
        exact ⟨_,_,rfl,List.take_left,nofun,rfl,rfl,hc.valid⟩

end File

/-! ## Runs -/

/-- The entries of the file are what the fates leave, none refused and no two of one digest, and
the ledger that is open knows them or has not read them. -/
structure Sound (s : EvidenceHost) (es : List ProtocolEvidence) (tail : Bytes) : Prop where
  stored : Stored s.file es tail
  kept : ∀ e ∈ es, e.refused = false
  distinct : (es.map evidenceDigest).Nodup
  fates : Explained s.fates es
  ledger : ∀ l, s.ledger = some l → l.indexValid = true → Current l s.file es tail

section Run
variable {s : EvidenceHost} {es : List ProtocolEvidence} {tail : Bytes} {e : ProtocolEvidence}

theorem sound_start : Sound {} [] [] where
  stored := ⟨rfl,nofun,fun h => absurd rfl h,nofun⟩
  kept := nofun
  distinct := List.nodup_nil
  fates := .nil
  ledger := nofun

theorem Sound.reopen (h : Sound s es tail) : Sound (s.step .reopen) es tail := by
  rw [EvidenceHost.step,h.stored.opens]
  exact ⟨h.stored,h.kept,h.distinct,h.fates,fun l hl hvalid => by
    obtain rfl := Option.some.inj hl
    cases hvalid⟩

/-- A fact that is neither refused nor stored comes behind the others. -/
theorem Sound.concat (h : Sound s es tail) (hkept : e.refused = false)
    (hnew : evidenceDigest e ∉ es.map evidenceDigest) :
    (∀ x ∈ es++[e], x.refused = false) ∧ ((es++[e]).map evidenceDigest).Nodup := by
  constructor
  · intro x hx
    rcases List.mem_append.mp hx with hx | hx
    · exact h.kept x hx
    · rwa [List.mem_singleton.mp hx]
  · rw [List.map_append]
    exact List.nodup_append.mpr ⟨h.distinct,List.nodup_singleton _,fun a ha b hb => by
      rintro rfl
      rw [List.map_singleton,List.mem_singleton] at hb
      exact hnew (hb ▸ ha)⟩

theorem Sound.append (h : Sound s es tail) {crash : Option CrashPoint}
    (hsafe : s.Safe (.append crash e)) : ∃ es' tail', Sound (s.step (.append crash e)) es' tail' := by
  rw [EvidenceHost.step]
  cases hledger : s.ledger with
  | none => exact ⟨es,tail,h⟩
  | some l =>
      have hrefused {l' : EvidenceLedger} (hl : l'.indexValid = true → Current l' s.file es tail) :
          Sound ⟨s.file,some l',s.fates++[.refused e]⟩ es tail :=
        ⟨h.stored,h.kept,h.distinct,.refused h.fates,fun x hx => by
          obtain rfl := Option.some.inj hx
          exact hl⟩
      have hlost {file' : Option Bytes} {tail' : Bytes} (hstored : Stored file' es tail') :
          Sound ⟨file',none,s.fates++[.cut e]⟩ es tail' :=
        ⟨hstored,h.kept,h.distinct,.lost h.fates,nofun⟩
      simp only [EvidenceLedger.append]
      split
      · exact ⟨es,tail,hrefused (h.ledger l hledger)⟩
      rename_i hkept
      have hkept : e.refused = false := by simpa using hkept
      obtain ⟨l',hrefresh,hcurrent⟩ := h.stored.refresh (h.ledger l hledger)
      rw [hrefresh]
      simp only
      split
      · exact ⟨es,tail,hrefused fun _ => hcurrent⟩
      rename_i hnew
      have hnew : evidenceDigest e ∉ es.map evidenceDigest := fun hmem =>
        hnew ((hcurrent.index _).mpr hmem)
      obtain ⟨hfit,hempty,habsent⟩ := hsafe ⟨hkept,fun x hx hsame => by
        rw [h.stored.scan] at hx
        exact hnew (List.mem_map.mpr ⟨x,hx,hsame⟩)⟩
      rw [h.stored.scan] at hempty habsent
      obtain ⟨hkept',hdistinct'⟩ := h.concat hkept hnew
      obtain ⟨file',l'',hrepair,hcontent,hnone,hindex,htorn,hvalid⟩ :=
        hcurrent.repair h.stored
      have htells := readEvidence_tells hfit
      have hfits : ∀ x ∈ es++[e], x.FieldsFit := by
        intro x hx
        rcases List.mem_append.mp hx with hx | hx
        · exact h.stored.fit x hx
        · rwa [List.mem_singleton.mp hx]
      have hwhole : Stored (some (file'.getD []++writeEvidence e)) (es++[e]) [] := by
        refine .written ?_ (.inl (by simp)) (fun hne => absurd rfl hne) hfits
        rw [hcontent,List.flatMap_append,List.flatMap_singleton,List.append_nil]
      split
      · exact ⟨es,tail,hlost h.stored⟩
      rename_i huntouched
      rw [hrepair]
      cases crash with
      | none =>
          refine ⟨es++[e],[],hwhole,hkept',hdistinct',.accepted h.fates,fun x hx _ => ?_⟩
          obtain rfl := Option.some.inj hx
          refine ⟨hvalid,fun d => ?_,rfl,htorn,fun hne => absurd rfl hne⟩
          show d ∈ evidenceDigest e::l''.index ↔ _
          rw [List.mem_cons,hindex,hcurrent.index,List.map_append,List.mem_append,or_comm,
            List.map_singleton,List.mem_singleton]
      | some point =>
          cases point with
          | untouched => exact absurd rfl huntouched
          | repaired =>
              -- cut off behind the last record, and nothing written
              have hpresent : file' ≠ some [] := fun hnil => by
                rcases habsent rfl with hes | habsent
                · rw [hnil] at hcontent
                  exact hes (flatMap_writeEvidence_eq_nil.mp hcontent.symm)
                · rw [hnone habsent] at hnil
                  cases hnil
              exact ⟨es,[],hlost ⟨by rw [hcontent,List.append_nil],hpresent,
                fun hne => absurd rfl hne,h.stored.fit⟩⟩
          | written k =>
              by_cases hk : k < (writeEvidence e).length
              · refine ⟨es,(writeEvidence e).take k,hlost (.written (by rw [hcontent]) ?_
                  (fun _ => htells.torn k hk) h.stored.fit)⟩
                cases k with
                | zero => exact .inl (hempty rfl)
                | succ k => exact .inr (by simp [writeEvidence_ne_nil])
              · simp only [List.take_of_length_le (not_lt.mp hk)]
                exact ⟨es++[e],[],hwhole,hkept',hdistinct',.survived h.fates,nofun⟩

theorem Sound.step {act : EvidenceAct} (h : ∃ es tail, Sound s es tail) (hsafe : s.Safe act) :
    ∃ es tail, Sound (s.step act) es tail := by
  obtain ⟨es,tail,h⟩ := h
  cases act with
  | reopen => exact ⟨es,tail,h.reopen⟩
  | append crash e => exact h.append hsafe

end Run

/-! ## Replay -/

theorem replay_from {es : List ProtocolEvidence} (store : EvidenceStore)
    (hkept : ∀ e ∈ es, e.refused = false) (hdistinct : (es.map evidenceDigest).Nodup)
    (hnew : ∀ e ∈ es, evidenceDigest e ∉ store.index) :
    (es.foldl (fun restored e => (restored.append e).1) store).entries = store.entries++es := by
  induction es generalizing store with
  | nil => exact (List.append_nil _).symm
  | cons e rest ih =>
      rw [List.map_cons,List.nodup_cons] at hdistinct
      have hstep : (store.append e).1 = ⟨store.entries++[e],evidenceDigest e::store.index⟩ := by
        rw [EvidenceStore.append,if_neg (by rw [hkept e List.mem_cons_self]; decide),
          if_neg (hnew e List.mem_cons_self)]
      rw [List.foldl_cons,hstep,ih _ (fun x hx => hkept x (List.mem_cons_of_mem _ hx))
        hdistinct.2 fun x hx hmem => ?_]
      · rw [List.append_assoc,List.singleton_append]
      · rcases List.mem_cons.mp hmem with heq | hmem
        · exact hdistinct.1 (heq ▸ List.mem_map.mpr ⟨x,hx,rfl⟩)
        · exact hnew x (List.mem_cons_of_mem _ hx) hmem

theorem replay_entries {es : List ProtocolEvidence} (hkept : ∀ e ∈ es, e.refused = false)
    (hdistinct : (es.map evidenceDigest).Nodup) : (EvidenceStore.replay es).entries = es :=
  replay_from {} hkept hdistinct fun _ _ => List.not_mem_nil

/-- The digest looks at the identity alone. -/
theorem distinct_identities {es : List ProtocolEvidence}
    (hdistinct : (es.map evidenceDigest).Nodup) : (es.map ProtocolEvidence.identity).Nodup := by
  refine List.Nodup.of_map (fun i => evidenceDigest
    ⟨i.1,i.2.2.1,i.2.2.2.1,i.2.2.2.2.1,i.2.2.2.2.2,0,0,i.2.1,⟨0⟩⟩) ?_
  rw [List.map_map]
  exact hdistinct

/-- After any safe run the file opens, its entries are what the fates leave, no two of them are
one fact, and the store in memory takes them as they are. -/
theorem evidence_survives_crashes {acts : List EvidenceAct}
    (hguard : Guarded EvidenceHost.step EvidenceHost.Safe {} acts) :
    let s := runFrom EvidenceHost.step {} acts
    openEvidence s.file = .ok {} ∧ ∃ es, evidenceEntries s.file = .ok es ∧
      Explained s.fates es ∧ (es.map ProtocolEvidence.identity).Nodup ∧
      (EvidenceStore.replay es).entries = es := by
  intro s
  obtain ⟨es,tail,h⟩ : ∃ es tail, Sound s es tail :=
    hguard.invariant (P := fun s => ∃ es tail, Sound s es tail) (fun _ _ h hg => Sound.step h hg)
      ⟨[],[],sound_start⟩
  exact ⟨h.stored.opens,es,h.stored.entries,h.fates,distinct_identities h.distinct,
    replay_entries h.kept h.distinct⟩

def sampleEvidence (payload : Bytes) : ProtocolEvidence where
  source := [114]
  eventType := [99]
  subject := [100]
  payload
  sequence := 1
  observedAt := 0
  confidence := ⟨0x3ff0000000000000⟩

/-- A second record is cut short and then written again. -/
def cutRun : List EvidenceAct :=
  [.reopen,.append none (sampleEvidence [65]),.append (some (.written 20)) (sampleEvidence [66]),
    .reopen,.append none (sampleEvidence [66])]

example : (runFrom EvidenceHost.step {} cutRun).fates.length = 3 := by decide +kernel

theorem evidence_survives_crashes_sample :
    let s := runFrom EvidenceHost.step {} cutRun
    evidenceEntries s.file = .ok [sampleEvidence [65],sampleEvidence [66]] ∧
      openEvidence s.file = .ok {} := by
  have hguard : Guarded EvidenceHost.step EvidenceHost.Safe {} cutRun := by decide +kernel
  exact ⟨by decide +kernel,(evidence_survives_crashes hguard).1⟩

section Oversized
open StreamReader

theorem readField_oversized {value : Bytes} (hlong : kEvidenceFieldMax < value.length)
    (hsize : value.length < 2^64) :
    readField (writeField value) = .error (.bad "invalid protocol evidence field") := by
  have hlen : (UInt64.ofNat value.length).toNat = value.length := by
    rw [UInt64.toNat_ofNat',Nat.mod_eq_of_lt hsize]
  refine (tells_u64 _).bind_error ?_
  rw [hlen,if_pos hlong]
  rfl

/-- A payload longer than what is read back makes the record unreadable. -/
theorem readEvidence_oversized {e : ProtocolEvidence}
    (hsource : e.source.length ≤ kEvidenceFieldMax)
    (htype : e.eventType.length ≤ kEvidenceFieldMax)
    (hsubject : e.subject.length ≤ kEvidenceFieldMax)
    (hpayload : kEvidenceFieldMax < e.payload.length) (hsize : e.payload.length < 2^64) :
    readEvidence (writeEvidence e) = .error (.bad "invalid protocol evidence field") := by
  refine (tells_u32 _).bind_error ?_
  rw [if_neg (not_not.mpr rfl)]
  refine (tells_u8 _).bind_error ((tells_u8 _).bind_error ((tells_u64 _).bind_error
    ((tells_u64 _).bind_error ((tells_u64 _).bind_error ?_))))
  rw [EvidenceKind.ofByte?_toByte,Verification.ofByte?_toByte]
  refine (readField_tells hsource).bind_error ((readField_tells htype).bind_error
    ((readField_tells hsubject).bind_error
      (bind_failed (readField_oversized hpayload hsize))))

end Oversized

def oversizedEvidence : ProtocolEvidence := sampleEvidence (List.replicate (kEvidenceFieldMax+1) 65)

theorem oversized_accepted : oversizedEvidence.refused = false := by
  have hpayload : oversizedEvidence.payload.isEmpty = false := by
    rw [oversizedEvidence,sampleEvidence,List.replicate_succ]
    rfl
  rw [ProtocolEvidence.refused,hpayload]
  decide +kernel

/-- What the first append of a new ledger leaves. -/
theorem first_append {e : ProtocolEvidence} (hkept : e.refused = false) :
    (runFrom EvidenceHost.step {} [.reopen,.append none e]).fates = [.accepted e] ∧
      (runFrom EvidenceHost.step {} [.reopen,.append none e]).file = some (writeEvidence e) := by
  have hreply : ∃ l, ({} : EvidenceLedger).append none none e =
      ⟨some (writeEvidence e),l,.returned true⟩ := by
    rw [EvidenceLedger.append,if_neg (by rw [hkept]; decide)]
    exact ⟨_,rfl⟩
  obtain ⟨l,hreply⟩ := hreply
  have hopen : EvidenceHost.step {} .reopen = { ledger := some {} } := rfl
  rw [runFrom_cons,runFrom_cons,hopen,EvidenceHost.step,runFrom_nil]
  simp only [hreply]
  exact ⟨rfl,trivial⟩

/-- The process dies when the first write has created the file; and a payload of one byte more
than is read back is accepted. -/
theorem evidence_unreadable :
    openEvidence (runFrom EvidenceHost.step {} [.reopen,
        .append (some (.written 0)) (sampleEvidence [65])]).file =
      .error "empty protocol evidence ledger" ∧
    ∃ e, (runFrom EvidenceHost.step {} [.reopen,.append none e]).fates = [.accepted e] ∧
      evidenceEntries (runFrom EvidenceHost.step {} [.reopen,.append none e]).file =
        .error "invalid protocol evidence field" := by
  obtain ⟨hfates,hfile⟩ := first_append oversized_accepted
  refine ⟨by decide +kernel,oversizedEvidence,hfates,?_⟩
  have hlength : oversizedEvidence.payload.length = kEvidenceFieldMax+1 := List.length_replicate
  have hread := readEvidence_oversized (e := oversizedEvidence) (by decide) (by decide)
    (by decide) (by omega) (by rw [hlength]; decide)
  have hscan : (scanRecords readEvidence (writeEvidence oversizedEvidence)).failure =
      some "invalid protocol evidence field" :=
    congrArg Scanned.failure (scanRecords_bad (writeEvidence_ne_nil _) hread)
  rw [hfile,evidenceEntries,scanEvidence,hscan]

end Atperson.Protocol
