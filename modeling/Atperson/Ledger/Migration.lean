import Atperson.Ledger.Migrate

/-!
# Migration keeps the meaning of a log

The scan of a legacy log finds its longest lawful run of records, so that what a migration
writes is what they add up to. A crash leaves the legacy log with its marker, or the migrated
one; the marker that is left over beside it is none of its version.
-/
namespace Atperson.Ledger
open Wire

/-! ## The scan -/

section Scan
variable {version : ℕ} {items items' : List Item} {f : Frame} {bytes rest : Bytes}

/-- A legacy record is applied where it follows. -/
theorem applyLegacy_eq_some : applyLegacy version items f = some items' ↔
    ∃ r, LogRecord.ofLegacy? version f = some r ∧ r.Follows items ∧ r.apply items = items' := by
  unfold applyLegacy LogRecord.ofLegacy?
  by_cases hentry : f.kind = recordEntry
  · rw [if_pos hentry,if_pos hentry]
    cases hparse : parseLegacyEntry version f.body with
    | none => simp
    | some it =>
        by_cases hid : it.entry.id.toNat = items.length+1
        · simp [hid,LogRecord.Follows,LogRecord.apply]
        · simp [hid,LogRecord.Follows]
  · rw [if_neg hentry,if_neg hentry]
    by_cases hpatch : f.kind = recordPatch
    · rw [if_pos hpatch,if_pos hpatch]
      cases hparse : parsePatch f.body with
      | none => simp
      | some p =>
          obtain ⟨id,byte⟩ := p
          cases ho : Outcome.ofByte? byte with
          | none => simp [ho]
          | some o =>
              simp only [ho,Option.bind_eq_bind,Option.bind_some,Option.pure_def,Option.some.injEq,
                exists_eq_left',LogRecord.Follows,LogRecord.apply]
              cases hit : items[id.toNat-1]? with
              | none => simp
              | some it =>
                  obtain ⟨hlt,-⟩ := List.getElem?_eq_some_iff.mp hit
                  by_cases hid : id = 0
                  · simp [hid]
                  · have hle : ¬items.length < id.toNat := by omega
                    by_cases hback : it.outcome.isCommitted = true ∧ o = .pending
                    · simp [hid,hle,hback]
                    · simp only [hid,hle,or_self,if_false,if_neg hback]
                      simpa [hid] using fun _ hc ho => hback ⟨hc,ho⟩
    · rw [if_neg hpatch,if_neg hpatch]
      simp

/-- What is read was spelled, and follows what was there. -/
theorem reads_spelled {t : List Item} (h : (legacyFraming version).Reads (applyLegacy version) items
    bytes t rest) : ∃ (fs : List Frame) (rs : List LogRecord),
      bytes = fs.flatMap (legacyFraming version).encode++rest ∧
      List.Forall₂ (fun f r => (legacyFraming version).Fits f ∧
        LogRecord.ofLegacy? version f = some r) fs rs ∧
      Lawful items rs ∧ t = rs.foldl LogRecord.apply items := by
  induction h with
  | done items bytes => exact ⟨[],[],rfl,.nil,trivial,rfl⟩
  | frame hn ha _ ih =>
      obtain ⟨hfits,rfl⟩ := Framing.next_exact hn
      obtain ⟨r,hr,hfollows,rfl⟩ := applyLegacy_eq_some.mp ha
      obtain ⟨fs,rs,rfl,hrows,hlawful,rfl⟩ := ih
      exact ⟨_::fs,r::rs,by rw [List.flatMap_cons,List.append_assoc],.cons ⟨hfits,hr⟩ hrows,
        ⟨hfollows,hlawful⟩,rfl⟩

theorem reads_of_spelled {fs : List Frame} {rs : List LogRecord}
    (hrows : List.Forall₂ (fun f r => (legacyFraming version).Fits f ∧
      LogRecord.ofLegacy? version f = some r) fs rs) (hlawful : Lawful items rs) :
    (legacyFraming version).Reads (applyLegacy version) items
      (fs.flatMap (legacyFraming version).encode++rest) (rs.foldl LogRecord.apply items) rest := by
  induction hrows generalizing items with
  | nil => exact .done items rest
  | cons hfr _ ih =>
      rw [List.flatMap_cons,List.append_assoc]
      exact .frame (Framing.next_encode hfr.1 _)
        (applyLegacy_eq_some.mpr ⟨_,hfr.2,hlawful.1,rfl⟩) (ih hlawful.2)

/-- The scan stops where no record follows. -/
theorem scan_longest {log : Bytes} : legacyScan version log = (items,rest) ↔
    ∃ rs, LongestLawful version (log.drop ledgerHeaderSize) rs rest ∧ items = recovered rs := by
  unfold legacyScan
  rw [Framing.scan_eq_iff]
  constructor
  · rintro ⟨hreads,hstuck⟩
    obtain ⟨fs,rs,hbytes,hrows,hlawful,rfl⟩ := reads_spelled hreads
    rw [foldl_recovered hlawful] at hstuck ⊢
    refine ⟨rs,⟨⟨fs,hbytes,hrows⟩,hlawful,fun f rest' r hn hr hfollows => ?_⟩,rfl⟩
    have hnone := hstuck f rest' hn
    rw [applyLegacy_eq_some.mpr ⟨r,hr,hfollows,rfl⟩] at hnone
    cases hnone
  · rintro ⟨rs,⟨⟨fs,hbytes,hrows⟩,hlawful,hlongest⟩,rfl⟩
    have hreads := @reads_of_spelled version [] rest fs rs hrows hlawful
    rw [← hbytes,foldl_recovered hlawful] at hreads
    refine ⟨hreads,fun f rest' hn => ?_⟩
    cases ha : applyLegacy version (recovered rs) f with
    | none => rfl
    | some items' =>
        obtain ⟨r,hr,hfollows,-⟩ := applyLegacy_eq_some.mp ha
        exact absurd hfollows (hlongest f rest' r hn hr)

end Scan

/-! ## Fates -/

/-- What a migration comes to. -/
def fateOf (version : ℕ) (d : Disk) (log : Bytes) : Option (List Item) :=
  match legacyFence version d with
  | none => some (legacyScan version log).1
  | some fence =>
      if fence < ledgerHeaderSize ∨ log.length < fence then none
      else if (legacyScan version (log.take fence)).2 ≠ [] then none
      else some (legacyScan version (log.take fence)).1

section Fates
variable {version : ℕ} {d : Disk} {log : Bytes} {o : Option (List Item)}

/-- Every legacy log has one fate. -/
theorem fate_iff : Fate version d log o ↔ o = fateOf version d log := by
  unfold fateOf
  cases hfence : legacyFence version d with
  | none =>
      constructor
      · rintro (⟨-,h⟩ | ⟨hf,-⟩ | ⟨hf,-⟩ | ⟨hf,-⟩)
        · exact congrArg (some ∘ Prod.fst) (scan_longest.mpr ⟨_,h,rfl⟩).symm
        all_goals
          rw [hfence] at hf
          cases hf
      · rintro rfl
        obtain ⟨rs,h,hitems⟩ := scan_longest.mp (Prod.mk.eta (p := legacyScan version log)).symm
        simp only
        rw [hitems]
        exact .healed hfence h
  | some fence =>
      simp only
      constructor
      · rintro (⟨hf,-⟩ | ⟨hf,hlow,hhigh,h⟩ | ⟨hf,hlow,hhigh,h,hrest⟩ | ⟨hf,hout⟩)
        · rw [hfence] at hf
          cases hf
        · obtain rfl := Option.some.inj (hfence.symm.trans hf)
          rw [if_neg (by omega),scan_longest.mpr ⟨_,h,rfl⟩]
          rfl
        · obtain rfl := Option.some.inj (hfence.symm.trans hf)
          rw [if_neg (by omega),scan_longest.mpr ⟨_,h,rfl⟩,if_pos hrest]
        · obtain rfl := Option.some.inj (hfence.symm.trans hf)
          rw [if_pos hout]
      · rintro rfl
        split_ifs with hout hrest
        · exact .outside hfence hout
        · obtain ⟨rs,h,-⟩ := scan_longest.mp
            (Prod.mk.eta (p := legacyScan version (log.take fence))).symm
          exact .invalid hfence (by omega) (by omega) h hrest
        · obtain ⟨rs,h,hitems⟩ := scan_longest.mp
            (Prod.mk.eta (p := legacyScan version (log.take fence))).symm
          rw [not_not.mp hrest] at h
          rw [hitems]
          exact .fenced hfence (by omega) (by omega) h

/-- A migration is that of its fate. -/
theorem migrateLedger_fate (hlog : d.log = some log) (hsize : log.length ≤ fileMax) :
    (∃ items, fateOf version d log = some items ∧
        migrateLedger version d = publishMigrated d items ∧
        migrateActions version d = publishActions items) ∨
      fateOf version d log = none ∧
        (∃ d', migrateLedger version d = (d',.format) ∧ d'.log = d.log ∧ d'.off = d.off) ∧
        (migrateActions version d = [] ∨
          migrateActions version d = [.stageLog currentHeader,.unstageLog]) := by
  unfold fateOf migrateLedger migrateActions
  rw [hlog]
  simp only [if_neg (Nat.not_lt.mpr hsize)]
  cases legacyFence version d with
  | none => exact .inl ⟨_,rfl,rfl,rfl⟩
  | some fence =>
      simp only
      split_ifs with hout hrest
      · exact .inr ⟨rfl,⟨_,rfl,hlog,rfl⟩,.inl rfl⟩
      · exact .inr ⟨rfl,⟨_,rfl,rfl,rfl⟩,.inr rfl⟩
      · exact .inl ⟨_,rfl,rfl,rfl⟩

/-- A fate is a matter of the log and the marker. -/
theorem fateOf_discard : fateOf version (discardStaging d) log = fateOf version d log := rfl

/-- What is accepted is numbered from one on. -/
theorem fate_idsMatch {items : List Item} (h : fateOf version d log = some items) :
    IdsMatch items := by
  have hlawful : ∀ rs : List LogRecord, Lawful [] rs → IdsMatch (recovered rs) := by
    intro rs hrs
    rw [← foldl_recovered hrs]
    have hstart : IdsMatch ([] : List Item) := by simp [IdsMatch]
    generalize ([] : List Item) = start at hrs hstart
    induction rs generalizing start with
    | nil => exact hstart
    | cons r rs ih =>
        refine ih _ hrs.2 ?_
        cases r with
        | entry it => exact hstart.append hrs.1
        | patch id o => exact hstart.setOutcomeAt _ o
  rcases fate_iff.mpr h.symm with ⟨-,hrs⟩ | ⟨-,-,-,hrs⟩
  · exact hlawful _ hrs.lawful
  · exact hlawful _ hrs.lawful

end Fates

/-! ## Opening what a crash leaves -/

section Opening
variable {version : ℕ} {d d' d₀ : Disk} {log : Bytes} {items : List Item}

theorem legacy_not_accepted {header : Bytes} (h : legacyVersion header = some version) :
    headerAccepted header = false := by
  by_contra hnot
  rw [headerAccepted_not_legacy (by simpa using hnot)] at h
  cases h

/-- A legacy log is handed to its migration, and recovered if that succeeds. -/
theorem open_legacy (h : HoldsLegacy version d log)
    (hmigrate : migrateLedger version (discardStaging d) = (d',.ok)) :
    openLedger migrateLedger d = openCurrent d' := by
  have hd : createMissing (discardStaging d) = discardStaging d := by
    simp [createMissing,discardStaging,h.file]
  have hl : (discardStaging d).log = some log := h.file
  simp only [openLedger,hd,hl,Option.getD_some,if_neg (Nat.not_lt.mpr h.header),h.legacy,hmigrate]

theorem open_refused (h : HoldsLegacy version d log)
    (hmigrate : migrateLedger version (discardStaging d) = (d',.format)) :
    openLedger migrateLedger d = (d',.error .format) := by
  have hd : createMissing (discardStaging d) = discardStaging d := by
    simp [createMissing,discardStaging,h.file]
  have hl : (discardStaging d).log = some log := h.file
  simp only [openLedger,hd,hl,Option.getD_some,if_neg (Nat.not_lt.mpr h.header),h.legacy,hmigrate]

theorem refused_of_fate (h : HoldsLegacy version d log) (hfate : fateOf version d log = none) :
    Refused d := by
  rcases @migrateLedger_fate version (discardStaging d) log h.file h.size with
    ⟨items,hitems,-⟩ | ⟨-,⟨d',hmigrate,hlog,hoff⟩,-⟩
  · rw [fateOf_discard,hfate] at hitems
    cases hitems
  · exact ⟨d',open_refused h hmigrate,hlog,hoff⟩

/-- The migrated log of a fate, where a file can hold it. -/
theorem migrate_of_fate (h : HoldsLegacy version d log)
    (hfate : fateOf version d log = some items) (hsize : (migratedLog items).length ≤ fileMax) :
    migrateLedger version (discardStaging d) =
        (⟨some (migratedLog items),none,none,none⟩,.ok) ∧
      migrateActions version (discardStaging d) =
        [.stageLog (migratedLog items),.publishLog,.removeOff] := by
  rcases @migrateLedger_fate version (discardStaging d) log h.file h.size with
    ⟨items',hitems,hmigrate,hactions⟩ | ⟨hnone,-⟩
  · rw [fateOf_discard,hfate] at hitems
    obtain rfl := Option.some.inj hitems
    rw [hmigrate,hactions,publishMigrated,publishActions,if_neg (Nat.not_lt.mpr hsize),
      if_neg (Nat.not_lt.mpr hsize)]
    exact ⟨rfl,rfl⟩
  · rw [fateOf_discard,hfate] at hnone
    cases hnone

theorem migratedLog_header (items : List Item) : ledgerHeaderSize ≤ (migratedLog items).length ∧
    (migratedLog items).take ledgerHeaderSize = currentHeader ∧
    (migratedLog items).drop ledgerHeaderSize = records items :=
  ⟨by simp [migratedLog,ledgerHeaderSize],List.take_left' currentHeader_length,
    List.drop_left' currentHeader_length⟩

theorem openCurrent_migrated (hlog : d.log = some (migratedLog items)) :
    openCurrent d = recover d (migratedLog items) := by
  obtain ⟨hlength,htake,-⟩ := migratedLog_header items
  unfold openCurrent
  rw [hlog]
  simp only
  rw [if_neg (Nat.not_lt.mpr hlength),htake,if_pos (by decide)]

/-- A migrated log opens by recovering it. -/
theorem open_migrated (hlog : d.log = some (migratedLog items)) :
    openLedger migrateLedger d = recover (discardStaging d) (migratedLog items) := by
  obtain ⟨hlength,htake,-⟩ := migratedLog_header items
  exact openLedger_current migrateLedger hlog hlength (by rw [htake]; decide)

theorem records_length (items : List Item) : items.length ≤ (records items).length := by
  induction items with
  | nil => exact Nat.zero_le _
  | cons it items ih =>
      have hone : (buildRecord (entryFrame it)).length = 9+(entryFrame it).body.length :=
        framing.encode_length _
      rw [records,List.flatMap_cons,List.length_append,List.length_cons]
      rw [records] at ih
      omega

theorem items_bounded (hsize : (migratedLog items).length ≤ fileMax) : items.length ≤ 2^63 := by
  have hle := records_length items
  rw [migratedLog,List.length_append] at hsize
  have hmax : fileMax ≤ 2^63 := by decide
  omega

theorem scan_migrated (hids : IdsMatch items) (hsource : Sourced items)
    (hsize : (migratedLog items).length ≤ fileMax) :
    scanLog ((migratedLog items).drop ledgerHeaderSize) = (items,[]) := by
  rw [(migratedLog_header items).2.2]
  exact scanLog_eq.mpr (@reads_records [] items hids hsource (items_bounded hsize))

/-- An entry whose source id is empty is not read back. -/
theorem parse_unsourced {it : Item} (h : it.entry.sourceId.bytes = []) :
    parseEntry (serializeEntry it) = none := by
  have hlen := serializeEntry_length it
  have hnone : entryReader (serializeEntry it) = none := by
    by_contra hsome
    obtain ⟨⟨x,rest⟩,hx⟩ := Option.ne_none_iff_exists'.mp hsome
    obtain ⟨id,mid,hid,hx⟩ := bind_taken hx
    rw [serializeEntry,Reader.decodes_u64] at hid
    obtain ⟨-,rfl⟩ := Prod.mk.inj (Option.some.inj hid)
    obtain ⟨source,rest',hsource,-⟩ := bind_taken hx
    rw [h] at hsource
    cases hsource
  rw [parseEntry,if_neg (by omega),Reader.whole,hnone]

/-- Entries that are all read back have sources. -/
theorem sourced_of_reads {items rest t : List Item} {out : Bytes}
    (h : framing.Reads applyRecord items (records rest) t out)
    (hall : t.length = items.length+rest.length) : Sourced rest := by
  induction rest generalizing items with
  | nil => simp [Sourced]
  | cons it rest ih =>
      cases h with
      | done =>
          rw [List.length_cons] at hall
          omega
      | @frame _ s _ _ _ _ f hn ha hrest =>
          have hnext : framing.next (records (it::rest)) = some (entryFrame it,records rest) :=
            Framing.next_encode (entryFrame_fits it) _
          obtain ⟨rfl,rfl⟩ := Prod.mk.inj (Option.some.inj (hnext.symm.trans hn))
          have hkind : (entryFrame it).kind = recordEntry := rfl
          have hsource : it.entry.sourceId.bytes ≠ [] := by
            intro hempty
            have hparse : parseEntry (entryFrame it).body = none := parse_unsourced hempty
            rw [applyRecord,if_pos hkind,hparse] at ha
            cases ha
          have hs : s.length = items.length+1 := by
            have hparse : parseEntry (entryFrame it).body = some it :=
              parseEntry_serialize it hsource
            rw [applyRecord,if_pos hkind,hparse] at ha
            simp only at ha
            split at ha
            · cases ha
            · rw [← Option.some.inj ha,List.length_append,List.length_singleton]
          rw [List.length_cons] at hall
          exact List.forall_mem_cons.mpr ⟨hsource,ih hrest (by omega)⟩

/-- What is recovered from a migrated log is all of it only where every entry has a source. -/
theorem sourced_of_scan (h : (scanLog ((migratedLog items).drop ledgerHeaderSize)).1 = items) :
    Sourced items := by
  have hreads : framing.Reads applyRecord [] (records items) (scanLog (records items)).1
      (scanLog (records items)).2 := Framing.scanFuel_reads _ [] _
  rw [(migratedLog_header items).2.2] at h
  exact sourced_of_reads hreads ((congrArg List.length h).trans (by simp))

end Opening

/-! ## Runs of crashes -/

/-- What crashes leave of a disk: the legacy log with its marker, or the migrated log with
that marker, none or its own. -/
inductive Stands (d : Disk) (log : Bytes) (items : List Item) : Disk → Prop
  | legacy {d' : Disk} (hlog : d'.log = some log) (hoff : d'.off = d.off) : Stands d log items d'
  | migrated {d' : Disk} (hlog : d'.log = some (migratedLog items))
      (hoff : d'.off = d.off ∨ d'.off = none ∨
        d'.off = some (offHeader items.length (migratedLog items).length)) : Stands d log items d'

/-- A migrated log has no marker that is read, or its own. -/
def Marked (d : Disk) (items : List Item) : Prop :=
  readOff d = none ∨ readOff d = some (items.length,(migratedLog items).length)

section Runs
variable {version : ℕ} {d d₁ d' : Disk} {log : Bytes} {items : List Item}

theorem marked_own (hoff : d.off = some (offHeader items.length (migratedLog items).length))
    (hsize : (migratedLog items).length ≤ fileMax) : Marked d items := by
  have hcount := items_bounded hsize
  have hmax : fileMax < 2^64 := by decide
  refine .inr ?_
  rw [readOff,hoff]
  exact parseOff_offHeader (by omega) (by omega)

theorem marked_of_stands (hsize : (migratedLog items).length ≤ fileMax) (hmark : Marked d items)
    (hoff : d₁.off = d.off ∨ d₁.off = none ∨
      d₁.off = some (offHeader items.length (migratedLog items).length)) : Marked d₁ items := by
  rcases hoff with hoff | hoff | hoff
  · rwa [Marked,readOff,hoff]
  · exact .inl (by rw [readOff,hoff]; rfl)
  · exact marked_own hoff hsize

/-- A migrated log is recovered whole, whatever of the two its marker is. -/
theorem recover_migrated (hids : IdsMatch items) (hsource : Sourced items)
    (hsize : (migratedLog items).length ≤ fileMax) (hmark : Marked d items) :
    ∃ d', recover d (migratedLog items) = (d',.ok ⟨items,(migratedLog items).length⟩) ∧
      d'.log = some (migratedLog items) := by
  have hscan := scan_migrated hids hsource hsize
  rcases hmark with hnone | hown
  · refine ⟨_,recover_healed hsize hnone hscan,?_⟩
    simp [writeOff]
  · refine ⟨_,recover_fenced hsize hown (migratedLog_header items).1 le_rfl ?_ rfl,?_⟩
    · rw [List.take_length]
      exact scanLog_eq.mp hscan
    · simp

/-- A crash in that recovery leaves the log whole. -/
theorem stands_recovering (hids : IdsMatch items) (hsource : Sourced items)
    (hsize : (migratedLog items).length ≤ fileMax) (hmark : Marked d₁ items)
    (hlog : d₁.log = some (migratedLog items))
    (hoff : d₁.off = d.off ∨ d₁.off = none ∨
      d₁.off = some (offHeader items.length (migratedLog items).length))
    (h : RecoverCrash d₁ (migratedLog items) d') : Stands d log items d' := by
  have hscan := scan_migrated hids hsource hsize
  cases h with
  | before => exact .migrated hlog hoff
  | @healing items' rest _ _ hscan' hcrash =>
      obtain ⟨rfl,rfl⟩ := Prod.mk.inj (hscan.symm.trans hscan')
      have hwhole : (migratedLog items).take ((migratedLog items).length-([] : Bytes).length) =
          migratedLog items := by simp
      rw [hwhole] at hcrash
      cases hcrash with
      | now => exact .migrated rfl hoff
      | torn _ _ _ junk => exact .migrated rfl hoff
      | after hcrash =>
          cases hcrash with
          | now => exact .migrated rfl hoff
          | torn _ _ _ junk => exact .migrated rfl hoff
          | after hcrash =>
              cases hcrash
              exact .migrated rfl (.inr (.inr (by simp [DiskAction.apply])))
  | @truncated _ _ mark hmark' hok =>
      rcases hmark with hnone | hown
      · rw [hnone] at hmark'
        cases hmark'
      · rw [recover_fenced hsize hown (migratedLog_header items).1 le_rfl
          (by rw [List.take_length]; exact scanLog_eq.mp hscan) rfl] at hok
        obtain ⟨rfl,-⟩ := Prod.mk.inj hok
        exact .migrated (by simp) hoff

section Kept
variable (h : HoldsLegacy version d log) (hfate : fateOf version d log = some items)
  (hsize : (migratedLog items).length ≤ fileMax) (hsource : Sourced items)
  (hmark : Marked d items)
include h hfate hsize hsource hmark

/-- One more crash. -/
theorem stands_step (hstands : Stands d log items d₁) (hcrash : OpenCrash d₁ d') :
    Stands d log items d' := by
  have hids := fate_idsMatch hfate
  obtain ⟨-,htake,-⟩ := migratedLog_header items
  cases hstands with
  | legacy hlog hoff =>
      have hholds : HoldsLegacy version d₁ log := ⟨hlog,h.header,h.size,h.legacy⟩
      have hfate₁ : fateOf version d₁ log = some items := by
        rw [← hfate,fateOf,fateOf,legacyFence,legacyFence,hoff]
      obtain ⟨hmigrate,hactions⟩ := migrate_of_fate hholds hfate₁ hsize
      cases hcrash with
      | before => exact .legacy hlog hoff
      | discarding => exact .legacy hlog hoff
      | migrating hlog' hversion hcrash =>
          obtain rfl := Option.some.inj (hlog.symm.trans hlog')
          obtain rfl := Option.some.inj (h.legacy.symm.trans hversion)
          rw [hactions] at hcrash
          cases hcrash with
          | now => exact .legacy hlog hoff
          | torn _ _ _ junk => exact .legacy hlog hoff
          | after hcrash =>
              cases hcrash with
              | now => exact .legacy hlog hoff
              | torn _ _ _ junk => exact .legacy hlog hoff
              | after hcrash =>
                  cases hcrash with
                  | now => exact .migrated rfl (.inl hoff)
                  | torn _ _ _ junk => exact .migrated rfl (.inl hoff)
                  | after hcrash =>
                      cases hcrash
                      exact .migrated rfl (.inr (.inl rfl))
      | recovering hready hlog' hcrash =>
          cases hready with
          | current hlog₁ hheader =>
              obtain rfl := Option.some.inj (hlog.symm.trans hlog₁)
              rw [legacy_not_accepted h.legacy] at hheader
              cases hheader
          | migrated hlog₁ hversion hmigrate' =>
              obtain rfl := Option.some.inj (hlog.symm.trans hlog₁)
              obtain rfl := Option.some.inj (h.legacy.symm.trans hversion)
              rw [hmigrate] at hmigrate'
              obtain ⟨rfl,-⟩ := Prod.mk.inj hmigrate'
              obtain rfl := Option.some.inj hlog'
              exact stands_recovering hids hsource hsize (.inl rfl) rfl (.inr (.inl rfl)) hcrash
  | migrated hlog hoff =>
      have hmark₁ := marked_of_stands hsize hmark hoff
      cases hcrash with
      | before => exact .migrated hlog hoff
      | discarding => exact .migrated hlog hoff
      | migrating hlog' hversion hcrash =>
          obtain rfl := Option.some.inj (hlog.symm.trans hlog')
          rw [htake] at hversion
          cases hversion
      | recovering hready hlog' hcrash =>
          cases hready with
          | current hlog₁ hheader =>
              obtain rfl := Option.some.inj (hlog.symm.trans hlog')
              have hstart : (discardStaging d₁).log = some (migratedLog items) := hlog
              have hmark₂ : Marked (discardStaging d₁) items := hmark₁
              exact stands_recovering hids hsource hsize hmark₂ hstart hoff hcrash
          | migrated hlog₁ hversion hmigrate' =>
              obtain rfl := Option.some.inj (hlog.symm.trans hlog₁)
              rw [htake] at hversion
              cases hversion

/-- What crashes leave opens with the entries. -/
theorem opens_of_stands (hstands : Stands d log items d₁) : OpensMigrated d₁ items := by
  have hids := fate_idsMatch hfate
  cases hstands with
  | legacy hlog hoff =>
      have hholds : HoldsLegacy version d₁ log := ⟨hlog,h.header,h.size,h.legacy⟩
      have hfate₁ : fateOf version d₁ log = some items := by
        rw [← hfate,fateOf,fateOf,legacyFence,legacyFence,hoff]
      obtain ⟨hmigrate,-⟩ := migrate_of_fate hholds hfate₁ hsize
      obtain ⟨d',hrecover,hfile⟩ := recover_migrated hids hsource hsize
        (d := ⟨some (migratedLog items),none,none,none⟩) (.inl rfl)
      refine ⟨d',⟨items,(migratedLog items).length⟩,?_,rfl,hfile⟩
      rw [open_legacy hholds hmigrate]
      exact (openCurrent_migrated rfl).trans hrecover
  | migrated hlog hoff =>
      obtain ⟨d',hrecover,hfile⟩ := recover_migrated hids hsource hsize
        (d := discardStaging d₁) (marked_of_stands hsize hmark hoff)
      exact ⟨d',⟨items,(migratedLog items).length⟩,(open_migrated hlog).trans hrecover,rfl,hfile⟩

end Kept

/-- A crash leaves what is refused as it is. -/
theorem refused_step (h : HoldsLegacy version d₁ log) (hfate : fateOf version d₁ log = none)
    (hcrash : OpenCrash d₁ d') : d'.log = d₁.log ∧ d'.off = d₁.off := by
  rcases @migrateLedger_fate version (discardStaging d₁) log h.file h.size with
    ⟨items,hitems,-⟩ | ⟨-,⟨d₂,hmigrate,-⟩,hactions⟩
  · rw [fateOf_discard,hfate] at hitems
    cases hitems
  cases hcrash with
  | before => exact ⟨rfl,rfl⟩
  | discarding => exact ⟨rfl,rfl⟩
  | migrating hlog hversion hcrash =>
      obtain rfl := Option.some.inj (h.file.symm.trans hlog)
      obtain rfl := Option.some.inj (h.legacy.symm.trans hversion)
      rcases hactions with hactions | hactions
      · rw [hactions] at hcrash
        cases hcrash
        exact ⟨rfl,rfl⟩
      · rw [hactions] at hcrash
        cases hcrash with
        | now => exact ⟨rfl,rfl⟩
        | torn _ _ _ junk => exact ⟨rfl,rfl⟩
        | after hcrash =>
            cases hcrash with
            | now => exact ⟨rfl,rfl⟩
            | torn _ _ _ junk => exact ⟨rfl,rfl⟩
            | after hcrash =>
                cases hcrash
                exact ⟨rfl,rfl⟩
  | recovering hready hlog' hcrash =>
      cases hready with
      | current hlog hheader =>
          obtain rfl := Option.some.inj (h.file.symm.trans hlog)
          rw [legacy_not_accepted h.legacy] at hheader
          cases hheader
      | migrated hlog hversion hmigrate' =>
          obtain rfl := Option.some.inj (h.file.symm.trans hlog)
          obtain rfl := Option.some.inj (h.legacy.symm.trans hversion)
          rw [hmigrate] at hmigrate'
          cases (Prod.mk.inj hmigrate').2

end Runs

/-! ## Migration keeps the meaning -/

section Main
variable {version : ℕ} {d : Disk} {log : Bytes} {items : List Item}

/-- A recovery that keeps a whole log had a marker at its end, or none. -/
theorem marked_of_recover {d' : Disk} {h : Handle}
    (hok : recover d (migratedLog items) = (d',.ok h)) (hitems : h.items = items)
    (hfile : d'.log = some (migratedLog items)) : Marked d items := by
  cases hmark : readOff d with
  | none => exact .inl hmark
  | some mark =>
      obtain ⟨count,offset⟩ := mark
      unfold recover at hok
      rw [hmark] at hok
      simp only at hok
      split_ifs at hok with hmax hbounds hrest hcount
      · cases (Prod.mk.inj hok).2
      · cases (Prod.mk.inj hok).2
      · cases (Prod.mk.inj hok).2
      · cases (Prod.mk.inj hok).2
      · obtain ⟨rfl,hh⟩ := Prod.mk.inj hok
        obtain rfl := Except.ok.inj hh
        have hlength := congrArg List.length (Option.some.inj hfile)
        rw [List.length_take] at hlength
        have hoffset : offset = (migratedLog items).length := by omega
        rw [not_not] at hcount
        have hall : (scanLog (((migratedLog items).take offset).drop ledgerHeaderSize)).1 = items :=
          hitems
        refine .inr ?_
        rw [hmark,← hcount,hall,hoffset]

/-- What opening a legacy log right away keeps, and what it keeps after a crash between the
replacing of the log and the removal of the marker. -/
theorem migratable_of_fulfilled (h : HoldsLegacy version d log)
    (hfate : fateOf version d log = some items) (hsize : (migratedLog items).length ≤ fileMax)
    (hkept : ∀ d', Crashed d d' → OpensMigrated d' items) : Sourced items ∧ Marked d items := by
  obtain ⟨hmigrate,hactions⟩ := migrate_of_fate h hfate hsize
  constructor
  · obtain ⟨d',handle,hopen,hitems,-⟩ := hkept d .refl
    rw [open_legacy h hmigrate] at hopen
    have hrecover : recover ⟨some (migratedLog items),none,none,none⟩ (migratedLog items) =
        (d',.ok handle) := (openCurrent_migrated rfl).symm.trans hopen
    rw [recover_healed hsize rfl (Prod.mk.eta (p := scanLog _)).symm] at hrecover
    obtain rfl := Except.ok.inj (Prod.mk.inj hrecover).2
    exact sourced_of_scan hitems
  · have hcrash : OpenCrash d ⟨some (migratedLog items),none,d.off,none⟩ := by
      refine .migrating h.file h.legacy ?_
      rw [hactions]
      exact .after (.after (.now _ _))
    obtain ⟨d',handle,hopen,hitems,hfile⟩ := hkept _ (.single hcrash)
    rw [open_migrated rfl] at hopen
    have hmark := marked_of_recover hopen hitems hfile
    exact hmark

/-- Opening a legacy log keeps what it says, or refuses it and leaves it alone, through any
crashes, exactly where no entry lacks a source and no marker of the current version misleads. -/
theorem migration_keeps_meaning (h : HoldsLegacy version d log)
    (hroom : ∀ items, Fate version d log (some items) →
      (migratedLog items).length ≤ fileMax) :
    (∀ o, Fate version d log o → Fulfilled d o) ↔ Migratable version d log := by
  constructor
  · intro hfulfilled items hfate
    have hkept : ∀ d', Crashed d d' → OpensMigrated d' items := hfulfilled _ hfate
    exact migratable_of_fulfilled h (fate_iff.mp hfate).symm (hroom items hfate) hkept
  · intro hmigratable o hfate
    have hof := (fate_iff.mp hfate).symm
    cases o with
    | some items =>
        obtain ⟨hsource,hmark⟩ := hmigratable items hfate
        have hsize := hroom items hfate
        have hstands : ∀ d', Crashed d d' → Stands d log items d' := by
          intro d' hcrashed
          induction hcrashed with
          | refl => exact .legacy h.file rfl
          | tail _ hstep ih => exact stands_step h hof hsize hsource hmark ih hstep
        exact fun d' hcrashed => opens_of_stands h hof hsize hsource hmark (hstands d' hcrashed)
    | none =>
        have hsame : ∀ d', Crashed d d' → d'.log = d.log ∧ d'.off = d.off := by
          intro d' hcrashed
          induction hcrashed with
          | refl => exact ⟨rfl,rfl⟩
          | @tail d₁ d₂ _ hstep ih =>
              obtain ⟨hlog,hoff⟩ := ih
              have hholds : HoldsLegacy version d₁ log :=
                ⟨hlog.trans h.file,h.header,h.size,h.legacy⟩
              have hof₁ : fateOf version d₁ log = none := by
                rw [← hof,fateOf,fateOf,legacyFence,legacyFence,hoff]
              obtain ⟨hlog',hoff'⟩ := refused_step hholds hof₁ hstep
              exact ⟨hlog'.trans hlog,hoff'.trans hoff⟩
        intro d' hcrashed
        obtain ⟨hlog,hoff⟩ := hsame d' hcrashed
        have hholds : HoldsLegacy version d' log := ⟨hlog.trans h.file,h.header,h.size,h.legacy⟩
        have hof' : fateOf version d' log = none := by
          rw [← hof,fateOf,fateOf,legacyFence,legacyFence,hoff]
        exact ⟨hlog,hoff,refused_of_fate hholds hof'⟩

end Main

namespace Sample

def fieldsFrom (source : Bytes) : Bytes :=
  storeU64 1++(storeString source++(storeString [100]++(storeU64 5++(storeU64 7++
    (storeU32 1++[Outcome.pending.toByte])))))

/-- A log of version 2 with an entry, a patch of it and a torn tail. -/
def patchedLog : Bytes :=
  fileMagicPrefix++(50::storeU32 2)++
    (legacyFraming 2).encode ⟨recordEntry,fieldsFrom [97]++storeString [104,105]⟩++
    (legacyFraming 2).encode (patchFrame 1 .learned)++[9,9]

example : legacyVersion (patchedLog.take ledgerHeaderSize) = some 2 := by decide +kernel

def patchedItem : Item where
  entry := ⟨1,5,7,1,.learned,CText.truncate (CString.ofRaw [97]),
    CText.truncate (CString.ofRaw [100])⟩
  payload := .text ⟨[104,105],by decide⟩
  context := .empty

theorem migration_keeps_meaning_sample :
    Fate 2 ⟨some patchedLog,none,none,none⟩ patchedLog (some [patchedItem]) ∧
      Fulfilled ⟨some patchedLog,none,none,none⟩ (some [patchedItem]) := by
  have hof : some [patchedItem] = fateOf 2 ⟨some patchedLog,none,none,none⟩ patchedLog := by
    decide +kernel
  have hfate := fate_iff.mpr hof
  refine ⟨hfate,?_⟩
  have hone : ∀ items, Fate 2 ⟨some patchedLog,none,none,none⟩ patchedLog (some items) →
      items = [patchedItem] := fun items h =>
    Option.some.inj ((fate_iff.mp h).trans hof.symm)
  refine (migration_keeps_meaning ⟨rfl,by decide +kernel,by decide +kernel,by decide +kernel⟩
    ?_).mpr ?_ _ hfate
  · intro items h
    rw [hone items h]
    decide +kernel
  · intro items h
    rw [hone items h]
    refine ⟨?_,.inl rfl⟩
    intro it hit
    rw [List.mem_singleton.mp hit]
    decide

/-- A log of version 1 with an entry whose source id is a single NUL. -/
def blankLog : Bytes :=
  fileMagicPrefix++(49::storeU32 1)++(legacyFraming 1).encode ⟨recordEntry,fieldsFrom [0]⟩

def blankItem : Item where
  entry := ⟨1,5,7,1,.pending,emptyText,CText.truncate (CString.ofRaw [100])⟩
  payload := .text .none
  context := .empty

/-- The entry without a source is dropped at once; the marker of a current log that lies beside
a legacy one fences its entries away after a crash. -/
theorem migration_loses :
    (Fate 1 ⟨some blankLog,none,none,none⟩ blankLog (some [blankItem]) ∧
      ¬Fulfilled ⟨some blankLog,none,none,none⟩ (some [blankItem])) ∧
    Fate 2 ⟨some patchedLog,none,some (offHeader 0 12),none⟩ patchedLog (some [patchedItem]) ∧
      ¬Fulfilled ⟨some patchedLog,none,some (offHeader 0 12),none⟩ (some [patchedItem]) := by
  refine ⟨⟨fate_iff.mpr (by decide +kernel),fun hkept => ?_⟩,
    fate_iff.mpr (by decide +kernel),fun hkept => ?_⟩
  · obtain ⟨d',h,hopen,hitems,-⟩ := hkept _ .refl
    have hdropped : ((openLedger migrateLedger ⟨some blankLog,none,none,none⟩).2.toOption.map
        Handle.items) = some [] := by decide +kernel
    rw [hopen] at hdropped
    cases hitems.symm.trans (Option.some.inj hdropped)
  · have hactions : migrateActions 2 ⟨some patchedLog,none,some (offHeader 0 12),none⟩ =
        [.stageLog (migratedLog [patchedItem]),.publishLog,.removeOff] := by decide +kernel
    have hcrash : OpenCrash ⟨some patchedLog,none,some (offHeader 0 12),none⟩
        ⟨some (migratedLog [patchedItem]),none,some (offHeader 0 12),none⟩ := by
      have hversion : legacyVersion (patchedLog.take ledgerHeaderSize) = some 2 := by
        decide +kernel
      refine .migrating rfl hversion ?_
      exact hactions ▸ .after (.after (.now _ _))
    obtain ⟨d',h,hopen,hitems,-⟩ := hkept _ (.single hcrash)
    have hdropped : ((openLedger migrateLedger ⟨some (migratedLog [patchedItem]),none,
        some (offHeader 0 12),none⟩).2.toOption.map Handle.items) = some [] := by decide +kernel
    rw [hopen] at hdropped
    cases hitems.symm.trans (Option.some.inj hdropped)

end Sample

end Atperson.Ledger
