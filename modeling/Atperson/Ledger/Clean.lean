import Atperson.Ledger.Machine

/-!
# Ledgers whose commits all succeeded

A ledger is clean when it is opened: its log decodes whole to what is in memory and the
marker stands at its end. Every operation that meets no I/O error keeps it so. A clean
ledger reopens to exactly what it has in memory.
-/
namespace Atperson.Ledger
open Wire

section Clean
variable {s s' : Session} {log : Bytes}

theorem Clean.published (h : Clean s log) {mem' : List Item} {f : Frame} (hf : framing.Fits f)
    (ha : applyRecord s.handle.items f = some mem') (hcount : mem'.length ≤ 2^63)
    (hc : CommitWritten s s' (buildRecord f)
      (some (offHeader mem'.length (s.handle.committedOffset+(buildRecord f).length)))) :
    Clean (s'.withItems mem') (log++buildRecord f) := by
  have hsize : (log++buildRecord f).length ≤ fileMax := by
    rw [List.length_append,← h.logBytes]
    exact hc.bounded
  refine ⟨by rw [Session.withItems,hc.log,h.logBytes],hsize,header_extend h.header _,hcount,
    h.decodes.append_record h.header.1 hf ha,?_,?_⟩
  · rw [List.length_append,← h.offset]
    exact hc.offset
  · rw [List.length_append,← h.offset]
    show readOff s'.disk = some (mem'.length,s.handle.committedOffset+(buildRecord f).length)
    rw [List.length_append,← h.offset] at hsize
    simp only [fileMax] at hsize
    rw [readOff,hc.off]
    exact parseOff_offHeader (by omega) (by omega)

/-- The record an append commits continues the entries it was decided on. -/
theorem append_accepted {items : List Item} {a : AppendArgs} {v : Observation}
    (hd : appendDecision items a = .ok v) :
    applyRecord items (entryFrame v.item) = some (items++[v.item]) ∧
      (items++[v.item]).length ≤ 2^63 := by
  have hfresh := appendDecision_ok hd
  refine ⟨applyRecord_entry v.sourced hfresh.id_toNat ?_,by simpa using hfresh.reserved⟩
  simpa [reserveEntries] using hfresh.reserved

theorem change_accepted {items : List Item} {id : UInt64} {byte : UInt8} {o : Outcome}
    (hd : setOutcomeDecision items id byte = .ok o) :
    applyRecord items (patchFrame id o) = some (setOutcomeAt (id.toNat-1) o items) := by
  obtain ⟨it,hch⟩ := setOutcomeDecision_ok hd
  exact applyRecord_patch hch.nonzero hch.at_id hch.allowed

theorem Clean.image {items : List Item} (hids : IdsMatch items) (hs : Sourced items)
    (hcount : items.length ≤ 2^63) (hsize : (logImage items).length ≤ fileMax)
    (hitems : s.handle.items = items) (hfile : s.disk.log = some (logImage items))
    (hoff : s.handle.committedOffset = (logImage items).length)
    (hmark : s.disk.off = some (offHeader items.length (logImage items).length)) :
    Clean s (logImage items) := by
  subst hitems
  refine ⟨hfile,hsize,logImage_header _,hcount,decodes_logImage hids hs hcount,hoff,?_⟩
  simp only [fileMax] at hsize
  rw [readOff,hmark]
  exact parseOff_offHeader (by omega) (by omega)

/-- A clean ledger reopens to what it has in memory, on the same bytes. -/
theorem Clean.reopen (h : Clean s log) (migrate : ℕ → Disk → Disk×Status) :
    openLedger migrate s.disk = (discardStaging s.disk,.ok s.handle) := by
  have hm : readOff (discardStaging s.disk) = some (s.handle.items.length,log.length) := h.marker
  rw [openLedger_current migrate h.file h.header.1 h.header.2,
    recover_fenced h.size hm h.header.1 le_rfl (by rw [List.take_length]; exact h.decodes) rfl,
    List.take_length,← h.offset]
  refine Prod.ext ?_ rfl
  rw [← h.file]
  rfl

end Clean

/-! ## What an operation without I/O errors can do -/

/-- One durable step that went through. -/
inductive Advance (migrate : ℕ → Disk → Disk×Status) (s : Session) : Session → Prop
  | appended {a : AppendArgs} {v : Observation} {s' : Session} :
      appendDecision s.handle.items a = .ok v →
      CommitWritten s s' (buildRecord (entryFrame v.item))
        (some (offHeader (s.handle.items++[v.item]).length
          (s.handle.committedOffset+(buildRecord (entryFrame v.item)).length))) →
      Advance migrate s (s'.withItems (s.handle.items++[v.item]))
  | changed {id : UInt64} {byte : UInt8} {o : Outcome} {s' : Session} :
      setOutcomeDecision s.handle.items id byte = .ok o →
      CommitWritten s s' (buildRecord (patchFrame id o))
        (some (offHeader (setOutcomeAt (id.toNat-1) o s.handle.items).length
          (s.handle.committedOffset+(buildRecord (patchFrame id o)).length))) →
      Advance migrate s (s'.withItems (setOutcomeAt (id.toNat-1) o s.handle.items))
  | rewritten {s' : Session} : List.Forall₂ Rewritten s.handle.items s'.handle.items →
      s'.disk.log = some (logImage s'.handle.items) →
      s'.disk.off = some (offHeader s'.handle.items.length (logImage s'.handle.items).length) →
      s'.handle.committedOffset = (logImage s'.handle.items).length →
      (logImage s'.handle.items).length ≤ fileMax → Advance migrate s s'
  | reopened {s' : Session} : reopen migrate s.disk = some s' → Advance migrate s s'

/-- Any number of durable steps. -/
abbrev Advances (migrate : ℕ → Disk → Disk×Status) : Session → Session → Prop :=
  Relation.ReflTransGen (Advance migrate)

section Advance
variable {migrate : ℕ → Disk → Disk×Status} {s s' : Session}

theorem append_advances {fault : Option CommitFault} {a : AppendArgs}
    (hok : (Ledger.append fault s a).2.status ≠ .io) :
    Advances migrate s (Ledger.append fault s a).1 := by
  rcases append_cases fault s a with ⟨reply,-,he⟩ | ⟨v,ok,hd,-,hc,hst⟩
  · rw [he]
  · rw [hst] at hok
    generalize (Ledger.append fault s a).1 = s' at hc ⊢
    cases hc with
    | torn => exact absurd rfl hok
    | written => exact absurd rfl hok
    | published hc => exact .single (.appended hd hc)

theorem setOutcome_advances {fault : Option CommitFault} {id : UInt64} {byte : UInt8}
    (hok : (Ledger.setOutcome fault s id byte).2 ≠ .io) :
    Advances migrate s (Ledger.setOutcome fault s id byte).1 := by
  rcases setOutcome_cases fault s id byte with ⟨status,-,he⟩ | ⟨o,it,ok,hd,-,hc,hst⟩
  · rw [he]
  · rw [hst] at hok
    generalize (Ledger.setOutcome fault s id byte).1 = s' at hc ⊢
    cases hc with
    | torn => exact absurd rfl hok
    | written => exact absurd rfl hok
    | published hc => exact .single (.changed hd hc)

theorem withdrawWhere_advances (matching : LedgerEntry → Bool)
    (faults : ℕ → Option CommitFault) (n : ℕ)
    (hok : ∀ st ∈ (withdrawWhere matching faults n s).2, st ≠ .io) :
    Advances migrate s (withdrawWhere matching faults n s).1 := by
  induction n with
  | zero => exact .refl
  | succ n ih =>
      unfold withdrawWhere at hok ⊢
      simp only at hok ⊢
      split
      · rename_i hnone
        rw [hnone] at hok
        exact ih hok
      · rename_i it hit
        rw [hit] at hok
        simp only at hok
        split
        · rename_i hc
          rw [if_pos hc] at hok
          have hprev := ih fun st hst => hok st (List.mem_append_left _ hst)
          exact hprev.trans (setOutcome_advances
            (hok _ (List.mem_append_right _ List.mem_cons_self)))
        · rename_i hc
          rw [if_neg hc] at hok
          exact ih hok

theorem Compacted.advances {logOpen : Bool} {status : Status}
    (hc : Compacted s s' logOpen status) (hok : status ≠ .io) :
    Advances migrate s s' ∧ logOpen = true := by
  cases hc with
  | unchanged => exact ⟨.refl,rfl⟩
  | kept => exact absurd rfl hok
  | unmarked => exact absurd rfl hok
  | swapped => exact absurd rfl hok
  | published hrw hlog hmark hoff hsize =>
      exact ⟨.single (.rewritten hrw hlog hmark hoff hsize),rfl⟩

theorem afterRewrite_advances {r : CompactReply} {statuses : List Status}
    (hr : afterRewrite migrate r = some (s',statuses)) (hok : ∀ st ∈ statuses, st ≠ .io)
    (hc : Compacted s r.session r.logOpen r.status) : Advances migrate s s' := by
  unfold afterRewrite at hr
  split at hr
  · cases hr
    exact (hc.advances (hok _ List.mem_cons_self)).1
  · rename_i hclosed
    obtain ⟨s'',-,he⟩ := Option.map_eq_some_iff.mp hr
    cases he
    have hadv : Advances migrate s _ ∧ _ := hc.advances (hok _ List.mem_cons_self)
    exact absurd hadv.2 hclosed

theorem Op.run_advances {faults : Faults} {op : Op} {statuses : List Status}
    (hr : op.run migrate faults s = some (s',statuses)) (hok : ∀ st ∈ statuses, st ≠ .io) :
    Advances migrate s s' := by
  cases op with
  | append a =>
      cases hr
      exact append_advances (hok _ List.mem_cons_self)
  | setOutcome id byte =>
      cases hr
      exact setOutcome_advances (hok _ List.mem_cons_self)
  | withdraw id =>
      cases hr
      exact setOutcome_advances (hok _ List.mem_cons_self)
  | withdrawSource source =>
      have hw : _ → Advances migrate s _ :=
        withdrawWhere_advances (fromSource source) faults.commits s.handle.items.length
      rw [Option.some.inj hr] at hw
      exact hw hok
  | withdrawAuthor author =>
      have hw : _ → Advances migrate s _ :=
        withdrawWhere_advances (fromAuthor author) faults.commits s.handle.items.length
      rw [Option.some.inj hr] at hw
      exact hw hok
  | compact wantReport => exact afterRewrite_advances hr hok (compactRelease_compacted _ _ _ _)
  | releasePayloads wantReport maxBytes =>
      rcases releasePayloads_cases faults.rewriting wantReport s maxBytes with
        ⟨hsame,hopen,-⟩ | ⟨-,-,he⟩
      · rw [Op.run,afterRewrite,if_pos hopen,hsame] at hr
        cases hr
        exact .refl
      · refine afterRewrite_advances hr hok ?_
        rw [he]
        exact compactRelease_compacted _ _ _ _
  | reopen =>
      obtain ⟨s'',ho,he⟩ := Option.map_eq_some_iff.mp hr
      cases he
      exact .single (.reopened ho)

/-- A run that meets no I/O error is a sequence of steps that went through. -/
theorem runOps_advances {ops : List (Faults×Op)} {statuses : List Status}
    (hr : runOps migrate s ops = some (s',statuses)) (hok : ∀ st ∈ statuses, st ≠ .io) :
    Advances migrate s s' := by
  induction ops generalizing s statuses with
  | nil =>
      cases hr
      exact .refl
  | cons step rest ih =>
      obtain ⟨faults,op⟩ := step
      unfold runOps at hr
      split at hr
      · cases hr
      · rename_i s1 st1 hone
        obtain ⟨⟨s2,st2⟩,htail,he⟩ := Option.map_eq_some_iff.mp hr
        cases he
        exact (Op.run_advances hone fun st hst => hok st (List.mem_append_left _ hst)).trans
          (ih htail fun st hst => hok st (List.mem_append_right _ hst))

/-- What every step keeps, every run without I/O errors keeps. -/
theorem Advances.invariant {P : Session → Prop} (h : Advances migrate s s') (hs : P s)
    (step : ∀ a b, P a → Advance migrate a b → P b) : P s' := by
  induction h with
  | refl => exact hs
  | tail _ hlast ih => exact step _ _ ih hlast

end Advance

/-! ## Sound ledgers -/

/-- A clean session whose entries all have a source. -/
structure Sound (s : Session) : Prop where
  clean : ∃ log, Clean s log
  sourced : Sourced s.handle.items

section Sound
variable {migrate : ℕ → Disk → Disk×Status} {s s' : Session}

theorem sound_created : Sound createdSession :=
  ⟨openLedger_clean (openLedger_fresh noMigration),by simp [Sourced,createdSession]⟩

theorem Sound.reopen (h : Sound s) (ho : Ledger.reopen migrate s.disk = some s') :
    Sound s' ∧ s'.handle = s.handle ∧ s'.disk.log = s.disk.log := by
  obtain ⟨log,hclean⟩ := h.clean
  rw [Ledger.reopen,hclean.reopen migrate] at ho
  obtain rfl := Option.some.inj ho
  exact ⟨⟨⟨log,hclean.file,hclean.size,hclean.header,hclean.count,hclean.decodes,hclean.offset,
    hclean.marker⟩,h.sourced⟩,rfl,rfl⟩

theorem Sound.advance (h : Sound s) (hstep : Advance migrate s s') : Sound s' := by
  obtain ⟨log,hclean⟩ := h.clean
  cases hstep with
  | @appended a v s' hd hc =>
      obtain ⟨ha,hcount⟩ := append_accepted hd
      exact ⟨⟨_,hclean.published (entryFrame_fits _) ha hcount hc⟩,h.sourced.append v.sourced⟩
  | @changed id byte o s' hd hc =>
      exact ⟨⟨_,hclean.published (patchFrame_fits id o) (change_accepted hd)
        (by simpa using hclean.count) hc⟩,h.sourced.setOutcomeAt _ _⟩
  | rewritten hrw hlog hmark hoff hsize =>
      have he := rewritten_entries hrw
      have hsourced := h.sourced.of_entries he
      exact ⟨⟨_,Clean.image (hclean.idsMatch.of_entries he) hsourced
        (by rw [length_of_entries he]; exact hclean.count) hsize rfl hlog hoff hmark⟩,hsourced⟩
  | reopened ho => exact (h.reopen ho).1

/-- Every run that meets no I/O error leaves a sound ledger. -/
theorem Sound.runOps (h : Sound s) {ops : List (Faults×Op)} {statuses : List Status}
    (hr : Ledger.runOps migrate s ops = some (s',statuses)) (hok : ∀ st ∈ statuses, st ≠ .io) :
    Sound s' :=
  (runOps_advances hr hok).invariant h fun _ _ ha hstep => ha.advance hstep

end Sound

end Atperson.Ledger
