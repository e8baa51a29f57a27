import Atperson.Ledger.Release

/-!
# Numbered ledgers and compaction

Whatever fails on the way, the entries in memory stay numbered from one and few enough for
their arrays. That is all a compaction needs: when it succeeds the disk holds the image of
the memory, reopening gives the memory back, and compacting again writes the same bytes.

The image can be read back only if every entry has a source, as every append demands and
every run without I/O errors keeps.
-/
namespace Atperson.Ledger
open Wire

structure Numbered (s : Session) : Prop where
  ids : IdsMatch s.handle.items
  count : s.handle.items.length ≤ 2^63

section Numbered
variable {migrate : ℕ → Disk → Disk×Status} {s s' : Session}

theorem Numbered.of_entries (h : Numbered s)
    (he : s'.handle.items.map Item.entry = s.handle.items.map Item.entry) : Numbered s' :=
  ⟨h.ids.of_entries he,by rw [length_of_entries he]; exact h.count⟩

theorem numbered_opened {d d' : Disk} {h : Handle} (ho : openLedger migrate d = (d',.ok h)) :
    Numbered ⟨d',h⟩ := by
  obtain ⟨log,hclean⟩ := openLedger_clean ho
  exact ⟨hclean.idsMatch,hclean.count⟩

theorem numbered_reopened (ho : reopen migrate s.disk = some s') : Numbered s' := by
  unfold reopen at ho
  split at ho
  · rename_i hopen
    obtain rfl := Option.some.inj ho
    exact numbered_opened hopen
  · cases ho

theorem Numbered.append (h : Numbered s) (fault : Option CommitFault) (a : AppendArgs) :
    Numbered (Ledger.append fault s a).1 := by
  rcases append_cases fault s a with ⟨reply,-,he⟩ | ⟨v,ok,-,hfresh,hc,-⟩
  · rw [he]
    exact h
  · have hitems := hc.items
    cases ok with
    | false => exact ⟨by rw [hitems]; exact h.ids,by rw [hitems]; exact h.count⟩
    | true =>
        refine ⟨by rw [hitems]; exact h.ids.append hfresh.id_toNat,?_⟩
        rw [hitems,if_pos rfl,List.length_append,List.length_singleton]
        exact hfresh.reserved

theorem Numbered.setOutcome (h : Numbered s) (fault : Option CommitFault) (id : UInt64)
    (byte : UInt8) : Numbered (Ledger.setOutcome fault s id byte).1 := by
  rcases setOutcome_cases fault s id byte with ⟨status,-,he⟩ | ⟨o,it,ok,-,-,hc,-⟩
  · rw [he]
    exact h
  · have hitems := hc.items
    cases ok with
    | false => exact ⟨by rw [hitems]; exact h.ids,by rw [hitems]; exact h.count⟩
    | true =>
        refine ⟨by rw [hitems]; exact h.ids.setOutcomeAt _ _,?_⟩
        rw [hitems,if_pos rfl,setOutcomeAt_length]
        exact h.count

theorem Numbered.withdrawWhere (h : Numbered s) (matching : LedgerEntry → Bool)
    (faults : ℕ → Option CommitFault) (n : ℕ) :
    Numbered (Ledger.withdrawWhere matching faults n s).1 := by
  induction n with
  | zero => exact h
  | succ n ih =>
      unfold Ledger.withdrawWhere
      simp only
      split
      · exact ih
      · split
        · exact ih.setOutcome _ _ _
        · exact ih

theorem Numbered.afterRewrite (h : Numbered s) {r : CompactReply}
    (hc : Compacted s r.session r.logOpen r.status) {statuses : List Status}
    (hr : Ledger.afterRewrite migrate r = some (s',statuses)) : Numbered s' := by
  unfold Ledger.afterRewrite at hr
  split at hr
  · cases hr
    exact h.of_entries hc.entries
  · obtain ⟨s'',ho,he⟩ := Option.map_eq_some_iff.mp hr
    cases he
    exact numbered_reopened ho

theorem Numbered.run (h : Numbered s) {faults : Faults} {op : Op} {statuses : List Status}
    (hr : op.run migrate faults s = some (s',statuses)) : Numbered s' := by
  cases op with
  | append a =>
      cases hr
      exact h.append _ a
  | setOutcome id byte =>
      cases hr
      exact h.setOutcome _ id byte
  | withdraw id =>
      cases hr
      exact h.setOutcome _ id _
  | withdrawSource source =>
      have hw := h.withdrawWhere (fromSource source) faults.commits s.handle.items.length
      rwa [Option.some.inj hr] at hw
  | withdrawAuthor author =>
      have hw := h.withdrawWhere (fromAuthor author) faults.commits s.handle.items.length
      rwa [Option.some.inj hr] at hw
  | compact wantReport => exact h.afterRewrite (compactRelease_compacted _ _ _ _) hr
  | releasePayloads wantReport maxBytes =>
      rcases releasePayloads_cases faults.rewriting wantReport s maxBytes with
        ⟨hsame,hopen,-⟩ | ⟨-,-,he⟩
      · rw [Op.run,Ledger.afterRewrite,if_pos hopen,hsame] at hr
        cases hr
        exact h
      · rw [Op.run,he] at hr
        exact h.afterRewrite (compactRelease_compacted _ _ _ _) hr
  | reopen =>
      obtain ⟨s'',ho,he⟩ := Option.map_eq_some_iff.mp hr
      cases he
      exact numbered_reopened ho

/-- Every run keeps the entries numbered, with any failures. -/
theorem Numbered.runOps (h : Numbered s) {ops : List (Faults×Op)} {statuses : List Status}
    (hr : Ledger.runOps migrate s ops = some (s',statuses)) : Numbered s' := by
  induction ops generalizing s statuses with
  | nil =>
      cases hr
      exact h
  | cons step rest ih =>
      unfold Ledger.runOps at hr
      split at hr
      · cases hr
      · rename_i hone
        obtain ⟨r,htail,he⟩ := Option.map_eq_some_iff.mp hr
        cases he
        exact ih (h.run hone) htail

end Numbered

/-! ## A successful compaction -/

theorem dropWithdrawn_idem (it : Item) : dropWithdrawn (dropWithdrawn it) = dropWithdrawn it := by
  by_cases h : it.outcome = .withdrawn ∧ it.payload.holdsText
  · have hd : dropWithdrawn it = it.withPayload (.text .none) := if_pos h
    rw [hd]
    exact if_neg (by simp [Payload.holdsText,PayloadText.none])
  · have hd : dropWithdrawn it = it := if_neg h
    rw [hd,hd]

theorem releaseFirst_none (items : List Item) : releaseFirst 0 items = items.map dropWithdrawn := by
  induction items with
  | nil => rfl
  | cons it rest ih => rw [releaseFirst_zero,ih,List.map_cons]

section Compact
variable {migrate : ℕ → Disk → Disk×Status} {s : Session} {fault : Option CompactFault}
  {wantReport : Bool}

theorem compact_items (hok : (compact fault wantReport s).status = .ok) :
    (compact fault wantReport s).session.handle.items = s.handle.items.map dropWithdrawn ∧
      (compact fault wantReport s).session.disk.log =
        some (logImage (s.handle.items.map dropWithdrawn)) := by
  have h := compactRelease_ok hok
  have hitems := h.items
  rw [prefixCount_zero,releaseFirst_none] at hitems
  exact ⟨hitems,by rw [← hitems]; exact h.log⟩

theorem compact_clean (hnum : Numbered s) (hs : Sourced s.handle.items)
    (hok : (compact fault wantReport s).status = .ok) :
    ∃ log, Clean (compact fault wantReport s).session log := by
  have hc := compactRelease_compacted fault wantReport s 0
  have hok' : (compactRelease fault wantReport s 0).status = .ok := hok
  rw [hok'] at hc
  show ∃ log, Clean (compactRelease fault wantReport s 0).session log
  generalize (compactRelease fault wantReport s 0).session = s' at hc ⊢
  generalize (compactRelease fault wantReport s 0).logOpen = logOpen at hc
  cases hc with
  | unchanged hne => exact absurd rfl hne
  | published hrw hlog hmark hoff hsize =>
      have he := rewritten_entries hrw
      have hnum' : Numbered s' := hnum.of_entries he
      exact ⟨_,Clean.image hnum'.ids (hs.of_entries he) hnum'.count hsize rfl hlog hoff hmark⟩

/-- A compacted ledger reopens to what the compaction left in memory. -/
theorem compact_reopens (migrate : ℕ → Disk → Disk×Status) (hnum : Numbered s) (hs : Sourced s.handle.items)
    (hok : (compact fault wantReport s).status = .ok) :
    ∃ s', reopen migrate (compact fault wantReport s).session.disk = some s' ∧
      s'.handle = (compact fault wantReport s).session.handle ∧
      s'.disk.log = (compact fault wantReport s).session.disk.log := by
  obtain ⟨log,hclean⟩ := compact_clean hnum hs hok
  refine ⟨⟨discardStaging (compact fault wantReport s).session.disk,
    (compact fault wantReport s).session.handle⟩,?_,rfl,rfl⟩
  rw [reopen,hclean.reopen migrate]

/-- Compacting a compacted ledger again writes the same log. -/
theorem compact_again (hok : (compact fault wantReport s).status = .ok) {s' : Session}
    (hhandle : s'.handle = (compact fault wantReport s).session.handle)
    {fault' : Option CompactFault} {wantReport' : Bool}
    (hok' : (compact fault' wantReport' s').status = .ok) :
    (compact fault' wantReport' s').session.disk.log =
      (compact fault wantReport s).session.disk.log := by
  obtain ⟨hitems,hlog⟩ := compact_items hok
  have hlog' := (compact_items hok').2
  rw [hlog',hlog,hhandle,hitems,List.map_map]
  have hidem : dropWithdrawn ∘ dropWithdrawn = dropWithdrawn := funext dropWithdrawn_idem
  rw [hidem]

end Compact

end Atperson.Ledger
