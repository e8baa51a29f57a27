import Atperson.Outbound.Spool
import Atperson.Runs.Guarded

/-!
# The spool over whole runs

Beside the spool runs a history: every entry ever spooled, those published and those
refused. As long as no refusal meets a refused file of the same name and no caller retries
a publish whose entry is still pending, the spool and the history agree: nothing is lost,
nothing is doubled and the pending entries keep their order.
-/
namespace Atperson.Outbound
open Wire Runs

structure Outbox where
  spool : Spool := {}
  spooled : List SpoolEntry := []
  published : List SpoolEntry := []
  refused : List SpoolEntry := []
  /-- The documents spooled by direct appends. -/
  appended : List Bytes := []

inductive SpoolAct where
  | append (doc now : Bytes)
  | publish (doc now : Bytes) (transport : Except String Unit)
  | drain (attempt : SpoolEntry → Except String DrainAttempt)

def outcomeIs (attempt : SpoolEntry → Except String DrainAttempt)
    (outcome : OutboundExecutionOutcome) (entry : SpoolEntry) : Bool :=
  match attempt entry with
  | .ok result => result.outcome = outcome
  | .error _ => false

def stops (attempt : SpoolEntry → Except String DrainAttempt) (entry : SpoolEntry) : Bool :=
  match attempt entry with
  | .ok result => result.outcome = .failed
  | .error _ => true

/-- The entries a drain gets past. -/
def reached (attempt : SpoolEntry → Except String DrainAttempt) (entries : List SpoolEntry) :
    List SpoolEntry :=
  entries.takeWhile (fun entry => !stops attempt entry)

def outboxStep (parses : Bytes → Except String Unit) (o : Outbox) : SpoolAct → Outbox
  | .append doc now =>
      match spoolAppend parses o.spool doc now with
      | .error _ => o
      | .ok (entry,spool) => {o with
          spool := spool
          spooled := o.spooled++[entry]
          appended := o.appended++[doc] }
  | .publish doc now transport =>
      match spoolAppend parses o.spool doc now with
      | .error _ => o
      | .ok (entry,_) => {o with
          spool := (spoolFirstPut parses transport o.spool doc now).2
          spooled := o.spooled++[entry]
          published := match transport with
            | .ok _ => o.published++[entry]
            | .error _ => o.published }
  | .drain attempt =>
      match spoolPending o.spool with
      | .error _ => o
      | .ok entries => {o with
          spool := (spoolDrain attempt o.spool).2
          published := o.published++
            (reached attempt entries).filter (outcomeIs attempt .executed)
          refused := o.refused++(reached attempt entries).filter (outcomeIs attempt .denied) }

/-- Documents and times that their files keep. -/
def Plain (doc now : Bytes) : Prop := PlainDocument doc ∧ PlainTime now

instance (doc now : Bytes) : Decidable (Plain doc now) :=
  inferInstanceAs (Decidable (_ ∧ _))

/-- No refusal of the drain meets a refused file of the same name. -/
def RefusalsFree (o : Outbox) (attempt : SpoolEntry → Except String DrainAttempt) : Prop :=
  match spoolPending o.spool with
  | .error _ => True
  | .ok entries => ∀ entry ∈ reached attempt entries, outcomeIs attempt .denied entry = true →
      entry.seq ∉ o.spool.denied.map (·.seq)

instance (o : Outbox) (attempt : SpoolEntry → Except String DrainAttempt) :
    Decidable (RefusalsFree o attempt) :=
  match h : spoolPending o.spool with
  | .error _ => .isTrue (by rw [RefusalsFree,h]; trivial)
  | .ok entries =>
      decidable_of_iff (∀ entry ∈ reached attempt entries,
        outcomeIs attempt .denied entry = true → entry.seq ∉ o.spool.denied.map (·.seq))
        (by rw [RefusalsFree,h])

/-- Plain documents, no retry of a pending publish, no refusal over a refused file. -/
def Orderly (o : Outbox) : SpoolAct → Prop
  | .append doc now => Plain doc now
  | .publish doc now _ => Plain doc now ∧ escape doc ∉ o.spool.pending.map (·.action)
  | .drain attempt => RefusalsFree o attempt

instance (o : Outbox) : (act : SpoolAct) → Decidable (Orderly o act)
  | .append doc now => inferInstanceAs (Decidable (Plain doc now))
  | .publish _ _ _ => inferInstanceAs (Decidable (_ ∧ _))
  | .drain attempt => inferInstanceAs (Decidable (RefusalsFree o attempt))

/-- The law of the spool: what was spooled is pending, refused or published, once. -/
structure Conserved (o : Outbox) (pending : List SpoolEntry) : Prop where
  listed : spoolPending o.spool = .ok pending
  once : o.spooled.Perm (pending++o.refused++o.published)
  ordered : pending.Sublist o.spooled
  distinct : (pending.map (·.seq)).Nodup
  /-- Every refused entry is still in its file. -/
  retained : o.spool.denied.mapM parseSpoolEntry = .ok o.refused
  /-- Beyond what was appended directly, a document is pending at most once. -/
  single : ∀ doc, (pending.map (·.actionJson)).count doc ≤ 1+o.appended.count doc

/-! The invariant. -/

/-- The files hold `pending` and the refused entries, in order. -/
structure Kept (o : Outbox) (pending : List SpoolEntry) : Prop where
  files : o.spool.pending = pending.map serialiseSpoolEntry
  denied : o.spool.denied = o.refused.map serialiseSpoolEntry
  plain : ∀ entry ∈ pending, Plain entry.actionJson entry.spooledAt
  plainRefused : ∀ entry ∈ o.refused, Plain entry.actionJson entry.spooledAt
  rising : pending.Pairwise (fun a b => a.seq < b.seq)
  once : o.spooled.Perm (pending++o.refused++o.published)
  ordered : pending.Sublist o.spooled
  single : ∀ doc, (pending.map (·.actionJson)).count doc ≤ 1+o.appended.count doc

theorem mapM_files {entries : List SpoolEntry}
    (h : ∀ entry ∈ entries, Plain entry.actionJson entry.spooledAt) :
    (entries.map serialiseSpoolEntry).mapM parseSpoolEntry = .ok entries :=
  mapM_write fun entry he => parse_serialiseSpoolEntry (h entry he).1 (h entry he).2

section Invariant
variable {o : Outbox} {pending : List SpoolEntry}

theorem Kept.parsed (h : Kept o pending) :
    o.spool.pending.mapM parseSpoolEntry = .ok pending := by
  rw [h.files]
  exact mapM_files h.plain

theorem Kept.listed (h : Kept o pending) : spoolPending o.spool = .ok pending := by
  rw [spoolPending,h.parsed]
  exact congrArg Except.ok (h.rising.imp fun hlt => hlt.le).insertionSort_eq

theorem Kept.conserved (h : Kept o pending) : Conserved o pending where
  listed := h.listed
  once := h.once
  ordered := h.ordered
  distinct := List.pairwise_map.mpr (h.rising.imp fun hlt => hlt.ne)
  retained := by
    rw [h.denied]
    exact mapM_files h.plainRefused
  single := h.single

theorem le_largestSeq {entries : List SpoolEntry} {entry : SpoolEntry} (h : entry ∈ entries) :
    entry.seq ≤ largestSeq entries := by
  have hstart (rest : List SpoolEntry) (start : ℕ) :
      start ≤ rest.foldl (fun seq entry => max seq entry.seq) start := by
    induction rest generalizing start with
    | nil => exact le_rfl
    | cons a rest ih => exact (le_max_left _ _).trans (ih _)
  have hmem (rest : List SpoolEntry) (start : ℕ) (hr : entry ∈ rest) :
      entry.seq ≤ rest.foldl (fun seq entry => max seq entry.seq) start := by
    induction rest generalizing start with
    | nil => cases hr
    | cons a rest ih =>
        rcases List.mem_cons.mp hr with rfl | hr
        · exact (le_max_right _ _).trans (hstart rest _)
        · exact ih _ hr
  exact hmem entries 0 h

/-- The next entry of a kept spool. -/
def nextEntry (pending : List SpoolEntry) (doc now : Bytes) : SpoolEntry :=
  ⟨largestSeq pending+1,doc,now⟩

theorem Kept.append_eq (h : Kept o pending) (parses : Bytes → Except String Unit)
    (doc now : Bytes) :
    (∃ e, spoolAppend parses o.spool doc now = .error e) ∨
      spoolAppend parses o.spool doc now = .ok (nextEntry pending doc now,
        {o.spool with pending := o.spool.pending++
          [serialiseSpoolEntry (nextEntry pending doc now)]}) := by
  unfold spoolAppend
  cases parses doc with
  | error e => exact .inl ⟨e,rfl⟩
  | ok _ =>
      rw [h.parsed]
      refine .inr ?_
      have hfree : largestSeq pending+1 ∉ o.spool.pending.map (·.seq) := by
        rw [h.files,List.map_map]
        intro hin
        obtain ⟨entry,he,hseq⟩ := List.mem_map.mp hin
        have := le_largestSeq he
        simp only [Function.comp_apply,serialiseSpoolEntry] at hseq
        omega
      simp only [if_neg hfree,nextEntry]

/-- What an append leaves, whoever made it. -/
theorem Kept.append (h : Kept o pending) {doc now : Bytes} (hplain : Plain doc now)
    (appended : List Bytes)
    (hsingle : ∀ d, ((pending++[nextEntry pending doc now]).map (·.actionJson)).count d
      ≤ 1+appended.count d) :
    Kept {o with
      spool := {o.spool with
        pending := o.spool.pending++[serialiseSpoolEntry (nextEntry pending doc now)]}
      spooled := o.spooled++[nextEntry pending doc now]
      appended := appended } (pending++[nextEntry pending doc now]) where
  files := by simp [h.files]
  denied := h.denied
  plain entry he := by
    rcases List.mem_append.mp he with he | he
    · exact h.plain entry he
    · rw [List.mem_singleton.mp he]; exact hplain
  plainRefused := h.plainRefused
  rising := List.pairwise_append.mpr ⟨h.rising,by simp,fun a ha b hb => by
    rw [List.mem_singleton.mp hb]
    exact Nat.lt_succ_of_le (le_largestSeq ha)⟩
  once := by
    refine (h.once.append_right [nextEntry pending doc now]).trans ?_
    simp only [List.append_assoc]
    refine List.Perm.append_left pending ?_
    rw [← List.append_assoc]
    exact List.perm_append_comm
  ordered := h.ordered.append (List.Sublist.refl _)
  single := hsingle

/-- The entries but one, by its number. -/
def without (entry : SpoolEntry) (pending : List SpoolEntry) : List SpoolEntry :=
  pending.filter (·.seq ≠ entry.seq)

theorem without_split {front back : List SpoolEntry} {entry : SpoolEntry}
    (h : (front++entry::back).Pairwise (fun a b => a.seq < b.seq)) :
    without entry (front++entry::back) = front++back := by
  obtain ⟨_,hback,hcross⟩ := List.pairwise_append.mp h
  have hfront : front.filter (·.seq ≠ entry.seq) = front :=
    List.filter_eq_self.mpr fun a ha => by
      simpa using (hcross a ha entry (by simp)).ne
  have hafter : back.filter (·.seq ≠ entry.seq) = back :=
    List.filter_eq_self.mpr fun a ha => by
      simpa using ((List.pairwise_cons.mp hback).1 a ha).ne'
  rw [without,List.filter_append,hfront,List.filter_cons_of_neg (by simp),hafter]

theorem Kept.without_perm (h : Kept o pending) {entry : SpoolEntry} (he : entry ∈ pending) :
    pending.Perm (without entry pending++[entry]) := by
  obtain ⟨front,back,rfl⟩ := List.append_of_mem he
  rw [without_split h.rising]
  exact List.perm_middle.trans (List.perm_append_singleton _ _).symm

theorem without_files (entry : SpoolEntry) (pending : List SpoolEntry) :
    (pending.map serialiseSpoolEntry).filter (·.seq ≠ entry.seq) =
      (without entry pending).map serialiseSpoolEntry := by
  rw [without,List.filter_map]
  rfl

theorem count_without (entry : SpoolEntry) (pending : List SpoolEntry) (doc : Bytes) :
    ((without entry pending).map (·.actionJson)).count doc ≤
      (pending.map (·.actionJson)).count doc :=
  (List.filter_sublist.map _).count_le doc

/-- A pending entry is published. -/
theorem Kept.remove (h : Kept o pending) (entry : SpoolEntry) (he : entry ∈ pending) :
    Kept {o with
      spool := spoolRemove o.spool entry
      published := o.published++[entry] } (without entry pending) where
  files := by rw [← without_files,← h.files]; rfl
  denied := h.denied
  plain e hin := h.plain e (List.mem_of_mem_filter hin)
  plainRefused := h.plainRefused
  rising := h.rising.sublist List.filter_sublist
  once := by
    refine h.once.trans ?_
    have hperm := (h.without_perm he).append_right (o.refused++o.published)
    simp only [List.append_assoc] at hperm ⊢
    refine hperm.trans (List.Perm.append_left _ ?_)
    rw [← List.append_assoc o.refused]
    exact List.perm_append_comm
  ordered := List.filter_sublist.trans h.ordered
  single doc := (count_without entry pending doc).trans (h.single doc)

/-- A pending entry is refused, no refused file having its name. -/
theorem Kept.deny (h : Kept o pending) {entry : SpoolEntry} (he : entry ∈ pending)
    (hfree : entry.seq ∉ o.spool.denied.map (·.seq)) :
    Kept {o with
      spool := spoolDeny o.spool entry
      refused := o.refused++[entry] } (without entry pending) where
  files := by rw [← without_files,← h.files]; rfl
  denied := by
    have hfind : o.spool.pending.find? (·.seq = entry.seq) = some (serialiseSpoolEntry entry) := by
      obtain ⟨front,back,hsplit⟩ := List.append_of_mem he
      have hrising := h.rising
      rw [hsplit] at hrising
      rw [h.files,hsplit,List.map_append,List.find?_append,List.map_cons]
      have hnone : (front.map serialiseSpoolEntry).find? (·.seq = entry.seq) = none := by
        refine List.find?_eq_none.mpr fun file hf => ?_
        obtain ⟨a,ha,rfl⟩ := List.mem_map.mp hf
        have hlt := (List.pairwise_append.mp hrising).2.2 a ha entry (by simp)
        simp [serialiseSpoolEntry,hlt.ne]
      rw [hnone,Option.none_or,List.find?_cons_of_pos (by simp [serialiseSpoolEntry])]
    have hkeep : o.spool.denied.filter (·.seq ≠ entry.seq) = o.spool.denied :=
      List.filter_eq_self.mpr fun file hf => by
        have hne : file.seq ≠ entry.seq := fun heq => hfree (by
          rw [← heq]; exact List.mem_map_of_mem hf)
        simpa using hne
    have hdenied : (spoolDeny o.spool entry).denied =
        o.spool.denied++[serialiseSpoolEntry entry] := by
      simp only [spoolDeny,hfind,hkeep]
    rw [hdenied,h.denied]
    simp
  plain e hin := h.plain e (List.mem_of_mem_filter hin)
  plainRefused e hin := by
    rcases List.mem_append.mp hin with hin | hin
    · exact h.plainRefused e hin
    · rw [List.mem_singleton.mp hin]; exact h.plain entry he
  rising := h.rising.sublist List.filter_sublist
  once := by
    refine h.once.trans ?_
    have hperm := (h.without_perm he).append_right (o.refused++o.published)
    simp only [List.append_assoc] at hperm ⊢
    refine hperm.trans (List.Perm.append_left _ ?_)
    rw [← List.append_assoc,← List.append_assoc]
    exact List.perm_append_comm.append_right _
  ordered := List.filter_sublist.trans h.ordered
  single doc := (count_without entry pending doc).trans (h.single doc)

/-! The drain, entry by entry. -/

/-- The history beside a drain over some entries. -/
def afterDrain (o : Outbox) (attempt : SpoolEntry → Except String DrainAttempt)
    (entries : List SpoolEntry) (report : SpoolDrainReport) : Outbox :=
  {o with
    spool := (drainEntries attempt entries o.spool report).2
    published := o.published++(reached attempt entries).filter (outcomeIs attempt .executed)
    refused := o.refused++(reached attempt entries).filter (outcomeIs attempt .denied) }

theorem Kept.drainEntries (h : Kept o pending)
    (attempt : SpoolEntry → Except String DrainAttempt) {entries : List SpoolEntry}
    (hmem : ∀ entry ∈ entries, entry ∈ pending)
    (hrising : entries.Pairwise (fun a b => a.seq < b.seq))
    (hfree : ∀ entry ∈ reached attempt entries, outcomeIs attempt .denied entry = true →
      entry.seq ∉ o.spool.denied.map (·.seq)) (report : SpoolDrainReport) :
    ∃ rest, Kept (afterDrain o attempt entries report) rest := by
  induction entries generalizing o pending report with
  | nil =>
      refine ⟨pending,?_⟩
      simpa [afterDrain,reached,Outbound.drainEntries] using h
  | cons entry entries ih =>
      obtain ⟨hlt,hrising⟩ := List.pairwise_cons.mp hrising
      have he := hmem entry (by simp)
      have hothers : ∀ e ∈ entries, e ∈ without entry pending := fun e hin =>
        List.mem_filter.mpr ⟨hmem e (by simp [hin]),by simpa using (hlt e hin).ne'⟩
      have hstay : ∀ e ∈ entries, e ∈ pending := fun e hin => hmem e (by simp [hin])
      cases hatt : attempt entry with
      | error e =>
          refine ⟨pending,?_⟩
          simpa [afterDrain,reached,stops,hatt,Outbound.drainEntries] using h
      | ok result =>
          have hgo (hs : stops attempt entry = false) :
              reached attempt (entry::entries) = entry::reached attempt entries := by
            simp [reached,hs]
          cases hout : result.outcome with
          | failed =>
              refine ⟨pending,?_⟩
              simpa [afterDrain,reached,stops,hatt,hout,Outbound.drainEntries] using h
          | executed =>
              have hs : stops attempt entry = false := by simp [stops,hatt,hout]
              rw [hgo hs] at hfree
              obtain ⟨rest,hrest⟩ := ih (h.remove _ he) hothers hrising
                (fun e hin => hfree e (by simp [hin]))
                {report with published := report.published+1}
              refine ⟨rest,?_⟩
              simpa [afterDrain,hgo hs,Outbound.drainEntries,outcomeIs,hatt,hout] using hrest
          | denied =>
              have hs : stops attempt entry = false := by simp [stops,hatt,hout]
              rw [hgo hs] at hfree
              have hnew := hfree entry (by simp) (by simp [outcomeIs,hatt,hout])
              have hkept := h.deny he hnew
              have hfree' : ∀ e ∈ reached attempt entries, outcomeIs attempt .denied e = true →
                  e.seq ∉ (spoolDeny o.spool entry).denied.map (·.seq) := by
                intro e hin hden
                rw [hkept.denied,List.map_map,List.map_append,List.mem_append]
                rintro (hold | hone)
                · refine hfree e (by simp [hin]) hden ?_
                  rw [h.denied,List.map_map]
                  exact hold
                · have heq : e.seq = entry.seq := by simpa [serialiseSpoolEntry] using hone
                  exact absurd heq (hlt e ((List.takeWhile_prefix _).subset hin)).ne'
              obtain ⟨rest,hrest⟩ := ih hkept hothers hrising hfree'
                {report with denied := report.denied+1}
              refine ⟨rest,?_⟩
              simpa [afterDrain,hgo hs,Outbound.drainEntries,outcomeIs,hatt,hout] using hrest
          | dryRun | deferred =>
              have hs : stops attempt entry = false := by simp [stops,hatt,hout]
              rw [hgo hs] at hfree
              obtain ⟨rest,hrest⟩ := ih h hstay hrising (fun e hin => hfree e (by simp [hin]))
                {report with deferred := report.deferred+1}
              refine ⟨rest,?_⟩
              simpa [afterDrain,hgo hs,Outbound.drainEntries,outcomeIs,hatt,hout] using hrest

/-! Steps and runs. -/

theorem Kept.step (h : Kept o pending) {parses : Bytes → Except String Unit} {act : SpoolAct}
    (hact : Orderly o act) : ∃ rest, Kept (outboxStep parses o act) rest := by
  cases act with
  | append doc now =>
      rcases h.append_eq parses doc now with ⟨e,happ⟩ | happ
      · exact ⟨pending,by simpa only [outboxStep,happ] using h⟩
      · refine ⟨pending++[nextEntry pending doc now],?_⟩
        simp only [outboxStep,happ]
        refine h.append hact _ fun d => ?_
        have := h.single d
        simp only [List.map_append,List.count_append,List.map_cons,List.map_nil,nextEntry]
        omega
  | publish doc now transport =>
      obtain ⟨hplain,hnew⟩ := hact
      rcases h.append_eq parses doc now with ⟨e,happ⟩ | happ
      · exact ⟨pending,by simpa only [outboxStep,happ] using h⟩
      · have hfresh : (pending.map (·.actionJson)).count doc = 0 := by
          refine List.count_eq_zero.mpr fun hin => hnew ?_
          obtain ⟨entry,he,rfl⟩ := List.mem_map.mp hin
          rw [h.files,List.map_map]
          exact List.mem_map.mpr ⟨entry,he,rfl⟩
        have hkept := h.append hplain o.appended (fun d => by
          have := h.single d
          simp only [List.map_append,List.count_append,List.map_cons,List.map_nil,nextEntry]
          by_cases hd : doc = d
          · subst hd
            rw [hfresh,List.count_singleton_self]
            omega
          · rw [List.count_singleton,if_neg (by simpa using hd)]
            omega)
        cases transport with
        | error e =>
            refine ⟨pending++[nextEntry pending doc now],?_⟩
            simp only [outboxStep,happ,spoolFirstPut]
            exact hkept
        | ok _ =>
            refine ⟨without (nextEntry pending doc now) (pending++[nextEntry pending doc now]),?_⟩
            simp only [outboxStep,happ,spoolFirstPut]
            exact hkept.remove (nextEntry pending doc now) (by simp)
  | drain attempt =>
      have hfree : RefusalsFree o attempt := hact
      rw [RefusalsFree,h.listed] at hfree
      obtain ⟨rest,hrest⟩ := h.drainEntries attempt (fun _ he => he) h.rising hfree {}
      refine ⟨rest,?_⟩
      simpa only [outboxStep,h.listed,spoolDrain,afterDrain] using hrest

end Invariant

theorem kept_start : Kept {} [] where
  files := rfl
  denied := rfl
  plain _ he := by cases he
  plainRefused _ he := by cases he
  rising := List.Pairwise.nil
  once := List.Perm.refl _
  ordered := List.Sublist.refl _
  single _ := by simp

/-- Every orderly run conserves what it spools. -/
theorem orderly_run_conserves (parses : Bytes → Except String Unit) (acts : List SpoolAct)
    (h : Guarded (outboxStep parses) Orderly {} acts) :
    ∃ pending, Conserved (runFrom (outboxStep parses) {} acts) pending := by
  obtain ⟨pending,hkept⟩ := h.invariant (P := fun o => ∃ pending, Kept o pending)
    (fun _ _ ⟨_,hs⟩ hact => hs.step hact) ⟨[],kept_start⟩
  exact ⟨pending,hkept.conserved⟩

/-- A post's document, by its record key. -/
def sampleDocument (rkey : String) : Bytes :=
  utf8 "\x7b\"format\":\"atperson-outbound-action\",\"version\":1,\"kind\":\"post\","++
    utf8 "\"text\":\"hello\",\"rkey\":\""++utf8 rkey++
    utf8 "\",\"created_at\":\"2026-01-01T00:00:00Z\",\"digest\":\"0123456789abcdef\"\x7d"

def sampleTime : Bytes := utf8 "2026-01-01T00:00:00Z"

def acceptAll : Bytes → Except String Unit := fun _ => .ok ()

def answer (outcome : OutboundExecutionOutcome) : SpoolEntry → Except String DrainAttempt :=
  fun _ => .ok ⟨outcome,""⟩

/-- A failed publish, an append, a drain that defers and one that denies, and more. -/
theorem orderly_run_conserves_sample :
    ∃ pending, Conserved (runFrom (outboxStep acceptAll) {}
      [.publish (sampleDocument "3ka") sampleTime (.error "offline"),
        .append (sampleDocument "3kb") sampleTime,.drain (answer .deferred),
        .publish (sampleDocument "3kc") sampleTime (.ok ()),.drain (answer .denied),
        .append (sampleDocument "3kd") sampleTime,.drain (answer .executed)]) pending :=
  orderly_run_conserves acceptAll _ (by decide +kernel)

/-- Two spooled documents, each drained and refused: the second takes the first's name. -/
theorem second_refusal_overwrites :
    ¬∃ pending, Conserved (runFrom (outboxStep acceptAll) {}
      [.append (sampleDocument "3ka") sampleTime,.drain (answer .denied),
        .append (sampleDocument "3kb") sampleTime,.drain (answer .denied)]) pending := by
  rintro ⟨pending,h⟩
  have hretained := h.retained
  revert hretained
  decide +kernel

end Atperson.Outbound
