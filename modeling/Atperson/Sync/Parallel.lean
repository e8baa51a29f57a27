import Atperson.Sync.Faithful
import Atperson.Runs.Guarded

/-!
# The parallel traversal

The owner submits one page request to the worker pool, waits for the page and processes it as the
serial traversal does, with its own copy of the eligibility test. Workers end requests in any order
and at any time; the pool may refuse a request, and may hand back an error of an earlier task.
-/
namespace Atperson.Sync
open Wire Runs
open Atperson.Core (Graph Utf8proc IndexEnv)
open Ledger (Status Session CommitFault LookupResult)

/-- The copy of the eligibility test: quotes are missing. -/
def SyncObservation.policySkippedParallel (o : SyncObservation) : Bool :=
  o.policyReason ≠ .eligible && o.policyReason ≠ .repost && o.policyReason ≠ .reply

def SyncResult.countNewParallel (r : SyncResult) (o : SyncObservation) : SyncResult :=
  if o.trainable && !o.policySkippedParallel then {r with learned := r.learned+1}
  else {r with skipped := r.skipped+1}

section Model
variable (U : Utf8proc) (linker : Bool) (fetch : Option Bytes → Except Thrown SyncPage)
  (item : ℕ → ItemEnv) (state : IngestionState) (limits : SyncLimits)

def parallelItem (env : ItemEnv) (p : Progress) (o : SyncObservation) :
    Progress×Except Thrown Unit :=
  let r := {p.result with observationsSeen := p.result.observationsSeen+1}
  match processObservation U env p.learner o with
  | (w,.error e) => (⟨w,r⟩,.error e)
  | (w,.ok false) => (⟨w,{r with duplicates := r.duplicates+1}⟩,.ok ())
  | (w,.ok true) =>
      match callLinker linker env w o with
      | (w,.error e) => (⟨w,r⟩,.error e)
      | (w,.ok ()) => (⟨w,r.countNewParallel o⟩,.ok ())

def parallelItems : Progress → List SyncObservation → Progress×Except Thrown Unit
  | p, [] => (p,.ok ())
  | p, o::rest =>
      match parallelItem U linker (item p.result.observationsSeen) p o with
      | (p,.error e) => (p,.error e)
      | (p,.ok ()) => parallelItems p rest

/-- Where the owner is: at the head of its loop, in `drain_next`, in `pool.wait`, or out. -/
inductive OwnerPhase where
  | top
  | draining
  | leaving
  | returned (reply : SyncReply)
  | threw (e : Thrown)

structure ParallelRun where
  phase : OwnerPhase
  pages : ℕ
  cursor : Option Bytes
  progress : Progress
  /-- Pages fetched and not yet drained, by their number. -/
  ready : List (ℕ×SyncPage)
  /-- Requests accepted by the pool and not yet ended. -/
  inflight : List (ℕ×Option Bytes)
  fetchError : Bool
  submitted : ℕ
  consumed : ℕ
  fetchExhausted : Bool

inductive ParallelAct where
  /-- A worker ends one of the requests in flight. -/
  | work (i : ℕ)
  | submit (accepted : Bool)
  | drain
  /-- The pool's `wait` comes back, or throws an error stored before. -/
  | wait (error : Option Thrown)

def startParallel (w : Learner) : ParallelRun where
  phase := if limits.pageSize ≤ 0 ∨ limits.maxPages ≤ 0 then
    .threw (.runtime "sync limits must be positive") else .top
  pages := 0
  cursor := state.start
  progress := ⟨w,.empty⟩
  ready := []
  inflight := []
  fetchError := false
  submitted := 0
  consumed := 0
  fetchExhausted := false

def ParallelRun.work (s : ParallelRun) (i : ℕ) : ParallelRun :=
  match s.inflight[i]? with
  | none => s
  | some (sequence,cursor) =>
      match fetch cursor with
      | .ok page =>
          {s with inflight := s.inflight.eraseIdx i,ready := s.ready++[(sequence,page)]}
      | .error _ => {s with inflight := s.inflight.eraseIdx i,fetchError := true}

/-- The loop head: the next request, unless the pages are used up. -/
def ParallelRun.submit (s : ParallelRun) (accepted : Bool) : ParallelRun :=
  if s.pages < limits.maxPages.toNat then
    if s.fetchExhausted then {s with phase := .draining}
    else if accepted then
      { s with
        phase := .draining
        inflight := s.inflight++[(s.submitted,s.cursor)]
        submitted := s.submitted+1 }
    else {s with phase := .draining,submitted := s.submitted+1,fetchExhausted := true}
  else {s with phase := .leaving}

/-- The rest of a round, over a drained page. -/
def ParallelRun.process (s : ParallelRun) (page : SyncPage) : ParallelRun :=
  match parallelItems U linker item s.progress page.items with
  | (p,.error e) => {s with phase := .threw e,progress := p}
  | (p,.ok ()) =>
      let r := {p.result with pagesCompleted := p.result.pagesCompleted+1}
      match page.nextCursor with
      | none =>
          { s with
            phase := .leaving
            pages := s.pages+1
            progress := ⟨p.learner,{r with exhausted := true}⟩ }
      | some next =>
          { s with
            phase := if limits.maxObservations ≤ r.observationsSeen ∧ 0 < limits.maxObservations
              then .leaving else .top
            pages := s.pages+1
            cursor := some next
            progress := ⟨p.learner,r⟩ }

/-- `drain_next`, which blocks while there is neither a page nor a reason to give up. -/
def ParallelRun.drain (s : ParallelRun) : ParallelRun :=
  if s.fetchError then
    {s with phase := .threw
              (.runtime "sync aborted: a page fetch failed; cursor and ledger untouched")}
  else
    match s.ready with
    | [] =>
        if s.fetchExhausted then
          {s with phase := .threw (.runtime "sync exhausted: no more pages")}
        else s
    | (sequence,page)::rest =>
        if sequence = s.consumed then
          ParallelRun.process U linker item limits
            {s with ready := rest,consumed := s.consumed+1} page
        else s

/-- What is checkpointed and returned. -/
def ParallelRun.reply (s : ParallelRun) : SyncReply :=
  ⟨s.progress.learner,state.begin.checkpointed s.progress.result s.cursor,.ok s.progress.result⟩

/-- `wait` comes back once nothing is in flight. -/
def ParallelRun.wait (s : ParallelRun) (error : Option Thrown) : ParallelRun :=
  match error with
  | some e => {s with phase := .threw e}
  | none =>
      if s.inflight = [] then
        {s with phase := .returned (s.reply state)}
      else s

/-- A step of `run_sync_parallel` or of one of its workers. -/
def ParallelRun.step (s : ParallelRun) : ParallelAct → ParallelRun
  | .work i => s.work fetch i
  | .submit accepted =>
      match s.phase with
      | .top => s.submit limits accepted
      | _ => s
  | .drain =>
      match s.phase with
      | .draining => s.drain U linker item limits
      | _ => s
  | .wait error =>
      match s.phase with
      | .leaving => s.wait state error
      | _ => s

end Model

/-! ## One observation -/

/-- The ledger has the observation committed. -/
def Known (w : Learner) (o : SyncObservation) : Prop :=
  (Ledger.lookup w.session.handle.items (CString.ofRaw o.sourceUri).bytes o.digest).1 =
    .existsCommitted

instance (w : Learner) (o : SyncObservation) : Decidable (Known w o) :=
  inferInstanceAs (Decidable (_ = _))

/-- A quote with text that the ledger does not have committed. -/
def NewQuote (w : Learner) (o : SyncObservation) : Prop :=
  o.policyReason = .quote ∧ o.trainable = true ∧ ¬Known w o

instance (w : Learner) (o : SyncObservation) : Decidable (NewQuote w o) :=
  inferInstanceAs (Decidable (_ ∧ _ ∧ ¬_))

variable {U : Utf8proc} {linker : Bool} {fetch : Option Bytes → Except Thrown SyncPage}
  {item : ℕ → ItemEnv} {state : IngestionState} {limits : SyncLimits}

/-- What the two runs agree in, with the quotes that only one counts as learned. -/
structure Agree (d : ℕ) (q p : Progress) : Prop where
  learner : p.learner = q.learner
  pages : p.result.pagesCompleted = q.result.pagesCompleted
  seen : p.result.observationsSeen = q.result.observationsSeen
  learned : p.result.learned+d = q.result.learned
  skipped : p.result.skipped = q.result.skipped+d
  duplicates : p.result.duplicates = q.result.duplicates
  exhausted : p.result.exhausted = q.result.exhausted

theorem Agree.paged {d : ℕ} {q p : Progress} (h : Agree d q p) :
    Agree d ⟨q.learner,{q.result with pagesCompleted := q.result.pagesCompleted+1}⟩
      ⟨p.learner,{p.result with pagesCompleted := p.result.pagesCompleted+1}⟩ :=
  ⟨h.learner,congrArg (·+1) h.pages,h.seen,h.learned,h.skipped,h.duplicates,h.exhausted⟩

theorem Agree.finished {d : ℕ} {q p : Progress} (h : Agree d q p) :
    Agree d ⟨q.learner,{q.result with exhausted := true}⟩
      ⟨p.learner,{p.result with exhausted := true}⟩ :=
  ⟨h.learner,h.pages,h.seen,h.learned,h.skipped,h.duplicates,rfl⟩

theorem validate_source {o : SyncObservation} {context : Ledger.ConversationContext} {count : ℕ}
    {v : Ledger.Observation} (h : (o.appendArgs context).validate count = some v) :
    v.entry.sourceId.bytes = (CString.ofRaw o.sourceUri).bytes ∧ v.entry.contentDigest = o.digest := by
  obtain ⟨hfits,-,hrepeats⟩ := validate_appendArgs h
  have hsource : v.entry.sourceId = CText.truncate (CString.ofRaw o.sourceUri) :=
    congrArg Ledger.LedgerEntry.sourceId hrepeats.entry
  have hdigest : v.entry.contentDigest = o.digest :=
    congrArg Ledger.LedgerEntry.contentDigest hrepeats.entry
  exact ⟨by rw [hsource,truncate_bytes hfits.source],hdigest⟩

/-- The reservation tells whether the ledger has the observation committed. -/
theorem ledgerAppend_known {fault : Option CommitFault} {s s' : Session} {o : SyncObservation}
    {context : Ledger.ConversationContext} {r : LookupResult} {id : UInt64}
    (h : ledgerAppend fault s (o.appendArgs context) = (s',.ok (r,id))) :
    r = .existsCommitted ↔
      (Ledger.lookup s.handle.items (CString.ofRaw o.sourceUri).bytes o.digest).1 =
        .existsCommitted := by
  have happ := ledgerAppend_ok h
  rcases Ledger.append_cases fault s (o.appendArgs context) with ⟨reply,hd,he⟩ | ⟨v,ok,hd,hfresh,-,hr⟩
  · rw [happ] at he
    obtain ⟨rfl,rfl⟩ := Prod.mk.inj he
    obtain ⟨v,it,hvalid,hfind,-,hres⟩ := appendDecision_found hd
    obtain ⟨hsource,hdigest⟩ := validate_source hvalid
    rw [hsource,hdigest] at hfind
    simp only [Ledger.lookup,hfind,hres]
  · have hnew : r = .new := by
      rw [happ] at hr
      cases ok with
      | true => exact congrArg Ledger.AppendReply.result hr
      | false => exact absurd (congrArg Ledger.AppendReply.status hr) (by simp)
    have hnone := hfresh.unseen
    obtain ⟨hsource,hdigest⟩ := validate_source (Ledger.appendDecision_validate hd)
    have hfind : Ledger.indexFind s.handle.items (CString.ofRaw o.sourceUri).bytes o.digest = none := by
      rw [← hsource,← hdigest]
      exact List.find?_eq_none.mpr fun it hit => by
        simpa [Ledger.Observation.item,Ledger.Item.key] using hnone it hit
    simp only [hnew,Ledger.lookup,hfind]
    simp

theorem commitObservation_new' {env : ItemEnv} {w w' : Learner} {o : SyncObservation}
    {context : Ledger.ConversationContext} {id : UInt64} {new : Bool}
    (h : commitObservation U env w o context id = (w',.ok new)) : new = true := by
  unfold commitObservation at h
  split at h
  · cases h
  · split at h
    · split at h
      · cases h
        rfl
      · cases h
    · cases h

/-- An observation that is processed is new exactly when the ledger does not have it. -/
theorem processObservation_known {env : ItemEnv} {w w' : Learner} {o : SyncObservation} {new : Bool}
    (h : processObservation U env w o = (w',.ok new)) : new = true ↔ ¬Known w o := by
  unfold processObservation at h
  split at h
  · cases h
  · rename_i context hctx
    rcases ha : ledgerAppend env.append w.session (o.appendArgs context) with ⟨s,e | ⟨r,id⟩⟩
    · rw [ha] at h
      cases h
    · have hknown := ledgerAppend_known ha
      rw [ha] at h
      by_cases hr : r = .existsCommitted
      · subst hr
        cases h
        exact iff_of_false (by simp) (not_not.mpr (hknown.mp rfl))
      · have h' : commitObservation U env {w with session := s} o context id = (w',.ok new) := by
          cases r with
          | existsCommitted => exact absurd rfl hr
          | _ => exact h
        exact iff_of_true (commitObservation_new' h') fun hk => hr (hknown.mpr hk)

/-! ## Side by side -/

theorem policySkipped_differ (o : SyncObservation) :
    o.policySkippedParallel = (o.policySkipped || o.policyReason = .quote) := by
  unfold SyncObservation.policySkippedParallel SyncObservation.policySkipped
  cases o.policyReason <;> rfl

/-- The count of quotes missed so far, after one more observation. -/
def missed (w : Learner) (o : SyncObservation) (d : ℕ) : ℕ := if NewQuote w o then d+1 else d

/-- The two counts of a new observation differ for a quote with text. -/
theorem countNew_agrees {d : ℕ} {q p : Progress} (h : Agree d q p) {o : SyncObservation}
    (hnew : ¬Known q.learner o) (w : Learner) :
    Agree (missed q.learner o d) ⟨w,q.result.countNew o⟩ ⟨w,p.result.countNewParallel o⟩ := by
  have hdiffer := policySkipped_differ o
  by_cases hquote : o.policyReason = .quote ∧ o.trainable = true
  · have hskipped : o.policySkipped = false := by
      rw [SyncObservation.policySkipped,hquote.1]
      rfl
    have hserial : q.result.countNew o = {q.result with learned := q.result.learned+1} := by
      simp [SyncResult.countNew,hquote.2,hskipped]
    have hparallel : p.result.countNewParallel o = {p.result with skipped := p.result.skipped+1} := by
      simp [SyncResult.countNewParallel,hdiffer,hquote.1]
    rw [hserial,hparallel,missed,if_pos ⟨hquote.1,hquote.2,hnew⟩]
    have hlearned := h.learned
    have hskip := h.skipped
    exact ⟨rfl,h.pages,h.seen,by dsimp only; omega,by dsimp only; omega,h.duplicates,h.exhausted⟩
  · have hsame : (o.trainable && !o.policySkippedParallel) = (o.trainable && !o.policySkipped) := by
      rw [hdiffer]
      cases htrainable : o.trainable with
      | false => rfl
      | true =>
          have hreason : o.policyReason ≠ .quote := fun hq => hquote ⟨hq,htrainable⟩
          simp [hreason]
    rw [missed,if_neg fun hn => hquote ⟨hn.1,hn.2.1⟩,SyncResult.countNew,SyncResult.countNewParallel,
      hsame]
    have hlearned := h.learned
    have hskip := h.skipped
    split
    · exact ⟨rfl,h.pages,h.seen,by dsimp only; omega,hskip,h.duplicates,h.exhausted⟩
    · exact ⟨rfl,h.pages,h.seen,hlearned,by dsimp only; omega,h.duplicates,h.exhausted⟩

/-- One observation: the same failure, or the same learner and one more quote missed. -/
theorem parallelItem_agrees (U : Utf8proc) (linker : Bool) {d : ℕ} {q p : Progress} (h : Agree d q p) (env : ItemEnv)
    (o : SyncObservation) :
    (∃ e, (syncItem U linker env q o).2 = .error e ∧ (parallelItem U linker env p o).2 = .error e) ∨
    ((syncItem U linker env q o).2 = .ok () ∧ (parallelItem U linker env p o).2 = .ok () ∧
      Agree (missed q.learner o d) (syncItem U linker env q o).1 (parallelItem U linker env p o).1) := by
  unfold syncItem parallelItem
  rw [h.learner]
  rcases hprocess : processObservation U env q.learner o with ⟨w,e | new⟩
  · exact .inl ⟨e,rfl,rfl⟩
  have hknown := processObservation_known hprocess
  cases new with
  | false =>
      have hmissed : missed q.learner o d = d := if_neg fun hn => hn.2.2 (by
        by_contra hk
        exact absurd (hknown.mpr hk) (by simp))
      rw [hmissed]
      exact .inr ⟨rfl,rfl,⟨rfl,h.pages,congrArg (·+1) h.seen,h.learned,h.skipped,
        congrArg (·+1) h.duplicates,h.exhausted⟩⟩
  | true =>
      rcases hlink : callLinker linker env w o with ⟨w',e | u⟩
      · exact .inl ⟨e,by simp only [hlink],by simp only [hlink]⟩
      · refine .inr ⟨by simp only [hlink],by simp only [hlink],?_⟩
        simp only [hlink]
        have hseen : Agree d ⟨q.learner,{q.result with observationsSeen := q.result.observationsSeen+1}⟩
            ⟨p.learner,{p.result with observationsSeen := p.result.observationsSeen+1}⟩ :=
          ⟨h.learner,h.pages,congrArg (·+1) h.seen,h.learned,h.skipped,h.duplicates,h.exhausted⟩
        exact countNew_agrees hseen (hknown.mp rfl) w'

section Quiet
variable (U linker)

/-- No observation of a page is a new quote with text when its turn comes. -/
def QuietItems (item : ℕ → ItemEnv) : Progress → List SyncObservation → Prop
  | _, [] => True
  | q, o::rest => ¬NewQuote q.learner o ∧
      QuietItems item (syncItem U linker (item q.result.observationsSeen) q o).1 rest

/-- Nor any observation of the pages that follow. -/
def QuietPages (limits : SyncLimits) (env : SyncEnv) :
    ℕ → ℕ → Option Bytes → Progress → Prop
  | 0, _, _, _ => True
  | pages+1, k, cursor, q =>
      match env.fetch k cursor with
      | .error _ => True
      | .ok page =>
          QuietItems U linker env.item q page.items ∧
            match syncItems U linker env.item q page.items with
            | (_,.error _) => True
            | (q,.ok ()) =>
                let r := {q.result with pagesCompleted := q.result.pagesCompleted+1}
                match page.nextCursor with
                | none => True
                | some next =>
                    if limits.maxObservations ≤ r.observationsSeen ∧ 0 < limits.maxObservations then
                      True
                    else QuietPages limits env pages (k+1) (some next) ⟨q.learner,r⟩

/-- The traversal meets no new quote with text. -/
def QuietRun (env : SyncEnv) (w : Learner) (state : IngestionState) (limits : SyncLimits) : Prop :=
  QuietPages U linker limits env limits.maxPages.toNat 0 state.start ⟨w,.empty⟩

end Quiet

/-- A page: the same failure, or the same learner and a count of missed quotes that is still what
it was exactly when the page is quiet. -/
theorem parallelItems_agrees (U : Utf8proc) (linker : Bool) (item : ℕ → ItemEnv) {d : ℕ} {q p : Progress} (h : Agree d q p) (items : List SyncObservation) :
    (∃ e, (syncItems U linker item q items).2 = .error e ∧
      (parallelItems U linker item p items).2 = .error e) ∨
    ((syncItems U linker item q items).2 = .ok () ∧ (parallelItems U linker item p items).2 = .ok () ∧
      ∃ d', Agree d' (syncItems U linker item q items).1 (parallelItems U linker item p items).1 ∧
        d ≤ d' ∧ (d' = d ↔ QuietItems U linker item q items)) := by
  induction items generalizing d q p with
  | nil => exact .inr ⟨rfl,rfl,d,h,le_rfl,iff_of_true rfl trivial⟩
  | cons o rest ih =>
      rw [syncItems,parallelItems,QuietItems,h.seen]
      have hitem := parallelItem_agrees U linker h
        (item q.result.observationsSeen) o
      rcases hq : syncItem U linker (item q.result.observationsSeen) q o with ⟨q',rq⟩
      rcases hp : parallelItem U linker (item q.result.observationsSeen) p o with ⟨p',rp⟩
      rw [hq,hp] at hitem
      rcases hitem with ⟨e,hs,hpar⟩ | ⟨hs,hpar,hagree⟩
      · dsimp only at hs hpar
        subst hs hpar
        exact .inl ⟨e,rfl,rfl⟩
      · dsimp only at hs hpar hagree ⊢
        subst hs hpar
        rcases ih hagree with hend | ⟨hs,hp,d',hagree',hle,hiff⟩
        · exact .inl hend
        · refine .inr ⟨hs,hp,d',hagree',?_,?_⟩
          · unfold missed at hle
            split at hle
            · omega
            · exact hle
          · rw [← hiff]
            unfold missed at hle ⊢
            split at hle
            · next hnew =>
                rw [if_pos hnew]
                exact iff_of_false (by omega) fun hquiet => hquiet.1 hnew
            · next hnew =>
                rw [if_neg hnew]
                exact ⟨fun heq => ⟨hnew,heq⟩,fun hquiet => hquiet.2⟩

/-! ## The run -/

section Simulation
variable (U linker fetch item state limits)

/-- The serial traversal of the same inputs. -/
def serialEnv : SyncEnv := ⟨fun _ => fetch,item⟩

/-- Where the serial traversal stands when the owner is at its loop head: what it has left to do
and what is left to be quiet. -/
structure Level (total : Progress×Except Thrown (Option Bytes)) (quiet : Prop) (s : ParallelRun)
    (q : Progress) (d k : ℕ) : Prop where
  agree : Agree d q s.progress
  rest : syncPages U linker limits (serialEnv fetch item) (limits.maxPages.toNat-s.pages) k s.cursor q =
    total
  silent : quiet ↔ d = 0 ∧
    QuietPages U linker limits (serialEnv fetch item) (limits.maxPages.toNat-s.pages) k s.cursor q

/-- The serial traversal is done, and so is the owner's loop. -/
structure Over (total : Progress×Except Thrown (Option Bytes)) (quiet : Prop) (s : ParallelRun)
    (q : Progress) (d : ℕ) : Prop where
  agree : Agree d q s.progress
  rest : total = (q,.ok s.cursor)
  silent : quiet ↔ d = 0

/-- Nothing is fetched and nothing waits to be drained. -/
structure Still (s : ParallelRun) : Prop where
  inflight : s.inflight = []
  ready : s.ready = []

/-- The one request the owner waits for: failed, refused, in flight or fetched. -/
def Awaited (s : ParallelRun) : Prop :=
  s.fetchError = true ∨ (s.fetchExhausted = true ∧ Still s) ∨
    (s.submitted = s.consumed+1 ∧ s.fetchExhausted = false ∧
      ((s.inflight = [(s.consumed,s.cursor)] ∧ s.ready = []) ∨
        ∃ page, fetch s.cursor = .ok page ∧ s.inflight = [] ∧ s.ready = [(s.consumed,page)]))

/-- The parallel run keeps step with the serial one. -/
def InStep (total : Progress×Except Thrown (Option Bytes)) (quiet : Prop) (s : ParallelRun) : Prop :=
  match s.phase with
  | .top => Still s ∧ s.submitted = s.consumed ∧ s.fetchExhausted = false ∧
      ∃ q d k, Level U linker fetch item limits total quiet s q d k
  | .draining => s.pages < limits.maxPages.toNat ∧ Awaited fetch s ∧
      ∃ q d k, Level U linker fetch item limits total quiet s q d k
  | .leaving => Still s ∧ ∃ q d, Over total quiet s q d
  | .returned reply => reply = s.reply state ∧ ∃ q d, Over total quiet s q d
  | .threw _ => True

end Simulation

variable {total : Progress×Except Thrown (Option Bytes)} {quiet : Prop} {s : ParallelRun}

/-- What a worker leaves alone. -/
theorem work_frame (fetch : Option Bytes → Except Thrown SyncPage) (s : ParallelRun) (i : ℕ) :
    ∃ inflight ready fetchError, s.work fetch i =
      {s with inflight := inflight,ready := ready,fetchError := fetchError} := by
  unfold ParallelRun.work
  split
  · exact ⟨_,_,_,rfl⟩
  · split
    · exact ⟨_,_,_,rfl⟩
    · exact ⟨_,_,_,rfl⟩

theorem work_still (h : Still s) (i : ℕ) : s.work fetch i = s := by
  unfold ParallelRun.work
  rw [h.inflight]
  rfl

theorem Awaited.work (h : Awaited fetch s) (i : ℕ) : Awaited fetch (s.work fetch i) := by
  rcases h with herror | ⟨hexhausted,hstill⟩ | ⟨hcount,hopen,⟨hinflight,hready⟩ |
    ⟨page,hfetch,hinflight,hready⟩⟩
  · refine .inl ?_
    unfold ParallelRun.work
    split
    · exact herror
    · split
      · exact herror
      · rfl
  · rw [work_still hstill]
    exact .inr (.inl ⟨hexhausted,hstill⟩)
  · unfold ParallelRun.work
    cases i with
    | succ i =>
        rw [hinflight]
        exact .inr (.inr ⟨hcount,hopen,.inl ⟨hinflight,hready⟩⟩)
    | zero =>
        rw [hinflight]
        simp only [List.getElem?_cons_zero]
        cases hfetch : fetch s.cursor with
        | error e => exact .inl rfl
        | ok page => exact .inr (.inr ⟨hcount,hopen,.inr ⟨page,hfetch,rfl,by simp [hready]⟩⟩)
  · have hnone : s.inflight[i]? = none := by rw [hinflight]; rfl
    unfold ParallelRun.work
    rw [hnone]
    exact .inr (.inr ⟨hcount,hopen,.inr ⟨page,hfetch,hinflight,hready⟩⟩)

theorem InStep.work (h : InStep U linker fetch item state limits total quiet s) (i : ℕ) :
    InStep U linker fetch item state limits total quiet (s.work fetch i) := by
  obtain ⟨inflight,ready,fetchError,hframe⟩ := work_frame fetch s i
  have hphase : (s.work fetch i).phase = s.phase := by rw [hframe]
  unfold InStep at h ⊢
  rw [hphase]
  cases hs : s.phase with
  | top =>
      simp only [hs] at h ⊢
      rw [work_still h.1]
      exact h
  | draining =>
      simp only [hs] at h ⊢
      obtain ⟨hpages,hawaited,q,d,k,hlevel⟩ := h
      refine ⟨by rw [hframe]; exact hpages,hawaited.work i,q,d,k,?_⟩
      rw [hframe]
      exact ⟨hlevel.agree,hlevel.rest,hlevel.silent⟩
  | leaving =>
      simp only [hs] at h ⊢
      rw [work_still h.1]
      exact h
  | returned reply =>
      simp only [hs] at h ⊢
      obtain ⟨hreply,q,d,hover⟩ := h
      rw [hframe]
      exact ⟨hreply,q,d,hover.agree,hover.rest,hover.silent⟩
  | threw e => trivial

theorem InStep.submit (hs : s.phase = .top)
    (h : InStep U linker fetch item state limits total quiet s) (accepted : Bool) :
    InStep U linker fetch item state limits total quiet (s.submit limits accepted) := by
  simp only [InStep,hs] at h
  obtain ⟨hstill,hcount,hopen,q,d,k,hlevel⟩ := h
  unfold ParallelRun.submit
  by_cases hpages : s.pages < limits.maxPages.toNat
  · rw [if_pos hpages,if_neg (by simp [hopen])]
    cases accepted with
    | true =>
        refine ⟨hpages,.inr (.inr ⟨congrArg (·+1) hcount,hopen,.inl ⟨?_,hstill.ready⟩⟩),q,d,k,
          hlevel.agree,hlevel.rest,hlevel.silent⟩
        simp [hstill.inflight,hcount]
    | false =>
        exact ⟨hpages,.inr (.inl ⟨rfl,hstill.inflight,hstill.ready⟩),q,d,k,
          hlevel.agree,hlevel.rest,hlevel.silent⟩
  · rw [if_neg hpages]
    have hnone : limits.maxPages.toNat-s.pages = 0 := by omega
    have hrest := hlevel.rest
    have hsilent := hlevel.silent
    rw [hnone] at hrest hsilent
    refine ⟨⟨hstill.inflight,hstill.ready⟩,q,d,hlevel.agree,hrest.symm,?_⟩
    simpa [QuietPages] using hsilent

theorem InStep.wait (hs : s.phase = .leaving)
    (h : InStep U linker fetch item state limits total quiet s) (error : Option Thrown) :
    InStep U linker fetch item state limits total quiet (s.wait state error) := by
  simp only [InStep,hs] at h
  obtain ⟨hstill,q,d,hover⟩ := h
  unfold ParallelRun.wait
  cases error with
  | some e => trivial
  | none =>
      simp only [hstill.inflight,if_true]
      exact ⟨rfl,q,d,hover.agree,hover.rest,hover.silent⟩

/-- A round over a drained page. -/
theorem process_inStep {page : SyncPage} (hfetch : fetch s.cursor = .ok page)
    (hpages : s.pages < limits.maxPages.toNat) (hstill : Still s) (hcount : s.submitted = s.consumed)
    (hopen : s.fetchExhausted = false) {q : Progress} {d k : ℕ}
    (hlevel : Level U linker fetch item limits total quiet s q d k) :
    InStep U linker fetch item state limits total quiet (s.process U linker item limits page) := by
  obtain ⟨n,hn⟩ : ∃ n, limits.maxPages.toNat-s.pages = n+1 :=
    ⟨limits.maxPages.toNat-s.pages-1,by omega⟩
  have hnext : limits.maxPages.toNat-(s.pages+1) = n := by omega
  obtain ⟨hagree,hrest,hsilent⟩ := hlevel
  have hserial : (serialEnv fetch item).fetch k s.cursor = .ok page := hfetch
  rw [hn] at hrest hsilent
  simp only [syncPages,hserial] at hrest
  simp only [QuietPages,hserial] at hsilent
  unfold ParallelRun.process
  have hitems := parallelItems_agrees U linker item hagree page.items
  have henv : (serialEnv fetch item).item = item := rfl
  rw [henv] at hrest hsilent
  rcases hq : syncItems U linker item q page.items with ⟨q',rq⟩
  rcases hp : parallelItems U linker item s.progress page.items with ⟨p',rp⟩
  rw [hq,hp] at hitems
  rw [hq] at hrest hsilent
  rcases hitems with ⟨e,hs,hpar⟩ | ⟨hs,hpar,d',hagree',hle,hiff⟩
  · dsimp only at hpar
    subst hpar
    trivial
  dsimp only at hs hpar hagree'
  subst hs hpar
  dsimp only at hrest hsilent ⊢
  cases hcursor : page.nextCursor with
  | none =>
      simp only [hcursor] at hrest hsilent ⊢
      refine ⟨⟨hstill.inflight,hstill.ready⟩,⟨q'.learner,{q'.result with
        pagesCompleted := q'.result.pagesCompleted+1,exhausted := true}⟩,d',hagree'.paged.finished,
        hrest.symm,?_⟩
      rw [hsilent,← hiff,and_true]
      omega
  | some next =>
      simp only [hcursor] at hrest hsilent ⊢
      have hseen := hagree'.seen
      by_cases hbudget : limits.maxObservations ≤ q'.result.observationsSeen ∧ 0 < limits.maxObservations
      · have hsame : limits.maxObservations ≤ p'.result.observationsSeen ∧ 0 < limits.maxObservations :=
          ⟨hseen ▸ hbudget.1,hbudget.2⟩
        simp only [if_pos hbudget] at hrest hsilent
        simp only [if_pos hsame]
        refine ⟨⟨hstill.inflight,hstill.ready⟩,_,d',hagree'.paged,hrest.symm,?_⟩
        rw [hsilent,← hiff,and_true]
        omega
      · have hsame : ¬(limits.maxObservations ≤ p'.result.observationsSeen ∧ 0 < limits.maxObservations) :=
          fun h => hbudget ⟨hseen ▸ h.1,h.2⟩
        simp only [if_neg hbudget] at hrest hsilent
        simp only [if_neg hsame]
        refine ⟨⟨hstill.inflight,hstill.ready⟩,hcount,hopen,_,d',k+1,hagree'.paged,?_,?_⟩
        · rw [hnext]
          exact hrest
        · rw [hnext,hsilent,← hiff]
          constructor
          · rintro ⟨hd,hsame,hquiet⟩
            exact ⟨by omega,hquiet⟩
          · rintro ⟨hd,hquiet⟩
            exact ⟨by omega,by omega,hquiet⟩

theorem InStep.drain (hs : s.phase = .draining)
    (h : InStep U linker fetch item state limits total quiet s) :
    InStep U linker fetch item state limits total quiet (s.drain U linker item limits) := by
  have hkeep := h
  simp only [InStep,hs] at h
  obtain ⟨hpages,hawaited,q,d,k,hlevel⟩ := h
  unfold ParallelRun.drain
  cases herror : s.fetchError with
  | true =>
      simp only [if_true]
      trivial
  | false =>
      rw [if_neg (by simp)]
      rcases hawaited with hfailed | ⟨hexhausted,hstill⟩ | ⟨hcount,hopen,⟨hinflight,hready⟩ |
        ⟨page,hfetch,hinflight,hready⟩⟩
      · rw [herror] at hfailed
        cases hfailed
      · simp only [hstill.ready,hexhausted,if_true]
        trivial
      · simp only [hready,hopen,Bool.false_eq_true,if_false]
        exact hkeep
      · simp only [hready,if_true]
        exact process_inStep hfetch hpages ⟨hinflight,rfl⟩ hcount hopen
          ⟨hlevel.agree,hlevel.rest,hlevel.silent⟩

theorem InStep.step (h : InStep U linker fetch item state limits total quiet s) (act : ParallelAct) :
    InStep U linker fetch item state limits total quiet (s.step U linker fetch item state limits act) := by
  cases act with
  | work i => exact h.work i
  | submit accepted =>
      simp only [ParallelRun.step]
      split
      · next hs => exact h.submit hs accepted
      · exact h
  | drain =>
      simp only [ParallelRun.step]
      split
      · next hs => exact h.drain hs
      · exact h
  | wait error =>
      simp only [ParallelRun.step]
      split
      · next hs => exact h.wait hs error
      · exact h

theorem InStep.start (U : Utf8proc) (linker : Bool) (fetch : Option Bytes → Except Thrown SyncPage)
    (item : ℕ → ItemEnv) (state : IngestionState) (limits : SyncLimits) (w : Learner) : InStep U linker fetch item state limits
    (syncPages U linker limits (serialEnv fetch item) limits.maxPages.toNat 0 state.start ⟨w,.empty⟩)
    (QuietRun U linker (serialEnv fetch item) w state limits) (startParallel state limits w) := by
  unfold InStep startParallel
  by_cases hlimits : limits.pageSize ≤ 0 ∨ limits.maxPages ≤ 0
  · simp only [if_pos hlimits]
  · simp only [if_neg hlimits]
    refine ⟨⟨rfl,rfl⟩,trivial,trivial,⟨w,.empty⟩,0,0,⟨rfl,rfl,rfl,rfl,rfl,rfl,rfl⟩,rfl,?_⟩
    simp [QuietRun]

theorem InStep.run (h : InStep U linker fetch item state limits total quiet s)
    (acts : List ParallelAct) : InStep U linker fetch item state limits total quiet
      (runFrom (ParallelRun.step U linker fetch item state limits) s acts) := by
  induction acts generalizing s with
  | nil => exact h
  | cons act rest ih => exact ih (h.step act)

namespace ParallelSample

def start : IngestionState := ⟨⟨false,none,none,none⟩,⟨0,0⟩⟩

def pageLimits : SyncLimits := ⟨100,1,0⟩

/-- The only page, whatever the cursor. -/
def onePage (items : List SyncObservation) : Option Bytes → Except Thrown SyncPage :=
  fun _ => .ok ⟨items,none⟩

def calm : ℕ → ItemEnv := fun _ => .calm

/-- One page is requested, fetched, drained and processed. -/
def acts : List ParallelAct := [.submit true,.drain,.work 0,.drain,.wait none]

def run (items : List SyncObservation) (fresh : Graph) : ParallelRun :=
  runFrom (ParallelRun.step .plain false (onePage items) calm start pageLimits)
    (startParallel start pageLimits ⟨fresh,Ledger.createdSession,[]⟩) acts

def serial (items : List SyncObservation) (fresh : Graph) : SyncReply :=
  runSync .plain false (serialEnv (onePage items) calm) ⟨fresh,Ledger.createdSession,[]⟩ start pageLimits

/-- The learned and the skipped of a reply. -/
def tally (reply : SyncReply) : Option (ℕ×ℕ) :=
  match reply.outcome with
  | .ok r => some (r.learned,r.skipped)
  | .error _ => none

end ParallelSample

end Atperson.Sync
