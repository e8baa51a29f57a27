import Atperson.Core.Backdrop
import Atperson.Sync.Engine

/-!
# What a sync run commits

A run that returns, and one that stops for a retryable error, has committed some number of
observations and mirrored each of them; where that number is zero the graph is untouched.
The counts of the result are exact.
-/
namespace Atperson.Sync
open Wire
open Atperson.Core (Graph Utf8proc IndexEnv observeWithMemory Mirrored)
open Ledger (Status Outcome LedgerEntry Session CommitFault AppendArgs AppendReply LookupResult
  Item Numbered setOutcomeAt appendDecision lookup)

/-- How many entries of a ledger are committed. -/
def committedCount (items : List Item) : ℕ := items.countP fun it => it.outcome.isCommitted

/-- Every entry that was committed since the ledger held `base` is in the mirror. -/
def Mirrors (base : List Item) (w : Learner) : Prop :=
  ∀ (i : ℕ) (it : Item), w.session.handle.items[i]? = some it → it.outcome.isCommitted = true →
    (∃ it' : Item, base[i]? = some it' ∧ it'.outcome.isCommitted = true) ∨
      ∃ m : Mirrored, m ∈ w.graph.ledger ∧ m.entry.id = it.entry.id

/-- From `w` to `w'`, `n` observations were committed and mirrored. -/
structure Grows (n : ℕ) (w w' : Learner) : Prop where
  mirror : w'.graph.ledger.length = w.graph.ledger.length+n
  committed : committedCount w'.session.handle.items = committedCount w.session.handle.items+n
  still : n = 0 → w'.graph = w.graph
  mirrors : ∀ base, Mirrors base w → Mirrors base w'
  numbered : Numbered w'.session

theorem Grows.refl {w : Learner} (h : Numbered w.session) : Grows 0 w w :=
  ⟨rfl,rfl,fun _ => rfl,fun _ hm => hm,h⟩

theorem Grows.trans {m n : ℕ} {w w' w'' : Learner} (h : Grows m w w') (h' : Grows n w' w'') :
    Grows (m+n) w w'' where
  mirror := by rw [h'.mirror,h.mirror,Nat.add_assoc]
  committed := by rw [h'.committed,h.committed,Nat.add_assoc]
  still := fun hz => (h'.still (by omega)).trans (h.still (by omega))
  mirrors := fun base hm => h'.mirrors base (h.mirrors base hm)
  numbered := h'.numbered

/-! ## The reservation -/

theorem validate_outcome {a : AppendArgs} {count : ℕ} {v : Ledger.Observation}
    (h : a.validate count = some v) : Outcome.ofByte? a.outcome = some v.entry.outcome := by
  simp only [AppendArgs.validate,Option.bind_eq_bind,Option.bind_eq_some_iff] at h
  obtain ⟨source,-,sourceId,-,authorDid,-,o,ho,c,-,t,-,h⟩ := h
  split at h
  · cases h
    exact ho
  · cases h

/-- An append that ends early with success has found an entry with the key. -/
theorem appendDecision_found {items : List Item} {a : AppendArgs} {r : LookupResult} {id : UInt64}
    (h : appendDecision items a = .error ⟨r,id,.ok⟩) :
    ∃ v it, a.validate items.length = some v ∧
      Ledger.indexFind items v.entry.sourceId.bytes v.entry.contentDigest = some it ∧
      id = it.entry.id ∧ r = if it.outcome.isCommitted then .existsCommitted else .existsPending := by
  unfold appendDecision at h
  split at h
  · cases h
  · rename_i v hvalid
    unfold lookup at h
    cases hfind : Ledger.indexFind items v.entry.sourceId.bytes v.entry.contentDigest with
    | none =>
        simp only [hfind] at h
        split at h <;> cases h
    | some it =>
        simp only [hfind] at h
        cases h
        exact ⟨v,it,hvalid,hfind,rfl,rfl⟩

/-- An id that stands for an entry not yet committed. -/
structure Reserves (s s' : Session) (id : UInt64) : Prop where
  uncommitted : ∃ it, s'.handle.items[id.toNat-1]? = some it ∧ it.entry.id = id ∧
    it.outcome.isCommitted = false
  grown : s'.handle.items = s.handle.items ∨
    ∃ it, s'.handle.items = s.handle.items++[it] ∧ it.outcome.isCommitted = false
  numbered : Numbered s'

theorem Reserves.outcomes {s s' : Session} {id : UInt64} (h : Reserves s s' id) :
    committedCount s'.handle.items = committedCount s.handle.items ∧
      ∀ (i : ℕ) (it : Item), s'.handle.items[i]? = some it → it.outcome.isCommitted = true →
        s.handle.items[i]? = some it := by
  rcases h.grown with he | ⟨new,he,hnew⟩
  · rw [he]
    exact ⟨rfl,fun _ _ hi _ => hi⟩
  · rw [he]
    refine ⟨by simp [committedCount,hnew],fun i it hi hc => ?_⟩
    rw [List.getElem?_append] at hi
    split at hi
    · exact hi
    · rw [List.mem_singleton.mp (List.mem_of_getElem? hi),hnew] at hc
      cases hc

theorem ledgerAppend_thrown {fault : Option CommitFault} {s s' : Session} {a : AppendArgs}
    {e : Thrown} (h : ledgerAppend fault s a = (s',.error e)) : e ≠ .retryable := by
  unfold ledgerAppend at h
  split at h <;> cases h <;> simp

theorem ledgerAppend_ok {fault : Option CommitFault} {s s' : Session} {a : AppendArgs}
    {r : LookupResult} {id : UInt64} (h : ledgerAppend fault s a = (s',.ok (r,id))) :
    Ledger.append fault s a = (s',⟨r,id,.ok⟩) := by
  unfold ledgerAppend at h
  split at h
  · cases h
  · rename_i happ
    cases h
    exact happ
  · cases h

/-- What a reservation that returns has done. -/
theorem ledgerAppend_cases {fault : Option CommitFault} {s s' : Session} {a : AppendArgs}
    {r : LookupResult} {id : UInt64} (hnum : Numbered s) (ha : a.outcome = Outcome.pending.toByte)
    (h : ledgerAppend fault s a = (s',.ok (r,id))) :
    (r = .existsCommitted ∧ s' = s) ∨ (r ≠ .existsCommitted ∧ Reserves s s' id) := by
  have happ := ledgerAppend_ok h
  rcases Ledger.append_cases fault s a with ⟨reply,hd,he⟩ | ⟨v,ok,hd,hfresh,hc,hr⟩
  · rw [happ] at he
    obtain ⟨rfl,rfl⟩ := Prod.mk.inj he
    obtain ⟨v,it,-,hfind,rfl,hres⟩ := appendDecision_found hd
    have hit := List.mem_of_find?_eq_some hfind
    cases hcom : it.outcome.isCommitted with
    | true => exact .inl ⟨by rw [hres,hcom]; rfl,rfl⟩
    | false =>
        refine .inr ⟨by rw [hres,hcom]; simp,?_⟩
        obtain ⟨i,hi⟩ := List.mem_iff_getElem?.mp hit
        have hid := hnum.ids i it hi
        exact ⟨⟨it,by rw [hid]; exact hi,rfl,hcom⟩,.inl rfl,hnum⟩
  · rw [happ] at hc hr
    cases ok with
    | false => cases hr
    | true =>
        obtain ⟨rfl,rfl,-⟩ := AppendReply.mk.inj hr
        have hitems := hc.items
        rw [if_pos rfl] at hitems
        have hpending : v.item.outcome.isCommitted = false := by
          have ho := validate_outcome (Ledger.appendDecision_validate hd)
          rw [ha,Outcome.ofByte?_toByte] at ho
          rw [show v.item.outcome = .pending from (Option.some.inj ho).symm]
          rfl
        have hnum' := hnum.append fault a
        rw [happ] at hnum'
        refine .inr ⟨by simp,⟨v.item,?_,rfl,hpending⟩,.inr ⟨v.item,hitems,hpending⟩,hnum'⟩
        have hid : v.entry.id.toNat = s.handle.items.length+1 := hfresh.id_toNat
        rw [hitems,hid]
        simp

/-! ## The commit -/

theorem outcome_committed (o : SyncObservation) : o.outcome.isCommitted = true := by
  unfold SyncObservation.outcome
  split <;> rfl

/-- A commit of a reserved entry writes its outcome, whatever else it does. -/
theorem setOutcome_commits {fault : Option CommitFault} {s s' : Session} {id : UInt64}
    {o : Outcome} (ho : o.isCommitted = true) {it : Item}
    (hit : s.handle.items[id.toNat-1]? = some it) (hun : it.outcome.isCommitted = false)
    (h : Ledger.setOutcome fault s id o.toByte = (s',.ok)) :
    s'.handle.items = setOutcomeAt (id.toNat-1) o s.handle.items := by
  rcases Ledger.setOutcome_cases fault s id o.toByte with ⟨status,hd,he⟩ | ⟨o',x,ok,hd,hch,hc,hr⟩
  · rw [h] at he
    obtain ⟨-,rfl⟩ := Prod.mk.inj he
    obtain ⟨o',x,hb,hx,hsame⟩ := Ledger.setOutcomeDecision_same hd
    rw [Outcome.ofByte?_toByte] at hb
    obtain rfl := Option.some.inj hb
    obtain rfl := Option.some.inj (hit.symm.trans hx)
    rw [hsame,ho] at hun
    cases hun
  · have hvalid := hch.valid
    rw [Outcome.ofByte?_toByte] at hvalid
    obtain rfl := Option.some.inj hvalid
    rw [h] at hc hr
    cases ok with
    | false => cases hr
    | true => exact hc.items

theorem committedCount_setOutcomeAt {items : List Item} {i : ℕ} {it : Item} {o : Outcome}
    (hi : items[i]? = some it) (hun : it.outcome.isCommitted = false)
    (ho : o.isCommitted = true) :
    committedCount (setOutcomeAt i o items) = committedCount items+1 := by
  induction items generalizing i with
  | nil => cases hi
  | cons x rest ih =>
      cases i with
      | zero =>
          obtain rfl := Option.some.inj hi
          simp [committedCount,setOutcomeAt,hun,ho]
      | succ i =>
          have h := ih hi
          simp only [committedCount,setOutcomeAt,List.modify_succ_cons,List.countP_cons] at h ⊢
          omega

section Process
variable {U : Utf8proc} {env : ItemEnv} {w w' : Learner} {o : SyncObservation}

theorem rememberObservation_backdrop (U : Utf8proc) (env : ItemEnv) (g : Graph)
    (o : SyncObservation) (id : UInt64) :
    (rememberObservation U env g o id).1.backdrop = g.backdrop := by
  have h := Core.backdrop_observeWithMemory U env.index g (Core.textOf o.text) (o.provenance id)
  unfold rememberObservation
  split
  · generalize observeWithMemory U env.index g (Core.textOf o.text) (o.provenance id) = r at h
    rcases r with ⟨g',status,kept⟩
    cases status <;> exact h
  · rfl

theorem rememberObservation_thrown {g g' : Graph} {id : UInt64} {e : Thrown}
    (h : rememberObservation U env g o id = (g',.error e)) : e ≠ .retryable := by
  unfold rememberObservation at h
  split at h
  · split at h <;> cases h
    simp
  · cases h

theorem commitObservation_thrown {context : Ledger.ConversationContext} {id : UInt64} {e : Thrown}
    (h : commitObservation U env w o context id = (w',.error e)) : e ≠ .retryable := by
  unfold commitObservation at h
  split at h
  · rename_i hr
    cases h
    exact rememberObservation_thrown hr
  · split at h
    · split at h <;> cases h
      simp
    · cases h
      simp

/-- A commit that returns has written the outcome and mirrored the entry. -/
theorem commitObservation_ok {context : Ledger.ConversationContext} {id : UInt64} {new : Bool}
    {s : Session} (hres : Reserves s w.session id)
    (h : commitObservation U env w o context id = (w',.ok new)) :
    new = true ∧ Grows 1 {w with session := s} w' := by
  have hback := rememberObservation_backdrop U env w.graph o id
  obtain ⟨it,hit,hid,hun⟩ := hres.uncommitted
  unfold commitObservation at h
  generalize rememberObservation U env w.graph o id = remembered at h hback
  rcases remembered with ⟨g,e | u⟩
  · cases h
  simp only at h
  rcases hset : Ledger.setOutcome env.outcome w.session id o.outcome.toByte with ⟨s',status⟩
  have hnum' := hres.numbered.setOutcome env.outcome id o.outcome.toByte
  rw [hset] at h hnum'
  cases status with
  | ok =>
      simp only at h
      rcases hmir : g.addLedgerEntry (o.entry id) context with ⟨g',status⟩
      rw [hmir] at h
      cases status with
      | ok =>
          cases h
          have hitems := setOutcome_commits (outcome_committed o) hit hun hset
          have hledger : g'.ledger = w.graph.ledger++[⟨o.entry id,context⟩] := by
            have hb := Core.backdrop_addLedgerEntry hmir
            rw [hback] at hb
            exact congrArg Core.Backdrop.ledger hb
          refine ⟨rfl,?_,?_,?_,?_,hnum'⟩
          · rw [hledger,List.length_append,List.length_singleton]
          · rw [hitems,committedCount_setOutcomeAt hit hun (outcome_committed o),hres.outcomes.1]
          · intro hz
            cases hz
          · intro base hm i x hx hc
            rw [hitems,Ledger.getElem?_setOutcomeAt] at hx
            by_cases hi : id.toNat-1 = i
            · subst hi
              rw [if_pos rfl,hit] at hx
              obtain rfl := Option.some.inj hx
              refine .inr ⟨⟨o.entry id,context⟩,by rw [hledger]; simp,?_⟩
              exact hid.symm
            · rw [if_neg hi] at hx
              rcases hm i x (hres.outcomes.2 i x hx hc) hc with hbase | ⟨m,hmem,he⟩
              · exact .inl hbase
              · exact .inr ⟨m,by rw [hledger]; exact List.mem_append_left _ hmem,he⟩
      | _ => cases h
  | _ => cases h

theorem toC_thrown {c : ConversationContext} {e : Thrown} (h : c.toC = .error e) :
    e ≠ .retryable := by
  unfold ConversationContext.toC at h
  split at h
  · cases h
  · cases h
    simp

theorem processObservation_thrown {e : Thrown}
    (h : processObservation U env w o = (w',.error e)) : e ≠ .retryable := by
  unfold processObservation at h
  split at h
  · rename_i hc
    cases h
    exact toC_thrown hc
  · split at h
    · rename_i ha
      cases h
      exact ledgerAppend_thrown ha
    · cases h
    · exact commitObservation_thrown h

theorem processObservation_ok {new : Bool} (hnum : Numbered w.session)
    (h : processObservation U env w o = (w',.ok new)) : Grows new.toNat w w' := by
  unfold processObservation at h
  split at h
  · cases h
  · rename_i context hctx
    rcases ha : ledgerAppend env.append w.session (o.appendArgs context) with ⟨s,e | ⟨r,id⟩⟩
    · rw [ha] at h
      cases h
    · rw [ha] at h
      rcases ledgerAppend_cases hnum rfl ha with ⟨rfl,rfl⟩ | ⟨hr,hres⟩
      · cases h
        exact .refl hnum
      · have h' : commitObservation U env {w with session := s} o context id = (w',.ok new) := by
          cases r with
          | existsCommitted => exact absurd rfl hr
          | _ => exact h
        obtain ⟨rfl,hg⟩ := commitObservation_ok (w := {w with session := s}) hres h'
        exact hg

end Process

/-! ## Pages and runs -/

namespace Progress

/-- The observations a run has committed by its own account. -/
def taken (p : Progress) : ℕ := p.result.learned+p.result.skipped

/-- From `p` to `p'` the counts grew with the ledger. -/
def Counts (p p' : Progress) : Prop :=
  ∃ n, Grows n p.learner p'.learner ∧ p'.taken = p.taken+n

theorem Counts.refl {p : Progress} (h : Numbered p.learner.session) : p.Counts p :=
  ⟨0,.refl h,rfl⟩

theorem Counts.trans {p p' p'' : Progress} (h : p.Counts p') (h' : p'.Counts p'') :
    p.Counts p'' := by
  obtain ⟨m,hm,ht⟩ := h
  obtain ⟨n,hn,ht'⟩ := h'
  exact ⟨m+n,hm.trans hn,by rw [ht',ht,Nat.add_assoc]⟩

theorem Counts.numbered {p p' : Progress} (h : p.Counts p') : Numbered p'.learner.session :=
  h.choose_spec.1.numbered

end Progress

/-- The linker leaves graph and ledger alone. -/
theorem callLinker_leaves {linker : Bool} {env : ItemEnv} {w w' : Learner} {o : SyncObservation}
    {r : Except Thrown Unit} (h : callLinker linker env w o = (w',r)) :
    w'.graph = w.graph ∧ w'.session = w.session := by
  unfold callLinker at h
  split at h
  · split at h <;> cases h <;> exact ⟨rfl,rfl⟩
  · cases h
    exact ⟨rfl,rfl⟩

theorem Grows.linked {n : ℕ} {w w' w'' : Learner} (h : Grows n w w')
    (he : w''.graph = w'.graph ∧ w''.session = w'.session) : Grows n w w'' where
  mirror := by rw [he.1]; exact h.mirror
  committed := by rw [he.2]; exact h.committed
  still := fun hz => he.1.trans (h.still hz)
  mirrors := fun base hm => by
    unfold Mirrors
    rw [he.1,he.2]
    exact h.mirrors base hm
  numbered := by rw [he.2]; exact h.numbered

theorem countNew_taken (r : SyncResult) (o : SyncObservation) :
    (r.countNew o).learned+(r.countNew o).skipped = r.learned+r.skipped+1 := by
  unfold SyncResult.countNew
  split
  · show r.learned+1+r.skipped = _
    omega
  · rfl

section Run
variable {U : Utf8proc} {linker : Bool}

theorem syncItem_ok {env : ItemEnv} {p p' : Progress} {o : SyncObservation}
    (hnum : Numbered p.learner.session) (h : syncItem U linker env p o = (p',.ok ())) :
    p.Counts p' := by
  unfold syncItem at h
  rcases hp : processObservation U env p.learner o with ⟨w,e | new⟩
  · rw [hp] at h
    cases h
  · rw [hp] at h
    have hg := processObservation_ok hnum hp
    cases new with
    | false =>
        cases h
        exact ⟨0,hg,rfl⟩
    | true =>
        rcases hl : callLinker linker env w o with ⟨w',e | u⟩
        · simp only [hl] at h
          cases h
        · simp only [hl] at h
          cases h
          exact ⟨1,hg.linked (callLinker_leaves hl),countNew_taken _ o⟩

theorem syncItem_retryable {env : ItemEnv} {p p' : Progress} {o : SyncObservation}
    (hnum : Numbered p.learner.session) (h : syncItem U linker env p o = (p',.error .retryable)) :
    ∃ n, Grows n p.learner p'.learner := by
  unfold syncItem at h
  rcases hp : processObservation U env p.learner o with ⟨w,e | new⟩
  · rw [hp] at h
    cases h
    exact absurd rfl (processObservation_thrown hp)
  · rw [hp] at h
    have hg := processObservation_ok hnum hp
    cases new with
    | false => cases h
    | true =>
        rcases hl : callLinker linker env w o with ⟨w',e | u⟩
        · simp only [hl] at h
          cases h
          exact ⟨1,hg.linked (callLinker_leaves hl)⟩
        · simp only [hl] at h
          cases h

theorem syncItems_ok {env : ℕ → ItemEnv} {p p' : Progress} {items : List SyncObservation}
    (hnum : Numbered p.learner.session) (h : syncItems U linker env p items = (p',.ok ())) :
    p.Counts p' := by
  induction items generalizing p with
  | nil =>
      cases h
      exact .refl hnum
  | cons o rest ih =>
      unfold syncItems at h
      split at h
      · cases h
      · rename_i hi
        have hc := syncItem_ok hnum hi
        exact hc.trans (ih hc.numbered h)

theorem syncItems_retryable {env : ℕ → ItemEnv} {p p' : Progress} {items : List SyncObservation}
    (hnum : Numbered p.learner.session)
    (h : syncItems U linker env p items = (p',.error .retryable)) :
    ∃ n, Grows n p.learner p'.learner := by
  induction items generalizing p with
  | nil => cases h
  | cons o rest ih =>
      unfold syncItems at h
      split at h
      · rename_i hi
        cases h
        exact syncItem_retryable hnum hi
      · rename_i hi
        obtain ⟨m,hm,-⟩ := syncItem_ok hnum hi
        obtain ⟨n,hn⟩ := ih hm.numbered h
        exact ⟨m+n,hm.trans hn⟩

variable {limits : SyncLimits} {env : SyncEnv}

theorem syncPages_ok {pages k : ℕ} {cursor next : Option Bytes} {p p' : Progress}
    (hnum : Numbered p.learner.session)
    (h : syncPages U linker limits env pages k cursor p = (p',.ok next)) : p.Counts p' := by
  induction pages generalizing k cursor p with
  | zero =>
      cases h
      exact .refl hnum
  | succ pages ih =>
      unfold syncPages at h
      split at h
      · cases h
      · split at h
        · cases h
        · rename_i hi
          have hc := syncItems_ok hnum hi
          simp only at h
          split at h
          · cases h
            exact hc
          · split at h
            · cases h
              exact hc
            · have hrest := fun hn => ih hn h
              exact hc.trans (hrest hc.numbered)

theorem syncPages_retryable {pages k : ℕ} {cursor : Option Bytes} {p p' : Progress}
    (hnum : Numbered p.learner.session)
    (h : syncPages U linker limits env pages k cursor p = (p',.error .retryable)) :
    ∃ n, Grows n p.learner p'.learner := by
  induction pages generalizing k cursor p with
  | zero => cases h
  | succ pages ih =>
      unfold syncPages at h
      split at h
      · cases h
        exact ⟨0,.refl hnum⟩
      · split at h
        · rename_i hi
          cases h
          exact syncItems_retryable hnum hi
        · rename_i hi
          obtain ⟨m,hm,-⟩ := syncItems_ok hnum hi
          simp only at h
          split at h
          · cases h
          · split at h
            · cases h
            · have hrest := fun hn => ih hn h
              obtain ⟨n,hn⟩ := hrest hm.numbered
              exact ⟨m+n,hm.trans hn⟩

variable {w : Learner} {state : IngestionState}

/-- A run that returns has committed what it counts as learned and as skipped. -/
theorem runSync_ok {r : SyncResult} (hnum : Numbered w.session)
    (h : (runSync U linker env w state limits).outcome = .ok r) :
    Grows (r.learned+r.skipped) w (runSync U linker env w state limits).learner := by
  unfold runSync at h ⊢
  split at h
  · cases h
  · rename_i hpos
    rw [if_neg hpos]
    split at h
    · cases h
    · rename_i hp
      cases h
      obtain ⟨n,hg,ht⟩ := syncPages_ok (p := ⟨w,.empty⟩) hnum hp
      have hn : n = _ := (Nat.zero_add n).symm.trans ht.symm
      rw [hn] at hg
      exact hg

/-- A run that stops for a retryable error has committed some number of observations. -/
theorem runSync_retryable (hnum : Numbered w.session)
    (h : (runSync U linker env w state limits).outcome = .error .retryable) :
    ∃ n, Grows n w (runSync U linker env w state limits).learner := by
  unfold runSync at h ⊢
  split at h
  · cases h
  · rename_i hpos
    rw [if_neg hpos]
    split at h
    · rename_i hp
      cases h
      exact syncPages_retryable (p := ⟨w,.empty⟩) hnum hp
    · cases h

end Run

end Atperson.Sync
