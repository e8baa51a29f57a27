import Atperson.Core.Relearning
import Atperson.Sync.Learning

/-!
# Graphs that retell their ledger

A graph retells its ledger if it holds what a replay of the ledger would make of a fresh graph.
An observation keeps this so, if what is learned of it is committed as well and, where its entry
was reserved by an earlier call, nothing that matters has come behind the entry and the entry
says what the observation says.
-/
namespace Atperson.Sync
open Wire
open Atperson.Core (Graph Utf8proc IndexEnv Matters Lesson Replayed lessonOf teach relearn mirror
  learnItem learnItems observeWithMemory textOf provenanceOf schemaCanReplay)
open Ledger (Status Outcome LedgerEntry Session CommitFault AppendArgs LookupResult Item Numbered
  setOutcomeAt)

def Learner.items (w : Learner) : List Item := w.session.handle.items

/-- Replays that meet no failure. -/
def calmReplay : UInt64 → IndexEnv := fun _ => .calm

/-- The graph holds what the ledger makes of the fresh graph. -/
def Retells (U : Utf8proc) (fresh : Graph) (w : Learner) : Prop :=
  ∃ told, learnItems U calmReplay fresh w.items = some told ∧ w.graph.knowledge = told.knowledge

section Retells
variable {U : Utf8proc} {fresh : Graph} {w w' : Learner}

theorem Retells.frame (h : Retells U fresh w) (hg : w'.graph.knowledge = w.graph.knowledge)
    (hitems : w'.items = w.items) : Retells U fresh w' := by
  obtain ⟨told,hlearn,hsame⟩ := h
  exact ⟨told,by rw [hitems]; exact hlearn,hg.trans hsame⟩

/-- An entry that does not matter is appended. -/
theorem Retells.append (h : Retells U fresh w) {it : Item} (hs : ¬Matters it)
    (hschema : schemaCanReplay it.entry.schemaVersion = true)
    (hg : w'.graph.knowledge = w.graph.knowledge) (hitems : w'.items = w.items++[it]) :
    Retells U fresh w' := by
  obtain ⟨told,hlearn,hsame⟩ := h
  refine ⟨told,?_,hg.trans hsame⟩
  rw [hitems,Core.learnItems_last hlearn]
  exact Core.learnItem_skips hs hschema

/-- Entries that do not matter are withdrawn. -/
theorem Retells.withdrawn (h : Retells U fresh w)
    (hitems : List.Forall₂ (fun it it' => it' = it ∨
      (¬Matters it ∧ it' = it.withOutcome .withdrawn)) w.items w'.items)
    (hg : w'.graph = w.graph) : Retells U fresh w' := by
  obtain ⟨told,hlearn,hsame⟩ := h
  exact ⟨told,by rw [Core.learnItems_withdrawn hitems]; exact hlearn,by rw [hg]; exact hsame⟩

theorem teach_eased {k : Core.Easing} {g g' : Graph} {l : Lesson} {what : Replayed}
    (h : teach U calmReplay g l = (g',.ok what)) :
    teach U calmReplay (g.eased k) l = (g'.eased k,.ok what) := by
  cases l with
  | learn e context payload => exact Core.relearn_eased h
  | mirror e context => exact Core.mirror_eased h
  | unreadable => cases h
  | silent what => cases h; rfl

/-- An entry comes to matter behind all others that do, and the graph is taught it. -/
theorem Retells.taught (hfresh : fresh.unbounded = fresh) (h : Retells U fresh w) {i : ℕ}
    {it : Item} {change : Item → Item} {r : Replayed} (hi : w.items[i]? = some it)
    (hs : ¬Matters it) (hlater : ∀ j x, i < j → w.items[j]? = some x → ¬Matters x)
    (hitems : w'.items = w.items.modify i change)
    (hschema : schemaCanReplay (change it).entry.schemaVersion = true)
    (hteach : teach U calmReplay w.graph (lessonOf (change it)) = (w'.graph,.ok r)) :
    Retells U fresh w' := by
  obtain ⟨told,hlearn,hsame⟩ := h
  -- the replayed graph is the live one under its own count of refusals
  have htold : w.graph.eased (.recount told.capacityRejections) = told := by
    rw [Core.Graph.eased_of_knowledge hsame]
    exact Core.learnItems_unbounded hfresh hlearn
  have hlesson := teach_eased (k := .recount told.capacityRejections) hteach
  rw [htold] at hlesson
  refine ⟨w'.graph.eased (.recount told.capacityRejections),?_,rfl⟩
  rw [hitems,Core.learnItems_changed hi hs hlater hlearn,learnItem,
    if_neg (not_not_intro hschema),hlesson]

end Retells

/-! ## The reservation -/

namespace SyncObservation

/-- The identity of an observation fits an entry. -/
structure Fits (o : SyncObservation) : Prop where
  source : (CString.ofRaw o.sourceUri).bytes.length < Ledger.sourceBytes
  sourced : (CString.ofRaw o.sourceUri).bytes ≠ []
  author : (CString.ofRaw o.authorDid).bytes.length < Ledger.authorBytes

/-- What an observation teaches once it is committed. -/
def lesson (o : SyncObservation) (id : UInt64) (context : Ledger.ConversationContext) : Lesson :=
  if o.outcome = .learned then .learn (o.entry id) context o.text else .mirror (o.entry id) context

theorem outcome_cases (o : SyncObservation) :
    (o.outcome = .learned ∧ o.text ≠ []) ∨ o.outcome = .skipped := by
  unfold outcome
  split
  · rename_i h
    have ht : o.trainable = true := (Bool.and_eq_true_iff.mp h).1
    exact .inl ⟨rfl,of_decide_eq_true ht⟩
  · exact .inr rfl

end SyncObservation

theorem truncate_bytes {n : ℕ} {s : CString} (h : s.bytes.length < n+1) :
    (CText.truncate s : CText (n+1)).bytes = s.bytes :=
  List.take_of_length_le (Nat.lt_succ_iff.mp h)

theorem ofCString?_truncate {n : ℕ} {s : CString} {t : CText (n+1)}
    (h : CText.ofCString? s = some t) : t = CText.truncate s ∧ s.bytes.length < n+1 := by
  have hbytes := CText.ofCString?_eq_some h
  have hlen : s.bytes.length < n+1 := hbytes ▸ t.fits
  exact ⟨CText.ext (hbytes.trans (truncate_bytes hlen).symm),hlen⟩

/-- An entry says what an observation says. -/
structure Repeats (it : Item) (o : SyncObservation) (context : Ledger.ConversationContext) :
    Prop where
  entry : (it.withOutcome o.outcome).entry = o.entry it.entry.id
  context : it.context = context
  payload : o.outcome = .learned → it.payload ≠ .released ∧ it.payload.retained = o.text

theorem Repeats.lesson {it : Item} {o : SyncObservation} {context : Ledger.ConversationContext}
    (h : Repeats it o context) :
    lessonOf (it.withOutcome o.outcome) = o.lesson it.entry.id context := by
  have hdigest : (it.withOutcome o.outcome).entry.contentDigest = Ledger.digest o.text := by
    rw [h.entry]
    rfl
  unfold lessonOf SyncObservation.lesson
  rw [show (it.withOutcome o.outcome).entry.outcome = o.outcome from rfl]
  rcases o.outcome_cases with ⟨ho,htext⟩ | ho
  · obtain ⟨hreleased,hretained⟩ := h.payload ho
    simp only [ho] at hdigest ⊢
    rw [Item.withOutcome_payload,if_neg hreleased,hretained,hdigest,if_neg (by simp [htext]),
      Item.withOutcome_context,h.context,← h.entry,ho]
    rfl
  · simp only [ho]
    rw [Item.withOutcome_context,h.context,← h.entry,ho]
    rfl

/-- What a reservation that returns an uncommitted entry has found or made. -/
structure Reservation (o : SyncObservation) (context : Ledger.ConversationContext)
    (s s' : Session) (id : UInt64) (it : Item) : Prop where
  at_id : s'.handle.items[id.toNat-1]? = some it
  named : it.entry.id = id
  positive : 0 < id.toNat
  uncommitted : it.outcome.isCommitted = false
  fits : o.Fits
  numbered : Numbered s'
  origin : (s'.handle.items = s.handle.items ∧ Ledger.indexFind s.handle.items
      (CString.ofRaw o.sourceUri).bytes o.digest = some it) ∨
    (s'.handle.items = s.handle.items++[it] ∧ it.outcome = .pending ∧ Repeats it o context)

theorem payloadOf_bytes {bs : Bytes} {t : Ledger.PayloadText}
    (h : Ledger.payloadOf (.bytes bs) = some t) : t.bytes = bs := by
  simp only [Ledger.payloadOf] at h
  split at h <;> cases h
  rfl

/-- The entry a valid observation is reserved under. -/
theorem validate_appendArgs {o : SyncObservation} {context : Ledger.ConversationContext}
    {count : ℕ} {v : Ledger.Observation}
    (h : (o.appendArgs context).validate count = some v) :
    o.Fits ∧ v.item.outcome = .pending ∧ Repeats v.item o context := by
  simp only [AppendArgs.validate,SyncObservation.appendArgs,Option.bind_eq_bind,
    Option.bind_eq_some_iff,Option.some.injEq] at h
  obtain ⟨source,rfl,sourceId,hsource,authorDid,hauthor,outcome,hout,c,hc,t,ht,h⟩ := h
  obtain ⟨rfl,hsfits⟩ := ofCString?_truncate hsource
  obtain ⟨rfl,hafits⟩ := ofCString?_truncate hauthor
  rw [Outcome.ofByte?_toByte] at hout
  obtain rfl := Option.some.inj hout
  simp only [Ledger.contextOf,CText.ofCString?_toCString,Option.bind_eq_bind,Option.bind_some,
    Option.pure_def,Option.some.injEq] at hc
  subst hc
  have hbytes := payloadOf_bytes ht
  split at h
  · rename_i hne
    cases h
    rw [truncate_bytes hsfits] at hne
    exact ⟨⟨hsfits,hne,hafits⟩,rfl,⟨rfl,rfl,fun _ => ⟨by simp [Ledger.Observation.item],hbytes⟩⟩⟩
  · cases h

theorem ledgerAppend_reserves {fault : Option CommitFault} {s s' : Session} {o : SyncObservation}
    {context : Ledger.ConversationContext} {r : LookupResult} {id : UInt64} (hnum : Numbered s)
    (hr : r ≠ .existsCommitted)
    (h : ledgerAppend fault s (o.appendArgs context) = (s',.ok (r,id))) :
    ∃ it, Reservation o context s s' id it := by
  have happ := ledgerAppend_ok h
  rcases Ledger.append_cases fault s (o.appendArgs context) with
    ⟨reply,hd,he⟩ | ⟨v,ok,hd,hfresh,hc,hreply⟩
  · rw [happ] at he
    obtain ⟨rfl,rfl⟩ := Prod.mk.inj he
    obtain ⟨v,it,hvalid,hfind,rfl,hres⟩ := appendDecision_found hd
    obtain ⟨hfits,-,hrep⟩ := validate_appendArgs hvalid
    have hun : it.outcome.isCommitted = false := by
      cases hcom : it.outcome.isCommitted with
      | true =>
          rw [hcom] at hres
          exact absurd hres hr
      | false => rfl
    have hsource : v.entry.sourceId = CText.truncate (CString.ofRaw o.sourceUri) :=
      congrArg LedgerEntry.sourceId hrep.entry
    have hdigest : v.entry.contentDigest = o.digest := congrArg LedgerEntry.contentDigest hrep.entry
    rw [hsource,hdigest,truncate_bytes hfits.source] at hfind
    obtain ⟨i,hi⟩ := List.mem_iff_getElem?.mp (List.mem_of_find?_eq_some hfind)
    have hid := hnum.ids i it hi
    exact ⟨it,by rw [hid]; exact hi,rfl,by omega,hun,hfits,hnum,.inl ⟨rfl,hfind⟩⟩
  · rw [happ] at hc hreply
    cases ok with
    | false => cases hreply
    | true =>
        obtain ⟨-,rfl,-⟩ := Ledger.AppendReply.mk.inj hreply
        have hitems := hc.items
        rw [if_pos rfl] at hitems
        obtain ⟨hfits,hpending,hrep⟩ := validate_appendArgs (Ledger.appendDecision_validate hd)
        have hnum' := hnum.append fault (o.appendArgs context)
        rw [happ] at hnum'
        have hid : v.entry.id.toNat = s.handle.items.length+1 := hfresh.id_toNat
        refine ⟨v.item,?_,rfl,by omega,by rw [hpending]; rfl,hfits,hnum',
          .inr ⟨hitems,hpending,hrep⟩⟩
        rw [hitems,hid]
        simp

/-- A reservation that fails leaves the entries as they were. -/
theorem ledgerAppend_failed {fault : Option CommitFault} {s s' : Session} {a : AppendArgs}
    {t : Thrown} (h : ledgerAppend fault s a = (s',.error t)) :
    s'.handle.items = s.handle.items := by
  have hs : (Ledger.append fault s a).1 = s' := by
    unfold ledgerAppend at h
    split at h <;> cases h <;> simp_all
  rcases Ledger.append_cases fault s a with ⟨reply,-,he⟩ | ⟨v,ok,-,-,hc,hreply⟩
  · rw [← hs,he]
  · cases ok with
    | false =>
        rw [hs] at hc
        exact hc.items
    | true =>
        unfold ledgerAppend at h
        generalize Ledger.append fault s a = appended at h hreply
        obtain ⟨s₁,reply⟩ := appended
        obtain rfl : reply = ⟨.new,v.entry.id,.ok⟩ := hreply
        cases h

theorem setOutcome_failed {fault : Option CommitFault} {s s' : Session} {id : UInt64}
    {byte : UInt8} {status : Status} (h : Ledger.setOutcome fault s id byte = (s',status))
    (hne : status ≠ .ok) : s'.handle.items = s.handle.items := by
  rcases Ledger.setOutcome_cases fault s id byte with ⟨_,-,he⟩ | ⟨o,x,ok,-,-,hc,hr⟩
  · rw [h] at he
    obtain ⟨rfl,-⟩ := Prod.mk.inj he
    rfl
  · rw [h] at hc hr
    cases ok with
    | false => exact hc.items
    | true => exact absurd hr hne

theorem not_matters_of_uncommitted {it : Item} (h : it.outcome.isCommitted = false) :
    ¬Matters it := by
  rintro (⟨ho,-⟩ | ho)
  · rw [Item.outcome,ho] at h
    cases h
  · rw [Item.outcome,ho] at h
    cases h

/-! ## One observation -/

/-- An observation that takes up an entry says what the entry says, and nothing that matters
has come behind the entry. -/
def InOrder (w : Learner) (o : SyncObservation) (context : Ledger.ConversationContext) : Prop :=
  ∀ it, Ledger.indexFind w.items (CString.ofRaw o.sourceUri).bytes o.digest = some it →
    it.outcome.isCommitted = false →
    Repeats it o context ∧ ∀ j x, it.entry.id.toNat ≤ j → w.items[j]? = some x → ¬Matters x

section Process
variable (U : Utf8proc) (env : ItemEnv) (w : Learner) (o : SyncObservation)

/-- A text that the ceilings admit is learned under an entry that is not committed with it. -/
def Strands : Prop :=
  o.outcome = .learned ∧ w.graph.fitsBudget U (textOf o.text) ∧
    ∃ context s r id w' t, o.context.toC = .ok context ∧
      ledgerAppend env.append w.session (o.appendArgs context) = (s,.ok (r,id)) ∧
      r ≠ .existsCommitted ∧
      commitObservation U env {w with session := s} o context id = (w',.error t)

/-- An observation that leaves a graph that retells its ledger so. -/
structure Orderly : Prop where
  indexed : env.index = .calm
  ordered : ∀ context w', o.context.toC = .ok context →
    processObservation U env w o = (w',.ok true) → InOrder w o context
  whole : ¬Strands U env w o

variable {U env w o} {w' : Learner}

theorem provenanceOf_entry (h : o.Fits) (id : UInt64) :
    provenanceOf (o.entry id) = o.provenance id := by
  have hsource : (o.entry id).sourceId.toCString = CString.ofRaw o.sourceUri :=
    CString.ext (truncate_bytes h.source)
  have hauthor : (o.entry id).authorDid.toCString = CString.ofRaw o.authorDid :=
    CString.ext (truncate_bytes h.author)
  unfold provenanceOf SyncObservation.provenance
  rw [hsource,hauthor]
  rfl

/-- A commit that returns has taught the graph what the observation teaches. -/
theorem commitObservation_teaches {context : Ledger.ConversationContext} {id : UInt64} {new : Bool}
    (hindex : env.index = .calm) (hfits : o.Fits)
    (h : commitObservation U env w o context id = (w',.ok new)) :
    ∃ what, teach U calmReplay w.graph (o.lesson id context) = (w'.graph,.ok what) := by
  unfold commitObservation rememberObservation at h
  unfold SyncObservation.lesson
  rcases o.outcome_cases with ⟨ho,-⟩ | ho
  · rw [if_pos ho] at h ⊢
    rw [hindex] at h
    refine ⟨.replayed,?_⟩
    show relearn U calmReplay w.graph (o.entry id) context o.text = _
    rw [relearn,provenanceOf_entry hfits,show calmReplay (o.entry id).id = .calm from rfl]
    generalize observeWithMemory U .calm w.graph (textOf o.text) (o.provenance id) = r at h ⊢
    obtain ⟨g,status,kept⟩ := r
    cases status with
    | ok =>
        simp only at h ⊢
        rcases hset : Ledger.setOutcome env.outcome w.session id o.outcome.toByte with ⟨s,set⟩
        rcases hm : g.addLedgerEntry (o.entry id) context with ⟨g₁,status⟩
        rw [hset,hm] at h
        cases set <;> cases status <;> cases h
        rfl
    | _ => cases h
  · have hne : ¬o.outcome = .learned := by simp [ho]
    rw [if_neg hne] at h ⊢
    refine ⟨.mirrored,?_⟩
    show mirror w.graph (o.entry id) context = _
    rw [mirror]
    simp only at h
    rcases hset : Ledger.setOutcome env.outcome w.session id o.outcome.toByte with ⟨s,set⟩
    rcases hm : w.graph.addLedgerEntry (o.entry id) context with ⟨g₁,status⟩
    rw [hset,hm] at h
    cases set <;> cases status <;> cases h
    rfl

theorem addLedgerEntry_fits (hfits : o.Fits) (g : Graph) (id : UInt64)
    (context : Ledger.ConversationContext) :
    (g.addLedgerEntry (o.entry id) context).2 = .ok := by
  have hne : ¬(o.entry id).sourceId.bytes = [] := by
    rw [show (o.entry id).sourceId.bytes = _ from truncate_bytes hfits.source]
    exact hfits.sourced
  unfold Graph.addLedgerEntry
  rw [if_neg hne]

/-- A commit that throws has changed neither the entries nor what the graph knows, unless the
ceilings admit a text that is to be learned. -/
theorem commitObservation_stranded {context : Ledger.ConversationContext} {id : UInt64}
    {t : Thrown} (hfits : o.Fits)
    (hrefused : o.outcome = .learned → ¬w.graph.fitsBudget U (textOf o.text))
    (h : commitObservation U env w o context id = (w',.error t)) :
    w'.graph.knowledge = w.graph.knowledge ∧ w'.items = w.items := by
  unfold commitObservation rememberObservation at h
  rcases o.outcome_cases with ⟨ho,-⟩ | ho
  · have hbudget : observeWithMemory U env.index w.graph (textOf o.text) (o.provenance id) =
        (w.graph.reject,.capacity,false) := by
      unfold observeWithMemory
      rw [if_pos (hrefused ho)]
    rw [if_pos ho,hbudget] at h
    cases h
    exact ⟨rfl,rfl⟩
  · have hne : ¬o.outcome = .learned := by simp [ho]
    rw [if_neg hne] at h
    simp only at h
    split at h
    · have hmirror := addLedgerEntry_fits hfits w.graph id context
      split at h
      · cases h
      · rename_i hfail hm
        rw [hm] at hmirror
        exact absurd hmirror hfail
    · rename_i hset
      cases h
      refine ⟨rfl,setOutcome_failed hset ?_⟩
      assumption

theorem commitObservation_new {context : Ledger.ConversationContext} {id : UInt64} {new : Bool}
    (h : commitObservation U env w o context id = (w',.ok new)) : new = true := by
  unfold commitObservation at h
  split at h
  · cases h
  · split at h
    · split at h <;> cases h
      rfl
    · cases h

theorem commitObservation_numbered {context : Ledger.ConversationContext} {id : UInt64}
    {r : Except Thrown Bool} (hnum : Numbered w.session)
    (h : commitObservation U env w o context id = (w',r)) : Numbered w'.session := by
  have hset := hnum.setOutcome env.outcome id o.outcome.toByte
  unfold commitObservation at h
  split at h
  · cases h
    exact hnum
  · split at h
    · rename_i hs
      rw [hs] at hset
      split at h <;> cases h <;> exact hset
    · rename_i hs
      rw [hs] at hset
      cases h
      exact hset

theorem ledgerAppend_numbered {s s' : Session} {a : AppendArgs}
    {fault : Option CommitFault} {r : Except Thrown (LookupResult×UInt64)} (hnum : Numbered s)
    (h : ledgerAppend fault s a = (s',r)) : Numbered s' := by
  have happ := hnum.append fault a
  unfold ledgerAppend at h
  split at h
  all_goals
    rename_i ha
    rw [ha] at happ
    cases h
    exact happ

theorem Repeats.replayable {it : Item} {context : Ledger.ConversationContext}
    (h : Repeats it o context) : schemaCanReplay it.entry.schemaVersion = true := by
  have hv : it.entry.schemaVersion = Ledger.schemaVersion :=
    congrArg LedgerEntry.schemaVersion h.entry
  rw [hv]
  rfl

/-- A reserved entry does not matter yet. -/
theorem Retells.reserved {fresh : Graph} (h : Retells U fresh w)
    {context : Ledger.ConversationContext} {s : Session} {id : UInt64} {it : Item}
    (hres : Reservation o context w.session s id it) : Retells U fresh {w with session := s} := by
  rcases hres.origin with ⟨hitems,-⟩ | ⟨hitems,-,hrep⟩
  · exact h.frame rfl hitems
  · exact h.append (not_matters_of_uncommitted hres.uncommitted) hrep.replayable rfl hitems

/-- What is committed in order is learned last. -/
theorem Retells.committed {fresh : Graph} (hfresh : fresh.unbounded = fresh)
    (h : Retells U fresh w) {context : Ledger.ConversationContext} {s : Session} {id : UInt64}
    {it : Item} {new : Bool} (hindex : env.index = .calm)
    (hres : Reservation o context w.session s id it) (horder : InOrder w o context)
    (hc : commitObservation U env {w with session := s} o context id = (w',.ok new)) :
    Retells U fresh w' := by
  have hbehind : Repeats it o context ∧
      ∀ j x, id.toNat-1 < j → s.handle.items[j]? = some x → ¬Matters x := by
    have hpos := hres.positive
    rcases hres.origin with ⟨hitems,hfind⟩ | ⟨hitems,-,hrep⟩
    · obtain ⟨hrep,hlater⟩ := horder it hfind hres.uncommitted
      refine ⟨hrep,fun j x hj hx => hlater j x ?_ ?_⟩
      · rw [hres.named]
        omega
      · rw [Learner.items,← hitems]
        exact hx
    · refine ⟨hrep,fun j x hj hx => ?_⟩
      -- nothing stands behind an entry that was appended
      have hat := hres.numbered.ids j x hx
      have hself := hres.numbered.ids _ it (by rw [hitems]; exact List.getElem?_concat_length)
      have hlt : j < (w.session.handle.items++[it]).length := by
        rw [← hitems]
        exact (List.getElem?_eq_some_iff.mp hx).choose
      rw [hres.named] at hself
      rw [List.length_append,List.length_singleton] at hlt
      omega
  obtain ⟨hrep,hlater⟩ := hbehind
  obtain ⟨what,hteach⟩ := commitObservation_teaches hindex hres.fits hc
  have hitems : w'.items = s.handle.items.modify (id.toNat-1) (Item.withOutcome o.outcome) := by
    unfold commitObservation at hc
    split at hc
    · cases hc
    · split at hc
      · rename_i hset
        have hwritten := setOutcome_commits (outcome_committed o) hres.at_id hres.uncommitted hset
        split at hc <;> cases hc
        exact hwritten
      · cases hc
  refine (h.reserved hres).taught (r := what) hfresh hres.at_id
    (not_matters_of_uncommitted hres.uncommitted) hlater hitems hrep.replayable ?_
  rw [hrep.lesson,hres.named]
  exact hteach

theorem processObservation_numbered (hnum : Numbered w.session) {r : Except Thrown Bool}
    (hp : processObservation U env w o = (w',r)) : Numbered w'.session := by
  unfold processObservation at hp
  split at hp
  · cases hp
    exact hnum
  · split at hp
    · rename_i ha
      cases hp
      exact ledgerAppend_numbered hnum ha
    · rename_i ha
      cases hp
      exact ledgerAppend_numbered hnum ha
    · rename_i ha
      exact commitObservation_numbered (w := {w with session := _})
        (ledgerAppend_numbered hnum ha) hp

/-- An orderly observation, whether it returns or throws. -/
theorem Retells.process {fresh : Graph} (hfresh : fresh.unbounded = fresh)
    (hnum : Numbered w.session) (h : Retells U fresh w) (ho : Orderly U env w o)
    {r : Except Thrown Bool} (hp : processObservation U env w o = (w',r)) :
    Retells U fresh w' := by
  have hcall := hp
  unfold processObservation at hp
  split at hp
  · cases hp
    exact h
  · rename_i context hctx
    split at hp
    · rename_i ha
      cases hp
      exact h.frame rfl (ledgerAppend_failed ha)
    · rename_i s id ha
      cases hp
      rcases ledgerAppend_cases hnum rfl ha with ⟨-,rfl⟩ | ⟨hne,-⟩
      · exact h
      · exact absurd rfl hne
    · rename_i s result id hne ha
      have hnew : result ≠ .existsCommitted := fun he => hne (by rw [he])
      obtain ⟨it,hres⟩ := ledgerAppend_reserves hnum hnew ha
      cases r with
      | error t =>
          have hrefused : o.outcome = .learned → ¬w.graph.fitsBudget U (textOf o.text) :=
            fun hl hfits => ho.whole ⟨hl,hfits,context,s,result,id,w',t,hctx,ha,hnew,hp⟩
          obtain ⟨hg,hitems⟩ :=
            commitObservation_stranded (w := {w with session := s}) hres.fits hrefused hp
          exact (h.reserved hres).frame hg hitems
      | ok new =>
          obtain rfl := commitObservation_new hp
          exact h.committed hfresh ho.indexed hres (ho.ordered context w' hctx hcall) hp

/-- An observation whose call returns, and that nothing was reserved for, is orderly. -/
theorem orderly_of_new {new : Bool} (hindex : env.index = .calm)
    (hnone : Ledger.indexFind w.items (CString.ofRaw o.sourceUri).bytes o.digest = none)
    (hp : processObservation U env w o = (w',.ok new)) : Orderly U env w o where
  indexed := hindex
  ordered := fun context w' _ _ it hfind => by rw [hnone] at hfind; cases hfind
  whole := by
    rintro ⟨-,-,context,s,r,id,w'',t,hctx,ha,hne,hc⟩
    unfold processObservation at hp
    simp only [hctx,ha] at hp
    cases r with
    | existsCommitted => exact hne rfl
    | _ =>
        simp only [hc] at hp
        cases hp

end Process

end Atperson.Sync
