import Atperson.Ledger.FailedCommits
import Atperson.Ledger.Machine

/-!
# Committed entries stay committed

An entry is committed once its outcome is learned, skipped or withdrawn, and lookup then
keeps its key from being reserved again. `Settles` is what an outcome may become without
undoing that: committed stays committed and withdrawn stays withdrawn. The code refuses
only the move back to pending, so a committed entry can be set to failed, and from there
to pending, and a withdrawn entry can be set to learned.

Where no call makes such a move, and no commit is made out of step with the log,
commitment holds over every run: through failed commits, rewrites and reopens.
-/
namespace Atperson.Ledger
open Wire

/-- A move that undoes no commitment. -/
def Settles (before after : Outcome) : Prop :=
  (before.isCommitted = true → after.isCommitted = true) ∧
    (before = .withdrawn → after = .withdrawn)

instance (before after : Outcome) : Decidable (Settles before after) :=
  inferInstanceAs (Decidable (_∧_))

theorem Settles.refl (o : Outcome) : Settles o o := ⟨id,id⟩

theorem Settles.trans {a b c : Outcome} (h : Settles a b) (h' : Settles b c) : Settles a c :=
  ⟨fun ha => h'.1 (h.1 ha),fun ha => h'.2 (h.2 ha)⟩

theorem settles_withdrawn (o : Outcome) : Settles o .withdrawn := ⟨fun _ => rfl,fun _ => rfl⟩

/-- Later entries keep what earlier ones had settled. -/
def Outlasts (items items' : List Item) : Prop :=
  ∀ (i : ℕ) (it : Item), items[i]? = some it → ∃ it', items'[i]? = some it' ∧
    it'.key = it.key ∧ Settles it.outcome it'.outcome

theorem Outlasts.refl (items : List Item) : Outlasts items items :=
  fun _ it hi => ⟨it,hi,rfl,.refl _⟩

theorem Outlasts.trans {a b c : List Item} (h : Outlasts a b) (h' : Outlasts b c) :
    Outlasts a c := by
  intro i it hi
  obtain ⟨x,hx,hk,hs⟩ := h i it hi
  obtain ⟨y,hy,hk',hs'⟩ := h' i x hx
  exact ⟨y,hy,hk'.trans hk,hs.trans hs'⟩

theorem outlasts_append (items more : List Item) : Outlasts items (items++more) := by
  intro i it hi
  refine ⟨it,?_,rfl,.refl _⟩
  rw [List.getElem?_append_left (List.getElem?_eq_some_iff.mp hi).1]
  exact hi

theorem outlasts_setOutcomeAt {items : List Item} {i : ℕ} {it : Item} (hi : items[i]? = some it)
    {o : Outcome} (hs : Settles it.outcome o) : Outlasts items (setOutcomeAt i o items) := by
  intro j x hx
  rw [getElem?_setOutcomeAt]
  split
  · rename_i hij
    subst hij
    obtain rfl := Option.some.inj (hi.symm.trans hx)
    rw [hx]
    exact ⟨_,rfl,rfl,hs⟩
  · exact ⟨x,hx,rfl,.refl _⟩

theorem outlasts_of_entries {items items' : List Item}
    (h : items'.map Item.entry = items.map Item.entry) : Outlasts items items' := by
  intro i it hi
  obtain ⟨x,hx,he⟩ := getElem?_of_entries h hi
  refine ⟨x,hx,by rw [Item.key,Item.key,he],?_⟩
  rw [Item.outcome,Item.outcome,he]
  exact .refl _

/-- Ghosts that undo nothing of the memory they haunt. -/
theorem outlasts_haunt {items cur : List Item} (h : Outlasts items cur) {gs : List Ghost}
    (hg : ∀ g ∈ gs, ∀ it, items[g.index]? = some it → Settles it.outcome g.after) :
    Outlasts items (haunt gs cur) := by
  induction gs generalizing cur with
  | nil => exact h
  | cons g gs ih =>
      refine ih (fun i it hi => ?_) fun g' hg' => hg g' (List.mem_cons_of_mem _ hg')
      obtain ⟨x,hx,hk,hs⟩ := h i it hi
      rw [getElem?_setOutcomeAt,hx]
      split
      · rename_i hgi
        subst hgi
        exact ⟨_,rfl,hk,hg g List.mem_cons_self it hi⟩
      · exact ⟨x,rfl,hk,hs⟩

theorem Outlasts.congr_right {items a b : List Item} (h : Outlasts items a)
    (he : b.map Item.entry = a.map Item.entry) : Outlasts items b :=
  h.trans (outlasts_of_entries he)

/-! ## The invariant -/

/-- A session whose log undoes nothing of its memory. -/
structure Settled (errs : List Ghost) (s : Session) (log : Bytes) : Prop where
  consistent : Consistent View.entry errs s log
  ids : IdsMatch s.handle.items
  sourced : Sourced s.handle.items
  keys : (s.handle.items.map Item.key).Nodup
  ghosts : ∀ g ∈ errs, Settles g.before g.after

variable {errs : List Ghost} {s s' : Session} {log : Bytes}

theorem Follows.outlasts {mem items : List Item} (h : Follows View.entry errs mem items)
    (hg : ∀ g ∈ errs, Settles g.before g.after) : Outlasts mem items := by
  obtain ⟨gs,hsub,hmem,heq⟩ := h
  refine (outlasts_haunt (Outlasts.refl mem) fun g hin it hi => ?_).congr_right heq
  obtain ⟨x,hx,hb⟩ := hmem g hin
  obtain rfl := Option.some.inj (hi.symm.trans hx)
  rw [hb]
  exact hg g (hsub.subset hin)

theorem haunt_keys (gs : List Ghost) (items : List Item) :
    (haunt gs items).map Item.key = items.map Item.key := by
  induction gs generalizing items with
  | nil => rfl
  | cons g gs ih => rw [haunt_cons,ih,setOutcomeAt_keys]

theorem Knows.outlasts {mem items : List Item} (h : Knows View.entry errs mem items)
    (hg : ∀ g ∈ errs, Settles g.before g.after) : Outlasts mem items := by
  obtain ⟨kept,extra,rfl,hfol,-,-⟩ := h
  exact (hfol.outlasts hg).trans (outlasts_append kept extra)

theorem Knows.keys {mem items : List Item} (h : Knows View.entry errs mem items)
    (hk : (mem.map Item.key).Nodup) : (items.map Item.key).Nodup := by
  obtain ⟨kept,extra,rfl,⟨gs,-,-,heq⟩,hone,hnew⟩ := h
  have hkept : kept.map Item.key = mem.map Item.key :=
    (keys_of_entries heq).trans (haunt_keys gs mem)
  rw [List.map_append,hkept]
  match extra,hone with
  | [],_ => simpa using hk
  | [it],_ =>
      refine List.nodup_append.mpr ⟨hk,by simp,?_⟩
      rintro a ha b hb rfl
      obtain ⟨m,hm,hma⟩ := List.mem_map.mp ha
      obtain rfl : a = it.key := by simpa using hb
      exact (hnew it List.mem_cons_self).2 m hm hma

theorem haunt_sourced {items : List Item} (h : Sourced items) (gs : List Ghost) :
    Sourced (haunt gs items) := by
  induction gs generalizing items with
  | nil => exact h
  | cons g gs ih => exact ih (h.setOutcomeAt g.index g.after)

theorem Knows.sourced {mem items : List Item} (h : Knows View.entry errs mem items)
    (hs : Sourced mem) : Sourced items := by
  obtain ⟨kept,extra,rfl,⟨gs,-,-,heq⟩,-,hnew⟩ := h
  intro it hit
  rcases List.mem_append.mp hit with hit | hit
  · exact (haunt_sourced hs gs).of_entries heq it hit
  · exact (hnew it hit).1

/-! ## One operation -/

/-- An outcome change undoes no commitment, if it commits at all. -/
def ChangeSettles (s : Session) (id : UInt64) (byte : UInt8) : Prop :=
  ∀ o ∈ (setOutcomeDecision s.handle.items id byte).toOption,
    ∀ it ∈ s.handle.items[id.toNat-1]?, Settles it.outcome o

instance (s : Session) (id : UInt64) (byte : UInt8) : Decidable (ChangeSettles s id byte) :=
  inferInstanceAs (Decidable (∀ o ∈ _,∀ it ∈ _,Settles _ _))

theorem Settled.append (h : Settled errs s log) (fault : Option CommitFault) (a : AppendArgs)
    (hin : AppendInStep s a) :
    (∃ log', Settled errs (Ledger.append fault s a).1 log') ∧
      Outlasts s.handle.items (Ledger.append fault s a).1.handle.items := by
  obtain ⟨⟨log',hcons⟩,-⟩ := h.consistent.append fault a hin
  rcases append_cases fault s a with ⟨reply,-,he⟩ | ⟨v,ok,-,hfresh,hc,-⟩
  · rw [he]
    exact ⟨⟨log,h⟩,.refl _⟩
  · have hitems := hc.items
    cases ok with
    | false =>
        rw [if_neg (by simp)] at hitems
        rw [hitems]
        exact ⟨⟨log',hcons,by rw [hitems]; exact h.ids,by rw [hitems]; exact h.sourced,
          by rw [hitems]; exact h.keys,h.ghosts⟩,.refl _⟩
    | true =>
        rw [if_pos rfl] at hitems
        rw [hitems]
        refine ⟨⟨log',hcons,?_,?_,?_,h.ghosts⟩,outlasts_append _ _⟩
        · rw [hitems]
          exact h.ids.append hfresh.id_toNat
        · rw [hitems]
          exact h.sourced.append v.sourced
        · rw [hitems]
          have hk : Knows View.entry errs s.handle.items (s.handle.items++[v.item]) :=
            ⟨_,_,rfl,.refl _ _,le_rfl,by simpa using ⟨v.sourced,hfresh.unseen⟩⟩
          exact hk.keys h.keys

theorem Settled.setOutcome (h : Settled errs s log) (fault : Option CommitFault) (id : UInt64)
    (byte : UInt8) (hin : ChangeInStep s id byte) (hs : ChangeSettles s id byte) :
    (∃ errs' log', Settled errs' (Ledger.setOutcome fault s id byte).1 log') ∧
      Outlasts s.handle.items (Ledger.setOutcome fault s id byte).1.handle.items := by
  obtain ⟨⟨log',hcons⟩,-⟩ := h.consistent.setOutcome fault id byte hin
  rcases setOutcome_cases fault s id byte with ⟨status,-,he⟩ | ⟨o,it,ok,hd,hch,hc,hst⟩
  · rw [he]
    exact ⟨⟨errs,log,h⟩,.refl _⟩
  · have hmove := hs o (by rw [hd]; rfl) it hch.at_id
    have hitems := hc.items
    have hghosts : ∀ g ∈ errs++failedChange s.handle.items id byte
        (Ledger.setOutcome fault s id byte).2, Settles g.before g.after := by
      intro g hg
      rcases List.mem_append.mp hg with hg | hg
      · exact h.ghosts g hg
      · rw [failedChange,hd,hch.at_id] at hg
        simp only at hg
        split at hg
        · cases hg
        · obtain rfl := List.mem_singleton.mp hg
          exact hmove
    cases ok with
    | false =>
        rw [if_neg (by simp)] at hitems
        rw [hitems]
        exact ⟨⟨_,log',hcons,by rw [hitems]; exact h.ids,by rw [hitems]; exact h.sourced,
          by rw [hitems]; exact h.keys,hghosts⟩,.refl _⟩
    | true =>
        rw [if_pos rfl] at hitems
        rw [hitems]
        refine ⟨⟨_,log',hcons,?_,?_,?_,hghosts⟩,outlasts_setOutcomeAt hch.at_id hmove⟩
        · rw [hitems]
          exact h.ids.setOutcomeAt _ _
        · rw [hitems]
          exact h.sourced.setOutcomeAt _ _
        · rw [hitems,setOutcomeAt_keys]
          exact h.keys

theorem changeSettles_withdrawn (s : Session) (id : UInt64) :
    ChangeSettles s id Outcome.withdrawn.toByte := by
  intro o ho _ _
  have hd : setOutcomeDecision s.handle.items id Outcome.withdrawn.toByte = .ok o := by
    cases h : setOutcomeDecision s.handle.items id Outcome.withdrawn.toByte with
    | error e => simp [h,Except.toOption] at ho
    | ok o' => simpa [h,Except.toOption] using ho
  obtain ⟨_,hch⟩ := setOutcomeDecision_ok hd
  obtain rfl : o = .withdrawn := by
    have := hch.valid
    rw [Outcome.ofByte?_toByte] at this
    exact (Option.some.inj this).symm
  exact settles_withdrawn _

/-- Every withdrawal of a loop commits in step. -/
def WithdrawalsInStep (matching : LedgerEntry → Bool) (faults : ℕ → Option CommitFault)
    (s : Session) : ℕ → Prop
  | 0 => True
  | n+1 => WithdrawalsInStep matching faults s n ∧
      let r := withdrawWhere matching faults n s
      ∀ it ∈ r.1.handle.items[n]?, it.outcome ≠ .withdrawn → matching it.entry = true →
        ChangeInStep r.1 it.entry.id Outcome.withdrawn.toByte

instance (matching : LedgerEntry → Bool) (faults : ℕ → Option CommitFault) (s : Session) :
    (n : ℕ) → Decidable (WithdrawalsInStep matching faults s n)
  | 0 => .isTrue trivial
  | n+1 =>
      have := instDecidableWithdrawalsInStep matching faults s n
      inferInstanceAs (Decidable (_∧_))

theorem Settled.withdrawWhere (h : Settled errs s log) (matching : LedgerEntry → Bool)
    (faults : ℕ → Option CommitFault) (n : ℕ) (hin : WithdrawalsInStep matching faults s n) :
    (∃ errs' log', Settled errs' (Ledger.withdrawWhere matching faults n s).1 log') ∧
      Outlasts s.handle.items (Ledger.withdrawWhere matching faults n s).1.handle.items := by
  induction n with
  | zero => exact ⟨⟨errs,log,h⟩,.refl _⟩
  | succ n ih =>
      obtain ⟨hprev,hstep⟩ := hin
      obtain ⟨⟨errs',log',h'⟩,hout⟩ := ih hprev
      unfold Ledger.withdrawWhere
      simp only
      split
      · exact ⟨⟨errs',log',h'⟩,hout⟩
      · rename_i it hit
        split
        · rename_i hc
          obtain ⟨hset,hout'⟩ := h'.setOutcome (faults n) it.entry.id _
            (hstep it hit hc.1 hc.2) (changeSettles_withdrawn _ _)
          exact ⟨hset,hout.trans hout'⟩
        · exact ⟨⟨errs',log',h'⟩,hout⟩

theorem Settled.compacted (h : Settled errs s log) {logOpen : Bool} {status : Status}
    (hc : Compacted s s' logOpen status) :
    (∃ log', Settled errs s' log') ∧ Outlasts s.handle.items s'.handle.items := by
  obtain ⟨log',hcons⟩ := h.consistent.compacted h.ids h.sourced hc
  have he := hc.entries
  exact ⟨⟨log',hcons,h.ids.of_entries he,h.sourced.of_entries he,
    by rw [keys_of_entries he]; exact h.keys,h.ghosts⟩,outlasts_of_entries he⟩

theorem Settled.reopen (h : Settled errs s log) {migrate : ℕ → Disk → Disk×Status}
    (ho : Ledger.reopen migrate s.disk = some s') :
    (∃ log', Settled [] s' log') ∧ Outlasts s.handle.items s'.handle.items := by
  unfold Ledger.reopen at ho
  split at ho
  · rename_i d' h' hopen
    obtain rfl := Option.some.inj ho
    obtain ⟨log',hclean⟩ := openLedger_clean hopen
    have hk := h.consistent.reopened hopen
    exact ⟨⟨log',hclean.consistent _,hclean.idsMatch,hk.sourced h.sourced,hk.keys h.keys,by simp⟩,
      hk.outlasts h.ghosts⟩
  · cases ho

/-! ## Runs -/

/-- What an operation must respect for commitment to hold: its commits are in step, and it
moves no committed entry to failed and no withdrawn entry anywhere. -/
def Op.Committing (faults : Faults) (s : Session) : Op → Prop
  | .append a => AppendInStep s a
  | .setOutcome id byte => ChangeInStep s id byte ∧ ChangeSettles s id byte
  | .withdraw id => ChangeInStep s id Outcome.withdrawn.toByte
  | .withdrawSource source =>
      WithdrawalsInStep (fromSource source) faults.commits s s.handle.items.length
  | .withdrawAuthor author =>
      WithdrawalsInStep (fromAuthor author) faults.commits s s.handle.items.length
  | .compact _ => True
  | .releasePayloads _ _ => True
  | .reopen => True

instance (faults : Faults) (s : Session) : (op : Op) → Decidable (op.Committing faults s)
  | .append a => inferInstanceAs (Decidable (AppendInStep s a))
  | .setOutcome id byte => inferInstanceAs (Decidable (ChangeInStep s id byte∧_))
  | .withdraw id => inferInstanceAs (Decidable (ChangeInStep s id _))
  | .withdrawSource _ => inferInstanceAs (Decidable (WithdrawalsInStep _ _ s _))
  | .withdrawAuthor _ => inferInstanceAs (Decidable (WithdrawalsInStep _ _ s _))
  | .compact _ => .isTrue trivial
  | .releasePayloads _ _ => .isTrue trivial
  | .reopen => .isTrue trivial

def RunCommitting (migrate : ℕ → Disk → Disk×Status) : Session → List (Faults×Op) → Prop
  | _, [] => True
  | s, (faults,op)::rest => op.Committing faults s ∧
      ∀ r ∈ op.run migrate faults s, RunCommitting migrate r.1 rest

instance (migrate : ℕ → Disk → Disk×Status) : (s : Session) → (ops : List (Faults×Op)) →
    Decidable (RunCommitting migrate s ops)
  | _, [] => .isTrue trivial
  | s, (faults,op)::rest =>
      have : ∀ r : Session×List Status, Decidable (RunCommitting migrate r.1 rest) := fun r =>
        instDecidableRunCommitting migrate r.1 rest
      inferInstanceAs (Decidable (_∧∀ r ∈ op.run migrate faults s,RunCommitting migrate r.1 rest))

theorem Settled.afterRewrite (h : Settled errs s log) {migrate : ℕ → Disk → Disk×Status}
    {r : CompactReply} (hc : Compacted s r.session r.logOpen r.status) {statuses : List Status}
    (hr : Ledger.afterRewrite migrate r = some (s',statuses)) :
    (∃ errs' log', Settled errs' s' log') ∧ Outlasts s.handle.items s'.handle.items := by
  obtain ⟨⟨log',h'⟩,hout⟩ := h.compacted hc
  unfold Ledger.afterRewrite at hr
  split at hr
  · cases hr
    exact ⟨⟨errs,log',h'⟩,hout⟩
  · obtain ⟨s'',ho,he⟩ := Option.map_eq_some_iff.mp hr
    cases he
    obtain ⟨⟨log'',h''⟩,hout'⟩ := h'.reopen ho
    exact ⟨⟨[],log'',h''⟩,hout.trans hout'⟩

theorem releasePayloads_compacted_or (fault : Option CompactFault) (wantReport : Bool)
    (s : Session) (maxBytes : ℕ) :
    ((releasePayloads fault wantReport s maxBytes).session = s ∧
      (releasePayloads fault wantReport s maxBytes).logOpen = true) ∨
    Compacted s (releasePayloads fault wantReport s maxBytes).session
      (releasePayloads fault wantReport s maxBytes).logOpen
      (releasePayloads fault wantReport s maxBytes).status := by
  rcases releasePayloads_cases fault wantReport s maxBytes with ⟨h,hl,-⟩ | ⟨-,-,h⟩
  · exact .inl ⟨h,hl⟩
  · rw [h]
    exact .inr (compactRelease_compacted _ _ _ _)

/-- One operation undoes no commitment. -/
theorem Settled.run (h : Settled errs s log) {migrate : ℕ → Disk → Disk×Status}
    {faults : Faults} {op : Op} (hin : op.Committing faults s) {statuses : List Status}
    (hr : op.run migrate faults s = some (s',statuses)) :
    (∃ errs' log', Settled errs' s' log') ∧ Outlasts s.handle.items s'.handle.items := by
  cases op with
  | append a =>
      obtain ⟨⟨log',h'⟩,hout⟩ := h.append (faults.commits 0) a hin
      cases hr
      exact ⟨⟨errs,log',h'⟩,hout⟩
  | setOutcome id byte =>
      cases hr
      exact h.setOutcome (faults.commits 0) id byte hin.1 hin.2
  | withdraw id =>
      cases hr
      exact h.setOutcome (faults.commits 0) id _ hin (changeSettles_withdrawn s id)
  | withdrawSource source =>
      have hw := h.withdrawWhere (fromSource source) faults.commits s.handle.items.length hin
      rwa [Option.some.inj hr] at hw
  | withdrawAuthor author =>
      have hw := h.withdrawWhere (fromAuthor author) faults.commits s.handle.items.length hin
      rwa [Option.some.inj hr] at hw
  | compact wantReport => exact h.afterRewrite (compactRelease_compacted _ _ _ _) hr
  | releasePayloads wantReport maxBytes =>
      rcases releasePayloads_compacted_or faults.rewriting wantReport s maxBytes with
        ⟨hsame,hopen⟩ | hc
      · rw [Op.run,Ledger.afterRewrite,if_pos hopen,hsame] at hr
        cases hr
        exact ⟨⟨errs,log,h⟩,.refl _⟩
      · exact h.afterRewrite hc hr
  | reopen =>
      obtain ⟨s'',ho,he⟩ := Option.map_eq_some_iff.mp hr
      cases he
      obtain ⟨⟨log',h'⟩,hout⟩ := h.reopen ho
      exact ⟨⟨[],log',h'⟩,hout⟩

theorem Settled.runOps (h : Settled errs s log) {migrate : ℕ → Disk → Disk×Status}
    {ops : List (Faults×Op)} (hin : RunCommitting migrate s ops) {statuses : List Status}
    (hr : Ledger.runOps migrate s ops = some (s',statuses)) :
    (∃ errs' log', Settled errs' s' log') ∧ Outlasts s.handle.items s'.handle.items := by
  induction ops generalizing errs s log statuses with
  | nil =>
      cases hr
      exact ⟨⟨errs,log,h⟩,.refl _⟩
  | cons step rest ih =>
      obtain ⟨faults,op⟩ := step
      obtain ⟨hop,hrest⟩ := hin
      unfold Ledger.runOps at hr
      split at hr
      · cases hr
      · rename_i s1 st1 hone
        obtain ⟨⟨s2,st2⟩,htail,he⟩ := Option.map_eq_some_iff.mp hr
        cases he
        obtain ⟨⟨errs',log',h'⟩,hout⟩ := h.run hop hone
        obtain ⟨hset,hout'⟩ := ih h' (hrest _ hone) htail
        exact ⟨hset,hout.trans hout'⟩

theorem runCommitting_append {migrate : ℕ → Disk → Disk×Status} {pre post : List (Faults×Op)}
    {statuses : List Status} (h : RunCommitting migrate s (pre++post))
    (hr : runOps migrate s pre = some (s',statuses)) :
    RunCommitting migrate s pre ∧ RunCommitting migrate s' post := by
  induction pre generalizing s statuses with
  | nil =>
      cases hr
      exact ⟨trivial,h⟩
  | cons step rest ih =>
      obtain ⟨faults,op⟩ := step
      obtain ⟨hop,hrest⟩ := h
      unfold runOps at hr
      split at hr
      · cases hr
      · rename_i s1 st1 hone
        obtain ⟨⟨s2,st2⟩,htail,he⟩ := Option.map_eq_some_iff.mp hr
        cases he
        refine ⟨⟨hop,fun r hr' => ?_⟩,(ih (hrest _ hone) htail).2⟩
        obtain rfl := Option.some.inj (hone.symm.trans hr')
        exact (ih (hrest _ hone) htail).1

theorem settled_created : ∃ log, Settled [] createdSession log := by
  obtain ⟨log,h⟩ := openLedger_clean (openLedger_fresh noMigration)
  exact ⟨log,h.consistent _,h.idsMatch,by simp [Sourced,createdSession],
    by simp [createdSession],by simp⟩

/-- With distinct keys, the entry a lookup reports on is the one with the key. -/
theorem lookup_of_mem {items : List Item} (hk : (items.map Item.key).Nodup) {it : Item}
    (hit : it ∈ items) :
    (lookup items it.key.1 it.key.2).1 =
      if it.outcome.isCommitted then .existsCommitted else .existsPending := by
  have hsome : (indexFind items it.key.1 it.key.2).isSome :=
    List.find?_isSome.mpr ⟨it,hit,by simp⟩
  obtain ⟨x,hx⟩ := Option.isSome_iff_exists.mp hsome
  have hkey : x.key = it.key := by simpa using List.find?_some hx
  obtain rfl := List.inj_on_of_nodup_map hk (List.mem_of_find?_eq_some hx) hit hkey
  rw [lookup,hx]

theorem lookup_committed {items : List Item} {source : Bytes} {digest : UInt64}
    (h : (lookup items source digest).1 = .existsCommitted) :
    ∃ it ∈ items, it.key = (source,digest) ∧ it.outcome.isCommitted = true := by
  unfold lookup at h
  split at h
  · cases h
  · rename_i it hf
    refine ⟨it,List.mem_of_find?_eq_some hf,by simpa using List.find?_some hf,?_⟩
    by_contra hc
    simp [hc] at h

/-- Commitment outlasts every run that respects it. -/
theorem commitment_outlasts (migrate : ℕ → Disk → Disk×Status) (pre post : List (Faults×Op))
    {s s' : Session} {before after : List Status}
    (hpre : runOps migrate createdSession pre = some (s,before))
    (hpost : runOps migrate s post = some (s',after))
    (hin : RunCommitting migrate createdSession (pre++post)) :
    (∀ source digest, (lookup s.handle.items source digest).1 = .existsCommitted →
      (lookup s'.handle.items source digest).1 = .existsCommitted) ∧
    (∀ (i : ℕ) (it : Item), s.handle.items[i]? = some it → it.outcome = .withdrawn →
      ∃ it', s'.handle.items[i]? = some it' ∧ it'.key = it.key ∧ it'.outcome = .withdrawn) ∧
    (s'.handle.items.map Item.key).Nodup := by
  obtain ⟨hinpre,hinpost⟩ := runCommitting_append hin hpre
  obtain ⟨log,h0⟩ := settled_created
  obtain ⟨⟨errs,log1,h1⟩,-⟩ := h0.runOps hinpre hpre
  obtain ⟨⟨errs',log2,h2⟩,hout⟩ := h1.runOps hinpost hpost
  refine ⟨fun source digest hl => ?_,fun i it hi hw => ?_,h2.keys⟩
  · obtain ⟨it,hit,hkey,hcom⟩ := lookup_committed hl
    obtain ⟨i,hi⟩ := List.mem_iff_getElem?.mp hit
    obtain ⟨x,hx,hk,hs⟩ := hout i it hi
    have hfound := lookup_of_mem h2.keys (List.mem_of_getElem? hx)
    rwa [hk,hkey,if_pos (hs.1 hcom)] at hfound
  · obtain ⟨x,hx,hk,hs⟩ := hout i it hi
    exact ⟨x,hx,hk,hs.2 hw⟩

def samplePre : List (Faults×Op) :=
  [(.none,.append (sampleArgs 97 0)),(.none,.setOutcome 1 1)]

/-- A withdrawal that fails on its marker, a rewrite and a reopen. -/
def samplePost : List (Faults×Op) :=
  [(⟨fun _ => some (.marker .renaming),none⟩,.withdraw 1),(.none,.compact true),(.none,.reopen)]

theorem commitment_outlasts_sample :
    ∃ r r', runOps noMigration createdSession samplePre = some r ∧
      runOps noMigration r.1 samplePost = some r' ∧
      (lookup r'.1.handle.items [97] 7).1 = .existsCommitted := by
  have hboth : ((runOps noMigration createdSession samplePre).bind fun r =>
      runOps noMigration r.1 samplePost).isSome := by decide +kernel
  obtain ⟨r',hr'⟩ := Option.isSome_iff_exists.mp hboth
  obtain ⟨r,hpre,hpost⟩ := Option.bind_eq_some_iff.mp hr'
  have hfound : ((runOps noMigration createdSession samplePre).map fun r =>
      (lookup r.1.handle.items [97] 7).1) = some .existsCommitted := by decide +kernel
  rw [hpre] at hfound
  have hin : RunCommitting noMigration createdSession (samplePre++samplePost) := by
    decide +kernel
  exact ⟨r,r',hpre,hpost,(commitment_outlasts noMigration samplePre samplePost hpre hpost hin).1
    _ _ (Option.some.inj hfound)⟩

/-- A learned entry set to failed and then to pending is open again, and a withdrawn entry
set to learned is withdrawn no longer. -/
theorem commitment_undone :
    ((runOps noMigration createdSession [(.none,.append (sampleArgs 97 1))]).map
      fun r => (lookup r.1.handle.items [97] 7).1) = some .existsCommitted ∧
    ((runOps noMigration createdSession [(.none,.append (sampleArgs 97 1)),
        (.none,.setOutcome 1 3),(.none,.setOutcome 1 0)]).map
      fun r => (lookup r.1.handle.items [97] 7).1) = some .existsPending ∧
    ((runOps noMigration createdSession [(.none,.append (sampleArgs 97 1)),(.none,.withdraw 1),
        (.none,.setOutcome 1 1)]).map
      fun r => r.1.handle.items.map Item.outcome) = some [.learned] := by
  decide +kernel

end Atperson.Ledger
