import Atperson.Ledger.Compact

/-!
# What the log may say beside the memory

A failed commit can leave its record on the log. An outcome change left there is a
`Ghost`: the log has it and the memory does not. `Follows` relates the entries in
memory to entries decoded from the log up to such ghosts, as seen through a `View` of
the entries, and `Consistent` is the invariant of a session built on it: what the whole
log reads as, what the marker fences, and where the two can differ from the memory.

The invariant survives every commit that starts in step with the log (`InStep`),
whatever fails in it.
-/
namespace Atperson.Ledger
open Wire

/-! ## Views and ghosts -/

/-- A part of an entry that outcome changes act on. -/
structure View (α : Type) where
  of : Item → α
  withOutcome : Outcome → α → α
  of_withOutcome (o : Outcome) (it : Item) : of (it.withOutcome o) = withOutcome o (of it)

def View.whole : View Item := ⟨id,Item.withOutcome,fun _ _ => rfl⟩

def View.entry : View LedgerEntry := ⟨Item.entry,fun o e => {e with outcome := o},fun _ _ => rfl⟩

/-- An outcome change that returned an error, with the outcome in memory at the time. -/
structure Ghost where
  index : ℕ
  before : Outcome
  after : Outcome
  deriving DecidableEq, Repr

def haunt (gs : List Ghost) (items : List Item) : List Item :=
  gs.foldl (fun l g => setOutcomeAt g.index g.after l) items

@[simp] theorem haunt_nil (items : List Item) : haunt [] items = items := rfl

@[simp] theorem haunt_cons (g : Ghost) (gs : List Ghost) (items : List Item) :
    haunt (g::gs) items = haunt gs (setOutcomeAt g.index g.after items) := rfl

@[simp] theorem haunt_length (gs : List Ghost) (items : List Item) :
    (haunt gs items).length = items.length := by
  induction gs generalizing items with
  | nil => rfl
  | cons g gs ih => rw [haunt_cons,ih,setOutcomeAt_length]

theorem haunt_concat (gs : List Ghost) (g : Ghost) (items : List Item) :
    haunt (gs++[g]) items = setOutcomeAt g.index g.after (haunt gs items) := by
  simp [haunt,List.foldl_append]

theorem haunt_append {gs : List Ghost} {items : List Item}
    (h : ∀ g ∈ gs, g.index < items.length) (more : List Item) :
    haunt gs (items++more) = haunt gs items++more := by
  induction gs generalizing items with
  | nil => rfl
  | cons g gs ih =>
      rw [haunt_cons,haunt_cons,setOutcomeAt_append (h g List.mem_cons_self)]
      exact ih fun g' hg => by
        rw [setOutcomeAt_length]
        exact h g' (List.mem_cons_of_mem _ hg)

theorem setOutcomeAt_same (i : ℕ) (o o' : Outcome) (items : List Item) :
    setOutcomeAt i o (setOutcomeAt i o' items) = setOutcomeAt i o items := by
  refine List.ext_getElem? fun j => ?_
  simp only [getElem?_setOutcomeAt]
  split <;> simp [Option.map_map,Function.comp_def]

theorem setOutcomeAt_comm {i j : ℕ} (h : i ≠ j) (o o' : Outcome) (items : List Item) :
    setOutcomeAt i o (setOutcomeAt j o' items) = setOutcomeAt j o' (setOutcomeAt i o items) := by
  refine List.ext_getElem? fun k => ?_
  simp only [getElem?_setOutcomeAt]
  split_ifs with h1 h2 <;> first | rfl | exact absurd (h1.trans h2.symm) h

theorem setOutcomeAt_eq_self {items : List Item} {i : ℕ} {it : Item} (h : items[i]? = some it) :
    setOutcomeAt i it.outcome items = items := by
  refine List.ext_getElem? fun j => ?_
  rw [getElem?_setOutcomeAt]
  split
  · rename_i hj
    subst hj
    simp [h]
  · rfl

/-- A change that did reach the memory lays the ghosts of its entry. -/
theorem setOutcomeAt_haunt (i : ℕ) (o : Outcome) (gs : List Ghost) (items : List Item) :
    setOutcomeAt i o (haunt gs items) =
      haunt (gs.filter fun g => g.index ≠ i) (setOutcomeAt i o items) := by
  induction gs generalizing items with
  | nil => rfl
  | cons g gs ih =>
      by_cases hg : g.index = i
      · subst hg
        simp only [haunt_cons,ih,setOutcomeAt_same,ne_eq,not_true_eq_false,decide_false,
          Bool.false_eq_true,not_false_eq_true,List.filter_cons_of_neg]
      · rw [List.filter_cons_of_pos (by simpa using hg),haunt_cons,haunt_cons,ih,
          setOutcomeAt_comm (Ne.symm hg)]

/-! ## Memory and log -/

section Follows
variable {α : Type} (V : View α)

/-- The log's entries are the memory's with some of the errored changes applied, each of
them an error met at the outcome the memory still has. -/
def Follows (errs : List Ghost) (mem log : List Item) : Prop :=
  ∃ gs, gs.Sublist errs ∧
    (∀ g ∈ gs, ∃ it, mem[g.index]? = some it∧it.outcome = g.before) ∧
    log.map V.of = (haunt gs mem).map V.of

variable {V} {errs : List Ghost} {mem log : List Item}

theorem map_setOutcomeAt (i : ℕ) (o : Outcome) (items : List Item) :
    (setOutcomeAt i o items).map V.of = (items.map V.of).modify i (V.withOutcome o) := by
  refine List.ext_getElem? fun j => ?_
  rw [List.getElem?_map,getElem?_setOutcomeAt,List.getElem?_modify,List.getElem?_map]
  split
  · simp only [Option.map_map,Function.comp_def,V.of_withOutcome]
    cases items[j]? <;> simp
  · cases items[j]? <;> simp

theorem haunt_congr {gs : List Ghost} {items items' : List Item}
    (h : items.map V.of = items'.map V.of) :
    (haunt gs items).map V.of = (haunt gs items').map V.of := by
  induction gs generalizing items items' with
  | nil => exact h
  | cons g gs ih => exact ih (by rw [map_setOutcomeAt,map_setOutcomeAt,h])

theorem Follows.refl (errs : List Ghost) (mem : List Item) : Follows V errs mem mem :=
  ⟨[],List.nil_sublist _,by simp,rfl⟩

theorem Follows.length (h : Follows V errs mem log) : log.length = mem.length := by
  obtain ⟨gs,-,-,heq⟩ := h
  simpa using congrArg List.length heq

theorem Follows.mono {errs' : List Ghost} (h : Follows V errs mem log)
    (hs : errs.Sublist errs') : Follows V errs' mem log := by
  obtain ⟨gs,hsub,hg,heq⟩ := h
  exact ⟨gs,hsub.trans hs,hg,heq⟩

theorem Follows.append (h : Follows V errs mem log) (it : Item) :
    Follows V errs (mem++[it]) (log++[it]) := by
  obtain ⟨gs,hsub,hg,heq⟩ := h
  have hlt : ∀ g ∈ gs, g.index < mem.length := fun g hmem => by
    obtain ⟨x,hx,-⟩ := hg g hmem
    exact (List.getElem?_eq_some_iff.mp hx).1
  refine ⟨gs,hsub,fun g hmem => ?_,?_⟩
  · rw [List.getElem?_append_left (hlt g hmem)]
    exact hg g hmem
  · rw [haunt_append hlt,List.map_append,List.map_append,heq]

theorem Follows.patch (h : Follows V errs mem log) (i : ℕ) (o : Outcome) :
    Follows V errs (setOutcomeAt i o mem) (setOutcomeAt i o log) := by
  obtain ⟨gs,hsub,hg,heq⟩ := h
  refine ⟨gs.filter fun g => g.index ≠ i,List.filter_sublist.trans hsub,?_,?_⟩
  · intro g hmem
    obtain ⟨hin,hne⟩ := List.mem_filter.mp hmem
    rw [getElem?_setOutcomeAt,if_neg fun he => of_decide_eq_true hne he.symm]
    exact hg g hin
  · rw [← setOutcomeAt_haunt,map_setOutcomeAt,map_setOutcomeAt,heq]

/-- A change that reached the log and returned an error. -/
theorem Follows.ghost (h : Follows V errs mem log) {i : ℕ} {it : Item}
    (hit : mem[i]? = some it) (o : Outcome) :
    Follows V (errs++[⟨i,it.outcome,o⟩]) mem (setOutcomeAt i o log) := by
  obtain ⟨gs,hsub,hg,heq⟩ := h
  refine ⟨gs++[⟨i,it.outcome,o⟩],hsub.append_right _,?_,?_⟩
  · intro g hmem
    rcases List.mem_append.mp hmem with hin | hnew
    · exact hg g hin
    · obtain rfl := List.mem_singleton.mp hnew
      exact ⟨it,hit,rfl⟩
  · rw [haunt_concat,map_setOutcomeAt,map_setOutcomeAt,heq]

/-- What a compaction pass does in memory is invisible to a view it leaves alone. -/
theorem Follows.rewrite {mem' : List Item} (h : Follows V errs mem log)
    (hview : mem'.map V.of = mem.map V.of)
    (hout : mem'.map Item.outcome = mem.map Item.outcome) : Follows V errs mem' log := by
  obtain ⟨gs,hsub,hg,heq⟩ := h
  refine ⟨gs,hsub,fun g hmem => ?_,heq.trans (haunt_congr hview).symm⟩
  obtain ⟨it,hit,ho⟩ := hg g hmem
  have hmap : mem'[g.index]?.map Item.outcome = some it.outcome := by
    rw [← List.getElem?_map,hout,List.getElem?_map,hit]
    rfl
  obtain ⟨it',hit',ho'⟩ := Option.map_eq_some_iff.mp hmap
  exact ⟨it',hit',ho'.trans ho⟩

end Follows

/-! ## The session invariant -/

section Consistent
variable {α : Type} (V : View α)

/-- Entries read from a log: they follow the memory, with at most one more behind them,
which has a source and a key the memory does not have. -/
def Knows (errs : List Ghost) (mem items : List Item) : Prop :=
  ∃ kept extra, items = kept++extra ∧ Follows V errs mem kept ∧ extra.length ≤ 1 ∧
    ∀ it ∈ extra, it.entry.sourceId.bytes ≠ [] ∧ ∀ m ∈ mem, m.key ≠ it.key

/-- What a readable marker promises about the log it fences. -/
def Fenced (errs : List Ghost) (mem : List Item) (log : Bytes) (count offset : ℕ) : Prop :=
  ledgerHeaderSize ≤ offset ∧ offset ≤ log.length ∧
    ∃ items, Decodes (log.take offset) items ∧ items.length = count ∧ Follows V errs mem items

structure Consistent (errs : List Ghost) (s : Session) (log : Bytes) : Prop where
  file : s.disk.log = some log
  size : log.length ≤ fileMax
  header : ledgerHeaderSize ≤ log.length ∧ headerAccepted (log.take ledgerHeaderSize) = true
  count : s.handle.items.length ≤ 2^63
  reading : Knows V errs s.handle.items (scanLog (log.drop ledgerHeaderSize)).1
  complete : s.handle.committedOffset = log.length → (scanLog (log.drop ledgerHeaderSize)).2 = []
  marker : ∀ count offset, readOff s.disk = some (count,offset) →
    Fenced V errs s.handle.items log count offset

/-- The log a commit appends to ends where the handle believes it does and holds as many
entries as the handle. -/
def InStep (s : Session) : Prop :=
  s.handle.committedOffset = s.disk.logBytes.length ∧
    (scanLog (s.disk.logBytes.drop ledgerHeaderSize)).1.length = s.handle.items.length

instance (s : Session) : Decidable (InStep s) := inferInstanceAs (Decidable (_∧_))

/-- An append does not commit, or it commits in step. -/
def AppendInStep (s : Session) (a : AppendArgs) : Prop :=
  (appendDecision s.handle.items a).isOk → InStep s

/-- An outcome change does not commit, or it commits in step and the log takes it: the
log must not refuse to reopen an entry it has as committed. -/
def ChangeInStep (s : Session) (id : UInt64) (byte : UInt8) : Prop :=
  (setOutcomeDecision s.handle.items id byte).isOk → InStep s ∧
    (byte = Outcome.pending.toByte →
      ((scanLog (s.disk.logBytes.drop ledgerHeaderSize)).1[id.toNat-1]?.any
        fun it => it.outcome.isCommitted) = false)

instance (s : Session) (a : AppendArgs) : Decidable (AppendInStep s a) :=
  inferInstanceAs (Decidable (_ → _))

instance (s : Session) (id : UInt64) (byte : UInt8) : Decidable (ChangeInStep s id byte) :=
  inferInstanceAs (Decidable (_ → _))

variable {V} {errs : List Ghost} {s : Session} {log : Bytes}

theorem Consistent.logBytes (h : Consistent V errs s log) : s.disk.logBytes = log := by
  rw [Disk.logBytes,h.file,Option.getD_some]

/-- In step, the whole log decodes and nothing on it is unknown to the memory. -/
theorem Consistent.inStep (h : Consistent V errs s log) (hin : InStep s) :
    ∃ items, Decodes log items ∧ Follows V errs s.handle.items items ∧
      (scanLog (log.drop ledgerHeaderSize)).1 = items := by
  obtain ⟨kept,extra,hsplit,hfol,-,-⟩ := h.reading
  obtain ⟨hoff,hlen⟩ := hin
  rw [h.logBytes] at hoff hlen
  rw [hsplit,List.length_append,hfol.length] at hlen
  have hextra : extra = [] := List.length_eq_zero_iff.mp (by omega)
  rw [hextra,List.append_nil] at hsplit
  exact ⟨kept,scanLog_eq.mp (Prod.ext hsplit (h.complete hoff)),hfol,hsplit⟩

theorem Decodes.append_record {log : Bytes} {items items' : List Item} {f : Frame}
    (h : Decodes log items) (hlen : ledgerHeaderSize ≤ log.length) (hf : framing.Fits f)
    (ha : applyRecord items f = some items') : Decodes (log++buildRecord f) items' := by
  unfold Decodes at h ⊢
  rw [List.drop_append_of_le_length hlen]
  exact h.behind (Framing.reads_encode hf ha)

/-- A record cut short behind a log that decodes is left unread; a whole one is read. -/
theorem scan_torn {log : Bytes} {items items' : List Item} {f : Frame} (h : Decodes log items)
    (hlen : ledgerHeaderSize ≤ log.length) (hf : framing.Fits f)
    (ha : applyRecord items f = some items') (k : ℕ) :
    scanLog ((log++(buildRecord f).take k).drop ledgerHeaderSize) =
        (items,(buildRecord f).take k) ∨
      scanLog ((log++(buildRecord f).take k).drop ledgerHeaderSize) = (items',[]) := by
  by_cases hk : k < (buildRecord f).length
  · left
    rw [List.drop_append_of_le_length hlen]
    exact Framing.scan_eq_iff.mpr ⟨h.append ((buildRecord f).take k),
      Framing.stuck_torn hf hk items⟩
  · right
    rw [List.take_of_length_le (Nat.not_lt.mp hk)]
    exact scanLog_eq.mpr (h.append_record hlen hf ha)

theorem Fenced.extend {mem : List Item} {count offset : ℕ}
    (h : Fenced V errs mem log count offset) (tail : Bytes) :
    Fenced V errs mem (log++tail) count offset := by
  obtain ⟨hlow,hhigh,items,hdec,hc,hf⟩ := h
  refine ⟨hlow,by rw [List.length_append]; omega,items,?_,hc,hf⟩
  rwa [List.take_append_of_le_length hhigh]

theorem header_extend (h : ledgerHeaderSize ≤ log.length ∧
    headerAccepted (log.take ledgerHeaderSize) = true) (tail : Bytes) :
    ledgerHeaderSize ≤ (log++tail).length ∧
      headerAccepted ((log++tail).take ledgerHeaderSize) = true := by
  rw [List.take_append_of_le_length h.1,List.length_append]
  exact ⟨by omega,h.2⟩

/-! ## Commits in step -/

theorem Follows.knows {mem items : List Item} (h : Follows V errs mem items) :
    Knows V errs mem items :=
  ⟨items,[],by simp,h,by simp,by simp⟩

theorem buildRecord_length (f : Frame) : (buildRecord f).length = 9+f.body.length :=
  framing.encode_length f

theorem Consistent.torn {errs' : List Ghost} (h : Consistent V errs s log)
    (hoff : s.handle.committedOffset = log.length) {items items' : List Item} {f : Frame}
    (hdec : Decodes log items) (hfol : Follows V errs s.handle.items items)
    (hf : framing.Fits f) (ha : applyRecord items f = some items')
    (add : Knows V errs' s.handle.items items') (hsub : errs.Sublist errs')
    {s' : Session} {k : ℕ} (hc : CommitTorn s s' (buildRecord f) k) :
    Consistent V errs' s' (log++(buildRecord f).take k) where
  file := by
    have hp := hc.present (by simp [h.file])
    obtain ⟨l,hl⟩ := Option.isSome_iff_exists.mp hp
    have hb := hc.log
    rw [h.logBytes,Disk.logBytes,hl] at hb
    rw [hl]
    exact congrArg some hb
  size := by
    have hb := hc.bounded (by rw [h.logBytes]; exact h.size)
    rwa [hc.log,h.logBytes] at hb
  header := header_extend h.header _
  count := by rw [hc.handle]; exact h.count
  reading := by
    rw [hc.handle]
    rcases scan_torn hdec h.header.1 hf ha k with hs | hs
    · rw [hs]
      exact (hfol.mono hsub).knows
    · rw [hs]
      exact add
  complete := by
    rw [hc.handle,hoff,List.length_append]
    intro hl
    rcases scan_torn hdec h.header.1 hf ha k with hs | hs
    · rw [hs]
      have h0 : ((buildRecord f).take k).length = 0 := by omega
      exact List.length_eq_zero_iff.mp h0
    · rw [hs]
  marker := by
    intro count offset hm
    rw [hc.handle]
    rw [readOff,hc.off] at hm
    obtain ⟨hlow,hhigh,its,hd,hcount,hf'⟩ := (h.marker count offset hm).extend
      ((buildRecord f).take k)
    exact ⟨hlow,hhigh,its,hd,hcount,hf'.mono hsub⟩

theorem Consistent.written {errs' : List Ghost} (h : Consistent V errs s log)
    {items items' : List Item} {f : Frame} (hdec : Decodes log items)
    (hf : framing.Fits f) (ha : applyRecord items f = some items')
    (add : Knows V errs' s.handle.items items') (hsub : errs.Sublist errs')
    {s' : Session} (hc : CommitWritten s s' (buildRecord f) s.disk.off) :
    Consistent V errs' s' (log++buildRecord f) where
  file := by rw [hc.log,h.logBytes]
  size := by
    rw [List.length_append,← h.logBytes]
    exact hc.bounded
  header := header_extend h.header _
  count := by rw [hc.items]; exact h.count
  reading := by
    rw [hc.items,scanLog_eq.mpr (hdec.append_record h.header.1 hf ha)]
    exact add
  complete := by
    rw [scanLog_eq.mpr (hdec.append_record h.header.1 hf ha)]
    exact fun _ => rfl
  marker := by
    intro count offset hm
    rw [hc.items]
    rw [readOff,hc.off] at hm
    obtain ⟨hlow,hhigh,its,hd,hcount,hf'⟩ := (h.marker count offset hm).extend (buildRecord f)
    exact ⟨hlow,hhigh,its,hd,hcount,hf'.mono hsub⟩

/-- A commit that published its marker, with the memory brought up to the log. -/
theorem Consistent.published (h : Consistent V errs s log)
    (hoff : s.handle.committedOffset = log.length) {items items' mem' : List Item} {f : Frame}
    (hdec : Decodes log items) (hf : framing.Fits f) (ha : applyRecord items f = some items')
    (hfol : Follows V errs mem' items') (hcount : mem'.length ≤ 2^63) {s' : Session}
    (hc : CommitWritten s s' (buildRecord f)
      (some (offHeader mem'.length (s.handle.committedOffset+(buildRecord f).length)))) :
    Consistent V errs (s'.withItems mem') (log++buildRecord f) ∧
      readOff s'.disk = some (mem'.length,(log++buildRecord f).length) := by
  have hsize : (log++buildRecord f).length ≤ fileMax := by
    rw [List.length_append,← h.logBytes]
    exact hc.bounded
  have hmark : readOff s'.disk = some (mem'.length,(log++buildRecord f).length) := by
    rw [readOff,hc.off,hoff,List.length_append]
    refine parseOff_offHeader (by omega) ?_
    rw [List.length_append] at hsize
    simp only [fileMax] at hsize
    omega
  have hdec' := hdec.append_record h.header.1 hf ha
  refine ⟨⟨by rw [Session.withItems,hc.log,h.logBytes],hsize,header_extend h.header _,hcount,?_,?_,
    ?_⟩,hmark⟩
  · rw [scanLog_eq.mpr hdec']
    exact hfol.knows
  · rw [scanLog_eq.mpr hdec']
    exact fun _ => rfl
  · intro count offset hm
    obtain ⟨rfl,rfl⟩ := Prod.mk.inj (Option.some.inj (hmark.symm.trans hm))
    refine ⟨(header_extend h.header _).1,le_rfl,items',?_,hfol.length,hfol⟩
    rwa [List.take_length]

/-- What the errored outcome change of a call may leave behind. -/
def failedChange (items : List Item) (id : UInt64) (byte : UInt8) (status : Status) : List Ghost :=
  match setOutcomeDecision items id byte,items[id.toNat-1]? with
  | .ok o,some it => if status = .ok then [] else [⟨id.toNat-1,it.outcome,o⟩]
  | _,_ => []

/-- The marker never disappears in a commit. -/
def KeepsMarker (s s' : Session) : Prop := (readOff s.disk).isSome → (readOff s'.disk).isSome

theorem KeepsMarker.of_off (h : s'.disk.off = s.disk.off) : KeepsMarker s s' := by
  rw [KeepsMarker,readOff,readOff,h]
  exact id

/-- A commit in step keeps the invariant. `items'` is what its record makes of the log;
a failed commit must leave it known to the memory, a published one followed by it. -/
theorem Consistent.commit (errs' : List Ghost) (h : Consistent V errs s log) (hin : InStep s)
    {mem' : List Item} {f : Frame} (hf : framing.Fits f)
    (hrec : ∀ items, Follows V errs s.handle.items items →
      (scanLog (s.disk.logBytes.drop ledgerHeaderSize)).1 = items → ∃ items',
        applyRecord items f = some items' ∧ Knows V errs' s.handle.items items' ∧
        Follows V errs mem' items')
    (hsub : errs.Sublist errs') (hcount : mem'.length ≤ 2^63) {s' : Session} {ok : Bool}
    (hc : Committed s (buildRecord f) mem' s' ok) :
    (∃ log', Consistent V (if ok then errs else errs') s' log') ∧ KeepsMarker s s' := by
  obtain ⟨items,hdec,hfol,hscan⟩ := h.inStep hin
  have hoff : s.handle.committedOffset = log.length := hin.1.trans (by rw [h.logBytes])
  obtain ⟨items',ha,hadd,hfol'⟩ := hrec items hfol (by rw [h.logBytes,hscan])
  cases hc with
  | torn hc => exact ⟨⟨_,h.torn hoff hdec hfol hf ha hadd hsub hc⟩,.of_off hc.off⟩
  | written hc => exact ⟨⟨_,h.written hdec hf ha hadd hsub hc⟩,.of_off hc.off⟩
  | published hc =>
      obtain ⟨hcons,hmark⟩ := h.published hoff hdec hf ha hfol' hcount hc
      exact ⟨⟨_,hcons⟩,fun _ => Option.isSome_iff_exists.mpr ⟨_,hmark⟩⟩

/-- An append in step keeps the invariant, whatever fails in it. -/
theorem Consistent.append (h : Consistent V errs s log) (fault : Option CommitFault)
    (a : AppendArgs) (hin : AppendInStep s a) :
    (∃ log', Consistent V errs (append fault s a).1 log') ∧
      KeepsMarker s (append fault s a).1 := by
  rcases append_cases fault s a with ⟨reply,-,he⟩ | ⟨v,ok,hd,hfresh,hc,-⟩
  · rw [he]
    exact ⟨⟨log,h⟩,id⟩
  · have hcommit := h.commit errs (hin (by rw [hd]; rfl)) (entryFrame_fits v.item) (fun items hfol _ =>
      ⟨items++[v.item],
        applyRecord_entry v.sourced (by rw [hfresh.id_toNat,hfol.length])
          (by rw [hfol.length]; simpa [reserveEntries] using hfresh.reserved),
        ⟨items,[v.item],rfl,hfol,le_rfl,by simpa using ⟨v.sourced,hfresh.unseen⟩⟩,hfol.append v.item⟩)
      (List.Sublist.refl _) (by simpa using hfresh.reserved) hc
    simpa only [ite_self] using hcommit

/-- An outcome change in step keeps the invariant, whatever fails in it. -/
theorem Consistent.setOutcome (h : Consistent V errs s log) (fault : Option CommitFault)
    (id : UInt64) (byte : UInt8) (hin : ChangeInStep s id byte) :
    (∃ log', Consistent V
      (errs++failedChange s.handle.items id byte (setOutcome fault s id byte).2)
      (setOutcome fault s id byte).1 log') ∧ KeepsMarker s (setOutcome fault s id byte).1 := by
  rcases setOutcome_cases fault s id byte with ⟨status,hd,he⟩ | ⟨o,it,ok,hd,hch,hc,hst⟩
  · rw [he,failedChange,hd]
    simpa using ⟨⟨log,h⟩,fun h => h⟩
  · obtain ⟨hstep,hpending⟩ := hin (by rw [hd]; rfl)
    have hlog : ∀ x, (scanLog (s.disk.logBytes.drop ledgerHeaderSize)).1[id.toNat-1]? = some x →
        ¬(x.outcome.isCommitted = true∧o = .pending) := by
      rintro x hx ⟨hcom,rfl⟩
      have := hpending (Outcome.ofByte?_eq hch.valid)
      simp [hx,hcom] at this
    have hcommit := h.commit (errs++[⟨id.toNat-1,it.outcome,o⟩]) hstep
      (patchFrame_fits id o) (fun items hfol hscan => by
        have hlt : id.toNat-1 < items.length := by
          rw [hfol.length]
          exact (List.getElem?_eq_some_iff.mp hch.at_id).1
        have hit := List.getElem?_eq_getElem hlt
        exact ⟨_,applyRecord_patch hch.nonzero hit (hlog _ (hscan ▸ hit)),
          (hfol.ghost hch.at_id o).knows,hfol.patch _ o⟩)
      (List.sublist_append_left _ _) (by simpa using h.count) hc
    have herrs : errs++failedChange s.handle.items id byte (Ledger.setOutcome fault s id byte).2 =
        if ok then errs else errs++[⟨id.toNat-1,it.outcome,o⟩] := by
      rw [hst,failedChange,hd,hch.at_id]
      cases ok <;> simp
    rw [herrs]
    exact hcommit

/-- With its marker in place, a consistent session reopens to entries that follow its
memory. -/
theorem Consistent.reopen (h : Consistent V errs s log) (hmark : (readOff s.disk).isSome)
    (migrate : ℕ → Disk → Disk×Status) :
    ∃ d' h', openLedger migrate s.disk = (d',.ok h') ∧ Follows V errs s.handle.items h'.items ∧
      IdsMatch h'.items := by
  obtain ⟨⟨count,offset⟩,hm⟩ := Option.isSome_iff_exists.mp hmark
  obtain ⟨hlow,hhigh,items,hdec,hcount,hfol⟩ := h.marker count offset hm
  have hopen := openLedger_current migrate h.file h.header.1 h.header.2
  have hm' : readOff (discardStaging s.disk) = some (count,offset) := hm
  rw [recover_fenced h.size hm' hlow hhigh hdec hcount] at hopen
  exact ⟨_,_,hopen,hfol,reads_idsMatch hdec (by simp [IdsMatch])⟩

end Consistent

/-! ## A session whose disk says exactly what its memory does -/

/-- Nothing on disk beside what the handle knows: the state of every ledger as it is
opened, and of every ledger whose commits all succeeded. -/
structure Clean (s : Session) (log : Bytes) : Prop where
  file : s.disk.log = some log
  size : log.length ≤ fileMax
  header : ledgerHeaderSize ≤ log.length ∧ headerAccepted (log.take ledgerHeaderSize) = true
  count : s.handle.items.length ≤ 2^63
  decodes : Decodes log s.handle.items
  offset : s.handle.committedOffset = log.length
  marker : readOff s.disk = some (s.handle.items.length,log.length)

section Clean
variable {s : Session} {log : Bytes}

theorem Clean.consistent {α : Type} (V : View α) (h : Clean s log) : Consistent V [] s log where
  file := h.file
  size := h.size
  header := h.header
  count := h.count
  reading := by
    rw [scanLog_eq.mpr h.decodes]
    exact (Follows.refl [] _).knows
  complete := by
    rw [scanLog_eq.mpr h.decodes]
    exact fun _ => rfl
  marker := by
    intro count offset hm
    obtain ⟨rfl,rfl⟩ := Prod.mk.inj (Option.some.inj (h.marker.symm.trans hm))
    refine ⟨h.header.1,le_rfl,s.handle.items,?_,rfl,Follows.refl _ _⟩
    rw [List.take_length]
    exact h.decodes

theorem Clean.logBytes (h : Clean s log) : s.disk.logBytes = log := by
  rw [Disk.logBytes,h.file,Option.getD_some]

theorem Clean.inStep (h : Clean s log) : InStep s := by
  rw [InStep,h.logBytes,scanLog_eq.mpr h.decodes]
  exact ⟨h.offset,rfl⟩

theorem Clean.idsMatch (h : Clean s log) : IdsMatch s.handle.items :=
  reads_idsMatch h.decodes (by simp [IdsMatch])

theorem readOff_writeOff {d : Disk} {count offset : ℕ} (hc : count ≤ 2^63)
    (ho : offset ≤ fileMax) : readOff (writeOff d count offset) = some (count,offset) := by
  simp only [fileMax] at ho
  exact parseOff_offHeader (by omega) (by omega)

/-- Whatever was on disk, a ledger that opens is clean. -/
theorem recover_clean {d d' : Disk} {log : Bytes} {h : Handle}
    (hlen : ledgerHeaderSize ≤ log.length)
    (hh : headerAccepted (log.take ledgerHeaderSize) = true)
    (hr : recover d log = (d',.ok h)) : ∃ log', Clean ⟨d',h⟩ log' := by
  have hsize : log.length ≤ fileMax := by
    by_contra hbig
    rw [recover,if_pos (Nat.not_le.mp hbig)] at hr
    cases hr
  cases hm : readOff d with
  | none =>
      obtain ⟨hs,-⟩ := Framing.scan_eq_iff.mp
        (Prod.mk.eta : (_,_) = scanLog (log.drop ledgerHeaderSize)).symm
      obtain ⟨pre,hpre,hdec⟩ := hs.consumed
      rw [recover_healed hsize hm Prod.mk.eta.symm] at hr
      obtain ⟨rfl,he⟩ := Prod.mk.inj hr
      obtain rfl := Except.ok.inj he
      generalize scanLog (log.drop ledgerHeaderSize) = scanned at *
      have hlog : log = log.take ledgerHeaderSize++(pre++scanned.2) := by
        rw [← hpre,List.take_append_drop]
      have hhead : (log.take ledgerHeaderSize).length = ledgerHeaderSize := by
        rw [List.length_take]
        omega
      have htake : log.take (log.length-scanned.2.length) = log.take ledgerHeaderSize++pre := by
        rw [← List.append_assoc] at hlog
        have hl := congrArg List.length hlog
        rw [List.length_append] at hl
        exact (congrArg (List.take _) hlog).trans (List.take_left' (by omega))
      have hlen' : (log.take ledgerHeaderSize++pre).length = log.length-scanned.2.length := by
        rw [← htake,List.length_take]
        omega
      refine ⟨log.take ledgerHeaderSize++pre,congrArg some htake,by omega,?_,
        reads_length_le hdec (by simp),?_,hlen'.symm,?_⟩
      · rw [List.take_left' hhead,List.length_append]
        exact ⟨by omega,hh⟩
      · rw [Decodes,List.drop_left' hhead]
        exact hdec
      · rw [hlen']
        have hle : log.length-scanned.2.length ≤ fileMax := by omega
        exact readOff_writeOff (reads_length_le hdec (by simp)) hle
  | some marker =>
      obtain ⟨count,offset⟩ := marker
      simp only [recover,if_neg (Nat.not_lt.mpr hsize),hm] at hr
      split at hr
      · cases hr
      rename_i hrange
      simp only [not_or,Nat.not_lt] at hrange
      split at hr
      · cases hr
      rename_i hrest
      rw [not_not] at hrest
      split at hr
      · cases hr
      rename_i hcount
      rw [not_not] at hcount
      obtain ⟨rfl,he⟩ := Prod.mk.inj hr
      obtain rfl := Except.ok.inj he
      have hdec : Decodes (log.take offset) (scanLog ((log.take offset).drop ledgerHeaderSize)).1 :=
        scanLog_eq.mp (Prod.ext rfl hrest)
      have hl : (log.take offset).length = offset := by
        rw [List.length_take]
        omega
      refine ⟨log.take offset,rfl,by omega,?_,reads_length_le hdec (by simp),hdec,hl.symm,?_⟩
      · rw [List.take_take,Nat.min_eq_left hrange.1,hl]
        exact ⟨hrange.1,hh⟩
      · rw [hl,hcount]
        exact hm

theorem openCurrent_clean {d d' : Disk} {h : Handle} (ho : openCurrent d = (d',.ok h)) :
    ∃ log, Clean ⟨d',h⟩ log := by
  unfold openCurrent at ho
  split at ho
  · cases ho
  · split at ho
    · cases ho
    · rename_i hlen
      split at ho
      · rename_i hh
        exact recover_clean (Nat.not_lt.mp hlen) hh ho
      · cases ho

theorem openLedger_clean {migrate : ℕ → Disk → Disk×Status} {d d' : Disk} {h : Handle}
    (ho : openLedger migrate d = (d',.ok h)) : ∃ log, Clean ⟨d',h⟩ log := by
  unfold openLedger at ho
  simp only at ho
  split at ho
  · cases ho
  · split at ho
    · exact openCurrent_clean ho
    · split at ho
      · exact openCurrent_clean ho
      · cases ho

end Clean

/-- The session of a ledger created at a path that held nothing. -/
def createdSession : Session := ⟨writeOff ⟨some currentHeader,none,none,none⟩ 0 12,⟨[],12⟩⟩

theorem openLedger_fresh (migrate : ℕ → Disk → Disk×Status) :
    openLedger migrate Disk.fresh = (createdSession.disk,.ok createdSession.handle) := by
  have hc : openCurrent ⟨some currentHeader,none,none,none⟩ =
      (createdSession.disk,.ok createdSession.handle) := by
    decide +kernel
  have hl : legacyVersion (currentHeader.take ledgerHeaderSize) = none := by decide
  simp only [openLedger,Disk.fresh,discardStaging,createMissing,Option.getD_none,
    Option.getD_some,hl,hc]
  rfl

/-- A migration pass for runs that never meet a legacy log. -/
def noMigration : ℕ → Disk → Disk×Status := fun _ d => (d,.io)

def sampleArgs (source outcome : UInt8) : AppendArgs where
  sourceId := some (CString.ofRaw [source])
  authorDid := none
  observedAt := 0
  contentDigest := 7
  schemaVersion := 0
  outcome
  payload := .bytes [source]
  context := none

end Atperson.Ledger
