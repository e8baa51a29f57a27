import Atperson.Replicate.Publish

/-!
# The acts of a drain

A drain reads its input and then only puts records: that of a withdrawn entry in the window,
that of a committed entry from the cursor on, or that of the next line of a counted kind. A
confirmed put moves the cursor, any other leaves it. A drain saves the cursor it came to or
leaves the file alone.
-/
namespace Atperson.Replicate
open Wire Journal Thought Ledger Relation

inductive Kind where
  | actions | valence | thoughts | intents
  deriving DecidableEq

def ReplicateCursor.count (c : ReplicateCursor) : Kind → UInt64
  | .actions => c.actionsPublished
  | .valence => c.valencePublished
  | .thoughts => c.thoughtsPublished
  | .intents => c.intentsPublished

def ReplicateCursor.advance (c : ReplicateCursor) : Kind → ReplicateCursor
  | .actions => { c with actionsPublished := c.actionsPublished+1 }
  | .valence => { c with valencePublished := c.valencePublished+1 }
  | .thoughts => { c with thoughtsPublished := c.thoughtsPublished+1 }
  | .intents => { c with intentsPublished := c.intentsPublished+1 }

abbrev Line := Key × Except String (Json Double)

/-- The records of a kind, in the order of its entries. -/
def linesOf (journal : JournalContents) (thoughts : List Thought) : Kind → List Line
  | .actions => journal.actions.mapIdx fun i a => (actionKey i a,actionDocument a)
  | .valence => journal.valence.mapIdx fun i a => (valenceKey i a,valenceDocument a)
  | .thoughts => thoughts.mapIdx fun i a => (thoughtKey i a,thoughtDocument a)
  | .intents => journal.intents.mapIdx fun i a => (intentKey i a,intentDocument a)

/-- What loads of the input; nothing is published of the rest. -/
def DrainInput.lines (d : DrainInput) : Kind → List Line :=
  linesOf (d.journal.toOption.getD {}) (d.thoughts.toOption.getD [])

structure Published where
  cursor : ReplicateCursor
  records : Records

def Progress.published (p : Progress) : Published := ⟨p.cursor,p.records⟩

def Published.put (s : Published) (key : Key) (document : Json Double) : Published :=
  { s with records := Function.update s.records key (some document) }

/-- The cursor moves when the put before it was confirmed. -/
def Published.advance (s : Published) (confirmed : Bool) (cursor : ReplicateCursor) : Published :=
  if confirmed then { s with cursor := cursor } else s

@[simp] theorem Published.put_cursor (s : Published) (key : Key) (document : Json Double) :
    (s.put key document).cursor = s.cursor := rfl

@[simp] theorem Published.advance_records (s : Published) (confirmed : Bool)
    (cursor : ReplicateCursor) : (s.advance confirmed cursor).records = s.records := by
  cases confirmed <;> rfl

@[simp] theorem Published.advance_false (s : Published) (cursor : ReplicateCursor) :
    s.advance false cursor = s := rfl

@[simp] theorem Published.advance_true_cursor (s : Published) (cursor : ReplicateCursor) :
    (s.advance true cursor).cursor = cursor := rfl

theorem Published.put_self (s : Published) (key : Key) (document : Json Double) :
    (s.put key document).records key = some document := Function.update_self _ _ _

theorem Published.put_of_ne (s : Published) {key key' : Key} (document : Json Double)
    (h : key' ≠ key) : (s.put key document).records key' = s.records key' :=
  Function.update_of_ne h _ _

def observationRecordOf (it : Item) : ObservationRecord where
  id := it.entry.id
  sourceId := it.entry.sourceId.bytes
  authorDid := it.entry.authorDid.bytes
  observedAt := it.entry.observedAt
  contentDigest := it.entry.contentDigest
  schemaVersion := it.entry.schemaVersion
  outcome := utf8 (ledgerOutcomeName it.entry.outcome)
  context := it.context

/-- The record of an entry, with its own context. -/
def entryDocument (it : Item) : Json Double := serialiseObservationRecord (observationRecordOf it)

/-- The entries from one id to another are all pending. -/
def PendingBetween (items : List Item) (low high : ℕ) : Prop :=
  ∀ n it, items[n]? = some it → low ≤ n+1 → n+1 < high → it.outcome = .pending

@[simp] theorem Progress.put_published (p : Progress) (key : Key) (document : Json Double) :
    (p.put key document).published = p.published.put key document := rfl

@[simp] theorem Progress.countWithdrawal_published (p : Progress) :
    p.countWithdrawal.published = p.published := rfl

inductive Act (d : DrainInput) : Published → Published → Prop
  | withdrawal {s : Published} {n : ℕ} {it : Item} :
      d.items[n]? = some it → n+1 < s.cursor.nextObservationId.toNat →
      it.outcome = .withdrawn →
      Act d s (s.put (observationKey it.entry.id) (entryDocument it))
  -- a confirmed put moves the cursor over the pending entries before it
  | observation {s : Published} {n : ℕ} {it : Item} {confirmed : Bool} :
      d.items[n]? = some it → s.cursor.nextObservationId.toNat ≤ n+1 →
      PendingBetween d.items s.cursor.nextObservationId.toNat (n+1) → it.outcome ≠ .pending →
      Act d s ((s.put (observationKey it.entry.id) (entryDocument it)).advance confirmed
        { s.cursor with nextObservationId := .ofNat (n+2) })
  | counted {s : Published} {kind : Kind} {key : Key} {document : Json Double}
      {confirmed : Bool} :
      (d.lines kind)[(s.cursor.count kind).toNat]? = some (key,.ok document) →
      Act d s ((s.put key document).advance confirmed (s.cursor.advance kind))

abbrev Acts (d : DrainInput) : Published → Published → Prop := ReflTransGen (Act d)

/-- A stage is made of acts, wherever it ends. -/
def Reaches (d : DrainInput) (s : Published) : Except Stop Progress → Prop
  | .ok p => Acts d s p.published
  | .error stop => Acts d s stop.progress.published

/-- Where a stage ends. -/
def ending : Except Stop Progress → Progress
  | .ok p => p
  | .error stop => stop.progress

/-- The pass comes to a return after this stage. -/
def returns : Except Stop Progress → Bool
  | .ok _ => true
  | .error (.failed _) => true
  | .error _ => false

section Stages
variable {d : DrainInput} {s : Published} {p : Progress}

theorem Reaches.bind {x : Except Stop Progress} {f : Progress → Except Stop Progress}
    (hx : Reaches d s x) (hf : ∀ p, x = .ok p → Acts d s p.published → Reaches d s (f p)) :
    Reaches d s (x >>= f) := by
  cases x with
  | error stop => exact hx
  | ok p => exact hf p rfl hx

theorem Reaches.ending {x : Except Stop Progress} (h : Reaches d s x) :
    Acts d s (ending x).published := by
  cases x <;> exact h

/-- A put is confirmed, or it leaves the cursor and the record is there or not. -/
theorem putRecord_cases (d : DrainInput) (p : Progress) (key : Key)
    (document : Except String (Json Double)) :
    (∃ json, document = .ok json ∧ d.writer p.calls = .written ∧
      putRecord d.writer p key document = .ok (p.put key json)) ∨
    ∃ stop, putRecord d.writer p key document = .error stop ∧
      (stop.progress.published = p.published ∨ ∃ json, document = .ok json ∧
        stop.progress.published = p.published.put key json) := by
  cases document with
  | error message => exact .inr ⟨_,rfl,.inl rfl⟩
  | ok json =>
      simp only [putRecord]
      cases hw : d.writer p.calls with
      | written => exact .inl ⟨json,rfl,rfl,rfl⟩
      | failed detail stored =>
          refine .inr ⟨_,rfl,?_⟩
          cases stored
          · exact .inl rfl
          · exact .inr ⟨json,rfl,rfl⟩
      | dies stored =>
          refine .inr ⟨_,rfl,?_⟩
          cases stored
          · exact .inl rfl
          · exact .inr ⟨json,rfl,rfl⟩

theorem observationRecord_eq {items : List Item} (hids : IdsMatch items) {n : ℕ} {it : Item}
    (hit : items[n]? = some it) :
    observationRecord items it.entry = .ok (observationRecordOf it) := by
  have hcontext : entryContext items it.entry.id = (.ok,it.context) := by
    rw [entryContext,entryById_self hids hit]
  rw [observationRecord,hcontext]
  rfl

theorem putObservation_cases (hids : IdsMatch d.items) {n : ℕ} {it : Item}
    (hit : d.items[n]? = some it) (p : Progress) :
    (d.writer p.calls = .written ∧ putObservation d p it =
      .ok (p.put (observationKey it.entry.id) (entryDocument it))) ∨
    ∃ stop, putObservation d p it = .error stop ∧
      (stop.progress.published = p.published ∨ stop.progress.published =
        p.published.put (observationKey it.entry.id) (entryDocument it)) := by
  have hput : putObservation d p it = putRecord d.writer p (observationKey it.entry.id)
      (.ok (entryDocument it)) := by
    simp only [putObservation,observationRecord_eq hids hit]
    rfl
  rw [hput]
  rcases putRecord_cases d p (observationKey it.entry.id) (.ok (entryDocument it)) with
    ⟨json,hjson,hw,h⟩ | ⟨stop,h,hstop⟩
  · cases hjson
    exact .inl ⟨hw,h⟩
  · refine .inr ⟨stop,h,hstop.imp_right fun ⟨json,hjson,hs⟩ => ?_⟩
    cases hjson
    exact hs

theorem propagateWithdrawals_reaches (hids : IdsMatch d.items) {items : List Item}
    (hitems : ∀ it ∈ items, ∃ n, d.items[n]? = some it ∧
      n+1 < p.cursor.nextObservationId.toNat)
    (hs : Acts d s p.published) : Reaches d s (propagateWithdrawals d items p) := by
  induction items generalizing p with
  | nil => exact hs
  | cons it rest ih =>
      have hrest : ∀ x ∈ rest, ∃ n, d.items[n]? = some x ∧
          n+1 < p.cursor.nextObservationId.toNat :=
        fun x hx => hitems x (List.mem_cons_of_mem _ hx)
      rw [propagateWithdrawals]
      split
      · exact ih hrest hs
      · rename_i hwithdrawn
        obtain ⟨n,hn,hlt⟩ := hitems it List.mem_cons_self
        have hact : Acts d s (p.published.put (observationKey it.entry.id) (entryDocument it)) :=
          hs.tail (.withdrawal hn hlt (not_not.mp hwithdrawn))
        rcases putObservation_cases hids hn p with ⟨-,hput⟩ | ⟨stop,hput,hstop⟩
        · rw [hput]
          exact ih hrest hact
        · rw [hput]
          show Acts d s stop.progress.published
          rcases hstop with hstop | hstop <;> rw [hstop]
          · exact hs
          · exact hact

theorem putRecord_ok {key : Key} {document : Except String (Json Double)} {q : Progress}
    (h : putRecord d.writer p key document = .ok q) :
    ∃ json, d.writer p.calls = .written ∧ q = p.put key json := by
  rcases putRecord_cases d p key document with ⟨json,-,hw,hok⟩ | ⟨stop,hstop,-⟩
  · exact ⟨json,hw,Except.ok.inj (h.symm.trans hok)⟩
  · rw [hstop] at h
    cases h

theorem putObservation_ok {it : Item} {q : Progress} (h : putObservation d p it = .ok q) :
    ∃ json, d.writer p.calls = .written ∧ q = p.put (observationKey it.entry.id) json := by
  rw [putObservation] at h
  split at h
  · cases h
  · exact putRecord_ok h

/-- Withdrawals that all went through leave the cursor, after an answered call for each. -/
theorem propagateWithdrawals_ok {items : List Item} {q : Progress}
    (h : propagateWithdrawals d items p = .ok q) :
    q.cursor = p.cursor ∧ q.written = p.written ∧
      q.calls = p.calls+items.countP (fun it => it.outcome = .withdrawn) ∧
      ∀ i, p.calls ≤ i → i < q.calls → d.writer i = .written := by
  induction items generalizing p with
  | nil =>
      cases h
      exact ⟨rfl,rfl,rfl,fun i hlow hhigh => by omega⟩
  | cons it rest ih =>
      rw [propagateWithdrawals] at h
      split at h
      · rename_i hkept
        obtain ⟨hcursor,hwritten,hcalls,hanswers⟩ := ih h
        refine ⟨hcursor,hwritten,?_,hanswers⟩
        rw [hcalls,List.countP_cons_of_neg (by simpa using hkept)]
      · rename_i hwithdrawn
        obtain ⟨p',hput,hrest⟩ := Runs.bind_ok.mp h
        obtain ⟨json,hw,rfl⟩ := putObservation_ok hput
        obtain ⟨hcursor,hwritten,hcalls,hanswers⟩ := ih hrest
        refine ⟨hcursor,hwritten,?_,fun i hlow hhigh => ?_⟩
        · rw [hcalls,List.countP_cons_of_pos (by simpa using hwithdrawn)]
          show p.calls+1+_ = _
          omega
        · rcases eq_or_lt_of_le hlow with rfl | hlt
          · exact hw
          · exact hanswers i hlt hhigh

theorem getElem?_of_drop {α : Type} {l rest : List α} {i : ℕ} {a : α}
    (h : l.drop i = a::rest) : l[i]? = some a := by
  have := congrArg (·[0]?) h
  simpa [List.getElem?_drop] using this

theorem drop_succ_of_drop {α : Type} {l rest : List α} {i : ℕ} {a : α}
    (h : l.drop i = a::rest) : l.drop (i+1) = rest := by
  have := congrArg (List.drop 1) h
  rwa [List.drop_drop,List.drop_one,List.tail_cons] at this

theorem PendingBetween.refl {items : List Item} (low : ℕ) : PendingBetween items low low :=
  fun _ _ _ hlow hhigh => by omega

theorem PendingBetween.succ {items : List Item} {low n : ℕ} {it : Item}
    (h : PendingBetween items low (n+1)) (hit : items[n]? = some it)
    (hpending : it.outcome = .pending) : PendingBetween items low (n+2) := by
  intro m x hx hlow hhigh
  rcases eq_or_ne m n with rfl | hne
  · rw [hit] at hx
    exact Option.some.inj hx ▸ hpending
  · exact h m x hx hlow (by omega)

/-- The loop over the entries passes over pending ones alone. -/
theorem publishObservations_reaches (hids : IdsMatch d.items) {n : ℕ}
    (hn : p.cursor.nextObservationId.toNat ≤ n+1)
    (hskipped : PendingBetween d.items p.cursor.nextObservationId.toNat (n+1))
    (hfits : d.items.length+2 < 2^64) (hs : Acts d s p.published) :
    Reaches d s (publishObservations d (n+1) (d.items.drop n) p) := by
  generalize hrest : d.items.drop n = rest
  induction rest generalizing n p with
  | nil => exact hs
  | cons it rest ih =>
      have hit := getElem?_of_drop hrest
      have hlt : n < d.items.length := (List.getElem?_eq_some_iff.mp hit).choose
      rw [publishObservations]
      split
      · exact hs
      split
      · rename_i hpending
        exact ih (by omega) (hskipped.succ hit hpending) hs (drop_succ_of_drop hrest)
      · rename_i hpending
        have hact (confirmed : Bool) : Acts d s
            ((p.published.put (observationKey it.entry.id) (entryDocument it)).advance confirmed
              { p.published.cursor with nextObservationId := .ofNat (n+2) }) :=
          hs.tail (.observation hit hn hskipped hpending)
        rcases putObservation_cases hids hit p with ⟨-,hput⟩ | ⟨stop,hput,hstop⟩
        · rw [hput]
          have hnext : ((p.put (observationKey it.entry.id) (entryDocument it)).countObservation
              (n+1)).cursor.nextObservationId.toNat = n+1+1 := by
            show (UInt64.ofNat (n+1+1)).toNat = n+1+1
            rw [UInt64.toNat_ofNat']
            omega
          exact ih hnext.le (by rw [hnext]; exact .refl _) (hact true)
            (drop_succ_of_drop hrest)
        · rw [hput]
          show Acts d s stop.progress.published
          rcases hstop with hstop | hstop <;> rw [hstop]
          · exact hs
          · exact hact false

/-- The loop of a counted kind publishes the lines of that kind, from its count on. -/
theorem publishCounted_reaches {α : Type} {kind : Kind} {entries : List α}
    {key : ℕ → α → Key} {document : α → Except String (Json Double)}
    {advance : Progress → Progress}
    (hlines : d.lines kind = entries.mapIdx fun i a => (key i a,document a))
    (hadvance : ∀ p : Progress, (advance p).published =
      { p.published with cursor := p.cursor.advance kind })
    (hfits : entries.length+1 < 2^64) (hs : Acts d s p.published) :
    Reaches d s (publishCounted d key document advance (p.cursor.count kind).toNat
      (entries.drop (p.cursor.count kind).toNat) p) := by
  generalize hrest : entries.drop (p.cursor.count kind).toNat = rest
  induction rest generalizing p with
  | nil => exact hs
  | cons a rest ih =>
      generalize hi : (p.cursor.count kind).toNat = i at hrest ⊢
      have ha := getElem?_of_drop hrest
      have hlt : i < entries.length := (List.getElem?_eq_some_iff.mp ha).choose
      have hline : (d.lines kind)[(p.cursor.count kind).toNat]? = some (key i a,document a) := by
        rw [hlines,hi,List.getElem?_mapIdx,ha]
        rfl
      have hact (json : Json Double) (hjson : document a = .ok json) (confirmed : Bool) :
          Act d p.published ((p.published.put (key i a) json).advance confirmed
            (p.published.cursor.advance kind)) :=
        .counted (by rw [← hjson]; exact hline)
      rw [publishCounted]
      split
      · rcases putRecord_cases d p (key i a) (document a) with
          ⟨json,hjson,-,hput⟩ | ⟨stop,hput,hstop⟩
        · rw [hput]
          generalize hq : advance { p.put (key i a) json with
            written := (p.put (key i a) json).written+1 } = q
          have hq' : q.published =
              (p.published.put (key i a) json).advance true (p.cursor.advance kind) := by
            rw [← hq,hadvance]
            rfl
          have hcount : (q.cursor.count kind).toNat = i+1 := by
            have hcursor : q.cursor = p.cursor.advance kind := congrArg Published.cursor hq'
            rw [hcursor]
            have hstep : ((p.cursor.advance kind).count kind) = p.cursor.count kind+1 := by
              cases kind <;> rfl
            have hone : (1 : UInt64).toNat = 1 := rfl
            rw [hstep,UInt64.toNat_add,hi,hone]
            omega
          have hdrop : entries.drop (q.cursor.count kind).toNat = rest := by
            rw [hcount]
            exact drop_succ_of_drop hrest
          have hacts : Acts d s q.published := by
            rw [hq']
            exact hs.tail (hact json hjson true)
          have := ih hacts hdrop
          rw [hcount] at this
          show Reaches d s (publishCounted d key document advance (i+1) rest (advance _))
          rwa [hq]
        · rw [hput]
          show Acts d s stop.progress.published
          rcases hstop with hstop | ⟨json,hjson,hstop⟩
          · rwa [hstop]
          · rw [hstop]
            exact hs.tail (hact json hjson false)
      · exact hs

/-- The input is not larger than its indices. -/
structure DrainInput.Fits (d : DrainInput) : Prop where
  ids : IdsMatch d.items
  items : d.items.length+2 < 2^64
  lines : ∀ kind, (d.lines kind).length+1 < 2^64

theorem Reaches.orThrow {α : Type} {loaded : Except String α}
    {f : α → Except Stop Progress} (hs : Acts d s p.published)
    (hf : ∀ a, loaded = .ok a → Reaches d s (f a)) :
    Reaches d s (Replicate.orThrow p loaded >>= f) := by
  cases loaded with
  | error message => exact hs
  | ok a => exact hf a rfl

theorem publishNew_reaches (hfits : d.Fits) (h1 : 1 ≤ p.cursor.nextObservationId.toNat)
    (hs : Acts d s p.published) : Reaches d s (publishNew d p) := by
  have hlen (kind : Kind) := hfits.lines kind
  have hobservations : Reaches d s (publishObservations d p.cursor.nextObservationId.toNat
      (d.items.drop (p.cursor.nextObservationId.toNat-1)) p) := by
    obtain ⟨n,hn⟩ : ∃ n, p.cursor.nextObservationId.toNat = n+1 := ⟨_,(Nat.sub_add_cancel h1).symm⟩
    have := publishObservations_reaches (n := n) hfits.ids hn.le (by rw [hn]; exact .refl _)
      hfits.items hs
    rwa [hn,Nat.add_sub_cancel]
  refine hobservations.bind fun p _ hs => ?_
  refine Reaches.orThrow hs fun journal hjournal => ?_
  have hloaded : d.journal.toOption.getD {} = journal := by rw [hjournal]; rfl
  have hactions : d.lines .actions =
      journal.actions.mapIdx fun i a => (actionKey i a,actionDocument a) := by
    rw [DrainInput.lines,hloaded]
    rfl
  have hvalence : d.lines .valence =
      journal.valence.mapIdx fun i a => (valenceKey i a,valenceDocument a) := by
    rw [DrainInput.lines,hloaded]
    rfl
  have hintents : d.lines .intents =
      journal.intents.mapIdx fun i a => (intentKey i a,intentDocument a) := by
    rw [DrainInput.lines,hloaded]
    rfl
  have hactionsLen := hlen .actions
  rw [hactions,List.length_mapIdx] at hactionsLen
  have hvalenceLen := hlen .valence
  rw [hvalence,List.length_mapIdx] at hvalenceLen
  have hintentsLen := hlen .intents
  rw [hintents,List.length_mapIdx] at hintentsLen
  refine (publishCounted_reaches hactions (fun _ => rfl) hactionsLen hs).bind fun p _ hs => ?_
  refine (publishCounted_reaches hvalence (fun _ => rfl) hvalenceLen hs).bind fun p _ hs => ?_
  refine Reaches.orThrow hs fun thoughts hthoughts => ?_
  have hthoughtLines : d.lines .thoughts =
      thoughts.mapIdx fun i a => (thoughtKey i a,thoughtDocument a) := by
    rw [DrainInput.lines,hthoughts]
    rfl
  have hthoughtsLen := hlen .thoughts
  rw [hthoughtLines,List.length_mapIdx] at hthoughtsLen
  refine (publishCounted_reaches hthoughtLines (fun _ => rfl) hthoughtsLen hs).bind
    fun p _ hs => ?_
  exact publishCounted_reaches hintents (fun _ => rfl) hintentsLen hs

end Stages

section Effects
variable {d : DrainInput} {s s' : Published}

def Kind.collection : Kind → Collection
  | .actions => .action
  | .valence => .valence
  | .thoughts => .thought
  | .intents => .intent

theorem linesOf_collection {journal : JournalContents} {thoughts : List Thought} {kind : Kind}
    {i : ℕ} {line : Line} (h : (linesOf journal thoughts kind)[i]? = some line) :
    line.1.1 = kind.collection := by
  have hmem := List.mem_of_getElem? h
  cases kind <;> obtain ⟨_,_,rfl⟩ := List.mem_mapIdx.mp hmem <;> rfl

theorem observationKey_eq {items : List Item} (hids : IdsMatch items) {n m : ℕ} {it x : Item}
    (hit : items[n]? = some it) (hx : items[m]? = some x)
    (h : observationKey it.entry.id = observationKey x.entry.id) : n = m := by
  have hid := observationRkey_injective (Prod.mk.inj h).2
  have hn := hids n it hit
  rw [hid,hids m x hx] at hn
  omega

theorem ofNat_next (hfits : d.Fits) {n : ℕ} {it : Item} (hit : d.items[n]? = some it) :
    (UInt64.ofNat (n+2)).toNat = n+2 ∧ n+2 ≤ d.items.length+1 := by
  have hlt : n < d.items.length := (List.getElem?_eq_some_iff.mp hit).choose
  have hfit := hfits.items
  rw [UInt64.toNat_ofNat']
  omega

theorem ReplicateCursor.advance_next (c : ReplicateCursor) (kind : Kind) :
    (c.advance kind).nextObservationId = c.nextObservationId := by
  cases kind <;> rfl

theorem Act.next_bounds (hfits : d.Fits) (h : Act d s s')
    (hs : s.cursor.nextObservationId.toNat ≤ d.items.length+1) :
    s.cursor.nextObservationId.toNat ≤ s'.cursor.nextObservationId.toNat ∧
      s'.cursor.nextObservationId.toNat ≤ d.items.length+1 := by
  cases h with
  | withdrawal => exact ⟨le_rfl,hs⟩
  | @observation n _ confirmed hit hn _ _ =>
      obtain ⟨hnext,hle⟩ := ofNat_next hfits hit
      cases confirmed with
      | false => exact ⟨le_rfl,hs⟩
      | true =>
          rw [Published.advance_true_cursor,hnext]
          omega
  | @counted kind _ _ confirmed _ =>
      cases confirmed with
      | false => exact ⟨le_rfl,hs⟩
      | true =>
          rw [Published.advance_true_cursor,ReplicateCursor.advance_next]
          exact ⟨le_rfl,hs⟩

theorem Acts.next_bounds (hfits : d.Fits) (h : Acts d s s')
    (hs : s.cursor.nextObservationId.toNat ≤ d.items.length+1) :
    s.cursor.nextObservationId.toNat ≤ s'.cursor.nextObservationId.toNat ∧
      s'.cursor.nextObservationId.toNat ≤ d.items.length+1 := by
  induction h with
  | refl => exact ⟨le_rfl,hs⟩
  | tail _ hlast ih =>
      have hnext := hlast.next_bounds hfits ih.2
      exact ⟨ih.1.trans hnext.1,hnext.2⟩

/-- What an act does to the record of an entry: nothing, or it puts the entry as it is; a
pending entry and one passed over that is not withdrawn have nothing put. -/
theorem Act.record (hids : IdsMatch d.items) (h : Act d s s') {n : ℕ} {it : Item}
    (hit : d.items[n]? = some it) :
    s'.records (observationKey it.entry.id) = s.records (observationKey it.entry.id) ∨
      (s'.records (observationKey it.entry.id) = some (entryDocument it) ∧
        it.outcome ≠ .pending ∧
        (n+1 < s.cursor.nextObservationId.toNat → it.outcome = .withdrawn)) := by
  have hput {m : ℕ} {x : Item} (hx : d.items[m]? = some x) (hpending : x.outcome ≠ .pending)
      (hlow : m+1 < s.cursor.nextObservationId.toNat → x.outcome = .withdrawn) :
      (s.put (observationKey x.entry.id) (entryDocument x)).records
          (observationKey it.entry.id) = s.records (observationKey it.entry.id) ∨
        ((s.put (observationKey x.entry.id) (entryDocument x)).records
            (observationKey it.entry.id) = some (entryDocument it) ∧ it.outcome ≠ .pending ∧
          (n+1 < s.cursor.nextObservationId.toNat → it.outcome = .withdrawn)) := by
    by_cases hkey : observationKey it.entry.id = observationKey x.entry.id
    · obtain rfl := observationKey_eq hids hit hx hkey
      obtain rfl := Option.some.inj (hit.symm.trans hx)
      exact .inr ⟨s.put_self _ _,hpending,hlow⟩
    · exact .inl (s.put_of_ne _ hkey)
  cases h with
  | withdrawal hx _ hw => exact hput hx (by rw [hw]; decide) fun _ => hw
  | observation hx hn _ hpending =>
      rw [Published.advance_records]
      exact hput hx hpending fun hlt => absurd hn (by omega)
  | @counted _ key _ _ hline =>
      have hkey : observationKey it.entry.id ≠ key := by
        rintro rfl
        have := linesOf_collection hline
        cases ‹Kind› <;> cases this
      rw [Published.advance_records]
      exact .inl (s.put_of_ne _ hkey)

theorem Acts.record (hfits : d.Fits) (h : Acts d s s')
    (hs : s.cursor.nextObservationId.toNat ≤ d.items.length+1) {n : ℕ} {it : Item}
    (hit : d.items[n]? = some it) :
    s'.records (observationKey it.entry.id) = s.records (observationKey it.entry.id) ∨
      (s'.records (observationKey it.entry.id) = some (entryDocument it) ∧
        it.outcome ≠ .pending ∧
        (n+1 < s.cursor.nextObservationId.toNat → it.outcome = .withdrawn)) := by
  induction h with
  | refl => exact .inl rfl
  | tail hpre hlast ih =>
      have hle := (Acts.next_bounds hfits hpre hs).1
      rcases hlast.record hfits.ids hit with hsame | ⟨hput,hpending,hlow⟩
      · rw [hsame]
        exact ih
      · exact .inr ⟨hput,hpending,fun hlt => hlow (hlt.trans_le hle)⟩

/-- A record of the entry as it is stays. -/
theorem Acts.keeps (hfits : d.Fits) (h : Acts d s s')
    (hs : s.cursor.nextObservationId.toNat ≤ d.items.length+1) {n : ℕ} {it : Item}
    (hit : d.items[n]? = some it)
    (hrecord : s.records (observationKey it.entry.id) = some (entryDocument it)) :
    s'.records (observationKey it.entry.id) = some (entryDocument it) := by
  rcases Acts.record hfits h hs hit with hsame | ⟨hput,-⟩
  · rw [hsame,hrecord]
  · exact hput

/-- The cursor passes a committed entry only when its record is put. -/
theorem Acts.passed (hfits : d.Fits) (h : Acts d s s')
    (hs : s.cursor.nextObservationId.toNat ≤ d.items.length+1) {n : ℕ} {it : Item}
    (hit : d.items[n]? = some it) (hpending : it.outcome ≠ .pending)
    (hlow : s.cursor.nextObservationId.toNat ≤ n+1)
    (hhigh : n+1 < s'.cursor.nextObservationId.toNat) :
    s'.records (observationKey it.entry.id) = some (entryDocument it) := by
  induction h with
  | refl => omega
  | @tail t u hpre hlast ih =>
      have hbounds := Acts.next_bounds hfits hpre hs
      by_cases hdone : n+1 < t.cursor.nextObservationId.toNat
      · exact Acts.keeps hfits (.single hlast) hbounds.2 hit (ih hdone)
      cases hlast with
      | withdrawal => exact absurd hhigh hdone
      | @observation m x confirmed hx hm hskipped _ =>
          cases confirmed with
          | false => exact absurd hhigh hdone
          | true =>
              rw [Published.advance_true_cursor,(ofNat_next hfits hx).1] at hhigh
              rcases eq_or_ne n m with rfl | hne
              · obtain rfl := Option.some.inj (hit.symm.trans hx)
                rw [Published.advance_records]
                exact t.put_self _ _
              · exact absurd (hskipped n it hit (by omega) (by omega)) hpending
      | @counted kind _ _ confirmed _ =>
          cases confirmed with
          | false => exact absurd hhigh hdone
          | true =>
              rw [Published.advance_true_cursor,ReplicateCursor.advance_next] at hhigh
              exact absurd hhigh hdone

end Effects

section Drain
variable {path : String} {file : Option (Json Double)} {records : Records} {d : DrainInput}

theorem mem_recheckWindow {next : UInt64} {it : Item} (h : it ∈ recheckWindow d next) :
    ∃ n, d.items[n]? = some it ∧ n+1 < next.toNat ∧
      recheckFrom next d.config.withdrawalRecheckWindow ≤ n+1 := by
  obtain ⟨i,hi⟩ := List.mem_iff_getElem?.mp h
  rw [recheckWindow,List.getElem?_drop,List.getElem?_take] at hi
  split at hi
  · exact ⟨_,hi,by omega,by omega⟩
  · cases hi

/-- A failure among the withdrawals leaves the cursor file alone. -/
theorem replicateDrain_stopped {cursor : ReplicateCursor} {stop : Stop}
    (hload : loadReplicateCursor file path = .ok cursor)
    (hw : propagateWithdrawals d (recheckWindow d cursor.nextObservationId)
      { cursor := cursor, records := records } = .error stop) :
    (replicateDrain path file records d).records = stop.progress.records ∧
      (replicateDrain path file records d).cursorFile = file := by
  simp only [replicateDrain,hload,hw]
  cases stop <;> exact ⟨rfl,rfl⟩

/-- Behind the withdrawals, a pass that returns and lives to save leaves the cursor it came
to. -/
theorem replicateDrain_continued {cursor : ReplicateCursor} {p : Progress}
    (hload : loadReplicateCursor file path = .ok cursor)
    (hw : propagateWithdrawals d (recheckWindow d cursor.nextObservationId)
      { cursor := cursor, records := records } = .ok p) :
    (replicateDrain path file records d).records = (ending (publishNew d p)).records ∧
      (replicateDrain path file records d).cursorFile =
        if d.diesBeforeSave = false ∧ returns (publishNew d p) = true then
          some (saveReplicateCursor (ending (publishNew d p)).cursor)
        else file := by
  have hsave (q : Progress) : (saveAndReturn d file q).records = q.records ∧
      (saveAndReturn d file q).cursorFile =
        if d.diesBeforeSave = false then some (saveReplicateCursor q.cursor) else file := by
    rw [saveAndReturn]
    cases d.diesBeforeSave <;> exact ⟨rfl,rfl⟩
  simp only [replicateDrain,hload,hw]
  rcases publishNew d p with (⟨q⟩ | ⟨q⟩ | ⟨q,message⟩) | q
  · simpa [returns,ending,Stop.progress] using hsave q
  · exact ⟨rfl,by simp [returns]⟩
  · exact ⟨rfl,by simp [returns]⟩
  · simpa [returns,ending,Stop.progress] using hsave q

end Drain

end Atperson.Replicate
