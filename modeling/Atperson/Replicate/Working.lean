import Atperson.Replicate.Acts

/-!
# The progress of a pass

What a pass leaves to publish. A pass that meets no failure publishes as many records as its
budget allows, or everything; a pass whose confirmed entries all stand before the pending
ones moves its cursor over none of these.
-/
namespace Atperson.Replicate
open Wire Journal Thought Ledger

/-- The committed entries from an id on. -/
def observationsLeft (items : List Item) (next : UInt64) : ℕ :=
  (items.drop (next.toNat-1)).countP fun it => it.outcome ≠ .pending

def linesLeft {α : Type} (entries : List α) (published : UInt64) : ℕ :=
  entries.length-published.toNat

/-- Whether the loop over the entries confirms a committed one behind a pending one: it asks
the writer from one call on, for as many records as there is room. -/
def overtakes (writer : ℕ → WriterAnswer) : ℕ → ℕ → Bool → List Item → Bool
  | _, _, _, [] => false
  | room, calls, seen, it::rest =>
      if room = 0 then false
      else if it.outcome = .pending then overtakes writer room calls true rest
      else if writer calls ≠ .written then false
      else seen || overtakes writer (room-1) (calls+1) seen rest

def DrainInput.withdrawnInWindow (d : DrainInput) (next : UInt64) : ℕ :=
  (recheckWindow d next).countP fun it => it.outcome = .withdrawn

/-- A pass that gets through its withdrawals and then confirms an entry behind a pending
one. -/
def DrainInput.overtakes (d : DrainInput) (next : UInt64) : Bool :=
  (List.range (d.withdrawnInWindow next)).all (fun i => d.writer i = .written) &&
    Replicate.overtakes d.writer d.config.maxRecordsPerDrain (d.withdrawnInWindow next) false
      (d.items.drop (next.toNat-1))

section Order
variable {d : DrainInput} {p : Progress}

theorem putObservation_next (hids : IdsMatch d.items) {n : ℕ} {it : Item}
    (hit : d.items[n]? = some it) {stop : Stop} (h : putObservation d p it = .error stop) :
    stop.progress.cursor = p.cursor := by
  rcases putObservation_cases hids hit p with ⟨-,hok⟩ | ⟨stop',hstop,hp⟩
  · rw [hok] at h
    cases h
  · rw [hstop] at h
    cases h
    rcases hp with hp | hp <;> exact congrArg Published.cursor hp

/-- A loop that overtakes nothing moves the cursor over committed entries alone. -/
theorem publishObservations_inOrder (hids : IdsMatch d.items) (hfits : d.items.length+2 < 2^64)
    {n : ℕ} {seen : Bool} (hseen : seen = false → p.cursor.nextObservationId.toNat = n+1)
    (horder : overtakes d.writer (d.config.maxRecordsPerDrain-p.written) p.calls seen
      (d.items.drop n) = false) :
    ∀ m x, d.items[m]? = some x → p.cursor.nextObservationId.toNat ≤ m+1 →
      m+1 < (ending (publishObservations d (n+1) (d.items.drop n)
        p)).cursor.nextObservationId.toNat → x.outcome ≠ .pending := by
  have hunmoved : ∀ m x, d.items[m]? = some x → p.cursor.nextObservationId.toNat ≤ m+1 →
      m+1 < p.cursor.nextObservationId.toNat → x.outcome ≠ .pending :=
    fun m x _ hlow hhigh => by omega
  generalize hrest : d.items.drop n = rest at horder ⊢
  induction rest generalizing n p seen with
  | nil => exact hunmoved
  | cons it rest ih =>
      have hit := getElem?_of_drop hrest
      have hlt : n < d.items.length := (List.getElem?_eq_some_iff.mp hit).choose
      rw [publishObservations]
      rw [overtakes] at horder
      split
      · exact hunmoved
      rename_i hroom
      rw [if_neg (by omega)] at horder
      split
      · rename_i hpending
        rw [if_pos hpending] at horder
        exact ih (fun h => by cases h) hunmoved (drop_succ_of_drop hrest) horder
      · rename_i hpending
        rw [if_neg hpending] at horder
        cases hput : putObservation d p it with
        | error stop =>
            show ∀ m x, _ → _ → m+1 < stop.progress.cursor.nextObservationId.toNat → _
            rw [putObservation_next hids hit hput]
            exact hunmoved
        | ok q =>
            rcases putObservation_cases hids hit p with ⟨hw,hok⟩ | ⟨stop,hstop,-⟩
            · rw [hok] at hput
              obtain rfl := Except.ok.inj hput
              rw [if_neg (by simpa using hw),Bool.or_eq_false_iff] at horder
              obtain ⟨rfl,hafter⟩ := horder
              have hafter' : overtakes d.writer (d.config.maxRecordsPerDrain-(p.written+1))
                  (p.calls+1) false rest = false := by rwa [Nat.sub_sub] at hafter
              have hnext : (UInt64.ofNat (n+1+1)).toNat = n+1+1 := by
                rw [UInt64.toNat_ofNat']
                omega
              intro m x hx hlow hhigh
              rcases eq_or_ne m n with rfl | hne
              · exact Option.some.inj (hit.symm.trans hx) ▸ hpending
              · have hstart := hseen rfl
                have hlow' : (UInt64.ofNat (n+1+1)).toNat ≤ m+1 := by omega
                exact ih (fun _ => hnext) (fun m x _ hlow hhigh => absurd hhigh (by omega))
                  (drop_succ_of_drop hrest) hafter' m x hx hlow' hhigh
            · rw [hstop] at hput
              cases hput

theorem ending_bind_next {x : Except Stop Progress} {f : Progress → Except Stop Progress}
    {next : UInt64} (hx : (ending x).cursor.nextObservationId = next)
    (hf : ∀ q, q.cursor.nextObservationId = next →
      (ending (f q)).cursor.nextObservationId = next) :
    (ending (x >>= f)).cursor.nextObservationId = next := by
  cases x with
  | error stop => exact hx
  | ok q => exact hf q hx

theorem publishCounted_next {α : Type} {key : ℕ → α → Key}
    {document : α → Except String (Json Double)} (advance : Progress → Progress)
    (hadvance : ∀ p, (advance p).cursor.nextObservationId = p.cursor.nextObservationId) (i : ℕ)
    (entries : List α) :
    (ending (publishCounted d key document advance i entries p)).cursor.nextObservationId =
      p.cursor.nextObservationId := by
  induction entries generalizing i p with
  | nil => rfl
  | cons a rest ih =>
      rw [publishCounted]
      split
      · rcases putRecord_cases d p (key i a) (document a) with
          ⟨json,-,-,hput⟩ | ⟨stop,hput,hstop⟩
        · rw [hput]
          exact (ih _).trans (hadvance _)
        · rw [hput]
          show stop.progress.published.cursor.nextObservationId = _
          rcases hstop with hstop | ⟨json,-,hstop⟩ <;> rw [hstop] <;> rfl
      · rfl

theorem ending_orThrow_next {α : Type} {loaded : Except String α}
    {f : α → Except Stop Progress}
    (hf : ∀ a, (ending (f a)).cursor.nextObservationId = p.cursor.nextObservationId) :
    (ending (orThrow p loaded >>= f)).cursor.nextObservationId = p.cursor.nextObservationId := by
  cases loaded with
  | error message => rfl
  | ok a => exact hf a

/-- Only the loop over the entries moves the ledger id. -/
theorem publishNew_next (d : DrainInput) (p : Progress) :
    (ending (publishNew d p)).cursor.nextObservationId =
      (ending (publishObservations d p.cursor.nextObservationId.toNat
        (d.items.drop (p.cursor.nextObservationId.toNat-1)) p)).cursor.nextObservationId := by
  have hactions (journal : JournalContents) (q : Progress) :
      (ending (publishActions d journal q)).cursor.nextObservationId =
        q.cursor.nextObservationId :=
    publishCounted_next advanceActions (fun _ => rfl) _ _
  have hvalence (journal : JournalContents) (q : Progress) :
      (ending (publishValence d journal q)).cursor.nextObservationId =
        q.cursor.nextObservationId :=
    publishCounted_next advanceValence (fun _ => rfl) _ _
  have hthoughts (thoughts : List Thought) (q : Progress) :
      (ending (publishThoughts d thoughts q)).cursor.nextObservationId =
        q.cursor.nextObservationId :=
    publishCounted_next advanceThoughts (fun _ => rfl) _ _
  have hintents (journal : JournalContents) (q : Progress) :
      (ending (publishIntents d journal q)).cursor.nextObservationId =
        q.cursor.nextObservationId :=
    publishCounted_next advanceIntents (fun _ => rfl) _ _
  refine ending_bind_next rfl fun q hq => ?_
  rw [← hq]
  refine ending_orThrow_next fun journal => ?_
  refine ending_bind_next (hactions journal q) fun q1 hq1 => ?_
  refine ending_bind_next ((hvalence journal q1).trans hq1) fun q2 hq2 => ?_
  rw [← hq2]
  refine ending_orThrow_next fun thoughts => ?_
  refine ending_bind_next (hthoughts thoughts q2) fun q3 hq3 => ?_
  exact (hintents journal q3).trans hq3

end Order

section Works
variable {d : DrainInput} {p q r : Progress}

/-- A pass that meets no failure. -/
structure DrainInput.Works (d : DrainInput) : Prop where
  writes : ∀ i, d.writer i = .written
  saves : d.diesBeforeSave = false
  journal : ∃ journal, d.journal = .ok journal
  thoughts : ∃ thoughts, d.thoughts = .ok thoughts

/-- Every document can be written out. -/
def DrainInput.Documented (d : DrainInput) : Prop :=
  ∀ kind, ∀ line ∈ d.lines kind, ∃ json, line.2 = .ok json

/-- A stage publishes what it finds as far as the budget goes. -/
structure Spends (d : DrainInput) (p q : Progress) (before after : ℕ) : Prop where
  total : q.written+after = p.written+before
  grows : p.written ≤ q.written
  ends : d.config.maxRecordsPerDrain ≤ q.written ∨ after = 0

theorem Spends.trans {before after before' after' : ℕ} (h : Spends d p q before after)
    (h' : Spends d q r before' after') : Spends d p r (before+before') (after+after') := by
  have htotal := h.total
  have htotal' := h'.total
  have hgrows := h.grows
  have hgrows' := h'.grows
  refine ⟨by omega,by omega,?_⟩
  rcases h.ends with hfull | hnone
  · exact .inl (by omega)
  · rcases h'.ends with hfull' | hnone'
    · exact .inl hfull'
    · exact .inr (by omega)

theorem observationsLeft_eq {items : List Item} {next : UInt64} {n : ℕ} (h1 : 1 ≤ next.toNat)
    (hn : next.toNat ≤ n+1) (hskipped : PendingBetween items next.toNat (n+1)) :
    observationsLeft items next = (items.drop n).countP fun it => it.outcome ≠ .pending := by
  have hsplit : items.drop (next.toNat-1) =
      (items.drop (next.toNat-1)).take (n-(next.toNat-1))++items.drop n := by
    conv_lhs => rw [← List.take_append_drop (n-(next.toNat-1)) (items.drop (next.toNat-1))]
    rw [List.drop_drop,show next.toNat-1+(n-(next.toNat-1)) = n by omega]
  have hpending : ((items.drop (next.toNat-1)).take (n-(next.toNat-1))).countP
      (fun it => it.outcome ≠ .pending) = 0 := by
    refine List.countP_eq_zero.mpr fun it hit => ?_
    obtain ⟨i,hi⟩ := List.mem_iff_getElem?.mp hit
    rw [List.getElem?_take] at hi
    split at hi
    · rw [List.getElem?_drop] at hi
      simpa using hskipped _ it hi (by omega) (by omega)
    · cases hi
  rw [observationsLeft,hsplit,List.countP_append,hpending,Nat.zero_add]

theorem publishObservations_works (hwrites : ∀ i, d.writer i = .written)
    (hids : IdsMatch d.items) (hfits : d.items.length+2 < 2^64) {n : ℕ}
    (h1 : 1 ≤ p.cursor.nextObservationId.toNat) (hn : p.cursor.nextObservationId.toNat ≤ n+1)
    (hskipped : PendingBetween d.items p.cursor.nextObservationId.toNat (n+1)) :
    ∃ q, publishObservations d (n+1) (d.items.drop n) p = .ok q ∧
      Spends d p q (observationsLeft d.items p.cursor.nextObservationId)
        (observationsLeft d.items q.cursor.nextObservationId) ∧
      ∀ kind, q.cursor.count kind = p.cursor.count kind := by
  have hleft := observationsLeft_eq h1 hn hskipped
  generalize hrest : d.items.drop n = rest at hleft
  induction rest generalizing n p with
  | nil => exact ⟨p,rfl,⟨rfl,le_rfl,.inr hleft⟩,fun _ => rfl⟩
  | cons it rest ih =>
      have hit := getElem?_of_drop hrest
      have hdrop := drop_succ_of_drop hrest
      have hlt : n < d.items.length := (List.getElem?_eq_some_iff.mp hit).choose
      rw [publishObservations]
      split
      · rename_i hfull
        exact ⟨p,rfl,⟨rfl,le_rfl,.inl hfull⟩,fun _ => rfl⟩
      split
      · rename_i hpending
        have hskipped' := hskipped.succ hit hpending
        refine ih h1 (by omega) hskipped' hdrop ?_
        rw [hleft,List.countP_cons_of_neg (by simpa using hpending)]
      · rename_i hpending
        rcases putObservation_cases hids hit p with ⟨-,hput⟩ | ⟨stop,hput,-⟩
        · generalize hp' : (p.put (observationKey it.entry.id)
            (entryDocument it)).countObservation (n+1) = p'
          have hwritten : p'.written = p.written+1 := by rw [← hp']; rfl
          have hnext : p'.cursor.nextObservationId.toNat = n+2 := by
            rw [← hp']
            show (UInt64.ofNat (n+1+1)).toNat = n+2
            rw [UInt64.toNat_ofNat']
            omega
          have hcounts : ∀ kind, p'.cursor.count kind = p.cursor.count kind := fun kind => by
            rw [← hp']
            cases kind <;> rfl
          have hskipped' : PendingBetween d.items p'.cursor.nextObservationId.toNat (n+1+1) := by
            rw [hnext]
            exact .refl _
          have hleft' := observationsLeft_eq (by omega) hnext.le hskipped'
          rw [hdrop] at hleft'
          obtain ⟨q,hq,hspends,hsame⟩ := ih (by omega) hnext.le hskipped' hdrop hleft'
          refine ⟨q,?_,⟨?_,?_,hspends.ends⟩,fun kind => (hsame kind).trans (hcounts kind)⟩
          · rw [hput]
            rw [← hq,← hp']
            rfl
          · rw [hspends.total,hleft,hleft',hwritten,
              List.countP_cons_of_pos (by simpa using hpending)]
            omega
          · have := hspends.grows
            omega
        · exfalso
          rw [putObservation,observationRecord_eq hids hit] at hput
          simp only [putRecord,hwrites] at hput
          cases hput

theorem publishCounted_works (hwrites : ∀ i, d.writer i = .written) {α : Type} (kind : Kind)
    {entries : List α} (key : ℕ → α → Key) {document : α → Except String (Json Double)}
    (advance : Progress → Progress) (hdocuments : ∀ a ∈ entries, ∃ json, document a = .ok json)
    (hcursor : ∀ p : Progress, (advance p).cursor = p.cursor.advance kind)
    (hwritten : ∀ p : Progress, (advance p).written = p.written)
    (hfits : entries.length+1 < 2^64) :
    ∃ q, publishCounted d key document advance (p.cursor.count kind).toNat
        (entries.drop (p.cursor.count kind).toNat) p = .ok q ∧
      Spends d p q (linesLeft entries (p.cursor.count kind))
        (linesLeft entries (q.cursor.count kind)) ∧
      q.cursor.nextObservationId = p.cursor.nextObservationId ∧
      ∀ k, k ≠ kind → q.cursor.count k = p.cursor.count k := by
  generalize hrest : entries.drop (p.cursor.count kind).toNat = rest
  induction rest generalizing p with
  | nil =>
      have hdone : entries.length ≤ (p.cursor.count kind).toNat := List.drop_eq_nil_iff.mp hrest
      exact ⟨p,rfl,⟨rfl,le_rfl,.inr (Nat.sub_eq_zero_of_le hdone)⟩,rfl,fun _ _ => rfl⟩
  | cons a rest ih =>
      have ha := getElem?_of_drop hrest
      have hlt : (p.cursor.count kind).toNat < entries.length :=
        (List.getElem?_eq_some_iff.mp ha).choose
      rw [publishCounted]
      split
      · obtain ⟨json,hjson⟩ := hdocuments a (List.mem_of_getElem? ha)
        generalize hkey : key (p.cursor.count kind).toNat a = k
        have hput : putRecord d.writer p k (document a) = .ok (p.put k json) := by
          simp only [putRecord,hjson,hwrites]
        generalize hp' : advance { p.put k json with written := (p.put k json).written+1 } = p'
        have hcursor' : p'.cursor = p.cursor.advance kind := by rw [← hp',hcursor]; rfl
        have hwritten' : p'.written = p.written+1 := by rw [← hp',hwritten]; rfl
        have hcount : (p'.cursor.count kind).toNat = (p.cursor.count kind).toNat+1 := by
          have hstep : (p.cursor.advance kind).count kind = p.cursor.count kind+1 := by
            cases kind <;> rfl
          have hone : (1 : UInt64).toNat = 1 := rfl
          rw [hcursor',hstep,UInt64.toNat_add,hone]
          omega
        have hdrop : entries.drop (p'.cursor.count kind).toNat = rest := by
          rw [hcount]
          exact drop_succ_of_drop hrest
        obtain ⟨q,hq,hspends,hnext,hcounts⟩ := ih hdrop
        refine ⟨q,?_,⟨?_,?_,hspends.ends⟩,?_,fun k hk => ?_⟩
        · rw [hput]
          show publishCounted d key document advance ((p.cursor.count kind).toNat+1) rest
            (advance _) = _
          rw [hp',← hcount]
          exact hq
        · have htotal := hspends.total
          rw [htotal,hwritten',linesLeft,linesLeft,hcount]
          omega
        · have := hspends.grows
          omega
        · rw [hnext,hcursor',ReplicateCursor.advance_next]
        · rw [hcounts k hk,hcursor']
          cases k <;> cases kind <;> first | rfl | exact absurd rfl hk
      · rename_i hfull
        exact ⟨p,rfl,⟨rfl,le_rfl,.inl (not_lt.mp hfull)⟩,rfl,fun _ _ => rfl⟩

/-- All that a cursor leaves to publish. -/
def DrainInput.left (d : DrainInput) (c : ReplicateCursor) : ℕ :=
  observationsLeft d.items c.nextObservationId+
    linesLeft (d.lines .actions) (c.count .actions)+
    linesLeft (d.lines .valence) (c.count .valence)+
    linesLeft (d.lines .thoughts) (c.count .thoughts)+
    linesLeft (d.lines .intents) (c.count .intents)

theorem documents_of_lines {α : Type} {entries : List α} {key : ℕ → α → Key}
    {document : α → Except String (Json Double)}
    (h : ∀ line ∈ entries.mapIdx fun i a => (key i a,document a), ∃ json, line.2 = .ok json) :
    ∀ a ∈ entries, ∃ json, document a = .ok json := by
  intro a ha
  obtain ⟨i,hi,rfl⟩ := List.mem_iff_getElem.mp ha
  exact h (key i entries[i],document entries[i]) (List.mem_mapIdx.mpr ⟨i,hi,rfl⟩)

/-- Behind the withdrawals, a pass without failures publishes as much as it may: observations
first, then the lines. -/
theorem publishNew_works (hworks : d.Works) (hdocumented : d.Documented) (hfits : d.Fits)
    (hfirst : 1 ≤ p.cursor.nextObservationId.toNat) :
    ∃ q, publishNew d p = .ok q ∧ Spends d p q (d.left p.cursor) (d.left q.cursor) ∧
      ∃ o, Spends d p o (observationsLeft d.items p.cursor.nextObservationId)
        (observationsLeft d.items q.cursor.nextObservationId) := by
  obtain ⟨journal,hjournal⟩ := hworks.journal
  obtain ⟨thoughts,hthoughts⟩ := hworks.thoughts
  obtain ⟨n,hn⟩ : ∃ n, p.cursor.nextObservationId.toNat = n+1 :=
    ⟨_,(Nat.sub_add_cancel hfirst).symm⟩
  obtain ⟨p1,h1,hspends1,hcounts1⟩ := publishObservations_works hworks.writes hfits.ids hfits.items
    hfirst hn.le (by rw [hn]; exact .refl _)
  have hlines (kind : Kind) : d.lines kind = linesOf journal thoughts kind := by
    rw [DrainInput.lines,hjournal,hthoughts]
    rfl
  have hlen (kind : Kind) : (linesOf journal thoughts kind).length+1 < 2^64 := by
    rw [← hlines]
    exact hfits.lines kind
  have hdocs (kind : Kind) : ∀ line ∈ linesOf journal thoughts kind,
      ∃ json, line.2 = .ok json := by
    rw [← hlines]
    exact hdocumented kind
  have hwrites := hworks.writes
  obtain ⟨p2,h2,hspends2,hnext2,hcounts2⟩ := publishCounted_works (p := p1) hwrites
    .actions actionKey advanceActions (documents_of_lines (hdocs .actions))
    (fun _ => rfl) (fun _ => rfl) (by simpa [linesOf] using hlen .actions)
  obtain ⟨p3,h3,hspends3,hnext3,hcounts3⟩ := publishCounted_works (p := p2) hwrites
    .valence valenceKey advanceValence (documents_of_lines (hdocs .valence))
    (fun _ => rfl) (fun _ => rfl) (by simpa [linesOf] using hlen .valence)
  obtain ⟨p4,h4,hspends4,hnext4,hcounts4⟩ := publishCounted_works (p := p3) hwrites
    .thoughts thoughtKey advanceThoughts (documents_of_lines (hdocs .thoughts))
    (fun _ => rfl) (fun _ => rfl) (by simpa [linesOf] using hlen .thoughts)
  obtain ⟨p5,h5,hspends5,hnext5,hcounts5⟩ := publishCounted_works (p := p4) hwrites
    .intents intentKey advanceIntents (documents_of_lines (hdocs .intents))
    (fun _ => rfl) (fun _ => rfl) (by simpa [linesOf] using hlen .intents)
  have hnew : publishNew d p = .ok p5 := by
    have hstart : publishObservations d p.cursor.nextObservationId.toNat
        (d.items.drop (p.cursor.nextObservationId.toNat-1)) p = .ok p1 := by
      rw [hn]
      exact h1
    simp only [publishNew,hstart,hjournal,hthoughts,orThrow,bind,Except.bind]
    have h2' : publishActions d journal p1 = .ok p2 := h2
    have h3' : publishValence d journal p2 = .ok p3 := h3
    have h4' : publishThoughts d thoughts p3 = .ok p4 := h4
    have h5' : publishIntents d journal p4 = .ok p5 := h5
    simp only [h2',h3',h4',h5']
  have hleft (c : ReplicateCursor) : d.left c = observationsLeft d.items c.nextObservationId+
      linesLeft journal.actions (c.count .actions)+linesLeft journal.valence (c.count .valence)+
      linesLeft thoughts (c.count .thoughts)+linesLeft journal.intents (c.count .intents) := by
    simp only [DrainInput.left,hlines,linesOf,linesLeft,List.length_mapIdx]
  have hnext : p5.cursor.nextObservationId = p1.cursor.nextObservationId := by
    rw [hnext5,hnext4,hnext3,hnext2]
  have hall := (((hspends1.trans hspends2).trans hspends3).trans hspends4).trans hspends5
  refine ⟨p5,hnew,?_,p1,by rwa [hnext]⟩
  have hactions : p5.cursor.count .actions = p2.cursor.count .actions := by
    rw [hcounts5 _ (by decide),hcounts4 _ (by decide),hcounts3 _ (by decide)]
  have hvalence : p5.cursor.count .valence = p3.cursor.count .valence := by
    rw [hcounts5 _ (by decide),hcounts4 _ (by decide)]
  rw [hleft,hleft,hnext,hactions,hvalence,hcounts5 .thoughts (by decide)]
  rwa [hcounts1,hcounts2 .valence (by decide),hcounts3 .thoughts (by decide),
    hcounts4 .intents (by decide),hcounts1,hcounts2 .thoughts (by decide),
    hcounts3 .intents (by decide),hcounts1,hcounts2 .intents (by decide),hcounts1] at hall

theorem propagateWithdrawals_works (hwrites : ∀ i, d.writer i = .written)
    (hids : IdsMatch d.items) {items : List Item}
    (hitems : ∀ it ∈ items, ∃ n : ℕ, d.items[n]? = some it) :
    ∃ q, propagateWithdrawals d items p = .ok q := by
  induction items generalizing p with
  | nil => exact ⟨p,rfl⟩
  | cons it rest ih =>
      have hrest := fun x (hx : x ∈ rest) => hitems x (List.mem_cons_of_mem it hx)
      rw [propagateWithdrawals]
      split
      · exact ih hrest
      · obtain ⟨n,hn⟩ := hitems it List.mem_cons_self
        have hput : putObservation d p it =
            .ok (p.put (observationKey it.entry.id) (entryDocument it)) := by
          rw [putObservation,observationRecord_eq hids hn]
          simp only [putRecord,hwrites]
          rfl
        rw [hput]
        exact ih hrest

end Works

section Withdrawn
variable {d : DrainInput} {p q : Progress}

/-- Withdrawals that all went through have put their records. -/
theorem propagateWithdrawals_puts (hfits : d.Fits) {items : List Item}
    (hp : p.cursor.nextObservationId.toNat ≤ d.items.length+1)
    (hitems : ∀ it ∈ items, ∃ n, d.items[n]? = some it ∧
      n+1 < p.cursor.nextObservationId.toNat)
    (h : propagateWithdrawals d items p = .ok q) :
    ∀ it ∈ items, it.outcome = .withdrawn →
      q.records (observationKey it.entry.id) = some (entryDocument it) := by
  induction items generalizing p with
  | nil => exact fun it hit => absurd hit List.not_mem_nil
  | cons x rest ih =>
      have hrest := fun y (hy : y ∈ rest) => hitems y (List.mem_cons_of_mem x hy)
      obtain ⟨n,hn,-⟩ := hitems x List.mem_cons_self
      rw [propagateWithdrawals] at h
      split at h
      · rename_i hkept
        intro it hit hw
        rcases List.mem_cons.mp hit with rfl | hit
        · exact absurd hw hkept
        · exact ih hp hrest h it hit hw
      · rcases putObservation_cases hfits.ids hn p with ⟨-,hput⟩ | ⟨stop,hput,-⟩
        · rw [hput] at h
          intro it hit hw
          rcases List.mem_cons.mp hit with rfl | hit
          · have hreach := propagateWithdrawals_reaches hfits.ids
              (p := (p.put (observationKey it.entry.id) (entryDocument it)).countWithdrawal)
              hrest .refl
            have hok : propagateWithdrawals d rest (p.put (observationKey it.entry.id)
                (entryDocument it)).countWithdrawal = .ok q := h
            rw [hok,Progress.countWithdrawal_published,Progress.put_published] at hreach
            exact Acts.keeps hfits hreach hp hn (p.published.put_self _ _)
          · exact ih (p := (p.put (observationKey x.entry.id) (entryDocument x)).countWithdrawal)
              hp hrest h it hit hw
        · rw [hput] at h
          cases h

end Withdrawn

section Pass
variable {path : String} {file : Option (Json Double)} {records : Records} {d : DrainInput}
  {cursor : ReplicateCursor}

/-- A withdrawn entry in the window. -/
def Rechecked (d : DrainInput) (next : UInt64) (n : ℕ) (it : Item) : Prop :=
  d.items[n]? = some it ∧ it.outcome = .withdrawn ∧
    recheckFrom next d.config.withdrawalRecheckWindow ≤ n+1 ∧ n+1 < next.toNat

/-- A pass that gets through its withdrawals leaves their records. -/
theorem recheck_puts (hfits : d.Fits) (hlast : cursor.nextObservationId.toNat ≤ d.items.length+1)
    {p : Progress} (hw : propagateWithdrawals d (recheckWindow d cursor.nextObservationId)
      { cursor := cursor, records := records } = .ok p) {q : Published}
    (hacts : Acts d p.published q) {n : ℕ} {it : Item}
    (h : Rechecked d cursor.nextObservationId n it) :
    q.records (observationKey it.entry.id) = some (entryDocument it) := by
  obtain ⟨hit,hwithdrawn,hlow,hhigh⟩ := h
  have hwindow : ∀ it ∈ recheckWindow d cursor.nextObservationId, ∃ n, d.items[n]? = some it ∧
      n+1 < cursor.nextObservationId.toNat :=
    fun it hit => (mem_recheckWindow hit).imp fun n hn => ⟨hn.1,hn.2.1⟩
  have hmem : it ∈ recheckWindow d cursor.nextObservationId := by
    refine List.mem_iff_getElem?.mpr
      ⟨n-(recheckFrom cursor.nextObservationId d.config.withdrawalRecheckWindow-1),?_⟩
    rw [recheckWindow,List.getElem?_drop,List.getElem?_take,if_pos (by omega),← hit]
    congr 1
    omega
  have hput := propagateWithdrawals_puts (p := { cursor := cursor, records := records }) hfits
    hlast hwindow hw it hmem hwithdrawn
  have hcursor := (propagateWithdrawals_ok hw).1
  exact Acts.keeps hfits hacts (by rw [Progress.published,hcursor]; exact hlast) hit hput

/-- What a pass leaves: the records of its acts, and the cursor file that was there or the
cursor that the acts came to. A pass that saves has put the withdrawals of its window, and one
that overtakes nothing has passed no pending entry. -/
theorem replicateDrain_result (records : Records) (hfits : d.Fits)
    (hload : loadReplicateCursor file path = .ok cursor)
    (hfirst : 1 ≤ cursor.nextObservationId.toNat)
    (hlast : cursor.nextObservationId.toNat ≤ d.items.length+1) :
    ∃ c, Acts d ⟨cursor,records⟩ ⟨c,(replicateDrain path file records d).records⟩ ∧
      ((replicateDrain path file records d).cursorFile = file ∨
        d.diesBeforeSave = false ∧
        (replicateDrain path file records d).cursorFile = some (saveReplicateCursor c) ∧
        (∀ n it, Rechecked d cursor.nextObservationId n it →
          (replicateDrain path file records d).records (observationKey it.entry.id) =
            some (entryDocument it)) ∧
        (d.overtakes cursor.nextObservationId = false →
          ∀ m x, d.items[m]? = some x → cursor.nextObservationId.toNat ≤ m+1 →
            m+1 < c.nextObservationId.toNat → x.outcome ≠ .pending)) := by
  have hwithdrawals : Reaches d ⟨cursor,records⟩
      (propagateWithdrawals d (recheckWindow d cursor.nextObservationId)
        { cursor := cursor, records := records }) :=
    propagateWithdrawals_reaches (p := { cursor := cursor, records := records })
      hfits.ids (fun it hit => (mem_recheckWindow hit).imp fun n hn => ⟨hn.1,hn.2.1⟩) .refl
  cases hw : propagateWithdrawals d (recheckWindow d cursor.nextObservationId)
      { cursor := cursor, records := records } with
  | error stop =>
      rw [hw] at hwithdrawals
      obtain ⟨hrecords,hfile⟩ := replicateDrain_stopped hload hw
      refine ⟨stop.progress.cursor,?_,.inl hfile⟩
      rw [hrecords]
      exact hwithdrawals
  | ok p =>
      rw [hw] at hwithdrawals
      obtain ⟨hcursor,hwritten,hcalls,hanswers⟩ := propagateWithdrawals_ok hw
      have hnew := (publishNew_reaches hfits (p := p) (by rw [hcursor]; exact hfirst) .refl).ending
      obtain ⟨hrecords,hfile⟩ := replicateDrain_continued hload hw
      refine ⟨(ending (publishNew d p)).cursor,?_,?_⟩
      · rw [hrecords]
        exact Relation.ReflTransGen.trans hwithdrawals hnew
      by_cases hsaves : d.diesBeforeSave = false ∧ returns (publishNew d p) = true
      · rw [if_pos hsaves] at hfile
        refine .inr ⟨hsaves.1,hfile,fun n it h => ?_,fun horder => ?_⟩
        · rw [hrecords]
          exact recheck_puts hfits hlast hw hnew h
        have hzero : ({ cursor := cursor, records := records } : Progress).calls = 0 := rfl
        have hwindow : p.calls = d.withdrawnInWindow cursor.nextObservationId := by
          rw [hcalls,hzero,Nat.zero_add]
          rfl
        have hall : (List.range (d.withdrawnInWindow cursor.nextObservationId)).all
            (fun i => d.writer i = .written) = true := by
          refine List.all_eq_true.mpr fun i hi => ?_
          simpa using hanswers i (Nat.zero_le i) (by rw [hwindow]; exact List.mem_range.mp hi)
        rw [DrainInput.overtakes,hall,Bool.true_and,← hwindow] at horder
        obtain ⟨n,hn⟩ : ∃ n, cursor.nextObservationId.toNat = n+1 :=
          ⟨_,(Nat.sub_add_cancel hfirst).symm⟩
        have hp0 : p.written = 0 := hwritten
        rw [publishNew_next,hcursor,hn,Nat.add_sub_cancel]
        rw [hn,Nat.add_sub_cancel] at horder
        have := publishObservations_inOrder (p := p) (n := n) hfits.ids hfits.items
          (fun _ => by rw [hcursor]; exact hn) (by rw [hp0]; exact horder)
        rwa [hcursor,hn] at this
      · rw [if_neg hsaves] at hfile
        exact .inl hfile

/-- A pass without failures saves a cursor that leaves less, or nothing. -/
theorem replicateDrain_works (records : Records) (hworks : d.Works)
    (hdocumented : d.Documented) (hfits : d.Fits) (hmax : 1 ≤ d.config.maxRecordsPerDrain)
    (hload : loadReplicateCursor file path = .ok cursor)
    (hfirst : 1 ≤ cursor.nextObservationId.toNat)
    (hlast : cursor.nextObservationId.toNat ≤ d.items.length+1) :
    ∃ c, (replicateDrain path file records d).cursorFile = some (saveReplicateCursor c) ∧
      Acts d ⟨cursor,records⟩ ⟨c,(replicateDrain path file records d).records⟩ ∧
      (d.left c = 0 ∨ d.left c < d.left cursor) ∧
      (observationsLeft d.items c.nextObservationId = 0 ∨
        observationsLeft d.items c.nextObservationId <
          observationsLeft d.items cursor.nextObservationId) ∧
      ∀ n it, Rechecked d cursor.nextObservationId n it →
        (replicateDrain path file records d).records (observationKey it.entry.id) =
          some (entryDocument it) := by
  have hwindow : ∀ it ∈ recheckWindow d cursor.nextObservationId, ∃ n, d.items[n]? = some it ∧
      n+1 < cursor.nextObservationId.toNat :=
    fun it hit => (mem_recheckWindow hit).imp fun n hn => ⟨hn.1,hn.2.1⟩
  obtain ⟨p,hp⟩ := propagateWithdrawals_works (p := { cursor := cursor, records := records })
    hworks.writes hfits.ids fun it hit => (hwindow it hit).imp fun n hn => hn.1
  obtain ⟨hcursor,hwritten,-,-⟩ := propagateWithdrawals_ok hp
  have hstart : Acts d ⟨cursor,records⟩ p.published := by
    have := propagateWithdrawals_reaches (p := { cursor := cursor, records := records })
      hfits.ids hwindow .refl
    rwa [hp] at this
  obtain ⟨q,hq,hspends,o,hobservations⟩ := publishNew_works hworks hdocumented hfits
    (p := p) (by rw [hcursor]; exact hfirst)
  have hacts : Acts d p.published q.published := by
    have := publishNew_reaches hfits (p := p) (by rw [hcursor]; exact hfirst) .refl
    rwa [hq] at this
  obtain ⟨hrecords,hfile⟩ := replicateDrain_continued hload hp
  rw [hq,if_pos ⟨hworks.saves,rfl⟩] at hfile
  rw [hq] at hrecords
  have hless {before after : ℕ} {o : Progress} (h : Spends d p o before after) :
      after = 0 ∨ after < before := by
    have htotal := h.total
    rcases h.ends with hfull | hnone
    · rw [hwritten] at htotal
      have hzero : ({ cursor := cursor, records := records } : Progress).written = 0 := rfl
      omega
    · exact .inl hnone
  rw [hcursor] at hspends hobservations
  refine ⟨q.cursor,hfile,?_,hless hspends,hless hobservations,fun n it h => ?_⟩
  · rw [hrecords]
    exact hstart.trans hacts
  · rw [hrecords]
    exact recheck_puts hfits hlast hp hacts h

end Pass

end Atperson.Replicate
