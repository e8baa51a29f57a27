import Atperson.Replicate.Working

/-!
# The calls of a pass

How often a pass asks its writer. The loops over new records count against the budget of the
pass; the rechecked withdrawals before them do not.
-/
namespace Atperson.Replicate
open Wire Journal Thought Ledger

/-- A stage that finds so many records asks the writer no oftener, keeps to what is left of the
budget and stops at the first answer that is not a confirmation. -/
structure Calls (d : DrainInput) (p : Progress) (found : ℕ) (x : Except Stop Progress) :
    Prop where
  room : (ending x).calls ≤ p.calls+found
  budget : (ending x).calls+p.written ≤ p.calls+max d.config.maxRecordsPerDrain p.written
  answered : ∀ i, p.calls ≤ i → i+1 < (ending x).calls → d.writer i = .written
  through : ∀ q, x = .ok q → q.calls+p.written = p.calls+q.written ∧
    ∀ i, p.calls ≤ i → i < q.calls → d.writer i = .written

section Stages
variable {d : DrainInput} {p : Progress}

theorem Calls.done (d : DrainInput) (p : Progress) (found : ℕ) : Calls d p found (.ok p) where
  room := Nat.le_add_right _ _
  budget := Nat.add_le_add_left (le_max_right _ _) _
  answered i hlow hhigh := by
    have hhigh' : i+1 < p.calls := hhigh
    omega
  through q hq := by
    obtain rfl := Except.ok.inj hq
    exact ⟨rfl,fun i hlow hhigh => by omega⟩

theorem Calls.bind {found found' : ℕ} {x : Except Stop Progress}
    {f : Progress → Except Stop Progress} (hx : Calls d p found x)
    (hf : ∀ q, x = .ok q → Calls d q found' (f q)) : Calls d p (found+found') (x >>= f) := by
  cases x with
  | error stop =>
      exact ⟨hx.room.trans (by omega),hx.budget,hx.answered,fun q hq => by cases hq⟩
  | ok q =>
      have hq := hf q rfl
      obtain ⟨hwritten,hanswers⟩ := hx.through q rfl
      have hroom : q.calls ≤ p.calls+found := hx.room
      have hbudget : q.calls+p.written ≤
        p.calls+max d.config.maxRecordsPerDrain p.written := hx.budget
      have hroom' := hq.room
      have hbudget' := hq.budget
      refine ⟨?_,?_,fun i hlow hhigh => ?_,fun r hr => ?_⟩
      · show (ending (f q)).calls ≤ _
        omega
      · show (ending (f q)).calls+p.written ≤ _
        omega
      · by_cases hi : i < q.calls
        · exact hanswers i hlow hi
        · exact hq.answered i (not_lt.mp hi) hhigh
      · obtain ⟨hwritten',hanswers'⟩ := hq.through r hr
        refine ⟨by omega,fun i hlow hhigh => ?_⟩
        by_cases hi : i < q.calls
        · exact hanswers i hlow hi
        · exact hanswers' i (not_lt.mp hi) hhigh

/-- One put and what follows it: the put is not counted before it is confirmed. -/
theorem Calls.put {found : ℕ} {key : Key} {document : Except String (Json Double)}
    {f : Progress → Except Stop Progress} (hroom : p.written < d.config.maxRecordsPerDrain)
    (hf : ∀ json, ∃ r : Progress, r.calls = p.calls+1 ∧ r.written = p.written+1 ∧
      Calls d r found (f (p.put key json))) :
    Calls d p (found+1) (putRecord d.writer p key document >>= f) := by
  have hstopped (stop : Stop) (hcalls : stop.progress.calls ≤ p.calls+1) :
      Calls d p (found+1) (.error stop) := by
    refine ⟨?_,?_,fun i hlow hhigh => ?_,fun q hq => by cases hq⟩
    · show stop.progress.calls ≤ _
      omega
    · show stop.progress.calls+_ ≤ _
      omega
    · have hhigh' : i+1 < stop.progress.calls := hhigh
      omega
  cases document with
  | error message => exact hstopped _ (Nat.le_succ _)
  | ok json =>
      have hcall (stored : Bool) : (p.call key json stored).calls = p.calls+1 := by
        cases stored <;> rfl
      cases hw : d.writer p.calls with
      | written =>
          have hput : putRecord d.writer p key (.ok json) = .ok (p.put key json) := by
            simp only [putRecord,hw]
          obtain ⟨r,hcalls,hwritten,hnext⟩ := hf json
          rw [hput]
          have hr := hnext.room
          have hb := hnext.budget
          rw [hcalls] at hr hb
          rw [hwritten] at hb
          refine ⟨?_,?_,fun i hlow hhigh => ?_,fun q hq => ?_⟩
          · show (ending (f (p.put key json))).calls ≤ _
            omega
          · show (ending (f (p.put key json))).calls+_ ≤ _
            omega
          · rcases eq_or_lt_of_le hlow with rfl | hlt
            · exact hw
            · exact hnext.answered i (by omega) hhigh
          · obtain ⟨ht,ha⟩ := hnext.through q hq
            rw [hcalls,hwritten] at ht
            refine ⟨by omega,fun i hlow hhigh => ?_⟩
            rcases eq_or_lt_of_le hlow with rfl | hlt
            · exact hw
            · exact ha i (by omega) hhigh
      | failed detail stored =>
          have hput : putRecord d.writer p key (.ok json) =
              .error (.failed ((p.call key json stored).fail detail)) := by
            simp only [putRecord,hw]
          rw [hput]
          exact hstopped _ (hcall stored).le
      | dies stored =>
          have hput : putRecord d.writer p key (.ok json) =
              .error (.died (p.call key json stored)) := by
            simp only [putRecord,hw]
          rw [hput]
          exact hstopped _ (hcall stored).le

theorem publishObservations_calls (hids : IdsMatch d.items) (n : ℕ) (p : Progress) :
    Calls d p ((d.items.drop n).countP fun it => it.outcome ≠ .pending)
      (publishObservations d (n+1) (d.items.drop n) p) := by
  generalize hrest : d.items.drop n = rest
  induction rest generalizing n p with
  | nil => exact .done d p _
  | cons it rest ih =>
      have hit := getElem?_of_drop hrest
      rw [publishObservations]
      split
      · exact .done d p _
      rename_i hroom
      split
      · rename_i hpending
        rw [List.countP_cons_of_neg (by simpa using hpending)]
        exact ih (n+1) p (drop_succ_of_drop hrest)
      · rename_i hpending
        rw [List.countP_cons_of_pos (by simpa using hpending),putObservation,
          observationRecord_eq hids hit]
        exact .put (not_le.mp hroom) fun json =>
          ⟨_,rfl,rfl,ih (n+1) _ (drop_succ_of_drop hrest)⟩

theorem publishCounted_calls {α : Type} (key : ℕ → α → Key)
    (document : α → Except String (Json Double)) (advance : Progress → Progress)
    (hadvance : ∀ p, (advance p).calls = p.calls ∧ (advance p).written = p.written) (i : ℕ)
    (entries : List α) (p : Progress) :
    Calls d p entries.length (publishCounted d key document advance i entries p) := by
  induction entries generalizing i p with
  | nil => exact .done d p _
  | cons a rest ih =>
      rw [publishCounted]
      split
      · rename_i hroom
        exact .put hroom fun json => ⟨_,(hadvance _).1,(hadvance _).2,ih (i+1) _⟩
      · exact .done d p _

theorem Calls.orThrow {α : Type} {loaded : Except String α} {found : ℕ}
    {f : α → Except Stop Progress} (hf : ∀ a, loaded = .ok a → Calls d p found (f a)) :
    Calls d p found (Replicate.orThrow p loaded >>= f) := by
  cases loaded with
  | error message =>
      refine ⟨Nat.le_add_right _ _,Nat.add_le_add_left (le_max_right _ _) _,
        fun i hlow hhigh => ?_,fun q hq => by cases hq⟩
      have hhigh' : i+1 < p.calls := hhigh
      omega
  | ok a => exact hf a rfl

theorem publishObservations_counts {id : ℕ} {items : List Item} {q : Progress}
    (h : publishObservations d id items p = .ok q) (kind : Kind) :
    q.cursor.count kind = p.cursor.count kind := by
  induction items generalizing id p with
  | nil =>
      cases h
      rfl
  | cons it rest ih =>
      rw [publishObservations] at h
      split at h
      · cases h
        rfl
      split at h
      · exact ih h
      · obtain ⟨p',hput,hrest⟩ := Runs.bind_ok.mp h
        obtain ⟨json,-,rfl⟩ := putObservation_ok hput
        exact (ih hrest).trans (by cases kind <;> rfl)

theorem publishCounted_counts {α : Type} {key : ℕ → α → Key}
    {document : α → Except String (Json Double)} {advance : Progress → Progress} (kind k : Kind)
    (hadvance : ∀ p : Progress, (advance p).cursor = p.cursor.advance kind) (hk : k ≠ kind)
    {i : ℕ} {entries : List α} {q : Progress}
    (h : publishCounted d key document advance i entries p = .ok q) :
    q.cursor.count k = p.cursor.count k := by
  induction entries generalizing i p with
  | nil =>
      cases h
      rfl
  | cons a rest ih =>
      rw [publishCounted] at h
      split at h
      · obtain ⟨p',hput,hrest⟩ := Runs.bind_ok.mp h
        obtain ⟨json,-,rfl⟩ := putRecord_ok hput
        refine (ih hrest).trans ?_
        rw [hadvance]
        cases k <;> cases kind <;> first | rfl | exact absurd rfl hk
      · cases h
        rfl

/-- Behind the withdrawals the calls keep to the budget, and to what there is to publish. -/
theorem publishNew_calls (hids : IdsMatch d.items)
    (hfirst : 1 ≤ p.cursor.nextObservationId.toNat) :
    Calls d p (d.left p.cursor) (publishNew d p) := by
  obtain ⟨n,hn⟩ : ∃ n, p.cursor.nextObservationId.toNat = n+1 :=
    ⟨_,(Nat.sub_add_cancel hfirst).symm⟩
  have hobservations : Calls d p (observationsLeft d.items p.cursor.nextObservationId)
      (publishObservations d p.cursor.nextObservationId.toNat
        (d.items.drop (p.cursor.nextObservationId.toNat-1)) p) := by
    rw [observationsLeft,hn,Nat.add_sub_cancel]
    exact publishObservations_calls hids n p
  have hleft : d.left p.cursor = observationsLeft d.items p.cursor.nextObservationId+
      (linesLeft (d.lines .actions) (p.cursor.count .actions)+
      (linesLeft (d.lines .valence) (p.cursor.count .valence)+
      (linesLeft (d.lines .thoughts) (p.cursor.count .thoughts)+
      linesLeft (d.lines .intents) (p.cursor.count .intents)))) := by
    rw [DrainInput.left]
    omega
  rw [hleft]
  refine hobservations.bind fun p1 h1 => ?_
  have hcounts1 := publishObservations_counts h1
  refine .orThrow fun journal hjournal => ?_
  have hstage {α : Type} (kind : Kind) {entries : List α} (key : ℕ → α → Key)
      (document : α → Except String (Json Double)) (advance : Progress → Progress)
      (hlines : d.lines kind = entries.mapIdx fun i a => (key i a,document a))
      (hadvance : ∀ p, (advance p).calls = p.calls ∧ (advance p).written = p.written)
      {q : Progress} (hcount : q.cursor.count kind = p.cursor.count kind) :
      Calls d q (linesLeft (d.lines kind) (p.cursor.count kind))
        (publishCounted d key document advance (q.cursor.count kind).toNat
          (entries.drop (q.cursor.count kind).toNat) q) := by
    have hlen : (entries.drop (q.cursor.count kind).toNat).length =
        linesLeft (d.lines kind) (p.cursor.count kind) := by
      rw [List.length_drop,hcount,linesLeft,hlines,List.length_mapIdx]
    rw [← hlen]
    exact publishCounted_calls key document advance hadvance _ _ q
  have hlines (kind : Kind) (hkind : kind ≠ .thoughts) (thoughts : List Thought) :
      d.lines kind = linesOf journal thoughts kind := by
    rw [DrainInput.lines,hjournal]
    cases kind <;> first | rfl | exact absurd rfl hkind
  refine (hstage .actions actionKey actionDocument advanceActions
    (hlines .actions (by decide) []) (fun _ => ⟨rfl,rfl⟩) (hcounts1 _)).bind fun p2 h2 => ?_
  have hcounts2 (k : Kind) (hk : k ≠ .actions) : p2.cursor.count k = p.cursor.count k :=
    (publishCounted_counts .actions k (fun _ => rfl) hk h2).trans (hcounts1 k)
  refine (hstage .valence valenceKey valenceDocument advanceValence
    (hlines .valence (by decide) []) (fun _ => ⟨rfl,rfl⟩)
    (hcounts2 _ (by decide))).bind fun p3 h3 => ?_
  have hcounts3 (k : Kind) (hk : k ≠ .actions) (hk' : k ≠ .valence) :
      p3.cursor.count k = p.cursor.count k :=
    (publishCounted_counts .valence k (fun _ => rfl) hk' h3).trans (hcounts2 k hk)
  refine .orThrow fun thoughts hthoughts => ?_
  have hthoughtLines : d.lines .thoughts =
      thoughts.mapIdx fun i a => (thoughtKey i a,thoughtDocument a) := by
    rw [DrainInput.lines,hthoughts]
    rfl
  refine (hstage .thoughts thoughtKey thoughtDocument advanceThoughts hthoughtLines
    (fun _ => ⟨rfl,rfl⟩) (hcounts3 _ (by decide) (by decide))).bind fun p4 h4 => ?_
  have hcounts4 : p4.cursor.count .intents = p.cursor.count .intents :=
    (publishCounted_counts .thoughts .intents (fun _ => rfl) (by decide) h4).trans
      (hcounts3 _ (by decide) (by decide))
  exact hstage .intents intentKey intentDocument advanceIntents
    (hlines .intents (by decide) []) (fun _ => ⟨rfl,rfl⟩) hcounts4

theorem putObservation_calls {it : Item} {stop : Stop}
    (h : putObservation d p it = .error stop) : stop.progress.calls ≤ p.calls+1 := by
  rw [putObservation] at h
  split at h
  · cases h
    exact Nat.le_succ _
  · rw [putRecord] at h
    split at h
    · cases h
    · rename_i stored _
      cases h
      cases stored <;> exact le_rfl
    · rename_i stored _
      cases h
      cases stored <;> exact le_rfl

/-- The withdrawals ask the writer once each, as long as it confirms. -/
theorem propagateWithdrawals_calls (d : DrainInput) (items : List Item) (p : Progress) :
    (ending (propagateWithdrawals d items p)).calls ≤
        p.calls+items.countP (fun it => it.outcome = .withdrawn) ∧
      ∀ i, p.calls ≤ i → i+1 < (ending (propagateWithdrawals d items p)).calls →
        d.writer i = .written := by
  induction items generalizing p with
  | nil => exact ⟨le_rfl,fun i hlow hhigh => absurd hhigh (by show ¬_ < p.calls; omega)⟩
  | cons it rest ih =>
      rw [propagateWithdrawals]
      split
      · rename_i hkept
        rw [List.countP_cons_of_neg (by simpa using hkept)]
        exact ih p
      · rename_i hwithdrawn
        rw [List.countP_cons_of_pos (by simpa using hwithdrawn)]
        cases hput : putObservation d p it with
        | ok q =>
            obtain ⟨json,hw,rfl⟩ := putObservation_ok hput
            obtain ⟨hroom,hanswered⟩ :=
              ih (p.put (observationKey it.entry.id) json).countWithdrawal
            have hcalls : (p.put (observationKey it.entry.id) json).countWithdrawal.calls =
              p.calls+1 := rfl
            rw [hcalls] at hroom hanswered
            refine ⟨hroom.trans (by omega),fun i hlow hhigh => ?_⟩
            rcases eq_or_lt_of_le hlow with rfl | hlt
            · exact hw
            · exact hanswered i hlt hhigh
        | error stop =>
            have hcalls := putObservation_calls hput
            refine ⟨hcalls.trans (by omega),fun i hlow hhigh => ?_⟩
            have hhigh' : i+1 < stop.progress.calls := hhigh
            omega

end Stages

/-- A stage that confirms nothing: it goes on as it came or stops at the same cursor. -/
structure Still (p : Progress) (x : Except Stop Progress) : Prop where
  cursor : (ending x).cursor = p.cursor
  through : ∀ q, x = .ok q → q = p

section Still
variable {d : DrainInput} {p : Progress}

theorem still_ok (p : Progress) : Still p (.ok p) :=
  ⟨rfl,fun _ hq => (Except.ok.inj hq).symm⟩

theorem Still.bind {x : Except Stop Progress} {f : Progress → Except Stop Progress}
    (hx : Still p x) (hf : Still p (f p)) : Still p (x >>= f) := by
  cases x with
  | error stop => exact ⟨hx.cursor,fun q hq => by cases hq⟩
  | ok q =>
      obtain rfl := hx.through q rfl
      exact hf

theorem Still.orThrow {α : Type} {loaded : Except String α} {f : α → Except Stop Progress}
    (hf : ∀ a, loaded = .ok a → Still p (f a)) : Still p (Replicate.orThrow p loaded >>= f) := by
  cases loaded with
  | error message => exact ⟨rfl,fun q hq => by cases hq⟩
  | ok a => exact hf a rfl

theorem putRecord_still (hw : d.writer p.calls ≠ .written) (key : Key)
    (document : Except String (Json Double)) (f : Progress → Except Stop Progress) :
    Still p (putRecord d.writer p key document >>= f) := by
  rcases putRecord_cases d p key document with ⟨-,-,hwritten,-⟩ | ⟨stop,hstop,hcursor⟩
  · exact absurd hwritten hw
  · rw [hstop]
    refine ⟨?_,fun q hq => by cases hq⟩
    rcases hcursor with hsame | ⟨json,-,hput⟩
    · exact congrArg Published.cursor hsame
    · exact congrArg Published.cursor hput

theorem publishObservations_still {id : ℕ} {items : List Item}
    (h : items.countP (fun it => it.outcome ≠ .pending) = 0 ∨ d.writer p.calls ≠ .written) :
    Still p (publishObservations d id items p) := by
  induction items generalizing id with
  | nil => exact still_ok p
  | cons it rest ih =>
      rw [publishObservations]
      split
      · exact still_ok p
      split
      · rename_i hpending
        rw [List.countP_cons_of_neg (by simpa using hpending)] at h
        exact ih h
      · rename_i hpending
        have hw := h.resolve_left (by
          rw [List.countP_cons_of_pos (by simpa using hpending)]
          omega)
        rw [putObservation]
        split
        · exact ⟨rfl,fun q hq => by cases hq⟩
        · exact putRecord_still hw _ _ _

theorem publishCounted_still {α : Type} {key : ℕ → α → Key}
    {document : α → Except String (Json Double)} {advance : Progress → Progress} {i : ℕ}
    {entries : List α} (h : entries.length = 0 ∨ d.writer p.calls ≠ .written) :
    Still p (publishCounted d key document advance i entries p) := by
  cases entries with
  | nil => exact still_ok p
  | cons a rest =>
      rw [publishCounted]
      split
      · exact putRecord_still (h.resolve_left (by simp)) _ _ _
      · exact still_ok p

theorem publishNew_still (h : d.left p.cursor = 0 ∨ d.writer p.calls ≠ .written) :
    Still p (publishNew d p) := by
  simp only [DrainInput.left] at h
  refine (publishObservations_still (h.imp_left fun hleft => ?_)).bind ?_
  · rw [observationsLeft] at hleft
    omega
  refine .orThrow fun journal hjournal => ?_
  have hlines (kind : Kind) (hkind : kind ≠ .thoughts) (thoughts : List Thought) :
      d.lines kind = linesOf journal thoughts kind := by
    rw [DrainInput.lines,hjournal]
    cases kind <;> first | rfl | exact absurd rfl hkind
  have hactions := hlines .actions (by decide) []
  have hvalence := hlines .valence (by decide) []
  have hintents := hlines .intents (by decide) []
  rw [hactions,hvalence,hintents] at h
  simp only [linesLeft,linesOf,List.length_mapIdx,ReplicateCursor.count] at h
  have hstage {α : Type} {entries : List α} {key : ℕ → α → Key}
      {document : α → Except String (Json Double)} {advance : Progress → Progress} {i : ℕ}
      (hnone : entries.length-i = 0 ∨ d.writer p.calls ≠ .written) :
      Still p (publishCounted d key document advance i (entries.drop i) p) :=
    publishCounted_still (by rwa [List.length_drop])
  refine (hstage (h.imp_left fun hleft => by omega)).bind ?_
  refine (hstage (h.imp_left fun hleft => by omega)).bind ?_
  refine .orThrow fun thoughts hthoughts => ?_
  have hthoughtLines : d.lines .thoughts =
      thoughts.mapIdx fun i a => (thoughtKey i a,thoughtDocument a) := by
    rw [DrainInput.lines,hthoughts]
    rfl
  rw [hthoughtLines,List.length_mapIdx] at h
  refine (hstage (h.imp_left fun hleft => by omega)).bind ?_
  exact hstage (h.imp_left fun hleft => by omega)

end Still

/-- The rechecked withdrawals leave room for the new records in the budget, or the writer ends
the pass before it is used up. -/
def DrainInput.WithinBudget (d : DrainInput) (cursor : ReplicateCursor) : Prop :=
  d.withdrawnInWindow cursor.nextObservationId = 0 ∨
    d.withdrawnInWindow cursor.nextObservationId+d.left cursor ≤ d.config.maxRecordsPerDrain ∨
    ∃ i < d.config.maxRecordsPerDrain, d.writer i ≠ .written

section Drain
variable {path : String} {file : Option (Json Double)} {records : Records} {d : DrainInput}
  {cursor : ReplicateCursor}

/-- A pass makes a call for each rechecked withdrawal and then keeps to its budget. -/
theorem replicateDrain_calls (records : Records) (hids : IdsMatch d.items)
    (hload : loadReplicateCursor file path = .ok cursor)
    (hfirst : 1 ≤ cursor.nextObservationId.toNat) :
    (replicateDrain path file records d).calls ≤ d.withdrawnInWindow cursor.nextObservationId+
        min d.config.maxRecordsPerDrain (d.left cursor) ∧
      ∀ i, i+1 < (replicateDrain path file records d).calls → d.writer i = .written := by
  obtain ⟨hroom,hanswered⟩ := propagateWithdrawals_calls d
    (recheckWindow d cursor.nextObservationId) { cursor := cursor, records := records }
  have hzero : ({ cursor := cursor, records := records } : Progress).calls = 0 := rfl
  rw [hzero,Nat.zero_add] at hroom
  cases hw : propagateWithdrawals d (recheckWindow d cursor.nextObservationId)
      { cursor := cursor, records := records } with
  | error stop =>
      have hcalls : (replicateDrain path file records d).calls = stop.progress.calls := by
        simp only [replicateDrain,hload,hw]
        cases stop <;> rfl
      rw [hw] at hroom hanswered
      rw [hcalls]
      exact ⟨hroom.trans (Nat.le_add_right _ _),fun i hi => hanswered i (Nat.zero_le i) hi⟩
  | ok p =>
      obtain ⟨hkept,hwritten,hcount,hanswers⟩ := propagateWithdrawals_ok hw
      have hcursor : p.cursor = cursor := hkept
      have hcalls : (replicateDrain path file records d).calls = (ending (publishNew d p)).calls := by
        simp only [replicateDrain,hload,hw]
        rcases publishNew d p with (⟨q⟩ | ⟨q⟩ | ⟨q,message⟩) | q <;>
          simp only [saveAndReturn,ending,Stop.progress] <;> split <;> rfl
      have hnew := publishNew_calls hids (p := p) (by rw [hcursor]; exact hfirst)
      rw [hcursor] at hnew
      have hr := hnew.room
      have hb := hnew.budget
      have hstart : p.written = 0 := hwritten
      rw [hzero,Nat.zero_add] at hcount
      have hwindow : p.calls = d.withdrawnInWindow cursor.nextObservationId := hcount
      rw [hcalls]
      refine ⟨by omega,fun i hi => ?_⟩
      by_cases hlow : i < p.calls
      · exact hanswers i (Nat.zero_le i) hlow
      · exact hnew.answered i (not_lt.mp hlow) hi

theorem replicateDrain_within (records : Records) (hids : IdsMatch d.items)
    (hload : loadReplicateCursor file path = .ok cursor)
    (hfirst : 1 ≤ cursor.nextObservationId.toNat) (hbudget : d.WithinBudget cursor) :
    (replicateDrain path file records d).calls ≤ d.config.maxRecordsPerDrain := by
  obtain ⟨hcalls,hanswered⟩ := replicateDrain_calls records hids hload hfirst
  rcases hbudget with hnone | hfits | ⟨i,hi,hfails⟩
  · omega
  · omega
  · by_contra hmore
    exact hfails (hanswered i (by omega))

/-- The pass confirms no new record or does not live to save its cursor. -/
def DrainInput.Stays (d : DrainInput) (cursor : ReplicateCursor) : Prop :=
  d.diesBeforeSave = true ∨ d.left cursor = 0 ∨
    ∃ i ≤ d.withdrawnInWindow cursor.nextObservationId, d.writer i ≠ .written

/-- Such a pass leaves the cursor file or writes the same cursor again. -/
theorem replicateDrain_still (records : Records)
    (hload : loadReplicateCursor file path = .ok cursor) (hstays : d.Stays cursor) :
    (replicateDrain path file records d).cursorFile = file ∨
      (replicateDrain path file records d).cursorFile = some (saveReplicateCursor cursor) := by
  cases hw : propagateWithdrawals d (recheckWindow d cursor.nextObservationId)
      { cursor := cursor, records := records } with
  | error stop => exact .inl (replicateDrain_stopped hload hw).2
  | ok p =>
      obtain ⟨hkept,-,hcount,hanswers⟩ := propagateWithdrawals_ok hw
      have hcursor : p.cursor = cursor := hkept
      have hcalls : p.calls = d.withdrawnInWindow cursor.nextObservationId :=
        hcount.trans (Nat.zero_add _)
      rw [(replicateDrain_continued hload hw).2]
      split
      · rename_i hsaves
        refine .inr ?_
        have hnone : d.left p.cursor = 0 ∨ d.writer p.calls ≠ .written := by
          rcases hstays with hdies | hleft | ⟨i,hi,hfails⟩
          · rw [hsaves.1] at hdies
            cases hdies
          · exact .inl (by rwa [hcursor])
          · rcases eq_or_lt_of_le hi with rfl | hlt
            · exact .inr (by rwa [hcalls])
            · exact absurd (hanswers i (Nat.zero_le i) (by rwa [hcalls])) hfails
        rw [(publishNew_still hnone).cursor,hcursor]
      · exact .inl rfl

end Drain

end Atperson.Replicate
