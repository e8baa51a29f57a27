import Atperson.Replicate.Host

/-!
# Every committed observation is published

A pass skips pending entries and its cursor does not wait for them: what a pending entry
behind the cursor is committed to later is never published. Where no pass confirms an entry
behind a pending one, the cursor stays among the decided entries and passes without failures
publish everything that is committed; withdrawals follow within the window.
-/
namespace Atperson.Replicate
open Wire Journal Thought Ledger Runs

/-- The entry has a record, with an outcome that it was decided to. -/
def Host.Recorded (h : Host) (it : Item) : Prop :=
  ∃ o, o ≠ .pending ∧
    h.records (observationKey it.entry.id) = some (entryDocument (it.withOutcome o))

/-- A withdrawn entry has its record, or the window of the next pass reaches it. -/
def Host.Withdrawing (h : Host) (config : ReplicateConfig) (cursor : ReplicateCursor) (n : ℕ)
    (it : Item) : Prop :=
  h.items[n]? = some it ∧ it.outcome = .withdrawn ∧
    (h.records (observationKey it.entry.id) = some (entryDocument it) ∨
      recheckFrom cursor.nextObservationId config.withdrawalRecheckWindow ≤ n+1)

/-- A pass that lives to save its cursor confirms no entry behind a pending one. -/
def Host.InOrder (path : String) (config : ReplicateConfig) (h : Host) : Event → Prop
  | .drain pass => ∀ cursor, loadReplicateCursor h.cursorFile path = .ok cursor →
      pass.diesBeforeSave = true ∨
        (h.input config pass).overtakes cursor.nextObservationId = false
  | .write w => h.Room w

/-- The writes find room; passes are free. -/
def Host.Roomy (h : Host) : Event → Prop
  | .write w => h.Room w
  | .drain _ => True

section Records
variable {path : String} {config : ReplicateConfig} {h : Host} {cursor c : ReplicateCursor}
  {pass : Pass}

/-- Committed entries that the cursor has passed have records. -/
def Host.Kept (h : Host) (cursor : ReplicateCursor) : Prop :=
  ∀ n it, h.items[n]? = some it → n+1 < cursor.nextObservationId.toNat →
    it.outcome ≠ .pending → h.Recorded it

theorem Host.Kept.drained (hk : h.Kept cursor) (hr : Ready path h cursor)
    (hacts : Acts (h.input config pass) ⟨cursor,h.records⟩ ⟨c,(h.drain path config pass).records⟩)
    {cursor' : ReplicateCursor} (hcursor : cursor'.nextObservationId.toNat ≤
      max cursor.nextObservationId.toNat c.nextObservationId.toNat) :
    (h.drain path config pass).Kept cursor' := by
  intro n it hit hlt hpending
  have hit' : h.items[n]? = some it := hit
  have hfits := hr.input_fits config pass
  have hnow : (h.drain path config pass).records (observationKey it.entry.id) =
      some (entryDocument it) → (h.drain path config pass).Recorded it :=
    fun hrecord => ⟨it.outcome,hpending,hrecord⟩
  by_cases hpassed : n+1 < cursor.nextObservationId.toNat
  · rcases Acts.record hfits hacts hr.last hit' with hsame | ⟨hput,-⟩
    · obtain ⟨o,ho,hrecord⟩ := hk n it hit' hpassed hpending
      exact ⟨o,ho,hsame.trans hrecord⟩
    · exact hnow hput
  · have hlt' : n+1 < c.nextObservationId.toNat := by omega
    exact hnow (Acts.passed hfits hacts hr.last hit' hpending (not_lt.mp hpassed) hlt')

/-- Changes of the ledger leave the records of entries that were decided before. -/
theorem Host.Kept.wrote {h' : Host}
    (hk : ∀ n it, h.items[n]? = some it → n+1 < cursor.nextObservationId.toNat →
      it.outcome ≠ .pending ∧ h.Recorded it) (hr : Ready path h cursor)
    (hgrows : Grows h.items h'.items) (hrecords : h'.records = h.records) :
    ∀ n it, h'.items[n]? = some it → n+1 < cursor.nextObservationId.toNat →
      it.outcome ≠ .pending ∧ h'.Recorded it := by
  intro n it hit hlt
  have hlast := hr.last
  obtain ⟨old,hold⟩ : ∃ old, h.items[n]? = some old :=
    ⟨_,List.getElem?_eq_getElem (by omega)⟩
  obtain ⟨hpending,o,ho,hrecord⟩ := hk n old hold hlt
  obtain ⟨o',hnew,hdecided,-⟩ := hgrows n old hold
  obtain rfl := Option.some.inj (hit.symm.trans hnew)
  exact ⟨hdecided hpending,o,ho,by rw [hrecords]; exact hrecord⟩

theorem Host.Withdrawing.wrote {h' : Host} {n : ℕ} {it : Item}
    (hw : h.Withdrawing config cursor n it) (hgrows : Grows h.items h'.items)
    (hrecords : h'.records = h.records) : h'.Withdrawing config cursor n it := by
  obtain ⟨hit,hwithdrawn,hrecord⟩ := hw
  obtain ⟨o,hnew,-,ho⟩ := hgrows n it hit
  have hsame : it.withOutcome o = it := by
    rw [ho hwithdrawn,← hwithdrawn]
    exact it.withOutcome_self
  rw [hsame] at hnew
  exact ⟨hnew,hwithdrawn,by rwa [hrecords]⟩

theorem recheckFrom_le (next : UInt64) (window : ℕ) (h1 : 1 ≤ next.toNat) :
    recheckFrom next window ≤ next.toNat := by
  rw [recheckFrom]
  split <;> omega

/-- A pass puts the record of a withdrawn entry or leaves it to the next one. -/
theorem Host.Withdrawing.drained {n : ℕ} {it : Item} (hr : Ready path h cursor)
    (hw : h.Withdrawing config cursor n it) :
    ∃ cursor', Ready path (h.drain path config pass) cursor' ∧
      (h.drain path config pass).Withdrawing config cursor' n it := by
  obtain ⟨c,cursor',hacts,hready,hcursor⟩ := hr.drained config pass
  obtain ⟨hit,hwithdrawn,hrecord⟩ := hw
  have hfits := hr.input_fits config pass
  refine ⟨cursor',hready,hit,hwithdrawn,?_⟩
  rcases hrecord with hrecord | hwindow
  · exact .inl (Acts.keeps hfits hacts hr.last hit hrecord)
  rcases hcursor with rfl | ⟨-,rfl,hputs,-⟩
  · exact .inr hwindow
  · by_cases hpassed : n+1 < cursor.nextObservationId.toNat
    · exact .inl (hputs n it ⟨hit,hwithdrawn,hwindow,hpassed⟩)
    by_cases hreached : n+1 < c.nextObservationId.toNat
    · exact .inl (Acts.passed hfits hacts hr.last hit (by rw [hwithdrawn]; decide)
        (not_lt.mp hpassed) hreached)
    · have := recheckFrom_le c.nextObservationId config.withdrawalRecheckWindow hready.first
      exact .inr (this.trans (not_lt.mp hreached))

end Records

section Run
variable {path : String} {config : ReplicateConfig} {h : Host} {cursor : ReplicateCursor}

/-- The cursor has passed decided entries alone, and each has a record. -/
def Decided (path : String) (h : Host) : Prop :=
  ∃ cursor, Ready path h cursor ∧ ∀ n it, h.items[n]? = some it →
    n+1 < cursor.nextObservationId.toNat → it.outcome ≠ .pending ∧ h.Recorded it

theorem Host.InOrder.roomy {event : Event} (h' : h.InOrder path config event) :
    h.Roomy event := by
  cases event <;> first | exact h' | trivial

theorem Decided.drained {pass : Pass} (hd : Decided path h)
    (hg : h.InOrder path config (.drain pass)) : Decided path (h.drain path config pass) := by
  obtain ⟨cursor,hr,hk⟩ := hd
  obtain ⟨c,cursor',hacts,hready,hcursor⟩ := hr.drained config pass
  have hnext : cursor'.nextObservationId.toNat ≤
      max cursor.nextObservationId.toNat c.nextObservationId.toNat := by
    rcases hcursor with rfl | ⟨-,rfl,-⟩
    · exact le_max_left _ _
    · exact le_max_right _ _
  have hkept := Host.Kept.drained (fun n it hit hlt _ => (hk n it hit hlt).2) hr hacts hnext
  refine ⟨cursor',hready,fun n it hit hlt => ?_⟩
  have hpending : it.outcome ≠ .pending := by
    have hit' : h.items[n]? = some it := hit
    by_cases hpassed : n+1 < cursor.nextObservationId.toNat
    · exact (hk n it hit' hpassed).1
    rcases hcursor with rfl | ⟨hlives,rfl,-,horder⟩
    · exact absurd hlt hpassed
    rcases hg cursor hr.loads with hdies | hordered
    · rw [hlives] at hdies
      cases hdies
    · exact horder hordered n it hit' (not_lt.mp hpassed) hlt
  exact ⟨hpending,hkept n it hit hlt hpending⟩

theorem Decided.wrote {w : Write} (hd : Decided path h) (hroom : h.Room w) :
    Decided path (h.write w) := by
  obtain ⟨cursor,hr,hk⟩ := hd
  obtain ⟨hready,hgrows⟩ := hr.wrote hroom
  exact ⟨cursor,hready,Host.Kept.wrote hk hr hgrows (write_records h w)⟩

theorem Decided.step {event : Event} (hd : Decided path h) (hg : h.InOrder path config event) :
    Decided path (h.step path config event) := by
  cases event with
  | write w => exact hd.wrote hg
  | drain pass => exact hd.drained hg

/-- A withdrawn entry that was in reach of a pass stays in reach until its record is put. -/
theorem Host.Withdrawing.step {event : Event} {n : ℕ} {it : Item} (hr : Ready path h cursor)
    (hw : h.Withdrawing config cursor n it) (hroom : h.Roomy event) :
    ∃ cursor', Ready path (h.step path config event) cursor' ∧
      (h.step path config event).Withdrawing config cursor' n it := by
  cases event with
  | write w =>
      obtain ⟨hready,hgrows⟩ := hr.wrote hroom
      exact ⟨cursor,hready,hw.wrote hgrows (write_records h w)⟩
  | drain pass => exact hw.drained hr

theorem Ready.step {event : Event} (hr : ∃ cursor, Ready path h cursor) (hroom : h.Roomy event) :
    ∃ cursor, Ready path (h.step path config event) cursor := by
  obtain ⟨cursor,hr⟩ := hr
  cases event with
  | write w => exact ⟨cursor,(hr.wrote hroom).1⟩
  | drain pass =>
      obtain ⟨-,cursor',-,hready,-⟩ := hr.drained config pass
      exact ⟨cursor',hready⟩

@[simp] theorem drains_nil (h : Host) : h.drains path config [] = h := rfl

@[simp] theorem drains_cons (h : Host) (pass : Pass) (passes : List Pass) :
    h.drains path config (pass::passes) = (h.drain path config pass).drains path config passes :=
  rfl

/-- Passes without failures publish the committed entries, one at least each. -/
theorem Ready.drains (hr : Ready path h cursor) (hk : h.Kept cursor)
    (hmax : 1 ≤ config.maxRecordsPerDrain) {passes : List Pass}
    (hworks : ∀ pass ∈ passes, pass.Works) :
    ∃ cursor', Ready path (h.drains path config passes) cursor' ∧
      (h.drains path config passes).items = h.items ∧
      (h.drains path config passes).Kept cursor' ∧
      observationsLeft h.items cursor'.nextObservationId ≤
        observationsLeft h.items cursor.nextObservationId-passes.length := by
  induction passes generalizing h cursor with
  | nil => exact ⟨cursor,hr,rfl,hk,le_rfl⟩
  | cons pass rest ih =>
      obtain ⟨c,hacts,hready,-,hless,-⟩ := hr.worked hmax (hworks pass List.mem_cons_self)
      have hkept : (h.drain path config pass).Kept c.stored :=
        hk.drained hr hacts (le_max_right _ _)
      obtain ⟨cursor',hready',hitems,hkept',hleft⟩ :=
        ih hready hkept fun p hp => hworks p (List.mem_cons_of_mem _ hp)
      refine ⟨cursor',hready',hitems,hkept',?_⟩
      have hleft' : observationsLeft h.items cursor'.nextObservationId ≤
        observationsLeft h.items c.nextObservationId-rest.length := hleft
      rw [List.length_cons]
      omega

theorem passed_of_none_left {items : List Item} {next : UInt64}
    (h : observationsLeft items next = 0) {n : ℕ} {it : Item} (hit : items[n]? = some it)
    (hpending : it.outcome ≠ .pending) : n+1 < next.toNat := by
  by_contra hlt
  have hmem : it ∈ items.drop (next.toNat-1) := by
    refine List.mem_iff_getElem?.mpr ⟨n-(next.toNat-1),?_⟩
    rw [List.getElem?_drop,← hit]
    congr 1
    omega
  exact List.countP_eq_zero.mp h it hmem (by simpa using hpending)

theorem observationsLeft_le (items : List Item) (next : UInt64) :
    observationsLeft items next ≤ items.length :=
  List.countP_le_length.trans (by rw [List.length_drop]; exact Nat.sub_le _ _)

/-- Passes without failures, more than there are entries, bring every committed entry its
record. -/
theorem Ready.delivers (hr : Ready path h cursor) (hk : h.Kept cursor)
    (hmax : 1 ≤ config.maxRecordsPerDrain) {passes : List Pass}
    (hworks : ∀ pass ∈ passes, pass.Works) (hmany : h.items.length ≤ passes.length) :
    (h.drains path config passes).items = h.items ∧
      (∃ last, Ready path (h.drains path config passes) last ∧
        observationsLeft h.items last.nextObservationId = 0) ∧
      ∀ it ∈ h.items, it.outcome ≠ .pending → (h.drains path config passes).Recorded it := by
  obtain ⟨last,hready,hitems,hkept,hleft⟩ := hr.drains hk hmax hworks
  have hnone : observationsLeft h.items last.nextObservationId = 0 := by
    have := observationsLeft_le h.items cursor.nextObservationId
    omega
  refine ⟨hitems,⟨last,hready,hnone⟩,fun it hit hpending => ?_⟩
  obtain ⟨n,hn⟩ := List.mem_iff_getElem?.mp hit
  exact hkept n it (by rw [hitems]; exact hn) (passed_of_none_left hnone hn hpending) hpending

/-- A last pass without failures, after which no committed entry is left, puts the record of
every withdrawn entry in reach. -/
theorem Host.Withdrawing.put {n : ℕ} {it : Item} {pass : Pass} (hr : Ready path h cursor)
    (hw : h.Withdrawing config cursor n it) (hmax : 1 ≤ config.maxRecordsPerDrain)
    (hworks : pass.Works) {cursor' : ReplicateCursor}
    (hready : Ready path (h.drain path config pass) cursor')
    (hnone : observationsLeft h.items cursor'.nextObservationId = 0) :
    (h.drain path config pass).records (observationKey it.entry.id) =
      some (entryDocument it) := by
  obtain ⟨c,hacts,hready',-,-,hputs⟩ := hr.worked hmax hworks
  obtain rfl := Except.ok.inj (hready.loads.symm.trans hready'.loads)
  obtain ⟨hit,hwithdrawn,hrecord⟩ := hw
  have hfits := hr.input_fits config pass
  have hpending : it.outcome ≠ .pending := by
    rw [hwithdrawn]
    decide
  rcases hrecord with hrecord | hwindow
  · exact Acts.keeps hfits hacts hr.last hit hrecord
  by_cases hpassed : n+1 < cursor.nextObservationId.toNat
  · exact hputs n it ⟨hit,hwithdrawn,hwindow,hpassed⟩
  · exact Acts.passed hfits hacts hr.last hit hpending (not_lt.mp hpassed)
      (passed_of_none_left hnone hit hpending)

/-- An entry that the cursor has passed without a record never gets one, unless it is
withdrawn. -/
theorem Ready.overtaken (hr : Ready path h cursor) {n : ℕ} {it : Item}
    (hit : h.items[n]? = some it) (hpassed : n+1 < cursor.nextObservationId.toNat)
    (hkept : it.outcome ≠ .withdrawn) (hnone : h.records (observationKey it.entry.id) = none)
    (passes : List Pass) :
    (h.drains path config passes).records (observationKey it.entry.id) = none := by
  induction passes generalizing h cursor with
  | nil => exact hnone
  | cons pass rest ih =>
      obtain ⟨c,cursor',hacts,hready,hcursor⟩ := hr.drained config pass
      have hfits := hr.input_fits config pass
      have hbounds := Acts.next_bounds hfits hacts hr.last
      refine ih hready hit ?_ ?_
      · rcases hcursor with rfl | ⟨-,rfl,-⟩
        · exact hpassed
        · exact hpassed.trans_le hbounds.1
      · rcases Acts.record hfits hacts hr.last hit with hsame | ⟨-,-,hwithdrawn⟩
        · exact hsame.trans hnone
        · exact absurd (hwithdrawn hpassed) hkept

end Run

def steadyPass : Pass := { writer := fun _ => .written }

def sampleHost (events : List Event) : Host :=
  runFrom (Host.step "cursor.json" {}) .start events

end Atperson.Replicate
