import Atperson.Replicate.Publication

/-!
# Offline passes and delivery

The two sinks advance one cursor. A pass that stages a new record moves the cursor over what
the online repository never saw; a pass that stages none leaves all of it to the passes that
come after. Where the rechecked withdrawals fit the budget, so do the calls.
-/
namespace Atperson.Replicate
open Wire Journal Thought Ledger Runs Control

inductive StationEvent where
  | write (w : Write)
  | pass (c : PublicationCall)

section Station
variable (cursorPath controlPath : String) (config : ReplicateConfig)

def Station.step (s : Station) : StationEvent → Station
  | .write w => { s with host := s.host.write w }
  | .pass c => (runPublicationPass cursorPath controlPath config c s).station

/-- Writes keep the counts. A pass that comes to its drain keeps to its budget, and confirms no
entry behind a pending one online and no new record offline, unless it dies unsaved. -/
def Station.Safe (s : Station) : StationEvent → Prop
  | .write w => s.host.Room w ∧ s.host.StableWrite cursorPath w
  | .pass c => c.Starts controlPath →
      ∀ cursor, loadReplicateCursor s.host.cursorFile cursorPath = .ok cursor →
        let input := s.host.input config c.drain
        input.WithinBudget cursor ∧
          if c.offline then input.Stays cursor
          else c.drain.diesBeforeSave = true ∨ input.overtakes cursor.nextObservationId = false

/-- An online pass that nothing stops. -/
def PublicationCall.Works (c : PublicationCall) : Prop :=
  c.Starts controlPath ∧ c.offline = false ∧ c.drain.Works

end Station

section Run
variable {cursorPath controlPath : String} {config : ReplicateConfig} {s : Station}
  {h : Host} {c : PublicationCall}

/-- A pass that does not come to its drain changes nothing and is refused. -/
theorem runPublicationPass_idle (h : ¬c.Starts controlPath) :
    (runPublicationPass cursorPath controlPath config c s).station = s ∧
      (runPublicationPass cursorPath controlPath config c s).calls = 0 ∧
      ∃ report, (runPublicationPass cursorPath controlPath config c s).outcome =
        .returned report ∧ report.refused = true := by
  unfold runPublicationPass
  split
  · exact ⟨rfl,rfl,_,rfl,rfl⟩
  rename_i hroom
  split
  · exact ⟨rfl,rfl,_,rfl,rfl⟩
  · exact ⟨rfl,rfl,_,rfl,rfl⟩
  rename_i hgate
  split
  · exact ⟨rfl,rfl,_,rfl,rfl⟩
  rename_i hlock
  unfold PublicationCall.locked
  split
  · exact ⟨rfl,rfl,_,rfl,rfl⟩
  · rename_i hwriter
    refine absurd ⟨hroom,hgate,hlock,?_⟩ h
    cases hoff : c.offline with
    | true => exact .inl rfl
    | false => exact .inr (by simpa [hoff] using hwriter)

/-- A pass that comes to its drain is the drain into its sink. -/
theorem runPublicationPass_starts (h : c.Starts controlPath) :
    (runPublicationPass cursorPath controlPath config c s).station =
        (c.sink cursorPath config s).2 ∧
      (runPublicationPass cursorPath controlPath config c s).calls =
        (c.sink cursorPath config s).1.calls ∧
      ∀ message, (runPublicationPass cursorPath controlPath config c s).outcome ≠
        .threw message := by
  obtain ⟨hroom,hgate,hlock,hwriter⟩ := h
  have hnone : (if c.offline then none else c.onlineWriter) = none := by
    rcases hwriter with hoff | hnone
    · rw [hoff]
      rfl
    · rw [hnone]
      exact ite_self _
  have hlocked : runPublicationPass cursorPath controlPath config c s =
      c.locked cursorPath config s := by
    simp only [runPublicationPass,hroom,hgate,hlock]
  rw [hlocked,PublicationCall.locked,hnone]
  refine ⟨rfl,rfl,fun message => ?_⟩
  dsimp only
  cases (c.sink cursorPath config s).1.outcome <;> exact nofun

/-- Decided entries behind the cursor, counts that stand for records, keys of their own. -/
def Steady (path : String) (h : Host) : Prop :=
  Decided path h ∧ (∃ cursor, Counting path h cursor) ∧ Unmixed h

theorem steady_start : Steady cursorPath .start :=
  ⟨⟨{},ready_start,fun n it hit => by cases hit⟩,⟨_,counting_start⟩,
    fun kind _ => by cases kind <;> exact List.nodup_nil⟩

/-- A cursor file that loads as before keeps the host steady. -/
theorem Steady.reloaded (hs : Steady cursorPath h) {file : Option (Json Double)}
    (hfile : loadReplicateCursor file cursorPath = loadReplicateCursor h.cursorFile cursorPath) :
    Steady cursorPath { h with cursorFile := file } := by
  have hready {cursor : ReplicateCursor} (hr : Ready cursorPath h cursor) :
      Ready cursorPath { h with cursorFile := file } cursor :=
    ⟨hr.numbered,hr.few,hr.fits,hr.kinds,hfile.trans hr.loads,hr.first,hr.last⟩
  obtain ⟨⟨cursor,hr,hk⟩,⟨cursor',hc⟩,hu⟩ := hs
  exact ⟨⟨cursor,hready hr,hk⟩,⟨cursor',hready hc.ready,hc.few,hc.counted⟩,hu⟩

/-- A pass that confirms no new record leaves a cursor file that loads as before. -/
theorem Steady.stays (hs : Steady cursorPath h) (records : Records) {pass : Pass}
    (hstays : ∀ cursor, loadReplicateCursor h.cursorFile cursorPath = .ok cursor →
      (h.input config pass).Stays cursor) :
    loadReplicateCursor (replicateDrain cursorPath h.cursorFile records
        (h.input config pass)).cursorFile cursorPath =
      loadReplicateCursor h.cursorFile cursorPath := by
  obtain ⟨cursor,hc⟩ := hs.2.1
  have hloads := hc.ready.loads
  rcases replicateDrain_still records hloads (hstays cursor hloads) with hsame | hsaved
  · rw [hsame]
  have hstored : cursor.stored = cursor := stored_of_small fun kind => by
    have hwithin : (cursor.count kind).toNat ≤ (h.lines kind).length := (hc.counted kind).within
    have := hc.few kind
    omega
  have hreloads := hc.ready.reloads le_rfl hc.ready.last
  rw [hstored] at hreloads
  rw [hsaved,hreloads,hloads]

theorem Steady.step {event : StationEvent} (hs : Steady cursorPath s.host)
    (hsafe : s.Safe cursorPath controlPath config event) :
    Steady cursorPath (s.step cursorPath controlPath config event).host := by
  cases event with
  | write w =>
      obtain ⟨hroom,hstable⟩ := hsafe
      obtain ⟨hd,⟨cursor,hc⟩,hu⟩ := hs
      exact ⟨hd.wrote hroom,⟨cursor,hc.wrote hstable⟩,hu.wrote hstable⟩
  | pass c =>
      by_cases hstarts : c.Starts controlPath
      swap
      · rw [Station.step,(runPublicationPass_idle hstarts).1]
        exact hs
      have hsafe' := hsafe hstarts
      rw [Station.step,(runPublicationPass_starts hstarts).1,PublicationCall.sink]
      split
      · rename_i hoff
        exact hs.reloaded (hs.stays s.staged fun cursor hload => by
          simpa [hoff] using (hsafe' cursor hload).2)
      · rename_i hon
        obtain ⟨hd,⟨cursor,hc⟩,hu⟩ := hs
        exact ⟨hd.drained fun cursor hload => by simpa [hon] using (hsafe' cursor hload).2,
          hc.drained,hu⟩

/-- A pass keeps to its budget. -/
theorem Steady.within (hs : Steady cursorPath s.host)
    (hsafe : s.Safe cursorPath controlPath config (.pass c)) :
    (runPublicationPass cursorPath controlPath config c s).calls ≤
      config.maxRecordsPerDrain := by
  by_cases hstarts : c.Starts controlPath
  swap
  · rw [(runPublicationPass_idle hstarts).2.1]
    exact Nat.zero_le _
  obtain ⟨cursor,hr,-⟩ := hs.1
  have hbudget := (hsafe hstarts cursor hr.loads).1
  rw [(runPublicationPass_starts hstarts).2.1,PublicationCall.sink]
  split <;> exact replicateDrain_within _ hr.numbered.ids hr.loads hr.first hbudget

theorem pass_never_throws (c : PublicationCall) (s : Station) (message : String) :
    (runPublicationPass cursorPath controlPath config c s).outcome ≠ .threw message := by
  by_cases hstarts : c.Starts controlPath
  · exact (runPublicationPass_starts hstarts).2.2 message
  · obtain ⟨-,-,report,hreturned,-⟩ :
        (runPublicationPass cursorPath controlPath config c s).station = s ∧ _ :=
      runPublicationPass_idle hstarts
    rw [hreturned]
    exact nofun

/-- Working online passes are the drains of the host. -/
theorem runFrom_working {calls : List PublicationCall}
    (hworks : ∀ c ∈ calls, c.Works controlPath) :
    (runFrom (Station.step cursorPath controlPath config) s (calls.map .pass)).host =
      s.host.drains cursorPath config (calls.map (·.drain)) := by
  induction calls generalizing s with
  | nil => rfl
  | cons c rest ih =>
      obtain ⟨hstarts,honline,-⟩ := hworks c List.mem_cons_self
      rw [List.map_cons,runFrom_cons,ih fun c' hc' => hworks c' (List.mem_cons_of_mem _ hc'),
        List.map_cons,drains_cons,Station.step,(runPublicationPass_starts hstarts).1,
        PublicationCall.sink,if_neg (by rw [honline]; decide)]

end Run

/-- Passes that are safe where they are taken keep to their budget, and enough working online
passes deliver to the online repository what the host has committed. -/
theorem publication_bounded_and_delivered (cursorPath controlPath : String)
    {config : ReplicateConfig} (hmax : 1 ≤ config.maxRecordsPerDrain)
    {events : List StationEvent}
    (hguard : Guarded (Station.step cursorPath controlPath config)
      (Station.Safe cursorPath controlPath config) .start events) :
    let run := runFrom (Station.step cursorPath controlPath config) Station.start
    (∀ pre c post, events = pre++.pass c::post →
      let result := runPublicationPass cursorPath controlPath config c (run pre)
      result.calls ≤ config.maxRecordsPerDrain ∧
        (∀ message, result.outcome ≠ .threw message) ∧
        (writesGate controlPath c.controlFile ≠ .ok true →
          result.calls = 0 ∧ result.station = run pre)) ∧
    ∀ calls : List PublicationCall, (∀ c ∈ calls, c.Works controlPath) →
      (run events).host.size ≤ calls.length →
      let final := (runFrom (Station.step cursorPath controlPath config) (run events)
        (calls.map .pass)).host
      (∀ it ∈ (run events).host.items, it.outcome ≠ .pending → final.Recorded it) ∧
        (run events).host.Delivered final := by
  intro run
  have hsteady {events : List StationEvent} (hguard : Guarded
      (Station.step cursorPath controlPath config) (Station.Safe cursorPath controlPath config)
      .start events) : Steady cursorPath (run events).host :=
    hguard.invariant (P := fun s => Steady cursorPath s.host) (fun _ _ hs hg => hs.step hg)
      steady_start
  refine ⟨fun pre c post hsplit => ?_,fun calls hworks hmany => ?_⟩
  · rw [hsplit] at hguard
    obtain ⟨hpre,hsafe,-⟩ := Guarded.append_iff.mp hguard
    refine ⟨(hsteady hpre).within hsafe,pass_never_throws c _,fun hclosed => ?_⟩
    have hidle : ¬c.Starts controlPath := fun h => hclosed h.2.1
    exact ⟨(runPublicationPass_idle hidle).2.1,(runPublicationPass_idle hidle).1⟩
  · obtain ⟨⟨cursor,hr,hk⟩,⟨cursor',hc⟩,hu⟩ := hsteady hguard
    have hpasses : ∀ pass ∈ calls.map (·.drain), pass.Works := by
      intro pass hpass
      obtain ⟨c,hmem,rfl⟩ := List.mem_map.mp hpass
      exact (hworks c hmem).2.2
    have hlen : (calls.map (·.drain)).length = calls.length := List.length_map _
    have hitems : (run events).host.items.length ≤ (run events).host.size := by
      rw [Host.size]
      omega
    rw [runFrom_working hworks]
    exact ⟨(hr.delivers (fun n it hit hlt _ => (hk n it hit hlt).2) hmax hpasses
      (by rw [hlen]; omega)).2.2,hc.delivers hu hmax hpasses (by rw [hlen]; exact hmany)⟩

def onlineCall : PublicationCall where
  controlFile := some (stateJson { writesEnabled := true })
  drain := steadyPass

/-- The directory of staged records cannot be written. -/
def failedStaging : PublicationCall where
  controlFile := some (stateJson { writesEnabled := true })
  offline := true
  drain := { writer := fun _ => .failed "file writer: cannot stage record" false }

def sampleStation (config : ReplicateConfig) (events : List StationEvent) : Station :=
  runFrom (Station.step "cursor.json" "control.json" config) .start events

def patientRun : List StationEvent :=
  [.write (.append none (sampleArgs 65 0)),.write (.commit none 1 true),.pass failedStaging,
    .pass onlineCall]

theorem publication_bounded_and_delivered_sample :
    Guarded (Station.step "cursor.json" "control.json" {})
      (Station.Safe "cursor.json" "control.json" {}) .start patientRun ∧
    ∀ it ∈ (sampleStation {} patientRun).host.items, it.outcome ≠ .pending →
      (runFrom (Station.step "cursor.json" "control.json" {}) (sampleStation {} patientRun)
        ([onlineCall,onlineCall].map .pass)).host.Recorded it := by
  have hguard : Guarded (Station.step "cursor.json" "control.json" {})
      (Station.Safe "cursor.json" "control.json" {}) .start patientRun := by
    refine ⟨⟨by change _ < _; decide +kernel,by change _ < _; decide +kernel⟩,⟨trivial,trivial⟩,
      fun _ cursor hload => ?_,fun _ cursor hload => ?_,trivial⟩
    · obtain rfl : ({} : ReplicateCursor) = cursor := Except.ok.inj hload
      exact ⟨.inr (.inr ⟨0,by decide,nofun⟩),.inr (.inr ⟨0,Nat.zero_le _,nofun⟩)⟩
    · have hload' : loadReplicateCursor (sampleStation {} (patientRun.take 3)).host.cursorFile
          "cursor.json" = .ok {} := by decide +kernel
      obtain rfl : ({} : ReplicateCursor) = cursor := Except.ok.inj (hload'.symm.trans hload)
      have hnone : ((sampleStation {} (patientRun.take 3)).host.input {}
          onlineCall.drain).withdrawnInWindow 1 = 0 := by decide +kernel
      refine ⟨.inl hnone,.inr ?_⟩
      decide +kernel
  refine ⟨hguard,((publication_bounded_and_delivered "cursor.json" "control.json" (by decide)
    hguard).2 [onlineCall,onlineCall] (fun c hc => ?_) (by decide +kernel)).1⟩
  obtain rfl : c = onlineCall := by simpa using hc
  exact ⟨⟨rfl,by decide +kernel,rfl,.inr rfl⟩,rfl,rfl,rfl,fun _ => rfl,rfl⟩

/-- An entry is staged by an offline pass. -/
def stagedRun : List StationEvent :=
  [.write (.append none (sampleArgs 65 0)),.write (.commit none 1 true),
    .pass { onlineCall with offline := true }]

/-- Two published entries are withdrawn. -/
def withdrawnRun : List StationEvent :=
  [.write (.append none (sampleArgs 65 0)),.write (.append none (sampleArgs 66 0)),
    .write (.commit none 1 true),.write (.commit none 2 true),.pass onlineCall,
    .pass onlineCall,.write (.withdraw none 1),.write (.withdraw none 2)]

/-- However many online passes follow, the staged entry has no record online; and a pass with a
budget of one record asks the writer twice. -/
theorem staged_entry_undelivered :
    (∃ it, (sampleStation {} stagedRun).host.items[0]? = some it ∧ it.outcome = .learned ∧
      ∀ calls : List PublicationCall, (∀ c ∈ calls, c.Works "control.json") →
        (runFrom (Station.step "cursor.json" "control.json" {}) (sampleStation {} stagedRun)
          (calls.map .pass)).host.records (observationKey it.entry.id) = none) ∧
    (runPublicationPass "cursor.json" "control.json" ⟨1,200⟩ onlineCall
      (sampleStation ⟨1,200⟩ withdrawnRun)).calls = 2 := by
  refine ⟨?_,by decide +kernel⟩
  obtain ⟨it,hit⟩ : ∃ it, (sampleStation {} stagedRun).host.items[0]? = some it :=
    Option.isSome_iff_exists.mp (by decide +kernel)
  have hfirst : (sampleStation {} stagedRun).host.items[0]?.map
      (fun it => (it.outcome,it.entry.id)) = some (.learned,1) := by decide +kernel
  rw [hit] at hfirst
  obtain ⟨houtcome,hid⟩ := Prod.mk.inj (Option.some.inj hfirst)
  have hnone : (sampleStation {} stagedRun).host.records (observationKey it.entry.id) = none := by
    have : ((sampleStation {} stagedRun).host.records (observationKey 1)).isNone = true := by
      decide +kernel
    rw [hid]
    exact Option.isNone_iff_eq_none.mp this
  have hrooms : Guarded (Host.step "cursor.json" {}) Host.Roomy .start
      [.write (.append none (sampleArgs 65 0)),.write (.commit none 1 true)] :=
    ⟨by change _ < _; decide +kernel,trivial,trivial⟩
  obtain ⟨cursor,hr⟩ := hrooms.invariant (P := fun g => ∃ c, Ready "cursor.json" g c)
    (fun g a hs hg => Ready.step hs hg) ⟨{},ready_start⟩
  have hready : Ready "cursor.json" (sampleStation {} stagedRun).host ⟨2,0,0,0,0⟩ :=
    ⟨hr.numbered,hr.few,hr.fits,hr.kinds,by decide +kernel,by decide,by decide +kernel⟩
  refine ⟨it,hit,houtcome,fun calls hworks => ?_⟩
  rw [runFrom_working hworks]
  exact hready.overtaken hit (by decide) (by rw [houtcome]; decide) hnone _

end Atperson.Replicate
