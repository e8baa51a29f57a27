import Atperson.Runs.Fallible
import Atperson.Core.History
import Atperson.Cli.Maintenance

/-!
# Where the two rebuilds agree

The rebuild of a running host is the operator's without its migrations, without the journal's
valence and without ceilings. So the two agree, and leave the ceilings as they were, exactly
where there is none of the three.
-/
namespace Atperson.Cli
open Wire
open Atperson.Core (Utf8proc IndexEnv Architecture Migration ReplayReport
  createWithArchitecture replayLedger replayFrom retains_replayLedger)
open Atperson.Sync (Thrown)
open Atperson.Journal (JournalContents JournalValence)
open Ledger (Item)
open Runs (bind_ok)

/-! ## The parts of the two rebuilds -/

section Parts
variable {U : Utf8proc} {env : UInt64 → IndexEnv} {items : List Item}

/-- A replay that succeeds under ceilings succeeds without them. -/
theorem replayGraph_unbounded {g g' : Core.Graph} {report : ReplayReport}
    (h : replayGraph U env g items [] = .ok (g',report)) :
    replayGraph U env g.unbounded items [] = .ok (g'.unbounded,report) := by
  rw [replayGraph_ok,Core.replayLedger_nil] at h ⊢
  generalize hfrom : replayFrom U env items ⟨g,[],.zero⟩ (items.map Item.entry) = r at h
  obtain ⟨s,status⟩ := r
  obtain ⟨rfl,hrest⟩ := Prod.mk.inj h
  obtain ⟨rfl,rfl⟩ := Prod.mk.inj hrest
  rw [Core.replayFrom_unbounded hfrom]

theorem checkThat_ok {condition : Bool} {what : String} {u : Unit} :
    checkThat condition what = .ok u ↔ condition = true := by
  unfold checkThat
  cases condition <;> simp

theorem applyJournalValence_ok {g g' : Core.Graph} {entry : JournalValence}
    (h : applyJournalValence g entry = .ok g') :
    g'.valenceEvents ≠ [] ∧ g'.neuralMigrations = g.neuralMigrations := by
  unfold applyJournalValence at h
  split at h
  · cases h
  · split at h
    · rename_i hv
      cases h
      exact Core.Graph.valenceEvent_ok hv
    · cases h

/-- The valence lines of a journal keep the migration history, and one of them is in the log
where there is any. -/
theorem foldlM_applyJournalValence {entries : List JournalValence} {g g' : Core.Graph}
    (h : entries.foldlM applyJournalValence g = .ok g') :
    g'.neuralMigrations = g.neuralMigrations ∧
      (g.valenceEvents ≠ [] ∨ entries ≠ [] → g'.valenceEvents ≠ []) := by
  induction entries generalizing g with
  | nil =>
      cases h
      exact ⟨rfl,fun hor => hor.resolve_right (by simp)⟩
  | cons entry rest ih =>
      rw [List.foldlM_cons] at h
      obtain ⟨g₁,h₁,hrest⟩ := bind_ok.mp h
      obtain ⟨hevents,hmig⟩ := applyJournalValence_ok h₁
      obtain ⟨hmig',hevents'⟩ := ih hrest
      exact ⟨hmig'.trans hmig,fun _ => hevents' (.inl hevents)⟩

/-- What an operator's rebuild that returns has done. -/
structure Rebuilt (U : Utf8proc) (env : UInt64 → IndexEnv) (r : RebuildResources) (g : Core.Graph)
    (items : List Item) (journal : JournalContents) (last : Core.Graph) where
  fresh : Core.Graph
  replayed : Core.Graph
  report : ReplayReport
  created : newGraph (rebuildPlan r (some g)).2.1 = .ok fresh
  replay : replayGraph U env (fresh.setCapacity (r.ceilings g.neuralArchitecture).1
    (r.ceilings g.neuralArchitecture).2) items g.neuralMigrations = .ok (replayed,report)
  topology : replayed.neuralArchitecture = g.neuralArchitecture
  valence : journal.valence.foldlM applyJournalValence replayed = .ok last

theorem runRebuild_ok {r : RebuildResources} {g last : Core.Graph} {journal : JournalContents}
    (h : runRebuild U env r (some g) items journal = .ok last) :
    Nonempty (Rebuilt U env r g items journal last) := by
  unfold runRebuild at h
  obtain ⟨-,-,h⟩ := bind_ok.mp h
  obtain ⟨-,-,h⟩ := bind_ok.mp h
  obtain ⟨-,-,h⟩ := bind_ok.mp h
  obtain ⟨fresh,hfresh,h⟩ := bind_ok.mp h
  obtain ⟨-,-,h⟩ := bind_ok.mp h
  obtain ⟨⟨replayed,report⟩,hreplay,h⟩ := bind_ok.mp h
  obtain ⟨u,htop,h⟩ := bind_ok.mp h
  obtain ⟨-,-,h⟩ := bind_ok.mp h
  exact ⟨⟨fresh,replayed,report,hfresh,hreplay,of_decide_eq_true (checkThat_ok.mp htop),h⟩⟩

/-- The operator's rebuild reads the topology and the history of the snapshot alone. -/
theorem runRebuild_congr (r : RebuildResources) {g g' : Core.Graph} (journal : JournalContents)
    (ha : g'.neuralArchitecture = g.neuralArchitecture)
    (hm : g'.neuralMigrations = g.neuralMigrations) :
    runRebuild U env r (some g') items journal = runRebuild U env r (some g) items journal := by
  have hplan : rebuildPlan r (some g') = rebuildPlan r (some g) := by
    simp only [rebuildPlan,ha,hm]
  unfold runRebuild
  rw [hplan]
  rfl

end Parts

/-! ## Agreement -/

/-- The host's rebuild has the learned state of the operator's, the ceilings it had before,
and an operator's rebuild of its snapshot reproduces it. -/
structure RebuildsAgree (U : Utf8proc) (env : UInt64 → IndexEnv) (r : RebuildResources)
    (items : List Item) (journal : JournalContents) (before hosted operated : Core.Graph) :
    Prop where
  learned : hosted.unbounded = operated.unbounded
  ceilings : hosted.config.nodeCapacityMax = before.config.nodeCapacityMax ∧
    hosted.config.edgeCapacityMax = before.config.edgeCapacityMax
  reproduced : ∃ again, runRebuild U env r (some hosted) items journal = .ok again ∧
    again.unbounded = hosted.unbounded

/-- For every graph, ledger and journal from which the operator's rebuild returns: the host's
rebuild agrees with it exactly where the graph has no migrations and no ceilings and the
journal has no valence. -/
theorem rebuilds_agree (U : Utf8proc) (env : UInt64 → IndexEnv) (r : RebuildResources)
    (g : Core.Graph) (items : List Item) (journal : JournalContents) {operated : Core.Graph}
    (h : runRebuild U env r (some g) items journal = .ok operated) :
    (∃ hosted report, rebuildFromLedger U env g items = .ok (hosted,report) ∧
      RebuildsAgree U env r items journal g hosted operated) ↔
    g.neuralMigrations = [] ∧ journal.valence = [] ∧ g.config.nodeCapacityMax = 0 ∧
      g.config.edgeCapacityMax = 0 := by
  obtain ⟨⟨fresh,replayed,report,hcreated,hreplay,htop,hvalence⟩⟩ := runRebuild_ok h
  obtain ⟨hunbounded,hmig,hevents,hnodes,hedges⟩ := newGraph_ok hcreated
  constructor
  · rintro ⟨hosted,report₁,hhost,hagree⟩
    obtain ⟨fresh₁,hfresh₁,hreplay₁⟩ := bind_ok.mp hhost
    obtain ⟨-,hmig₁,hevents₁,hnodes₁,hedges₁⟩ := newGraph_ok hfresh₁
    have hhosted := retains_replayLedger (replayGraph_ok.mp hreplay₁)
    have hoperated := retains_replayLedger (replayGraph_ok.mp hreplay)
    obtain ⟨hmig',hevents'⟩ := foldlM_applyJournalValence hvalence
    refine ⟨?_,?_,?_,?_⟩
    · have hm := congrArg Core.Graph.neuralMigrations hagree.learned
      change hosted.neuralMigrations = operated.neuralMigrations at hm
      have hf : (fresh.setCapacity (r.ceilings g.neuralArchitecture).1
          (r.ceilings g.neuralArchitecture).2).neuralMigrations = [] := hmig
      rw [hmig',hoperated.migrations,hf,hhosted.migrations,hmig₁] at hm
      exact hm.symm
    · by_contra hne
      have he := congrArg Core.Graph.valenceEvents hagree.learned
      change hosted.valenceEvents = operated.valenceEvents at he
      rw [hhosted.events,hevents₁] at he
      exact hevents' (.inr hne) he.symm
    · rw [← hagree.ceilings.1,hhosted.config,hnodes₁]
    · rw [← hagree.ceilings.2,hhosted.config,hedges₁]
  · rintro ⟨hnone,hsilent,hn,he⟩
    have hplan : (rebuildPlan r (some g)).2.1 = g.neuralArchitecture := by
      simp [rebuildPlan,hnone]
    rw [hplan] at hcreated
    rw [hnone] at hreplay
    have hhost := replayGraph_unbounded hreplay
    rw [Core.Graph.unbounded_setCapacity,hunbounded] at hhost
    rw [hsilent] at hvalence
    obtain rfl : replayed = operated := Except.ok.inj hvalence
    have hret := retains_replayLedger (replayGraph_ok.mp hhost)
    refine ⟨replayed.unbounded,report,bind_ok.mpr ⟨_,hcreated,hhost⟩,rfl,?_,?_⟩
    · rw [hret.config,hnodes,hedges,hn,he]
      exact ⟨rfl,rfl⟩
    · refine ⟨replayed,?_,rfl⟩
      have hsame : replayed.unbounded.neuralMigrations = g.neuralMigrations := by
        rw [hret.migrations,hmig,hnone]
        rfl
      have hcongr : runRebuild U env r (some replayed.unbounded) items journal =
          runRebuild U env r (some g) items journal := runRebuild_congr r journal htop hsame
      exact hcongr.trans h

/-! One learned text, with or without a valence event for its token. -/

def learnedItem : Item where
  entry := ⟨1,5,Ledger.digest [97],2,.learned,CText.truncate (CString.ofRaw [115]),CText.empty⟩
  payload := .text ⟨[97],by decide⟩
  context := .empty

def neutralSignal : Single := ⟨.finite 0,by simp [Double.narrow,roundSingle,roundEven]⟩

def valenceLine : JournalValence where
  token := [97]
  kind := utf8 "approach"
  signal := neutralSignal
  source := [111]
  atEpoch := 9
  time := []
  provenance := []

def amplyResourced : RebuildResources where
  writeHeadroom := true
  snapshotHeadroom := true
  rebuildHeadroom := true
  neuralHeadroom := fun _ _ _ => true
  ceilings := fun _ => (0,0)
  neural := .legacy

def sampleRebuild (persisted : Option Core.Graph) (journal : JournalContents) :
    Except Thrown Core.Graph :=
  runRebuild .plain (fun _ => .calm) amplyResourced persisted [learnedItem] journal

/-- The events in the logs of both rebuilds of a live graph. -/
def sampleEvents : Option (ℕ×ℕ) :=
  (sampleRebuild none {valence := [valenceLine]}).toOption.bind fun live =>
    (sampleRebuild (some live) {valence := [valenceLine]}).toOption.bind fun operated =>
      (rebuildFromLedger .plain (fun _ => .calm) live [learnedItem]).toOption.map fun hosted =>
        (hosted.1.valenceEvents.length,operated.valenceEvents.length)

theorem toOption_some {α : Type} {x : Except Thrown α} {a : α} (h : x.toOption = some a) :
    x = .ok a := by
  cases x with
  | ok b => exact congrArg Except.ok (Option.some.inj h)
  | error e => cases h

/-- The host's rebuild forgets the event that the operator's keeps. -/
theorem hosted_rebuild_drops_valence : ∃ live operated hosted report,
    sampleRebuild none {valence := [valenceLine]} = .ok live ∧
    sampleRebuild (some live) {valence := [valenceLine]} = .ok operated ∧
    rebuildFromLedger .plain (fun _ => .calm) live [learnedItem] = .ok (hosted,report) ∧
    ¬RebuildsAgree .plain (fun _ => .calm) amplyResourced [learnedItem]
      {valence := [valenceLine]} live hosted operated := by
  have hevents : sampleEvents = some (0,1) := by decide +kernel
  obtain ⟨live,hlive,hevents⟩ := Option.bind_eq_some_iff.mp hevents
  obtain ⟨operated,hoperated,hevents⟩ := Option.bind_eq_some_iff.mp hevents
  obtain ⟨⟨hosted,report⟩,hhosted,hevents⟩ := Option.map_eq_some_iff.mp hevents
  refine ⟨live,operated,hosted,report,toOption_some hlive,toOption_some hoperated,
    toOption_some hhosted,fun h => ?_⟩
  obtain ⟨h0,h1⟩ := Prod.mk.inj hevents
  have he := congrArg (fun g : Core.Graph => g.valenceEvents.length) h.learned
  change hosted.valenceEvents.length = operated.valenceEvents.length at he
  rw [he,h1] at h0
  cases h0

/-- What the condition asks of a live graph. -/
def unmarked (g : Core.Graph) : Bool :=
  g.neuralMigrations.length = 0 ∧ g.config.nodeCapacityMax = 0 ∧ g.config.edgeCapacityMax = 0

def sampleUnmarked : Option Bool :=
  (sampleRebuild none {}).toOption.bind fun live =>
    (sampleRebuild (some live) {}).toOption.map fun _ => unmarked live

theorem rebuilds_agree_sample : ∃ live operated, sampleRebuild none {} = .ok live ∧
    sampleRebuild (some live) {} = .ok operated ∧ ∃ hosted report,
      rebuildFromLedger .plain (fun _ => .calm) live [learnedItem] = .ok (hosted,report) ∧
      RebuildsAgree .plain (fun _ => .calm) amplyResourced [learnedItem] {} live hosted
        operated := by
  have hlive : sampleUnmarked = some true := by decide +kernel
  obtain ⟨live,hl,hrest⟩ := Option.bind_eq_some_iff.mp hlive
  obtain ⟨operated,ho,hmarks⟩ := Option.map_eq_some_iff.mp hrest
  obtain ⟨hm,hn,he⟩ := of_decide_eq_true hmarks
  exact ⟨live,operated,toOption_some hl,toOption_some ho,
    (rebuilds_agree .plain (fun _ => .calm) amplyResourced live [learnedItem] {}
      (toOption_some ho)).mpr ⟨List.length_eq_zero_iff.mp hm,rfl,hn,he⟩⟩

end Atperson.Cli
