import Atperson.Core.ValenceFold
import Atperson.Core.Lineage
import Atperson.Cli.TwoRebuilds

/-!
# What a rebuild needs

A rebuild replays the ledger along the lineage of the snapshot and then applies the valence
lines of the journal one after the other. A line names its token by spelling: it is refused
where no text that is still learned has the token.
-/
namespace Atperson.Cli
open Wire
open Atperson.Core (Utf8proc IndexEnv Architecture Migration Token ValenceRecord Lineage Blank
  Spells Vocabulary Restored readings Legible recordOf markRecord clampSignal effectiveValenceRate
  valenceKindFromName layoutBuild replayLedger_restores)
open Atperson.Sync (Thrown)
open Atperson.Journal (JournalContents JournalValence)
open Ledger (Item IdsMatch Sourced)
open Runs (bind_ok)

/-! ## The valence lines of a journal -/

/-- The token a line names, if it fits one. -/
def lineToken (entry : JournalValence) : Option Token :=
  CText.ofCString? (CString.ofRaw entry.token)

/-- A line as a live graph accepts it: of a known kind, with a finite signal. -/
def Sayable (entry : JournalValence) : Prop :=
  (valenceKindFromName entry.kind).isSome = true ∧ ∃ q, entry.signal.value = .finite q

/-- The record of a token's node after one more line. -/
def markLine (rate : Float32) (node : ℕ) (t : Token) (r : Option ValenceRecord)
    (entry : JournalValence) : Option ValenceRecord :=
  match entry.signal.value with
  | .finite q =>
      if lineToken entry = some t then some (markRecord rate node (clampSignal q) entry.atEpoch r)
      else r
  | _ => r

/-- The valence of every known token is the fold of its own lines. -/
def Folded (entries : List JournalValence) (g : Core.Graph) : Prop :=
  ∀ t i, g.findNode t = some i → recordOf i g.valenceRecords =
    entries.foldl (markLine (effectiveValenceRate g.config) i t) none

section Lines
variable {g g' : Core.Graph} {entry : JournalValence} {entries : List JournalValence}

theorem findToken_eq (g : Core.Graph) (entry : JournalValence) :
    g.findToken (CString.ofRaw entry.token) = (lineToken entry).bind g.findNode := rfl

theorem applyJournalValence_marks (h : applyJournalValence g entry = .ok g') :
    Sayable entry ∧
      Core.Graph.Marked g g' (CString.ofRaw entry.token) entry.signal entry.atEpoch := by
  unfold applyJournalValence at h
  split at h
  · cases h
  · rename_i kind hkind
    split at h
    · rename_i hv
      cases h
      have hmarks := Core.Graph.valenceEvent_marks hv
      obtain ⟨q,-,hq,-⟩ := hmarks.record
      exact ⟨⟨by rw [hkind]; rfl,q,hq⟩,hmarks⟩
    · cases h

theorem applyJournalValence_accepts (hsay : Sayable entry) {t : Token} {i : ℕ}
    (ht : lineToken entry = some t) (hi : g.findNode t = some i) :
    ∃ g', applyJournalValence g entry = .ok g' := by
  obtain ⟨hkind,q,hq⟩ := hsay
  obtain ⟨kind,hkind⟩ := Option.isSome_iff_exists.mp hkind
  have hnode : g.findToken (CString.ofRaw entry.token) = some i := by
    rw [findToken_eq,ht]
    exact hi
  obtain ⟨g',hg'⟩ := Core.Graph.valenceEvent_accepted hq hnode kind entry.atEpoch
    (CString.ofRaw entry.source)
  unfold applyJournalValence
  rw [hkind]
  simp only [hg']
  exact ⟨g',rfl⟩

/-- A line moves the record of its own token. -/
theorem marked_record (h : applyJournalValence g entry = .ok g') {t : Token} {i : ℕ}
    (hi : g.findNode t = some i) : recordOf i g'.valenceRecords =
      markLine (effectiveValenceRate g.config) i t (recordOf i g.valenceRecords) entry := by
  obtain ⟨-,hmarks⟩ := applyJournalValence_marks h
  obtain ⟨q,node,hq,hnode,hrecord⟩ := hmarks.record
  rw [findToken_eq] at hnode
  obtain ⟨t',ht',hnode⟩ := Option.bind_eq_some_iff.mp hnode
  rw [hrecord,markLine,hq]
  simp only [ht',Option.some.injEq]
  by_cases he : t' = t
  · subst he
    obtain rfl := Option.some.inj (hnode.symm.trans hi)
    rw [if_pos rfl,if_pos rfl]
  · have hne : i ≠ node := by
      rintro rfl
      rw [Core.Graph.findNode_eq] at hi hnode
      have hsame : g.outline.find t' = g.outline.find t := hnode.trans hi.symm
      exact he (Core.Outline.find_inj (hsame.trans hi) hi)
    rw [if_neg hne,if_neg he]

/-- What a fold over the lines leaves where none is refused. -/
structure Applied (entries : List JournalValence) (g g' : Core.Graph) : Prop where
  config : g'.config = g.config
  nodes : g'.nodes = g.nodes
  topology : g'.neuralArchitecture = g.neuralArchitecture
  migrations : g'.neuralMigrations = g.neuralMigrations
  known : ∀ entry ∈ entries, ∃ t i, lineToken entry = some t ∧ g.findNode t = some i
  records : ∀ t i, g.findNode t = some i → recordOf i g'.valenceRecords =
    entries.foldl (markLine (effectiveValenceRate g.config) i t) (recordOf i g.valenceRecords)

theorem findNode_nodes (h : g'.nodes = g.nodes) (t : Token) : g'.findNode t = g.findNode t := by
  rw [Core.Graph.findNode,h]
  rfl

theorem foldlM_applied (h : entries.foldlM applyJournalValence g = .ok g') :
    Applied entries g g' := by
  induction entries generalizing g with
  | nil =>
      cases h
      exact ⟨rfl,rfl,rfl,rfl,nofun,fun _ _ _ => rfl⟩
  | cons entry rest ih =>
      rw [List.foldlM_cons] at h
      obtain ⟨g₁,h₁,hrest⟩ := bind_ok.mp h
      obtain ⟨-,hmarks⟩ := applyJournalValence_marks h₁
      have hsame := findNode_nodes hmarks.nodes
      have happ := ih hrest
      obtain ⟨-,node,-,hnode,-⟩ := hmarks.record
      rw [findToken_eq] at hnode
      obtain ⟨t,ht,hnode⟩ := Option.bind_eq_some_iff.mp hnode
      refine ⟨happ.config.trans hmarks.config,happ.nodes.trans hmarks.nodes,
        happ.topology.trans hmarks.topology,happ.migrations.trans hmarks.migrations,
        List.forall_mem_cons.mpr ⟨⟨t,node,ht,hnode⟩,fun x hx => ?_⟩,fun t i hi => ?_⟩
      · obtain ⟨t,i,ht,hi⟩ := happ.known x hx
        exact ⟨t,i,ht,by rw [← hsame]; exact hi⟩
      · rw [happ.records t i (by rw [hsame]; exact hi),marked_record h₁ hi,hmarks.config]
        rfl

theorem foldlM_accepts (hsay : ∀ entry ∈ entries, Sayable entry)
    (hknown : ∀ entry ∈ entries, ∃ t i, lineToken entry = some t ∧ g.findNode t = some i) :
    ∃ g', entries.foldlM applyJournalValence g = .ok g' := by
  induction entries generalizing g with
  | nil => exact ⟨g,rfl⟩
  | cons entry rest ih =>
      obtain ⟨hfirst,hsay⟩ := List.forall_mem_cons.mp hsay
      obtain ⟨⟨t,i,ht,hi⟩,hknown⟩ := List.forall_mem_cons.mp hknown
      obtain ⟨g₁,h₁⟩ := applyJournalValence_accepts hfirst ht hi
      obtain ⟨-,hmarks⟩ := applyJournalValence_marks h₁
      obtain ⟨g',hg'⟩ := @ih g₁ hsay fun x hx => by
        obtain ⟨t,i,ht,hi⟩ := hknown x hx
        exact ⟨t,i,ht,by rw [findNode_nodes hmarks.nodes]; exact hi⟩
      exact ⟨g',by rw [List.foldlM_cons,h₁]; exact hg'⟩

end Lines

/-! ## The rebuild -/

/-- A machine with headroom, its ceilings, and the topology it plans. -/
def RebuildResources.ample (c : ℕ×ℕ) (a : Architecture) : RebuildResources where
  writeHeadroom := true
  snapshotHeadroom := true
  rebuildHeadroom := true
  neuralHeadroom := fun _ _ _ => true
  ceilings := fun _ => c
  neural := a

/-- A topology with a network layout. -/
structure Topology where
  architecture : Architecture
  laidOut : (layoutBuild architecture).isSome = true

/-- The migrations of a graph lead to it from some topology, within the ledger. -/
def Pedigree (last : ℕ) (g : Core.Graph) : Prop :=
  ∃ a, (layoutBuild a).isSome = true ∧ Lineage last a 0 g.neuralMigrations g.neuralArchitecture

/-- What a ledger and a journal must be for a rebuild to come through: every entry is legible,
the ceilings admit the texts, and every line names a token of a text that is still learned. -/
structure Restorable (U : Utf8proc) (c : ℕ×ℕ) (items : List Item) (entries : List JournalValence) :
    Prop where
  legible : ∀ it ∈ items, Legible it
  admitted : Vocabulary.AdmitsAll c .empty (readings U items)
  named : ∀ entry ∈ entries, ∃ t, lineToken entry = some t ∧ ∃ r ∈ readings U items, t ∈ r.tokens

section Rebuild
variable {U : Utf8proc} {env : UInt64 → IndexEnv} {c : ℕ×ℕ} {a : Architecture} {items : List Item}
  {journal : JournalContents}

theorem newGraph_blank {a : Architecture} (ha : (layoutBuild a).isSome = true) (c : ℕ×ℕ) :
    ∃ g, newGraph a = .ok g ∧ Blank (g.setCapacity c.1 c.2) ∧ g.valenceRecords = [] ∧
      g.neuralArchitecture = a := by
  obtain ⟨layout,hlayout⟩ := Option.isSome_iff_exists.mp ha
  unfold newGraph Core.createWithArchitecture Core.networkInit
  rw [hlayout]
  refine ⟨_,rfl,⟨⟨?_,rfl,?_,rfl,?_,?_⟩,⟨?_,Nat.zero_le _⟩,rfl⟩,rfl,rfl⟩
  · simp [Core.Graph.outline,Core.Graph.tokens,Core.Graph.setCapacity,Core.Graph.fresh,
      Vocabulary.empty]
  · simp [Core.Outline.linked,Core.Outline.find,Core.Graph.outline,Core.Graph.tokens,
      Core.Graph.setCapacity,Core.Graph.fresh,Vocabulary.empty]
  · simp [Core.Graph.outline,Core.Graph.links,Core.Graph.setCapacity,Core.Graph.fresh]
  · exact Nat.zero_le _
  · show 0 < Core.episodeDefaultCapacity
    decide

/-- Where headroom is ample, the rebuild is the replay and the fold. -/
theorem runRebuild_ample (persisted : Option Core.Graph) :
    runRebuild U env (.ample c a) persisted items journal = (do
      let fresh ← newGraph (rebuildPlan (.ample c a) persisted).2.1
      let (rebuilt,_) ← replayGraph U env (fresh.setCapacity c.1 c.2) items
        (rebuildPlan (.ample c a) persisted).2.2
      checkThat (rebuilt.neuralArchitecture = (rebuildPlan (.ample c a) persisted).1)
        "rebuild: replay completed at a neural topology different from the persisted generation"
      journal.valence.foldlM applyJournalValence rebuilt) := by
  unfold runRebuild
  cases persisted <;> rfl

/-- The plan follows the lineage of the snapshot. -/
theorem rebuildPlan_lineage {persisted : Option Core.Graph} {n : ℕ}
    (ha : (layoutBuild a).isSome = true) (hp : ∀ g ∈ persisted, Pedigree n g) :
    (layoutBuild (rebuildPlan (.ample c a) persisted).2.1).isSome = true ∧
      Lineage n (rebuildPlan (.ample c a) persisted).2.1 0
        (rebuildPlan (.ample c a) persisted).2.2 (rebuildPlan (.ample c a) persisted).1 := by
  cases persisted with
  | none => exact ⟨ha,rfl⟩
  | some g =>
      obtain ⟨first,hfirst,hl⟩ := hp g rfl
      have hplan : (rebuildPlan (.ample c a) (some g)).2.1 = first := by
        show (g.neuralMigrations.head?.map Migration.source).getD g.neuralArchitecture = first
        cases hm : g.neuralMigrations with
        | nil =>
            rw [hm] at hl
            exact hl.symm
        | cons m rest =>
            rw [hm] at hl
            exact hl.2.1
      rw [hplan]
      exact ⟨hfirst,hl⟩

theorem mem_learned {readings : List Core.Reading} {v : Vocabulary} {t : Token} :
    t ∈ (readings.foldl Vocabulary.learn v).tokens ↔
      t ∈ v.tokens ∨ ∃ r ∈ readings, t ∈ r.tokens := by
  induction readings generalizing v with
  | nil => simp
  | cons r rest ih =>
      rw [List.foldl_cons,ih]
      simp [Vocabulary.learn,or_assoc]

/-- The tokens a restored graph knows are those of the texts that are still learned. -/
theorem restored_knows {final : Architecture} {fresh g : Core.Graph}
    (h : Restored U items final fresh g) {t : Token} :
    (∃ i, g.findNode t = some i) ↔ ∃ r ∈ readings U items, t ∈ r.tokens := by
  have hknown := (h.spells.known t).trans mem_learned
  simp only [Vocabulary.empty,Finset.notMem_empty,false_or] at hknown
  rw [← hknown,← Option.isSome_iff_exists,Core.Graph.findNode_eq,List.findIdx?_isSome,
    List.any_eq_true]
  simp [Core.Graph.outline]

/-- A rebuild from a lineage comes through, with every token's valence the fold of its lines,
exactly where ledger and journal are restorable. -/
theorem runRebuild_iff {persisted : Option Core.Graph} (hm : IdsMatch items) (hs : Sourced items)
    (ha : (layoutBuild a).isSome = true) (hp : ∀ g ∈ persisted, Pedigree items.length g)
    (hsay : ∀ entry ∈ journal.valence, Sayable entry) :
    (∃ g, runRebuild U env (.ample c a) persisted items journal = .ok g ∧
      Folded journal.valence g) ↔ Restorable U c items journal.valence := by
  rw [runRebuild_ample]
  obtain ⟨hfirst,hl⟩ := rebuildPlan_lineage (c := c) ha hp
  obtain ⟨fresh,hnew,hblank,hrecords,htopology⟩ := newGraph_blank hfirst c
  generalize rebuildPlan (.ample c a) persisted = plan at hl hnew htopology ⊢
  rw [← htopology] at hl
  obtain ⟨hreplayed,hreplays⟩ := replayLedger_restores U env hm hs hblank hl
  constructor
  · rintro ⟨g,hrun,-⟩
    obtain ⟨f,hf,hrun⟩ := bind_ok.mp hrun
    obtain rfl := Except.ok.inj (hnew.symm.trans hf)
    obtain ⟨⟨rebuilt,report⟩,hreplay,hrun⟩ := bind_ok.mp hrun
    obtain ⟨-,-,hfold⟩ := bind_ok.mp hrun
    obtain ⟨⟨hlegible,hadmitted⟩,hrestored⟩ := hreplayed _ _ (replayGraph_ok.mp hreplay)
    refine ⟨hlegible,hadmitted,fun entry he => ?_⟩
    obtain ⟨t,i,ht,hi⟩ := (foldlM_applied hfold).known entry he
    exact ⟨t,ht,(restored_knows hrestored).mp ⟨i,hi⟩⟩
  · rintro ⟨hlegible,hadmitted,hnamed⟩
    obtain ⟨rebuilt,report,hreplay⟩ := hreplays ⟨hlegible,hadmitted⟩
    obtain ⟨-,hrestored⟩ := hreplayed _ _ hreplay
    obtain ⟨g,hfold⟩ := foldlM_accepts (g := rebuilt) hsay fun entry he => by
      obtain ⟨t,ht,hr⟩ := hnamed entry he
      obtain ⟨i,hi⟩ := (restored_knows hrestored).mpr hr
      exact ⟨t,i,ht,hi⟩
    have happ := foldlM_applied hfold
    have htop : decide (rebuilt.neuralArchitecture = plan.1) = true :=
      decide_eq_true hrestored.topology
    refine ⟨g,bind_ok.mpr ⟨fresh,hnew,bind_ok.mpr ⟨(rebuilt,report),replayGraph_ok.mpr hreplay,
      bind_ok.mpr ⟨(),checkThat_ok.mpr htop,hfold⟩⟩⟩,fun t i hi => ?_⟩
    rw [findNode_nodes happ.nodes] at hi
    have hnone : recordOf i rebuilt.valenceRecords = none := by
      rw [hrestored.records]
      exact congrArg (recordOf i) hrecords
    rw [happ.records t i hi,happ.config,hnone]

end Rebuild

end Atperson.Cli
