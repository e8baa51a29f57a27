import Atperson.Core.History

/-!
# Migrations at their boundaries

What a replay with migrations does, act by act. The chain is checked before anything else is
done. Behind the check the entries and the migrations are merged by the ledger ids, and what
becomes of an entry makes no difference to the migrations at its id.
-/
namespace Atperson.Core
open Ledger (Status Item IdsMatch LedgerEntry ConversationContext)

inductive Act where
  | entry (e : LedgerEntry)
  | migration (m : Migration)

namespace Act

def entryOf : Act → Option LedgerEntry
  | .entry e => some e
  | .migration _ => none

def migrationOf : Act → Option Migration
  | .entry _ => none
  | .migration m => some m

/-- Of an entry and a migration, the entry comes first if its id is within the boundary, and
the migration otherwise. -/
def Heeds : Act → Act → Prop
  | .entry e, .migration m => e.id ≤ m.ledgerBoundaryId
  | .migration m, .entry e => m.ledgerBoundaryId < e.id
  | _, _ => True

end Act

/-- Acts done one after another, each of them successfully. -/
inductive Enacts (U : Utf8proc) (env : UInt64 → IndexEnv) (items : List Item) :
    Graph → List Act → Graph → Prop
  | nil (g : Graph) : Enacts U env items g [] g
  | entry {g g' g'' : Graph} {e : LedgerEntry} {context : ConversationContext} {what : Replayed}
      {acts : List Act} (hcontext : Ledger.entryContext items e.id = (.ok,context))
      (hentry : replayEntry U env items g e context = (g',.ok what))
      (hrest : Enacts U env items g' acts g'') : Enacts U env items g (.entry e::acts) g''
  | migration {g g' g'' : Graph} {m : Migration} {acts : List Act}
      (hexpand : g.expandNeural m = (g',.ok)) (hrest : Enacts U env items g' acts g'') :
      Enacts U env items g (.migration m::acts) g''

/-- The chain a replay asks for: valid migrations from the topology of the graph on, each from
where the last one led, in the order of their boundaries and within the ledger. -/
structure Chained (items : List Item) (g : Graph) (ms : List Migration) : Prop where
  start : ∀ m ∈ ms.head?, m.source = g.neuralArchitecture
  valid : ∀ m ∈ ms, m.valid = true
  joined : ms.IsChain fun a b => a.target = b.source
  ordered : ms.IsChain fun a b => a.ledgerBoundaryId ≤ b.ledgerBoundaryId
  covered : ∀ m ∈ ms.getLast?,
    m.ledgerBoundaryId ≤ (items.getLast?.map fun it => it.entry.id).getD 0

section Boundaries
variable {U : Utf8proc} {env : UInt64 → IndexEnv} {items : List Item} {g g' g'' : Graph}
  {ms : List Migration} {acts acts' : List Act}

/-! ## The check -/

theorem brokenMigration_none (previous : Option Migration) (ms : List Migration) :
    brokenMigration previous ms = none ↔ (∀ m ∈ ms, m.valid = true) ∧
      (previous.toList++ms).IsChain fun a b =>
        a.ledgerBoundaryId ≤ b.ledgerBoundaryId ∧ a.target = b.source := by
  induction ms generalizing previous with
  | nil => cases previous <;> simp [brokenMigration]
  | cons m rest ih =>
      have hrest := ih (some m)
      unfold brokenMigration
      by_cases hvalid : m.valid = true
      · cases previous with
        | none => simpa [hvalid] using hrest
        | some p =>
            by_cases hnext : p.ledgerBoundaryId ≤ m.ledgerBoundaryId ∧ p.target = m.source
            · simpa [hvalid,hnext,List.isChain_cons_cons] using hrest
            · simp [hvalid,hnext,List.isChain_cons_cons]
      · simp [hvalid]

theorem isChain_and {α : Type} {R S : α → α → Prop} (as : List α) :
    (as.IsChain fun a b => R a b ∧ S a b) ↔ as.IsChain R ∧ as.IsChain S := by
  simp only [List.isChain_iff_getElem]
  exact ⟨fun h => ⟨fun i hi => (h i hi).1,fun i hi => (h i hi).2⟩,
    fun h i hi => ⟨h.1 i hi,h.2 i hi⟩⟩

/-- The check passes the chains and no others. -/
theorem validate_cases (items : List Item) (g : Graph) (ms : List Migration) :
    Chained items g ms ∧ validateReplayMigrations items g ms = (.ok,0) ∨
      ¬Chained items g ms ∧
        ∃ boundary, validateReplayMigrations items g ms = (.migration,boundary) := by
  cases ms with
  | nil => exact .inl ⟨⟨nofun,nofun,.nil,.nil,nofun⟩,rfl⟩
  | cons first rest =>
      have hbroken := brokenMigration_none none (first::rest)
      rw [Option.toList_none,List.nil_append,isChain_and] at hbroken
      have hlast : (first::rest).getLast? = some ((first::rest).getLastD first) := by
        rw [List.getLastD_eq_getLast?,List.getLast?_cons,Option.getD_some]
      simp only [validateReplayMigrations]
      by_cases hstart : g.neuralArchitecture = first.source
      · rw [if_neg (not_not.mpr hstart)]
        cases hb : brokenMigration none (first::rest) with
        | some m =>
            refine .inr ⟨fun h => ?_,_,rfl⟩
            rw [hbroken.mpr ⟨h.valid,h.ordered,h.joined⟩] at hb
            cases hb
        | none =>
            obtain ⟨hvalid,hordered,hjoined⟩ := hbroken.mp hb
            dsimp only
            split
            · rename_i hcovered
              refine .inl ⟨⟨fun m hm => ?_,hvalid,hjoined,hordered,fun m hm => ?_⟩,rfl⟩
              · obtain rfl := Option.some.inj hm
                exact hstart.symm
              · obtain rfl := Option.some.inj (hlast.symm.trans hm)
                exact hcovered
            · rename_i hcovered
              exact .inr ⟨fun h => hcovered (h.covered _ hlast),_,rfl⟩
      · rw [if_pos hstart]
        exact .inr ⟨fun h => hstart (h.start first rfl).symm,_,rfl⟩

theorem Chained.sorted (h : Chained items g ms) :
    ms.Pairwise fun a b => a.ledgerBoundaryId ≤ b.ledgerBoundaryId := by
  let boundaries : Migration → Migration → Prop := fun a b =>
    a.ledgerBoundaryId ≤ b.ledgerBoundaryId
  have : Trans boundaries boundaries boundaries := ⟨UInt64.le_trans⟩
  exact List.IsChain.pairwise (R := boundaries) h.ordered

/-! ## Acts -/

theorem Enacts.append (h : Enacts U env items g acts g') (h' : Enacts U env items g' acts' g'') :
    Enacts U env items g (acts++acts') g'' := by
  induction h with
  | nil => exact h'
  | entry hcontext hentry _ ih => exact .entry hcontext hentry (ih h')
  | migration hexpand _ ih => exact .migration hexpand (ih h')

theorem expandNeural_topology {m : Migration} (h : g.expandNeural m = (g',.ok)) :
    g'.neuralArchitecture = m.target := by
  unfold Graph.expandNeural at h
  split at h
  · cases h
  · split at h
    · cases h
    · cases h
      rfl

/-- Acts leave the topology of the last migration among them. -/
theorem Enacts.topology (h : Enacts U env items g acts g') : g'.neuralArchitecture =
    ((acts.filterMap Act.migrationOf).getLast?.map Migration.target).getD
      g.neuralArchitecture := by
  induction h with
  | nil => rfl
  | entry _ hentry _ ih => rw [ih,(retains_replayEntry hentry).topology rfl]; rfl
  | migration hexpand _ ih =>
      rw [ih,expandNeural_topology hexpand,List.filterMap_cons]
      dsimp only [Act.migrationOf]
      rw [List.getLast?_cons]
      cases (List.filterMap Act.migrationOf _).getLast? <;> rfl

theorem filterMap_migrations (ms : List Migration) :
    (ms.map Act.migration).filterMap Act.entryOf = [] ∧
      (ms.map Act.migration).filterMap Act.migrationOf = ms := by
  induction ms with
  | nil => exact ⟨rfl,rfl⟩
  | cons m rest ih => simpa [Act.entryOf,Act.migrationOf] using ih

theorem mem_entryOf {e : LedgerEntry} (h : Act.entry e ∈ acts) :
    e ∈ acts.filterMap Act.entryOf :=
  List.mem_filterMap.mpr ⟨_,h,rfl⟩

theorem mem_migrationOf {m : Migration} (h : Act.migration m ∈ acts) :
    m ∈ acts.filterMap Act.migrationOf :=
  List.mem_filterMap.mpr ⟨_,h,rfl⟩

/-- The migrations at an id are applied, one after another. -/
theorem applies_enacts {boundary : UInt64} {report : ReplayReport} {s : ReplayState}
    (h : applyReplayMigrations boundary g report ms = (s,.ok)) :
    ∃ done, ms = done++s.pending ∧ (∀ m ∈ done, m.ledgerBoundaryId = boundary) ∧
      Enacts U env items g (done.map Act.migration) s.graph ∧
      s.report.migrationsApplied = report.migrationsApplied+done.length := by
  induction ms generalizing g report with
  | nil =>
      cases h
      exact ⟨[],rfl,nofun,.nil g,rfl⟩
  | cons m rest ih =>
      unfold applyReplayMigrations at h
      split at h
      · rename_i hat
        split at h
        · rename_i hexp
          obtain ⟨done,rfl,hdone,henacts,hcount⟩ := ih h
          refine ⟨m::done,rfl,?_,.migration hexp henacts,?_⟩
          · exact List.forall_mem_cons.mpr ⟨hat,hdone⟩
          · rw [hcount,List.length_cons]
            dsimp only
            omega
        · rename_i hne _
          cases h
          exact absurd rfl hne
      · cases h
        exact ⟨[],rfl,nofun,.nil g,rfl⟩

theorem count_migrationsApplied (r : ReplayReport) (what : Replayed) :
    (r.count what).migrationsApplied = r.migrationsApplied := by
  cases what <;> rfl

/-- A round of the loop: the entry, whatever becomes of it, and the migrations at its id. -/
theorem step_enacts {s s' : ReplayState} {e : LedgerEntry}
    (h : replayStep U env items s e = (s',.ok)) :
    ∃ done, s.pending = done++s'.pending ∧ (∀ m ∈ done, m.ledgerBoundaryId = e.id) ∧
      (∀ m ∈ s.pending.head?, e.id ≤ m.ledgerBoundaryId) ∧
      Enacts U env items s.graph (.entry e::done.map Act.migration) s'.graph ∧
      s'.report.migrationsApplied = s.report.migrationsApplied+done.length := by
  unfold replayStep at h
  split at h
  · cases h
  · rename_i hahead
    split at h
    · cases h
    · split at h
      · rename_i hcontext
        split at h
        · rename_i hentry
          obtain ⟨done,hp,hdone,henacts,hcount⟩ :=
            @applies_enacts U env items _ _ _ _ _ h
          refine ⟨done,hp,hdone,fun m hm => ?_,.entry hcontext hentry henacts,?_⟩
          · have hnot := Option.filter_eq_none_iff.mp hahead m hm
            simpa using hnot
          · rw [hcount,count_migrationsApplied]
        · rename_i status hentry
          have hstatus : status = .ok := congrArg Prod.snd h
          exact absurd hstatus (replayEntry_error hentry)
      · cases h

/-! ## The order of the acts -/

theorem ascending (hids : IdsMatch items) :
    (items.map Item.entry).Pairwise fun a b => a.id < b.id := by
  refine List.pairwise_iff_getElem.mpr fun i j hi hj hij => ?_
  rw [List.length_map] at hi hj
  rw [List.getElem_map,List.getElem_map,UInt64.lt_iff_toNat_lt,
    hids i _ (List.getElem?_eq_getElem hi),hids j _ (List.getElem?_eq_getElem hj)]
  omega

theorem positive (hids : IdsMatch items) : ∀ e ∈ items.map Item.entry, 0 < e.id := by
  intro e he
  obtain ⟨it,hit,rfl⟩ := List.mem_map.mp he
  obtain ⟨i,hi⟩ := List.mem_iff_getElem?.mp hit
  rw [UInt64.lt_iff_toNat_lt,hids i it hi]
  exact Nat.succ_pos i

theorem ahead_all {id : UInt64} (hordered : ms.Pairwise fun a b =>
    a.ledgerBoundaryId ≤ b.ledgerBoundaryId) (hahead : ∀ m ∈ ms.head?, id ≤ m.ledgerBoundaryId) :
    ∀ m ∈ ms, id ≤ m.ledgerBoundaryId := by
  cases ms with
  | nil => nofun
  | cons m rest =>
      have hm : id ≤ m.ledgerBoundaryId := hahead m rfl
      exact List.forall_mem_cons.mpr
        ⟨hm,fun x hx => UInt64.le_trans hm ((List.pairwise_cons.mp hordered).1 x hx)⟩

/-- The migrations at an id, and behind them acts on later entries. -/
theorem heeds_done {id : UInt64} {done : List Migration}
    (hdone : ∀ m ∈ done, m.ledgerBoundaryId = id) (horder : acts.Pairwise Act.Heeds)
    (hlater : ∀ e ∈ acts.filterMap Act.entryOf, id < e.id) :
    (done.map Act.migration++acts).Pairwise Act.Heeds := by
  refine List.pairwise_append.mpr ⟨List.pairwise_map.mpr ?_,horder,fun a ha b hb => ?_⟩
  · exact List.pairwise_of_forall fun _ _ => trivial
  · obtain ⟨m,hm,rfl⟩ := List.mem_map.mp ha
    cases b with
    | entry e =>
        change m.ledgerBoundaryId < e.id
        rw [hdone m hm]
        exact hlater e (mem_entryOf hb)
    | migration => trivial

theorem replayFrom_enacts {s s' : ReplayState} {entries : List LedgerEntry}
    (hentries : entries.Pairwise fun a b => a.id < b.id)
    (hpending : s.pending.Pairwise fun a b => a.ledgerBoundaryId ≤ b.ledgerBoundaryId)
    (h : replayFrom U env items s entries = (s',.ok)) :
    ∃ acts, Enacts U env items s.graph acts s'.graph ∧ acts.filterMap Act.entryOf = entries ∧
      acts.filterMap Act.migrationOf = s.pending ∧ acts.Pairwise Act.Heeds ∧
      s'.report.migrationsApplied = s.report.migrationsApplied+s.pending.length := by
  induction entries generalizing s with
  | nil =>
      unfold replayFrom at h
      split at h
      · rename_i hp
        cases h
        exact ⟨[],.nil _,rfl,hp.symm,.nil,by rw [hp]; rfl⟩
      · cases h
  | cons e rest ih =>
      obtain ⟨hfirst,hrest⟩ := List.pairwise_cons.mp hentries
      unfold replayFrom at h
      split at h
      · rename_i s₁ hstep
        obtain ⟨done,hp,hdone,hahead,henacts,hcount⟩ := step_enacts hstep
        rw [hp] at hpending
        obtain ⟨-,hlater,-⟩ := List.pairwise_append.mp hpending
        obtain ⟨acts,hacts,hentriesOf,hmigrations,horder,htotal⟩ := ih hrest hlater h
        have hbehind := heeds_done hdone horder (hentriesOf ▸ hfirst)
        have hall := ahead_all (hp ▸ hpending) hahead
        have hsplit := filterMap_migrations done
        refine ⟨.entry e::(done.map Act.migration++acts),henacts.append hacts,?_,?_,?_,?_⟩
        · rw [List.filterMap_cons,List.filterMap_append,hsplit.1,hentriesOf]
          rfl
        · rw [List.filterMap_cons,List.filterMap_append,hsplit.2,hmigrations,hp]
          rfl
        · refine List.pairwise_cons.mpr ⟨fun a ha => ?_,hbehind⟩
          cases a with
          | entry => trivial
          | migration m =>
              refine hall m ?_
              have hm := mem_migrationOf ha
              rwa [List.filterMap_append,hsplit.2,hmigrations,← hp] at hm
        · rw [htotal,hcount,hp,List.length_append]
          omega
      · rename_i hne _
        cases h
        exact absurd rfl hne

/-- A replay that succeeds has done all its entries and, each once, all its migrations: in
their own orders, a migration behind the entries up to its boundary and ahead of the others.
It leaves the topology of the last migration. One whose chain is not as it should be fails
with the graph as it was. -/
theorem replay_at_boundaries (U : Utf8proc) (env : UInt64 → IndexEnv) {items : List Item}
    (hids : IdsMatch items) (g : Graph) (ms : List Migration) :
    (∀ g' report, replayLedger U env items g ms = (g',report,.ok) →
      (∃ acts, Enacts U env items g acts g' ∧
        acts.filterMap Act.entryOf = items.map Item.entry ∧
        acts.filterMap Act.migrationOf = ms ∧ acts.Pairwise Act.Heeds) ∧
      g'.neuralArchitecture =
        (ms.getLast?.map Migration.target).getD g.neuralArchitecture ∧
      g'.neuralMigrations = g.neuralMigrations++ms ∧ report.migrationsApplied = ms.length) ∧
    (¬Chained items g ms → ∃ report, replayLedger U env items g ms = (g,report,.migration)) := by
  refine ⟨fun g' report h => ?_,fun hbroken => ?_⟩
  · have hhistory := (retains_replayLedger h).migrations
    have henacted : ∃ acts, Enacts U env items g acts g' ∧
        acts.filterMap Act.entryOf = items.map Item.entry ∧
        acts.filterMap Act.migrationOf = ms ∧ acts.Pairwise Act.Heeds ∧
        report.migrationsApplied = ms.length := by
      rcases validate_cases items g ms with ⟨hchained,hvalid⟩ | ⟨-,boundary,hvalid⟩
      · have hordered := hchained.sorted
        simp only [replayLedger,hvalid] at h
        split at h
        · rename_i s hstart
          obtain ⟨done,hp,hdone,henacts,hcount⟩ := @applies_enacts U env items _ _ _ _ _ hstart
          rcases hrun : replayFrom U env items s (items.map Item.entry) with ⟨s',status⟩
          rw [hrun] at h
          cases h
          rw [hp] at hordered
          obtain ⟨-,hlater,-⟩ := List.pairwise_append.mp hordered
          obtain ⟨acts,hacts,hentries,hmigrations,horder,htotal⟩ :=
            replayFrom_enacts (ascending hids) hlater hrun
          have hsplit := filterMap_migrations done
          refine ⟨done.map Act.migration++acts,henacts.append hacts,?_,?_,?_,?_⟩
          · rw [List.filterMap_append,hsplit.1,hentries]
            rfl
          · rw [List.filterMap_append,hsplit.2,hmigrations,hp]
          · exact heeds_done hdone horder (hentries ▸ positive hids)
          · rw [htotal,hcount,hp,List.length_append]
            simp [ReplayReport.zero]
        · cases h
          rename_i hne _
          exact absurd rfl hne
      · simp only [replayLedger,hvalid] at h
        cases h
    obtain ⟨acts,hacts,hentries,hmigrations,horder,hcount⟩ := henacted
    exact ⟨⟨acts,hacts,hentries,hmigrations,horder⟩,hmigrations ▸ hacts.topology,hhistory,hcount⟩
  · rcases validate_cases items g ms with ⟨hchained,-⟩ | ⟨-,boundary,hvalid⟩
    · exact absurd hchained hbroken
    · simp only [replayLedger,hvalid]
      exact ⟨_,rfl⟩

end Boundaries

namespace Sample

def widths (ws : List ℕ) : Vector ℕ maxHiddenLayers := .ofFn fun i => ws.getD i 0

def narrow : Architecture := ⟨1,1,2,1,widths [1],1⟩

def wide : Architecture := ⟨1,1,2,1,widths [2],1⟩

def deep : Architecture := ⟨1,1,2,2,widths [2,2],1⟩

def undecided : Item where
  entry := ⟨1,0,0,2,.pending,Wire.CText.truncate (Wire.CString.ofRaw [115]),Wire.CText.empty⟩
  payload := .text .none
  context := .empty

def unlearned : Graph :=
  .fresh .default narrow 1 ⟨⟨layoutLayers 2 0 0 [1,1],3,2⟩,[0,0,0],[0,0],[0,0,0],[0,0]⟩

def growing : List Migration := [⟨1,1,0,narrow,wide⟩,⟨1,1,1,wide,deep⟩]

/-- Two expansions, one ahead of an undecided entry and one behind it. -/
theorem replay_at_boundaries_grows :
    (replayLedger .plain (fun _ => .calm) [undecided] unlearned growing).1.neuralArchitecture =
      deep := by
  have hids : IdsMatch [undecided] := by
    intro i it hi
    obtain ⟨rfl,rfl⟩ : i = 0 ∧ it = undecided := by
      cases i with
      | zero => exact ⟨rfl,(Option.some.inj hi).symm⟩
      | succ i => cases hi
    rfl
  have hok : (replayLedger .plain (fun _ => .calm) [undecided] unlearned growing).2.2 = .ok := by
    decide +kernel
  exact ((replay_at_boundaries .plain (fun _ => .calm) hids unlearned growing).1 _ _
    (Prod.ext rfl (Prod.ext rfl hok))).2.1

end Sample

end Atperson.Core
