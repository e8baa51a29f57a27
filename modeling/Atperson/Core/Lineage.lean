import Atperson.Ledger.Compact
import Atperson.Core.Relearning
import Atperson.Core.Vocabulary

/-!
# Replay along a lineage

The migrations of a graph lead from the topology it was made with to the one it has, each at
an id of the ledger. Along such a lineage every migration finds its entry, so a replay fails
only at an entry: one that cannot be replayed, or a text that a ceiling refuses.
-/
namespace Atperson.Core
open Wire
open Ledger (Status Item IdsMatch Sourced LedgerEntry)

/-! ## Lineages -/

/-- Migrations from one topology to another, in the order of their ids, from one id to
another. -/
def Lineage (last : ℕ) : Architecture → ℕ → List Migration → Architecture → Prop
  | a, _, [], final => a = final
  | a, boundary, m::rest, final =>
      m.valid = true ∧ m.source = a ∧ boundary ≤ m.ledgerBoundaryId.toNat ∧
        m.ledgerBoundaryId.toNat ≤ last ∧
        Lineage last m.target m.ledgerBoundaryId.toNat rest final

/-- The id of the last migration recorded. -/
def lastBoundary (ms : List Migration) : ℕ :=
  (ms.getLast?.map fun m => m.ledgerBoundaryId.toNat).getD 0

section Lineage
variable {last boundary : ℕ} {a final : Architecture} {ms : List Migration}

theorem Lineage.mono (h : Lineage last a boundary ms final) {last' : ℕ} (hle : last ≤ last') :
    Lineage last' a boundary ms final := by
  induction ms generalizing a boundary with
  | nil => exact h
  | cons m rest ih =>
      obtain ⟨hvalid,hsource,hlow,hhigh,hrest⟩ := h
      exact ⟨hvalid,hsource,hlow,hhigh.trans hle,ih hrest⟩

theorem lastBoundary_concat (ms : List Migration) (m : Migration) :
    lastBoundary (ms++[m]) = m.ledgerBoundaryId.toNat := by
  simp [lastBoundary]

/-- A lineage goes on with a migration from where it ends. -/
theorem Lineage.concat (h : Lineage last a boundary ms final) {m : Migration}
    (hvalid : m.valid = true) (hsource : m.source = final)
    (hlow : boundary ≤ m.ledgerBoundaryId.toNat)
    (hfollows : lastBoundary ms ≤ m.ledgerBoundaryId.toNat)
    (hhigh : m.ledgerBoundaryId.toNat ≤ last) : Lineage last a boundary (ms++[m]) m.target := by
  induction ms generalizing a boundary with
  | nil =>
      obtain rfl : a = final := h
      exact ⟨hvalid,hsource,hlow,hhigh,rfl⟩
  | cons x rest ih =>
      obtain ⟨hv,hs,hl,hh,hrest⟩ := h
      have hx : x.ledgerBoundaryId.toNat ≤ m.ledgerBoundaryId.toNat ∧
          lastBoundary rest ≤ m.ledgerBoundaryId.toNat := by
        cases rest with
        | nil => exact ⟨hfollows,Nat.zero_le _⟩
        | cons y tail =>
            have hsame : lastBoundary (x::y::tail) = lastBoundary (y::tail) := by
              simp [lastBoundary]
            rw [hsame] at hfollows
            exact ⟨(lineage_le hrest).trans hfollows,hfollows⟩
      exact ⟨hv,hs,hl,hh,ih hrest hx.1 hx.2⟩
where
  lineage_le {x y : Migration} {tail : List Migration}
      (h : Lineage last x.target x.ledgerBoundaryId.toNat (y::tail) final) :
      x.ledgerBoundaryId.toNat ≤ lastBoundary (y::tail) := by
    induction tail generalizing x y with
    | nil => exact h.2.2.1
    | cons z tail ih =>
        have hsame : lastBoundary (y::z::tail) = lastBoundary (z::tail) := by simp [lastBoundary]
        rw [hsame]
        exact h.2.2.1.trans (ih h.2.2.2.2)

theorem Lineage.lastBoundary_le (h : Lineage last a boundary ms final) :
    lastBoundary ms ≤ last := by
  induction ms generalizing a boundary with
  | nil => exact Nat.zero_le _
  | cons m rest ih =>
      obtain ⟨-,-,-,hhigh,hrest⟩ := h
      cases rest with
      | nil => exact hhigh
      | cons y tail =>
          have hsame : lastBoundary (m::y::tail) = lastBoundary (y::tail) := by simp [lastBoundary]
          rw [hsame]
          exact ih hrest

theorem Lineage.unbroken (h : Lineage last a boundary ms final) (previous : Option Migration)
    (hp : ∀ p ∈ previous, p.ledgerBoundaryId.toNat = boundary ∧ p.target = a) :
    brokenMigration previous ms = none := by
  induction ms generalizing a boundary previous with
  | nil => rfl
  | cons m rest ih =>
      obtain ⟨hvalid,hsource,hlow,-,hrest⟩ := h
      have hnext : brokenMigration (some m) rest = none := ih hrest _ fun p hp => by
        obtain rfl := Option.some.inj hp
        exact ⟨rfl,rfl⟩
      unfold brokenMigration
      cases previous with
      | none => simpa [hvalid] using hnext
      | some p =>
          obtain ⟨hb,ht⟩ := hp p rfl
          have hle : p.ledgerBoundaryId ≤ m.ledgerBoundaryId :=
            UInt64.le_iff_toNat_le.mpr (hb ▸ hlow)
          simpa [hvalid,hle,ht,hsource] using hnext

theorem Lineage.validates {items : List Item} {g : Graph}
    (hlast : (items.getLast?.map fun it => it.entry.id.toNat).getD 0 = last)
    (h : Lineage last g.neuralArchitecture boundary ms final) :
    validateReplayMigrations items g ms = (.ok,0) := by
  unfold validateReplayMigrations
  cases ms with
  | nil => rfl
  | cons m rest =>
      have hsource : g.neuralArchitecture = m.source := h.2.1.symm
      have hbound : ((m::rest).getLastD m).ledgerBoundaryId ≤
          (items.getLast?.map fun it => it.entry.id).getD 0 := by
        have hle := h.lastBoundary_le
        rw [← hlast] at hle
        rw [UInt64.le_iff_toNat_le]
        generalize items.getLast? = l at hle ⊢
        cases l with
        | none => simpa [lastBoundary,List.getLast?_cons] using hle
        | some it => simpa [lastBoundary,List.getLast?_cons] using hle
      simp only [hsource,ne_eq,not_true_eq_false,if_false,h.unbroken none nofun,
        if_pos hbound]

end Lineage

/-! ## Expansion along a lineage -/

theorem expandNodes_tokens (source target : ℕ) (rng : UInt64) (nodes : List Node) :
    (expandNodes source target rng nodes).map Node.token = nodes.map Node.token := by
  induction nodes generalizing rng with
  | nil => rfl
  | cons n rest ih =>
      rw [expandNodes,List.map_cons,List.map_cons,ih]

/-- What an expansion leaves alone. -/
structure Expanded (g g' : Graph) (m : Migration) : Prop where
  topology : g'.neuralArchitecture = m.target
  history : g'.neuralMigrations = g.neuralMigrations++[m]
  outline : g'.outline = g.outline
  config : g'.config = g.config
  records : g'.valenceRecords = g.valenceRecords
  episodes : g'.episodes = g.episodes
  episodeMax : g'.episodeMax = g.episodeMax

theorem follows_of_le {ms : List Migration} {m : Migration}
    (h : lastBoundary ms ≤ m.ledgerBoundaryId.toNat) : m.follows ms = true := by
  unfold Migration.follows
  unfold lastBoundary at h
  cases hl : ms.getLast? with
  | none => rfl
  | some x =>
      rw [hl] at h
      exact decide_eq_true (UInt64.le_iff_toNat_le.mpr h)

theorem expandNeural_along {g : Graph} {m : Migration} (hvalid : m.valid = true)
    (hsource : g.neuralArchitecture = m.source)
    (hfollows : lastBoundary g.neuralMigrations ≤ m.ledgerBoundaryId.toNat) :
    ∃ g', g.expandNeural m = (g',.ok) ∧ Expanded g g' m := by
  have htarget : (layoutBuild m.target).isSome = true := by
    simp only [Migration.valid,Bool.and_eq_true] at hvalid
    tauto
  obtain ⟨layout,hlayout⟩ := Option.isSome_iff_exists.mp htarget
  have hpass : ¬(¬m.valid = true ∨ g.neuralArchitecture ≠ m.source ∨
      ¬m.follows g.neuralMigrations = true) := by
    simp [hvalid,hsource,follows_of_le hfollows]
  unfold Graph.expandNeural
  rw [if_neg hpass,hlayout]
  refine ⟨_,rfl,rfl,rfl,?_,rfl,rfl,rfl,rfl⟩
  rw [Graph.outline,Graph.outline,Outline.mk.injEq]
  exact ⟨rfl,expandNodes_tokens _ _ _ _,rfl,rfl⟩

/-! ## The loop -/

section Loop
variable {U : Utf8proc} {env : UInt64 → IndexEnv} {items : List Item} {last : ℕ}
  {final : Architecture} {start : Graph} {v : Vocabulary}

/-- The text a replay learns from, if it learns from the item. -/
def readingOf (U : Utf8proc) (it : Item) : Option Reading :=
  match lessonOf it with
  | .learn e _ payload => some (.of U (textOf payload) e.schemaVersion)
  | _ => none

def Vocabulary.after (U : Utf8proc) (v : Vocabulary) (it : Item) : Vocabulary :=
  (readingOf U it).elim v v.learn

/-- An entry a replay can read. -/
def Legible (it : Item) : Prop :=
  schemaCanReplay it.entry.schemaVersion = true ∧ lessonOf it ≠ .unreadable

/-- An entry a replay passes. -/
def Passes (U : Utf8proc) (c : ℕ×ℕ) (v : Vocabulary) (it : Item) : Prop :=
  Legible it ∧ ∀ r ∈ readingOf U it, v.Admits c r

/-- Where a replay along a lineage stands behind the entries up to an id. -/
structure Underway (last : ℕ) (final : Architecture) (start : Graph) (v : Vocabulary) (id : ℕ)
    (s : ReplayState) : Prop where
  spells : Spells s.graph v
  roomy : Roomy s.graph
  config : s.graph.config = start.config
  records : s.graph.valenceRecords = start.valenceRecords
  lineage : Lineage last s.graph.neuralArchitecture (lastBoundary s.graph.neuralMigrations)
    s.pending final
  ahead : ∀ m ∈ s.pending.head?, id < m.ledgerBoundaryId.toNat

theorem Expanded.underway {g g' : Graph} {m : Migration} (h : Expanded g g' m)
    (hs : Spells g v) (hr : Roomy g) : Spells g' v ∧ Roomy g' :=
  ⟨hs.of_outline h.outline,hr.of_same h.episodes h.episodeMax⟩

/-- The migrations at an id apply, and those to come are ahead. -/
theorem applies_along {g : Graph} {ms : List Migration} (boundary : UInt64) (report : ReplayReport)
    (hs : Spells g v) (hr : Roomy g) (hconfig : g.config = start.config)
    (hrecords : g.valenceRecords = start.valenceRecords)
    (hl : Lineage last g.neuralArchitecture (lastBoundary g.neuralMigrations) ms final)
    (hreached : ∀ m ∈ ms.head?, boundary.toNat ≤ m.ledgerBoundaryId.toNat) :
    ∃ s, applyReplayMigrations boundary g report ms = (s,.ok) ∧
      Underway last final start v boundary.toNat s := by
  induction ms generalizing g report with
  | nil => exact ⟨_,rfl,hs,hr,hconfig,hrecords,hl,nofun⟩
  | cons m rest ih =>
      obtain ⟨hvalid,hsource,hlow,hhigh,hrest⟩ := hl
      unfold applyReplayMigrations
      split
      · rename_i hat
        obtain ⟨g',hexp,hg⟩ := expandNeural_along hvalid hsource.symm hlow
        obtain ⟨hs',hr'⟩ := hg.underway hs hr
        simp only [hexp]
        refine ih _ hs' hr' (hg.config.trans hconfig) (hg.records.trans hrecords) ?_ ?_
        · rw [hg.history,lastBoundary_concat,hg.topology]
          exact hrest
        · intro x hx
          cases rest with
          | nil => cases hx
          | cons y tail =>
              obtain rfl := Option.some.inj hx
              rw [← hat]
              exact hrest.2.2.1
      · rename_i hat
        have hlt : boundary.toNat < m.ledgerBoundaryId.toNat :=
          lt_of_le_of_ne (hreached m rfl) fun he => hat (UInt64.toNat_inj.mp he).symm
        refine ⟨_,rfl,hs,hr,hconfig,hrecords,⟨hvalid,hsource,hlow,hhigh,hrest⟩,fun x hx => ?_⟩
        obtain rfl := Option.some.inj hx
        exact hlt

/-- What an entry that is passed makes of the graph. -/
theorem Spells.teaches (env : UInt64 → IndexEnv) {g : Graph} (hs : Spells g v) (hr : Roomy g)
    {it : Item}
    (hsource : it.entry.sourceId.bytes ≠ []) (hpass : Passes U g.ceilings v it) :
    ∃ g' what, teach U env g (lessonOf it) = (g',.ok what) ∧ Spells g' (v.after U it) ∧ Roomy g' ∧
      ∃ ms, g'.backdrop = {g.backdrop with ledger := ms} := by
  have hadd : ∀ g : Graph, ∃ g', g.addLedgerEntry it.entry it.context = (g',.ok) ∧
      g'.outline = g.outline ∧ g'.episodes = g.episodes ∧
        g'.backdrop = g.backdrop.mirror ⟨it.entry,it.context⟩ := fun g => by
    rw [Graph.addLedgerEntry,if_neg hsource]
    exact ⟨_,rfl,rfl,rfl,rfl⟩
  obtain ⟨⟨-,hlegible⟩,hadmits⟩ := hpass
  unfold Vocabulary.after
  unfold readingOf at hadmits ⊢
  cases hl : lessonOf it with
  | learn e context payload =>
      obtain ⟨rfl,rfl⟩ := lessonOf_learn hl
      rw [hl] at hadmits
      obtain ⟨g₁,kept,hobs,hs₁,hr₁⟩ := hs.observes (p := provenanceOf it.entry) hr (env it.entry.id)
        (hadmits _ rfl)
      obtain ⟨g₂,hmirror,ho,he,hb⟩ := hadd g₁
      have hback := backdrop_observeWithMemory U (env it.entry.id) g (textOf payload)
        (provenanceOf it.entry)
      rw [hobs] at hback
      refine ⟨g₂,.replayed,?_,hs₁.of_outline ho,hr₁.of_same he (congrArg Backdrop.episodeMax hb),?_⟩
      · simp only [teach,relearn,hobs,hmirror]
      · exact ⟨_,by rw [hb,hback]; rfl⟩
  | mirror e context =>
      obtain ⟨rfl,rfl⟩ := lessonOf_mirror hl
      obtain ⟨g₂,hmirror,ho,he,hb⟩ := hadd g
      refine ⟨g₂,.mirrored,?_,hs.of_outline ho,hr.of_same he (congrArg Backdrop.episodeMax hb),?_⟩
      · simp only [teach,mirror,hmirror]
      · exact ⟨_,by rw [hb]; rfl⟩
  | unreadable => exact absurd hl hlegible
  | silent what => exact ⟨g,what,rfl,hs,hr,g.ledger,rfl⟩
where
  lessonOf_learn {it : Item} {e : LedgerEntry} {context : Ledger.ConversationContext}
      {payload : Bytes} (h : lessonOf it = .learn e context payload) : e = it.entry ∧ context = it.context := by
    unfold lessonOf at h
    split at h
    · split at h
      · cases h
      · split at h
        · cases h
        · cases h
          exact ⟨rfl,rfl⟩
    all_goals cases h
  lessonOf_mirror {it : Item} {e : LedgerEntry} {context : Ledger.ConversationContext}
      (h : lessonOf it = .mirror e context) : e = it.entry ∧ context = it.context := by
    unfold lessonOf at h
    split at h
    · split at h
      · cases h
      · split at h <;> cases h
    · cases h
      exact ⟨rfl,rfl⟩
    all_goals cases h

/-- An entry whose text was learned is one the replay passes. -/
theorem Spells.taught {g g' : Graph} (hs : Spells g v) {it : Item} {what : Replayed}
    (hschema : schemaCanReplay it.entry.schemaVersion = true)
    (h : teach U env g (lessonOf it) = (g',.ok what)) : Passes U g.ceilings v it := by
  unfold Passes Legible readingOf
  cases hl : lessonOf it with
  | learn e context payload =>
      refine ⟨⟨hschema,by simp⟩,fun r hr => ?_⟩
      obtain rfl := Option.some.inj hr
      rw [hl] at h
      have hlearn : relearn U env g e context payload = (g',.ok what) := h
      unfold relearn at hlearn
      rcases hobs : observeWithMemory U (env e.id) g (textOf payload) (provenanceOf e) with
        ⟨g₁,status,kept⟩
      rw [hobs] at hlearn
      cases status with
      | ok => exact hs.observed hobs
      | _ => cases hlearn
  | mirror e context => exact ⟨⟨hschema,by simp⟩,nofun⟩
  | unreadable =>
      rw [hl] at h
      cases h
  | silent what => exact ⟨⟨hschema,by simp⟩,nofun⟩

theorem Underway.ceilings {id : ℕ} {s : ReplayState} (h : Underway last final start v id s) :
    s.graph.ceilings = start.ceilings := by
  rw [Graph.ceilings,Graph.ceilings,h.config]

/-- What is ahead of the entries so far is at the next entry or behind it. -/
theorem Underway.unpassed {i : ℕ} {s : ReplayState} (h : Underway last final start v i s)
    {it : Item} (hid : it.entry.id.toNat = i+1) :
    (s.pending.head?.filter fun m => m.ledgerBoundaryId < it.entry.id) = none := by
  rw [Option.filter_eq_none_iff]
  intro m hm
  have hlt := h.ahead m hm
  rw [decide_eq_true_eq,UInt64.lt_iff_toNat_lt,hid]
  omega

/-- The next entry is passed where it passes. -/
theorem Underway.step (env : UInt64 → IndexEnv) {i : ℕ} {s : ReplayState}
    (h : Underway last final start v i s)
    (hm : IdsMatch items) {it : Item} (hi : items[i]? = some it)
    (hsource : it.entry.sourceId.bytes ≠ []) (hpass : Passes U start.ceilings v it) :
    ∃ s', replayStep U env items s it.entry = (s',.ok) ∧
      Underway last final start (v.after U it) (i+1) s' := by
  have hid := hm i it hi
  rw [← h.ceilings] at hpass
  obtain ⟨g',what,ht,hs,hr,ms,hb⟩ := h.spells.teaches env h.roomy hsource hpass
  rw [replayStep_lesson U env hm hi,h.unpassed hid]
  simp only [hpass.1.1,not_true_eq_false,if_false,ht]
  have htopology : g'.neuralArchitecture = s.graph.neuralArchitecture :=
    congrArg Backdrop.neuralArchitecture hb
  have hhistory : g'.neuralMigrations = s.graph.neuralMigrations :=
    congrArg Backdrop.neuralMigrations hb
  have hl := h.lineage
  rw [← htopology,← hhistory] at hl
  rw [← hid]
  refine applies_along _ _ hs hr ((congrArg Backdrop.config hb).trans h.config)
    ((congrArg Backdrop.valenceRecords hb).trans h.records) hl fun m hm => ?_
  have hlt := h.ahead m hm
  omega

theorem Underway.stepped {i : ℕ} {s s' : ReplayState} (h : Underway last final start v i s)
    (hm : IdsMatch items) {it : Item} (hi : items[i]? = some it)
    (hstep : replayStep U env items s it.entry = (s',.ok)) : Passes U start.ceilings v it := by
  rw [replayStep_lesson U env hm hi,h.unpassed (hm i it hi)] at hstep
  simp only at hstep
  split at hstep
  · cases hstep
  · rename_i hschema
    rcases ht : teach U env s.graph (lessonOf it) with ⟨g',status | what⟩
    · rw [ht] at hstep
      have hstatus := congrArg Prod.snd hstep
      exact absurd hstatus (teach_error ht)
    · rw [← h.ceilings]
      exact h.spells.taught (not_not.mp hschema) ht

/-- Every entry passes behind the ones before it. -/
def PassesAll (U : Utf8proc) (c : ℕ×ℕ) : Vocabulary → List Item → Prop
  | _, [] => True
  | v, it::rest => Passes U c v it ∧ PassesAll U c (v.after U it) rest

/-- A loop over entries that all pass ends at the end of the lineage. -/
theorem Underway.replays (env : UInt64 → IndexEnv) {i : ℕ} {s : ReplayState} {rest : List Item}
    (h : Underway items.length final start v i s) (hm : IdsMatch items) (hs : Sourced items)
    (hrest : items.drop i = rest) (hi : i ≤ items.length)
    (hpass : PassesAll U start.ceilings v rest) :
    ∃ s', replayFrom U env items s (rest.map Item.entry) = (s',.ok) ∧
      Underway items.length final start (rest.foldl (Vocabulary.after U) v) items.length s' ∧
      s'.graph.neuralArchitecture = final := by
  induction rest generalizing i v s with
  | nil =>
      have hlen : i = items.length := by
        have := List.drop_eq_nil_iff.mp hrest
        omega
      have hdone : s.pending = [] := by
        cases hp : s.pending with
        | nil => rfl
        | cons m tail =>
            have hlt := h.ahead m (by rw [hp]; rfl)
            have hl := h.lineage
            rw [hp] at hl
            have := hl.2.2.2.1
            omega
      have hl := h.lineage
      rw [hdone] at hl
      refine ⟨s,?_,hlen ▸ h,hl⟩
      rw [List.map_nil,replayFrom,hdone]
  | cons it tail ih =>
      have hat : items[i]? = some it := by rw [← List.head?_drop,hrest,List.head?_cons]
      have htail : items.drop (i+1) = tail := by rw [← List.tail_drop,hrest,List.tail_cons]
      have hlt : i < items.length := (List.getElem?_eq_some_iff.mp hat).1
      obtain ⟨s₁,hstep,hunder⟩ := h.step env hm hat
        (hs it (List.mem_of_getElem? hat)) hpass.1
      obtain ⟨s',hfrom,hend,hfinal⟩ := ih hunder htail hlt hpass.2
      exact ⟨s',by rw [List.map_cons,replayFrom,hstep]; exact hfrom,hend,hfinal⟩

theorem Underway.replayed {i : ℕ} {s s' : ReplayState} {rest : List Item}
    (h : Underway items.length final start v i s) (hm : IdsMatch items) (hs : Sourced items)
    (hrest : items.drop i = rest)
    (hfrom : replayFrom U env items s (rest.map Item.entry) = (s',.ok)) :
    PassesAll U start.ceilings v rest := by
  induction rest generalizing i v s with
  | nil => trivial
  | cons it tail ih =>
      have hat : items[i]? = some it := by rw [← List.head?_drop,hrest,List.head?_cons]
      have htail : items.drop (i+1) = tail := by rw [← List.tail_drop,hrest,List.tail_cons]
      rw [List.map_cons,replayFrom] at hfrom
      rcases hstep : replayStep U env items s it.entry with ⟨s₁,status⟩
      rw [hstep] at hfrom
      cases status with
      | ok =>
          have hpass := h.stepped hm hat hstep
          obtain ⟨s₂,hstep',hunder⟩ := h.step env hm hat
            (hs it (List.mem_of_getElem? hat)) hpass
          obtain rfl : s₂ = s₁ := congrArg Prod.fst (hstep'.symm.trans hstep)
          exact ⟨hpass,ih hunder htail hfrom⟩
      | _ => cases hfrom

end Loop

/-! ## The whole replay -/

/-- The texts a replay learns from, in their order. -/
def readings (U : Utf8proc) (items : List Item) : List Reading := items.filterMap (readingOf U)

theorem readings_cons (U : Utf8proc) (it : Item) (rest : List Item) :
    readings U (it::rest) = (readingOf U it).toList++readings U rest := by
  rw [readings,List.filterMap_cons]
  cases readingOf U it <;> rfl

theorem passesAll_iff {U : Utf8proc} {c : ℕ×ℕ} {v : Vocabulary} {items : List Item} :
    PassesAll U c v items ↔ (∀ it ∈ items, Legible it) ∧ v.AdmitsAll c (readings U items) := by
  induction items generalizing v with
  | nil => simp [PassesAll,readings,Vocabulary.AdmitsAll]
  | cons it rest ih =>
      rw [PassesAll,ih,Passes,List.forall_mem_cons,readings_cons,Vocabulary.after]
      cases readingOf U it with
      | none =>
          simp only [Option.mem_def,reduceCtorEq,false_implies,implies_true,and_true,Option.elim]
          exact and_assoc.symm
      | some r =>
          simp only [Option.mem_def,Option.some.injEq,forall_eq',Option.elim,Option.toList,
            List.singleton_append,Vocabulary.AdmitsAll]
          tauto

theorem after_foldl (U : Utf8proc) (v : Vocabulary) (items : List Item) :
    items.foldl (Vocabulary.after U) v = (readings U items).foldl Vocabulary.learn v := by
  induction items generalizing v with
  | nil => rfl
  | cons it rest ih =>
      rw [List.foldl_cons,ih,readings_cons,Vocabulary.after]
      cases readingOf U it <;> rfl

/-- What a replay of a fresh graph leaves where it succeeds. -/
structure Restored (U : Utf8proc) (items : List Item) (final : Architecture) (fresh g : Graph) :
    Prop where
  spells : Spells g ((readings U items).foldl Vocabulary.learn .empty)
  config : g.config = fresh.config
  records : g.valenceRecords = fresh.valenceRecords
  topology : g.neuralArchitecture = final

/-- A graph that has learned nothing yet. -/
structure Blank (g : Graph) : Prop where
  spells : Spells g .empty
  roomy : Roomy g
  history : g.neuralMigrations = []

section Whole
variable {U : Utf8proc} {env : UInt64 → IndexEnv} {items : List Item} {final : Architecture}
  {fresh : Graph} {ms : List Migration}

theorem lastId_length (hm : IdsMatch items) :
    (items.getLast?.map fun it => it.entry.id.toNat).getD 0 = items.length := by
  rw [List.getLast?_eq_getElem?]
  cases hl : items[items.length-1]? with
  | none =>
      have := List.getElem?_eq_none_iff.mp hl
      simp only [Option.map_none,Option.getD_none]
      omega
  | some it =>
      have hlt := (List.getElem?_eq_some_iff.mp hl).1
      have hid := hm _ it hl
      simp only [Option.map_some,Option.getD_some]
      omega

variable (U env) in
/-- Along a lineage a replay of a blank graph succeeds exactly where every entry is legible and
every text is admitted. -/
theorem replayLedger_restores (hm : IdsMatch items) (hs : Sourced items) (hblank : Blank fresh)
    (hl : Lineage items.length fresh.neuralArchitecture 0 ms final) :
    (∀ g report, replayLedger U env items fresh ms = (g,report,.ok) →
      ((∀ it ∈ items, Legible it) ∧ Vocabulary.AdmitsAll fresh.ceilings .empty (readings U items)) ∧
        Restored U items final fresh g) ∧
    ((∀ it ∈ items, Legible it) ∧ Vocabulary.AdmitsAll fresh.ceilings .empty (readings U items) →
      ∃ g report, replayLedger U env items fresh ms = (g,report,.ok)) := by
  have hstart : Lineage items.length fresh.neuralArchitecture
      (lastBoundary fresh.neuralMigrations) ms final := by
    rw [hblank.history]
    exact hl
  obtain ⟨s,happly,hunder⟩ := applies_along 0 .zero hblank.spells hblank.roomy rfl
    rfl hstart (fun _ _ => Nat.zero_le _)
  have hrun : replayLedger U env items fresh ms =
      ((replayFrom U env items s (items.map Item.entry)).1.graph,
        (replayFrom U env items s (items.map Item.entry)).1.report,
        (replayFrom U env items s (items.map Item.entry)).2) := by
    unfold replayLedger
    rw [hl.validates (lastId_length hm),happly]
  rw [hrun,← passesAll_iff]
  refine ⟨fun g report h => ?_,fun h => ?_⟩
  · rcases hfrom : replayFrom U env items s (items.map Item.entry) with ⟨s',status⟩
    rw [hfrom] at h
    cases h
    have hpass := hunder.replayed hm hs (i := 0) List.drop_zero hfrom
    obtain ⟨s₂,hfrom',hend,hfinal⟩ := hunder.replays env hm hs (i := 0) List.drop_zero
      (Nat.zero_le _) hpass
    obtain rfl : s₂ = s' := congrArg Prod.fst (hfrom'.symm.trans hfrom)
    refine ⟨hpass,?_,hend.config,hend.records,hfinal⟩
    rw [← after_foldl]
    exact hend.spells
  · obtain ⟨s',hfrom,-,-⟩ := hunder.replays env hm hs (i := 0) List.drop_zero (Nat.zero_le _) h
    exact ⟨_,_,by rw [hfrom]⟩

end Whole

end Atperson.Core
