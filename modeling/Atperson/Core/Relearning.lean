import Atperson.Core.History
import Atperson.Core.Unlearning

/-!
# Replay as a fold

Without migrations, what a replay makes of a graph is a fold over the entries of the ledger.
An entry that does not matter leaves the fold alone wherever it stands, and one that comes to
matter behind all others that do is learned last.
-/
namespace Atperson.Core
open Wire
open Ledger (Status Outcome LedgerEntry ConversationContext Item IdsMatch)

section Fold
variable (U : Utf8proc) (env : UInt64 → IndexEnv)

/-- What one entry makes of a graph, if its replay succeeds. -/
def learnItem (g : Graph) (it : Item) : Option Graph :=
  if ¬schemaCanReplay it.entry.schemaVersion then none
  else match teach U env g (lessonOf it) with
    | (g,.ok _) => some g
    | (_,.error _) => none

def learnItems (g : Graph) (items : List Item) : Option Graph := items.foldlM (learnItem U env) g

variable {U env} {items : List Item} {g g' : Graph}

theorem learnItems_cons {it : Item} {rest : List Item} :
    learnItems U env g (it::rest) = (learnItem U env g it).bind fun g => learnItems U env g rest :=
  List.foldlM_cons

theorem learnItems_append {rest : List Item} : learnItems U env g (items++rest) =
    (learnItems U env g items).bind fun g => learnItems U env g rest :=
  List.foldlM_append

theorem teach_error {l : Lesson} {status : Status} (h : teach U env g l = (g',.error status)) :
    status ≠ .ok := by
  cases l with
  | learn e context payload => exact relearn_error h
  | mirror e context => exact mirror_error h
  | unreadable =>
      cases h
      simp
  | silent what => cases h

/-! ## The loop -/

theorem replayStep_learns (hm : IdsMatch items) {i : ℕ} {it : Item} (hi : items[i]? = some it)
    (report : ReplayReport) (h : learnItem U env g it = some g') :
    ∃ report', replayStep U env items ⟨g,[],report⟩ it.entry = (⟨g',[],report'⟩,.ok) := by
  rw [replayStep_lesson U env hm hi]
  simp only [List.head?_nil,Option.filter_none]
  unfold learnItem at h
  split at h
  · cases h
  · rename_i hschema
    rw [if_neg hschema]
    rcases ht : teach U env g (lessonOf it) with ⟨g₁,status | what⟩
    · simp only [ht] at h
      cases h
    · simp only [ht] at h ⊢
      cases h
      exact ⟨_,rfl⟩

theorem replayStep_learned (hm : IdsMatch items) {i : ℕ} {it : Item} (hi : items[i]? = some it)
    {report : ReplayReport} {s : ReplayState}
    (h : replayStep U env items ⟨g,[],report⟩ it.entry = (s,.ok)) :
    learnItem U env g it = some s.graph ∧ s.pending = [] := by
  rw [replayStep_lesson U env hm hi] at h
  simp only [List.head?_nil,Option.filter_none] at h
  unfold learnItem
  split at h
  · cases h
  · rename_i hschema
    rw [if_neg hschema]
    rcases ht : teach U env g (lessonOf it) with ⟨g₁,status | what⟩
    · simp only [ht] at h
      have hstatus := congrArg Prod.snd h
      exact absurd hstatus (teach_error ht)
    · simp only [ht] at h ⊢
      cases h
      exact ⟨rfl,rfl⟩

theorem replayFrom_learns (hm : IdsMatch items) {i : ℕ} {rest : List Item}
    (hrest : items.drop i = rest) (report : ReplayReport)
    (h : learnItems U env g rest = some g') :
    ∃ report', replayFrom U env items ⟨g,[],report⟩ (rest.map Item.entry) =
      (⟨g',[],report'⟩,.ok) := by
  induction rest generalizing i g report with
  | nil =>
      cases h
      exact ⟨report,rfl⟩
  | cons it tail ih =>
      have hi : items[i]? = some it := by rw [← List.head?_drop,hrest,List.head?_cons]
      have htail : items.drop (i+1) = tail := by rw [← List.tail_drop,hrest,List.tail_cons]
      rw [learnItems_cons] at h
      obtain ⟨g₁,hstep,hfold⟩ := Option.bind_eq_some_iff.mp h
      obtain ⟨report₁,hrun⟩ := replayStep_learns hm hi report hstep
      rw [List.map_cons,replayFrom,hrun]
      exact ih htail report₁ hfold

theorem replayFrom_learned (hm : IdsMatch items) {i : ℕ} {rest : List Item}
    (hrest : items.drop i = rest) {report : ReplayReport} {s : ReplayState}
    (h : replayFrom U env items ⟨g,[],report⟩ (rest.map Item.entry) = (s,.ok)) :
    learnItems U env g rest = some s.graph := by
  induction rest generalizing i g report with
  | nil =>
      cases h
      rfl
  | cons it tail ih =>
      have hi : items[i]? = some it := by rw [← List.head?_drop,hrest,List.head?_cons]
      have htail : items.drop (i+1) = tail := by rw [← List.tail_drop,hrest,List.tail_cons]
      rw [List.map_cons] at h
      unfold replayFrom at h
      rcases hrun : replayStep U env items ⟨g,[],report⟩ it.entry with ⟨s₁,status⟩
      rw [hrun] at h
      cases status with
      | ok =>
          obtain ⟨hstep,hpending⟩ := replayStep_learned hm hi hrun
          obtain ⟨g₁,pending,report₁⟩ := s₁
          obtain rfl : pending = [] := hpending
          rw [learnItems_cons,hstep]
          exact ih htail h
      | _ => cases h

/-- A replay without migrations succeeds where the fold does, with the same graph. -/
theorem replayLedger_learns (hm : IdsMatch items) :
    (∃ report, replayLedger U env items g [] = (g',report,.ok)) ↔
      learnItems U env g items = some g' := by
  constructor
  · rintro ⟨report,h⟩
    rw [replayLedger_nil] at h
    generalize hfrom : replayFrom U env items ⟨g,[],.zero⟩ (items.map Item.entry) = r at h
    obtain ⟨s,status⟩ := r
    obtain ⟨rfl,hrest⟩ := Prod.mk.inj h
    obtain ⟨rfl,rfl⟩ := Prod.mk.inj hrest
    exact replayFrom_learned hm (i := 0) rfl hfrom
  · intro h
    obtain ⟨report,hfrom⟩ := replayFrom_learns hm (i := 0) List.drop_zero .zero h
    exact ⟨report,by rw [replayLedger_nil,hfrom]⟩

theorem retains_learnItem {it : Item} (h : learnItem U env g it = some g') : Retains [] g g' := by
  unfold learnItem at h
  split at h
  · cases h
  · split at h
    · rename_i what ht
      cases h
      cases hl : lessonOf it with
      | learn e context payload =>
          rw [hl] at ht
          exact retains_relearn ht
      | mirror e context =>
          rw [hl] at ht
          exact retains_mirror ht
      | unreadable =>
          rw [hl] at ht
          cases ht
      | silent what =>
          rw [hl] at ht
          cases ht
          exact .refl _
    · cases h

theorem retains_learnItems (h : learnItems U env g items = some g') : Retains [] g g' := by
  induction items generalizing g with
  | nil =>
      cases h
      exact .refl _
  | cons it rest ih =>
      rw [learnItems_cons] at h
      obtain ⟨g₁,hstep,hfold⟩ := Option.bind_eq_some_iff.mp h
      exact (retains_learnItem hstep).trans (ih hfold)

theorem learnItems_unbounded (hg : g.unbounded = g) (h : learnItems U env g items = some g') :
    g'.eased (.recount g'.capacityRejections) = g' := by
  have hc : g'.config = g.unbounded.config := by rw [hg,(retains_learnItems h).config]
  have hn : g'.config.nodeCapacityMax = 0 := by rw [hc]; rfl
  have he : g'.config.edgeCapacityMax = 0 := by rw [hc]; rfl
  obtain ⟨⟨_,_,_,_,_,n,m,_,_,_⟩,_,_,_,_,_,_,_,_,_,_,_,_,_,_,_,_,_,_,_,_,_,_⟩ := g'
  obtain rfl : n = 0 := hn
  obtain rfl : m = 0 := he
  rfl

/-! ## Entries that do not matter -/

theorem learnItem_silent {it : Item} (hs : ¬Matters it) (h : learnItem U env g it = some g') :
    g' = g ∧ schemaCanReplay it.entry.schemaVersion = true := by
  obtain ⟨what,hl⟩ := lessonOf_silent hs
  unfold learnItem at h
  rw [hl] at h
  split at h
  · cases h
  · rename_i hschema
    cases h
    exact ⟨rfl,not_not.mp hschema⟩

theorem learnItem_skips {it : Item} (hs : ¬Matters it)
    (hschema : schemaCanReplay it.entry.schemaVersion = true) :
    learnItem U env g it = some g := by
  obtain ⟨what,hl⟩ := lessonOf_silent hs
  unfold learnItem
  rw [hl,if_neg (not_not_intro hschema)]
  rfl

/-- A stretch of entries that do not matter leaves this graph, and any other, alone. -/
theorem learnItems_silent {rest : List Item} (hs : ∀ it ∈ rest, ¬Matters it)
    (h : learnItems U env g rest = some g') :
    g' = g ∧ ∀ g, learnItems U env g rest = some g := by
  induction rest generalizing g with
  | nil =>
      cases h
      exact ⟨rfl,fun _ => rfl⟩
  | cons it tail ih =>
      rw [learnItems_cons] at h
      obtain ⟨g₁,hstep,hfold⟩ := Option.bind_eq_some_iff.mp h
      obtain ⟨rfl,hschema⟩ := learnItem_silent (hs it List.mem_cons_self) hstep
      obtain ⟨rfl,htail⟩ := ih (fun x hx => hs x (List.mem_cons_of_mem _ hx)) hfold
      refine ⟨rfl,fun g => ?_⟩
      rw [learnItems_cons,learnItem_skips (hs it List.mem_cons_self) hschema]
      exact htail g

/-- An entry behind all others is learned last. -/
theorem learnItems_last {it : Item} (h : learnItems U env g items = some g') :
    learnItems U env g (items++[it]) = learnItem U env g' it := by
  rw [learnItems_append,h]
  exact Option.bind_fun_some (learnItem U env g' it)

/-- An entry that did not matter changes behind everything that does. -/
theorem learnItems_changed {i : ℕ} {it : Item} {change : Item → Item}
    (hi : items[i]? = some it) (hs : ¬Matters it)
    (hlater : ∀ j x, i < j → items[j]? = some x → ¬Matters x)
    (h : learnItems U env g items = some g') :
    learnItems U env g (items.modify i change) = learnItem U env g' (change it) := by
  obtain ⟨hlt,hget⟩ := List.getElem?_eq_some_iff.mp hi
  have hsplit : items = items.take i++it::items.drop (i+1) := by
    rw [← hget,← List.drop_eq_getElem_cons hlt,List.take_append_drop]
  have hpost : ∀ x ∈ items.drop (i+1), ¬Matters x := by
    intro x hx
    obtain ⟨n,hn⟩ := List.mem_iff_getElem?.mp hx
    rw [List.getElem?_drop] at hn
    exact hlater (i+1+n) x (by omega) hn
  rw [List.modify_eq_take_cons_drop hlt,hget,learnItems_append]
  rw [hsplit,learnItems_append] at h
  obtain ⟨g₁,hpre,hrest⟩ := Option.bind_eq_some_iff.mp h
  rw [learnItems_cons] at hrest
  obtain ⟨g₂,hit,htail⟩ := Option.bind_eq_some_iff.mp hrest
  obtain ⟨rfl,-⟩ := learnItem_silent hs hit
  obtain ⟨rfl,hskip⟩ := learnItems_silent hpost htail
  rw [hpre,Option.bind_some,learnItems_cons]
  have hrest (g : Graph) : learnItems U env g (items.drop (i+1)) = some g := hskip g
  simp only [hrest]
  exact Option.bind_fun_some (learnItem U env g' (change it))

/-- Entries that do not matter are withdrawn. -/
theorem learnItems_withdrawn {items' : List Item}
    (h : List.Forall₂ (fun it it' => it' = it ∨
      (¬Matters it ∧ it' = it.withOutcome .withdrawn)) items items') :
    learnItems U env g items' = learnItems U env g items := by
  induction h generalizing g with
  | nil => rfl
  | @cons it it' rest rest' hit _ ih =>
      have hsame : learnItem U env g it' = learnItem U env g it := by
        rcases hit with rfl | ⟨hs,rfl⟩
        · rfl
        · have hs' : ¬Matters (it.withOutcome .withdrawn) := by
            rintro (⟨ho,-⟩ | ho) <;> cases ho
          obtain ⟨what,hl⟩ := lessonOf_silent hs
          obtain ⟨what',hl'⟩ := lessonOf_silent hs'
          unfold learnItem
          rw [hl,hl']
          rfl
      rw [learnItems_cons,learnItems_cons,hsame]
      exact congrArg _ (funext fun g => ih)

end Fold

end Atperson.Core
