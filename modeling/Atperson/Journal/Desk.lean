import Mathlib.Logic.Function.Basic
import Atperson.Runs.Guarded
import Atperson.Core.Growth
import Atperson.Cli.Restorable
import Atperson.Journal.Command

/-!
# The desk of the journal

Processes load the model, observe, save, and run the commands that write valence. A load takes
no lock; a command holds the writer lock to its end, so that the others see it whole or not at
all. Any process may end anywhere, and a command may end behind any of its writes.

The model is the fold of the journal as long as no process ends between a line it wrote and
the save behind it, and none saves a graph that was loaded before another's lines.
-/
namespace Atperson.Journal
open Wire
open Atperson.Core (Graph Utf8proc IndexEnv Text Provenance Architecture createWithArchitecture
  observeWithMemory recordOf valenceKindFromName)
open Atperson.Cli (applyJournalValence lineToken markLine Folded Sayable)
open Runs

/-! ## A graph that is the fold of lines -/

/-- Every line names a token the graph knows, and the valence of a token is the fold of its
lines. -/
structure Faithful (lines : List JournalValence) (g : Graph) : Prop where
  known : ∀ entry ∈ lines, ∃ t i, lineToken entry = some t ∧ g.findNode t = some i
  folded : Folded lines g
  placed : ∀ i, g.nodes.length ≤ i → recordOf i g.valenceRecords = none

section Faithful
variable {lines : List JournalValence} {g g' : Graph} {entry : JournalValence}

theorem faithful_created {a : Architecture} (h : createWithArchitecture .default a = some g) :
    Faithful [] g := by
  unfold createWithArchitecture at h
  obtain ⟨r,-,rfl⟩ := Option.map_eq_some_iff.mp h
  exact ⟨nofun,fun t i _ => rfl,fun i _ => rfl⟩

theorem Faithful.event (h : Faithful lines g) (happ : applyJournalValence g entry = .ok g') :
    Faithful (lines++[entry]) g' := by
  obtain ⟨-,hmarks⟩ := Cli.applyJournalValence_marks happ
  obtain ⟨q,node,-,hnode,hrecord⟩ := hmarks.record
  have hsame := Cli.findNode_nodes hmarks.nodes
  rw [Cli.findToken_eq] at hnode
  obtain ⟨t,ht,hfound⟩ := Option.bind_eq_some_iff.mp hnode
  refine ⟨fun x hx => ?_,fun t i hi => ?_,fun i hi => ?_⟩
  · rcases List.mem_append.mp hx with hx | hx
    · obtain ⟨t,i,ht,hi⟩ := h.known x hx
      exact ⟨t,i,ht,by rw [hsame]; exact hi⟩
    · obtain rfl := List.mem_singleton.mp hx
      exact ⟨t,node,ht,by rw [hsame]; exact hfound⟩
  · rw [hsame] at hi
    rw [Cli.marked_record happ hi,h.folded t i hi,List.foldl_append,hmarks.config]
    rfl
  · rw [hmarks.nodes] at hi
    have hne : i ≠ node := (Graph.findNode_lt hfound).trans_le hi |>.ne'
    rw [hrecord,if_neg hne]
    exact h.placed i hi

/-- No line of a token, no record of it. -/
theorem fold_silent {rate : Float32} {i : ℕ} {t : Core.Token}
    (h : ∀ entry ∈ lines, lineToken entry ≠ some t) :
    lines.foldl (markLine rate i t) none = none := by
  induction lines with
  | nil => rfl
  | cons entry rest ih =>
      obtain ⟨hfirst,hrest⟩ := List.forall_mem_cons.mp h
      have hsame : markLine rate i t none entry = none := by
        unfold markLine
        split
        · rw [if_neg hfirst]
        · rfl
      rw [List.foldl_cons,hsame]
      exact ih hrest

theorem Faithful.learned (h : Faithful lines g) (htokens : g.tokens <+: g'.tokens)
    (hrecords : g'.valenceRecords = g.valenceRecords) (hconfig : g'.config = g.config) :
    Faithful lines g' := by
  refine ⟨fun entry he => ?_,fun t i hi => ?_,fun i hi => ?_⟩
  · obtain ⟨t,i,ht,hi⟩ := h.known entry he
    exact ⟨t,i,ht,Graph.findNode_prefix htokens hi⟩
  · rw [hrecords,hconfig]
    cases hold : g.findNode t with
    | some j =>
        obtain rfl := Option.some.inj ((Graph.findNode_prefix htokens hold).symm.trans hi)
        exact h.folded t j hold
    | none =>
        rw [h.placed i (Graph.findNode_added htokens hold hi),fold_silent]
        intro entry he ht
        obtain ⟨t',j,ht',hj⟩ := h.known entry he
        obtain rfl := Option.some.inj (ht.symm.trans ht')
        rw [hold] at hj
        cases hj
  · rw [hrecords]
    refine h.placed i (le_trans ?_ hi)
    have hle := htokens.length_le
    rwa [Graph.tokens_length,Graph.tokens_length] at hle

theorem Faithful.observe (h : Faithful lines g) (U : Utf8proc) (index : IndexEnv) (text : Text)
    (p : Provenance) : Faithful lines (observeWithMemory U index g text p).1 := by
  have hback := Core.backdrop_observeWithMemory U index g text p
  exact h.learned (Core.tokens_observeWithMemory U index g text p)
    (congrArg Core.Backdrop.valenceRecords hback) (congrArg Core.Backdrop.config hback)

end Faithful

/-! ## No triple twice -/

/-- What a mapped line is about: the action, the rule and the token. -/
def JournalValence.triple (entry : JournalValence) : Bytes×Bytes×Bytes :=
  (entry.source,entry.provenance,entry.token)

def JournalValence.mapped (entry : JournalValence) : Bool := entry.provenance ≠ []

def TriplesOnce (lines : List JournalValence) : Prop :=
  ((lines.filter JournalValence.mapped).map JournalValence.triple).Nodup

section Triples
variable {lines : List JournalValence} {entry : JournalValence}

theorem TriplesOnce.concat (h : TriplesOnce lines)
    (hnew : entry.mapped = true → ∀ x ∈ lines, x.key ≠ entry.key) :
    TriplesOnce (lines++[entry]) := by
  unfold TriplesOnce at h ⊢
  rw [List.filter_append,List.map_append]
  by_cases hm : entry.mapped = true
  · rw [List.filter_cons_of_pos hm,List.filter_nil]
    refine List.nodup_append.mpr ⟨h,List.nodup_singleton _,?_⟩
    rintro a ha b hb rfl
    obtain ⟨x,hx,hxe⟩ := List.mem_map.mp ha
    have hb := List.mem_singleton.mp hb
    obtain ⟨hsource,hrest⟩ := Prod.mk.inj (hxe.trans hb)
    obtain ⟨hprovenance,htoken⟩ := Prod.mk.inj hrest
    refine hnew hm x (List.mem_of_mem_filter hx) ?_
    unfold JournalValence.key
    rw [hsource,hprovenance,htoken]
  · rw [List.filter_cons_of_neg hm,List.filter_nil,List.map_nil,List.append_nil]
    exact h

end Triples

/-! ## What a command writes -/

section Apply
variable {g : Graph}

/-- The event of an `apply` is refused, so that it writes nothing. -/
def ApplyRequest.Refused (r : ApplyRequest) (g : Graph) : Prop :=
  (valenceKindFromName r.kind).isNone = true ∨ (∀ q, r.signal.value ≠ .finite q) ∨
    hasToken g r.token = false

theorem applyJournalValence_ok {entry : JournalValence} {kind : Core.ValenceKind} {g' : Graph}
    (hkind : valenceKindFromName entry.kind = some kind)
    (h : g.valenceEvent (CString.ofRaw entry.token) kind entry.signal entry.atEpoch
      (CString.ofRaw entry.source) = (g',.ok)) : applyJournalValence g entry = .ok g' := by
  unfold applyJournalValence
  rw [hkind]
  simp only [h]

theorem applyJournalValence_refused {r : ApplyRequest} (h : r.Refused g) (g' : Graph) :
    applyJournalValence g r.entry ≠ .ok g' := by
  intro happ
  obtain ⟨⟨hkind,q,hq⟩,hmarks⟩ := Cli.applyJournalValence_marks happ
  obtain ⟨-,node,-,hnode,-⟩ := hmarks.record
  rcases h with h | h | h
  · exact Option.not_isSome_iff_eq_none.mpr (Option.isNone_iff_eq_none.mp h) hkind
  · exact h q hq
  · change (g.findToken (CString.ofRaw r.entry.token)).isSome = false at h
    rw [hnode] at h
    cases h

/-- Either the graph refuses the event and nothing is written, or the line is written and the
model saved as far as the process gets. -/
theorem runApply_cases (r : ApplyRequest) (ending : Ending) (g : Graph) :
    ((runApply r ending g).lines = [] ∧ (runApply r ending g).saved = false) ∨
    ∃ g', applyJournalValence g r.entry = .ok g' ∧ runApply r ending g =
      match ending with
      | none => ⟨g',[r.entry],true⟩
      | some n => ⟨g',[r.entry].take n,false⟩ := by
  unfold runApply
  cases hkind : valenceKindFromName r.kind with
  | none => exact .inl ⟨rfl,rfl⟩
  | some kind =>
      rcases hev : g.valenceEvent (CString.ofRaw r.token) kind r.signal (UInt64.ofInt r.now)
        (CString.ofRaw r.source) with ⟨g',status⟩
      cases status with
      | ok => exact .inr ⟨g',applyJournalValence_ok hkind hev,by cases ending <;> simp only [hev]⟩
      | _ => exact .inl ⟨by simp only [hev],by simp only [hev]⟩

theorem runApply_lines (r : ApplyRequest) (ending : Ending) (g : Graph) :
    ∀ entry ∈ (runApply r ending g).lines, entry = r.entry := by
  rcases runApply_cases r ending g with ⟨hlines,-⟩ | ⟨g',-,he⟩
  · rw [hlines]
    nofun
  · rw [he]
    cases ending with
    | none => exact fun entry h => List.mem_singleton.mp h
    | some n => exact fun entry h => List.mem_singleton.mp (List.mem_of_mem_take h)

end Apply

section Map
variable {U : Utf8proc} {table : RuleTable} {now : ℤ} {time : Bytes} {ending : Ending}
  {journal : JournalContents} {g : Graph} {action : JournalAction} {rule : ValenceRule}

/-- No token that a rule maps is new: all are unknown or have been mapped before. -/
def NothingToMap (U : Utf8proc) (table : RuleTable) (now : ℤ) (time : Bytes)
    (journal : JournalContents) (g : Graph) : Prop :=
  ∀ action ∈ journal.actions, ∀ rule,
    firstMatchingRule action journal.events now journal.intents table = some rule →
    ∀ token ∈ distinctTokens U action.text, hasToken g token = true →
      (mapEntry now time action rule token).key ∈ journal.valence.map JournalValence.key

theorem mapEntry_accepted (now : ℤ) (time : Bytes) {token : Bytes} (htoken : hasToken g token = true) :
    ∃ g', g.valenceEvent (CString.ofRaw token) rule.kind rule.signal (UInt64.ofInt now)
      (CString.ofRaw action.id) = (g',.ok) ∧
      applyJournalValence g (mapEntry now time action rule token) = .ok g' := by
  obtain ⟨q,hq,-,-⟩ := rule.bounded
  obtain ⟨node,hnode⟩ := Option.isSome_iff_exists.mp htoken
  obtain ⟨g',hg'⟩ := Graph.valenceEvent_accepted hq hnode rule.kind (UInt64.ofInt now)
    (CString.ofRaw action.id)
  exact ⟨g',hg',applyJournalValence_ok (valenceKindFromName_name rule.kind) hg'⟩

/-- A token is passed over, or its line is the next to be written. -/
theorem mapToken_cases (now : ℤ) (time : Bytes) (ending : Ending) (action : JournalAction)
    (rule : ValenceRule) (m : Mapping) (token : Bytes) :
    ((hasToken m.graph token = false ∨ (mapEntry now time action rule token).key ∈ m.applied) ∧
      ∃ n, mapToken now time ending action rule m token =
        .ok {m with skippedUnknownTokens := n}) ∨
    (hasToken m.graph token = true ∧ (mapEntry now time action rule token).key ∉ m.applied ∧
      ∃ g', applyJournalValence m.graph (mapEntry now time action rule token) = .ok g' ∧
        mapToken now time ending action rule m token = writeLine ending
          {m with
            graph := g'
            applied := (mapEntry now time action rule token).key::m.applied}
          (mapEntry now time action rule token)) := by
  unfold mapToken
  cases htoken : hasToken m.graph token with
  | false => exact .inl ⟨.inl rfl,m.skippedUnknownTokens+1,rfl⟩
  | true =>
      by_cases hkey : (mapEntry now time action rule token).key ∈ m.applied
      · exact .inl ⟨.inr hkey,m.skippedUnknownTokens,by simp [hkey]⟩
      · obtain ⟨g',hev,happ⟩ := mapEntry_accepted now time htoken
        refine .inr ⟨rfl,hkey,g',happ,?_⟩
        simp only [Bool.not_true,Bool.false_eq_true,if_false,List.contains_iff_mem,if_neg hkey,hev]

/-- What a map keeps token by token, it keeps action by action. -/
theorem mapActions_leaves {P Q : Mapping → Prop} {m : Mapping}
    (hunmapped : ∀ m n, P m → P {m with skippedUnmapped := n})
    (htoken : ∀ action ∈ journal.actions, ∀ rule,
      firstMatchingRule action journal.events now journal.intents table = some rule →
      ∀ token ∈ distinctTokens U action.text, ∀ m, P m →
        Leaves P Q (mapToken now time ending action rule m token)) (hm : P m) :
    Leaves P Q (journal.actions.foldlM (mapAction U table now time ending journal) m) := by
  refine foldlM_leaves (fun m action ha hm => ?_) hm
  unfold mapAction
  split
  · exact hunmapped m _ hm
  · rename_i rule hrule
    exact foldlM_leaves (fun m token ht hm => htoken action ha rule hrule token ht m hm) hm

/-- The lines before a map and those it has written, each with its key among the applied. -/
structure Mapping.Keyed (prior : List JournalValence) (m : Mapping) : Prop where
  keyed : ∀ entry ∈ prior++m.lines, entry.key ∈ m.applied
  once : TriplesOnce (prior++m.lines)

theorem runMap_once (h : TriplesOnce journal.valence) :
    TriplesOnce (journal.valence++(runMap U table now time ending journal g).lines) := by
  have hleaves : Leaves (Mapping.Keyed journal.valence)
      (fun m : Mapping => TriplesOnce (journal.valence++m.lines))
      (journal.actions.foldlM (mapAction U table now time ending journal) (.start journal g)) := by
    refine mapActions_leaves (fun m n hm => ⟨hm.keyed,hm.once⟩) ?_ ⟨?_,?_⟩
    · intro action ha rule hrule token ht m hm
      rcases mapToken_cases now time ending action rule m token with
        ⟨-,n,he⟩ | ⟨-,hkey,g',-,he⟩
      · rw [he]
        exact ⟨hm.keyed,hm.once⟩
      · rw [he]
        unfold writeLine
        split
        · exact hm.once
        · simp only [Leaves]
          refine ⟨fun entry he => ?_,?_⟩
          · rw [← List.append_assoc] at he
            rcases List.mem_append.mp he with he | he
            · exact List.mem_cons_of_mem _ (hm.keyed entry he)
            · exact List.mem_singleton.mp he ▸ List.mem_cons_self
          · rw [← List.append_assoc]
            exact hm.once.concat fun _ x hx he => hkey (he ▸ hm.keyed x hx)
    · intro entry he
      rw [Mapping.start,List.append_nil] at he
      exact List.mem_map_of_mem he
    · rw [Mapping.start,List.append_nil]
      exact h
  unfold runMap
  generalize journal.actions.foldlM (mapAction U table now time ending journal)
    (.start journal g) = r at hleaves ⊢
  cases r with
  | error m => exact hleaves
  | ok m => exact hleaves.once

/-- A map that goes on to its end saves the fold of the lines before and its own. -/
theorem runMap_whole (h : Faithful journal.valence g) :
    (runMap U table now time none journal g).saved = true ∧
      Faithful (journal.valence++(runMap U table now time none journal g).lines)
        (runMap U table now time none journal g).graph := by
  have hleaves : Leaves (fun m : Mapping => Faithful (journal.valence++m.lines) m.graph)
      (fun _ => False)
      (journal.actions.foldlM (mapAction U table now time none journal) (.start journal g)) := by
    refine mapActions_leaves (fun m n hm => hm) ?_ ?_
    · intro action ha rule hrule token ht m hm
      rcases mapToken_cases now time none action rule m token with ⟨-,n,he⟩ | ⟨-,-,g',happ,he⟩
      · rw [he]
        exact hm
      · rw [he]
        have hnext := hm.event happ
        rw [List.append_assoc] at hnext
        exact hnext
    · simp only [Mapping.start,List.append_nil]
      exact h
  unfold runMap
  generalize journal.actions.foldlM (mapAction U table now time none journal)
    (.start journal g) = r at hleaves ⊢
  cases r with
  | error m => exact hleaves.elim
  | ok m => exact ⟨rfl,hleaves⟩

/-- A map that ends before its first line writes nothing. -/
theorem runMap_unwritten : (runMap U table now time (some 0) journal g).lines = [] ∧
    (runMap U table now time (some 0) journal g).saved = false := by
  have hleaves : Leaves (fun m : Mapping => m.lines = []) (fun m : Mapping => m.lines = [])
      (journal.actions.foldlM (mapAction U table now time (some 0) journal)
        (.start journal g)) := by
    refine mapActions_leaves (fun m n hm => hm) ?_ rfl
    intro action ha rule hrule token ht m hm
    rcases mapToken_cases now time (some 0) action rule m token with ⟨-,n,he⟩ | ⟨-,-,g',-,he⟩
    · rw [he]
      exact hm
    · rw [he]
      unfold writeLine
      rw [if_pos (by rw [hm]; rfl)]
      exact hm
  unfold runMap
  generalize journal.actions.foldlM (mapAction U table now time (some 0) journal)
    (.start journal g) = r at hleaves ⊢
  cases r with
  | error m => exact ⟨hleaves,rfl⟩
  | ok m => exact ⟨hleaves,rfl⟩

/-- A map that finds nothing new writes nothing, and saves nothing where the process ends. -/
theorem runMap_nothing (h : NothingToMap U table now time journal g) (n : ℕ) :
    (runMap U table now time (some n) journal g).lines = [] ∧
      (runMap U table now time (some n) journal g).saved = false := by
  have hleaves : Leaves (fun m : Mapping => m.graph = g ∧ m.lines = [] ∧
        m.applied = journal.valence.map JournalValence.key) (fun _ => False)
      (journal.actions.foldlM (mapAction U table now time (some n) journal)
        (.start journal g)) := by
    refine mapActions_leaves (fun m n hm => hm) ?_ ⟨rfl,rfl,rfl⟩
    intro action ha rule hrule token ht m hm
    obtain ⟨hg,hlines,happlied⟩ := hm
    rcases mapToken_cases now time (some n) action rule m token with
      ⟨-,k,he⟩ | ⟨hknown,hkey,-⟩
    · rw [he]
      exact ⟨hg,hlines,happlied⟩
    · rw [hg] at hknown
      rw [happlied] at hkey
      exact absurd (h action ha rule hrule token ht hknown) hkey
  unfold runMap
  generalize journal.actions.foldlM (mapAction U table now time (some n) journal)
    (.start journal g) = r at hleaves ⊢
  cases r with
  | error m => exact hleaves.elim
  | ok m => exact ⟨hleaves.2.1,rfl⟩

end Map

/-! ## The desk -/

/-- A process with its graph, which it loaded when the journal had so many valence lines. -/
structure Process where
  graph : Graph
  seen : ℕ

structure Desk where
  snapshot : Option Graph
  journal : JournalContents
  processes : ℕ → Option Process

/-- The lines of the journal that no command here writes. -/
inductive OtherLine where
  | action (entry : JournalAction)
  | event (entry : JournalEvent)
  | resolution (entry : JournalResolution)
  | intent (entry : JournalIntent)

def OtherLine.append (journal : JournalContents) : OtherLine → JournalContents
  | .action entry => {journal with actions := journal.actions++[entry]}
  | .event entry => {journal with events := journal.events++[entry]}
  | .resolution entry => {journal with resolutions := journal.resolutions++[entry]}
  | .intent entry => {journal with intents := journal.intents++[entry]}

inductive DeskAct where
  /-- `load_or_create_graph`, with the topology planned for a new graph. -/
  | start (p : ℕ) (a : Architecture)
  | observe (p : ℕ) (index : IndexEnv) (text : Text) (provenance : Provenance)
  | save (p : ℕ)
  | stop (p : ℕ)
  | apply (p : ℕ) (r : ApplyRequest) (ending : Ending)
  | map (p : ℕ) (table : RuleTable) (now : ℤ) (time : Bytes) (ending : Ending)
  | record (line : OtherLine)

namespace Desk

def fresh : Desk := ⟨none,{},fun _ => none⟩

def put (d : Desk) (p : ℕ) (q : Option Process) : Desk :=
  {d with processes := Function.update d.processes p q}

/-- A command has run, and its process with it. -/
def written (d : Desk) (p : ℕ) (w : Written) : Desk where
  snapshot := if w.saved then some w.graph else d.snapshot
  journal := {d.journal with valence := d.journal.valence++w.lines}
  processes := Function.update d.processes p none

/-- The model a process starts with. -/
def load (d : Desk) (a : Architecture) : Option Graph :=
  match d.snapshot with
  | some g => some g
  | none => createWithArchitecture .default a

def Process.observe (U : Utf8proc) (index : IndexEnv) (text : Text) (provenance : Provenance)
    (q : Process) : Process :=
  {q with graph := (observeWithMemory U index q.graph text provenance).1}

def step (U : Utf8proc) (d : Desk) : DeskAct → Desk
  | .start p a => d.put p ((d.load a).map fun g => ⟨g,d.journal.valence.length⟩)
  | .observe p index text provenance =>
      d.put p ((d.processes p).map (Process.observe U index text provenance))
  | .save p =>
      match d.processes p with
      | none => d
      | some q => {d with snapshot := some q.graph}
  | .stop p => d.put p none
  | .apply p r ending =>
      match d.processes p with
      | none => d
      | some q => d.written p (runApply r ending q.graph)
  | .map p table now time ending =>
      match d.processes p with
      | none => d
      | some q => d.written p (runMap U table now time ending d.journal q.graph)
  | .record line => {d with journal := line.append d.journal}

/-- No valence line was written since a process loaded the model. -/
def Current (d : Desk) (q : Process) : Prop := q.seen = d.journal.valence.length

/-- A process saves only a model that lacks no line, and does not end between a line it wrote
and the save behind it. -/
def Careful (U : Utf8proc) (d : Desk) : DeskAct → Prop
  | .save p => ∀ q ∈ d.processes p, d.Current q
  | .apply p r ending => ∀ q ∈ d.processes p,
      r.Refused q.graph ∨ ending = some 0 ∨ ending = none ∧ d.Current q
  | .map p table now time ending => ∀ q ∈ d.processes p,
      ending = some 0 ∨ ending = none ∧ d.Current q ∨
        ending.isSome = true ∧ NothingToMap U table now time d.journal q.graph
  | _ => True

/-! ## Every run -/

section Runs
variable {U : Utf8proc} {d : Desk}

theorem written_once {p : ℕ} {w : Written} (h : TriplesOnce (d.journal.valence++w.lines)) :
    TriplesOnce (d.written p w).journal.valence := h

theorem runApply_once (r : ApplyRequest) (ending : Ending) (g : Graph)
    {lines : List JournalValence} (h : TriplesOnce lines) :
    TriplesOnce (lines++(runApply r ending g).lines) := by
  have hunmapped : r.entry.mapped = false := rfl
  have hnone : (runApply r ending g).lines.filter JournalValence.mapped = [] := by
    rw [List.filter_eq_nil_iff]
    intro entry he
    rw [runApply_lines r ending g entry he,hunmapped]
    decide
  unfold TriplesOnce
  rw [List.filter_append,hnone,List.append_nil]
  exact h

theorem step_once (h : TriplesOnce d.journal.valence) (act : DeskAct) :
    TriplesOnce (d.step U act).journal.valence := by
  cases act with
  | save p =>
      simp only [step]
      split <;> exact h
  | apply p r ending =>
      simp only [step]
      split
      · exact h
      · exact runApply_once r ending _ h
  | map p table now time ending =>
      simp only [step]
      split
      · exact h
      · exact runMap_once h
  | record line => cases line <;> exact h
  | _ => exact h

theorem run_once (h : TriplesOnce d.journal.valence) (acts : List DeskAct) :
    TriplesOnce (runFrom (step U) d acts).journal.valence := by
  induction acts generalizing d with
  | nil => exact h
  | cons act rest ih => exact ih (step_once h act)

/-- The snapshot is the fold of the journal, and every process the fold of the lines there
were as it loaded. -/
structure Sound (d : Desk) : Prop where
  snapshot : ∀ g ∈ d.snapshot, Faithful d.journal.valence g
  blank : d.snapshot = none → d.journal.valence = []
  processes : ∀ p, ∀ q ∈ d.processes p, q.seen ≤ d.journal.valence.length ∧
    Faithful (d.journal.valence.take q.seen) q.graph

theorem sound_fresh : Sound fresh := ⟨nofun,fun _ => rfl,nofun⟩

theorem Sound.current (h : d.Sound) {p : ℕ} {q : Process} (hq : q ∈ d.processes p)
    (hcur : d.Current q) : Faithful d.journal.valence q.graph := by
  have hfaithful := (h.processes p q hq).2
  rwa [hcur,List.take_length] at hfaithful

theorem Sound.put (h : d.Sound) (p : ℕ) {q : Option Process}
    (hq : ∀ q' ∈ q, q'.seen ≤ d.journal.valence.length ∧
      Faithful (d.journal.valence.take q'.seen) q'.graph) : (d.put p q).Sound := by
  refine ⟨h.snapshot,h.blank,fun p' q' hq' => ?_⟩
  by_cases hp : p' = p
  · subst hp
    simp only [Desk.put,Function.update_self] at hq'
    exact hq q' hq'
  · simp only [Desk.put,Function.update_of_ne hp] at hq'
    exact h.processes p' q' hq'

/-- A command that wrote nothing and saved nothing. -/
theorem Sound.unwritten (h : d.Sound) (p : ℕ) {w : Written} (hlines : w.lines = [])
    (hsaved : w.saved = false) : (d.written p w).Sound := by
  have hput := h.put p (q := none) nofun
  unfold written
  rw [hlines,hsaved,List.append_nil]
  exact hput

/-- A command that saved the fold of all lines. -/
theorem Sound.whole (h : d.Sound) (p : ℕ) {w : Written} (hsaved : w.saved = true)
    (hfaithful : Faithful (d.journal.valence++w.lines) w.graph) : (d.written p w).Sound := by
  refine ⟨fun g hg => ?_,fun hnone => ?_,fun p' q hq => ?_⟩
  · simp only [written,hsaved,if_true] at hg
    exact Option.some.inj hg ▸ hfaithful
  · simp only [written,hsaved,if_true] at hnone
    cases hnone
  · obtain ⟨hseen,hq'⟩ := (h.put p (q := none) nofun).processes p' q hq
    have hlong : (d.written p w).journal.valence = d.journal.valence++w.lines := rfl
    change q.seen ≤ d.journal.valence.length at hseen
    rw [hlong,List.take_append_of_le_length hseen,List.length_append]
    exact ⟨hseen.trans (Nat.le_add_right _ _),hq'⟩

theorem Sound.step (h : d.Sound) {act : DeskAct} (hc : d.Careful U act) : (d.step U act).Sound := by
  cases act with
  | start p a =>
      refine h.put p fun q hq => ?_
      obtain ⟨g,hg,rfl⟩ := Option.map_eq_some_iff.mp hq
      refine ⟨le_rfl,?_⟩
      rw [List.take_length]
      unfold load at hg
      split at hg
      · rename_i g' hsnap
        cases hg
        exact h.snapshot _ hsnap
      · rename_i hsnap
        rw [h.blank hsnap]
        exact faithful_created hg
  | observe p index text provenance =>
      refine h.put p fun q hq => ?_
      obtain ⟨before,hbefore,rfl⟩ := Option.map_eq_some_iff.mp hq
      obtain ⟨hseen,hfaithful⟩ := h.processes p before hbefore
      exact ⟨hseen,hfaithful.observe U index text provenance⟩
  | save p =>
      simp only [Desk.step]
      split
      · exact h
      · rename_i q hq
        refine ⟨fun g hg => ?_,nofun,h.processes⟩
        cases hg
        exact h.current hq (hc q hq)
  | stop p => exact h.put p nofun
  | apply p r ending =>
      simp only [Desk.step]
      split
      · exact h
      · rename_i q hq
        rcases runApply_cases r ending q.graph with ⟨hlines,hsaved⟩ | ⟨g',happ,he⟩
        · exact h.unwritten p hlines hsaved
        · rcases hc q hq with href | rfl | ⟨rfl,hcur⟩
          · exact absurd happ (applyJournalValence_refused href g')
          · rw [he]
            exact h.unwritten p rfl rfl
          · rw [he]
            exact h.whole p rfl ((h.current hq hcur).event happ)
  | map p table now time ending =>
      simp only [Desk.step]
      split
      · exact h
      · rename_i q hq
        rcases hc q hq with rfl | ⟨rfl,hcur⟩ | ⟨hends,hnothing⟩
        · exact h.unwritten p runMap_unwritten.1 runMap_unwritten.2
        · obtain ⟨hsaved,hfaithful⟩ := runMap_whole (h.current hq hcur)
          exact h.whole p hsaved hfaithful
        · obtain ⟨n,rfl⟩ := Option.isSome_iff_exists.mp hends
          obtain ⟨hlines,hsaved⟩ := runMap_nothing hnothing n
          exact h.unwritten p hlines hsaved
  | record line => cases line <;> exact ⟨h.snapshot,h.blank,h.processes⟩

end Runs

end Desk

/-- In every run no triple of an action, a rule and a token has more than one line; and where
every step is careful, the saved model is the fold of the journal in every state. -/
theorem model_folds_journal (U : Utf8proc) (acts : List DeskAct) :
    TriplesOnce (runFrom (Desk.step U) .fresh acts).journal.valence ∧
      (Guarded (Desk.step U) (Desk.Careful U) .fresh acts →
        ∀ g ∈ (runFrom (Desk.step U) .fresh acts).snapshot,
          Faithful (runFrom (Desk.step U) .fresh acts).journal.valence g) := by
  have hnone : TriplesOnce Desk.fresh.journal.valence := List.nodup_nil
  refine ⟨Desk.run_once hnone acts,fun hg => ?_⟩
  have hs : (runFrom (Desk.step U) .fresh acts).Sound :=
    hg.invariant (fun d act hd hc => hd.step hc) Desk.sound_fresh
  exact hs.snapshot

/-! One learned token, one action whose text has it, and one rule for its outcome. -/

namespace Sample

def letter : Core.Token := .ofBuffer [97]

def rule : ValenceRule where
  id := utf8 "r"
  outcome := .executed
  minEvents := none
  withinSeconds := none
  expectation := none
  kind := .approach
  signal := Cli.neutralSignal
  named := by decide
  counted := nofun
  windowed := nofun
  terminal := nofun
  bounded := ⟨0,rfl,by norm_num⟩

def table : RuleTable := ⟨[rule],by decide,List.nodup_singleton _⟩

def action : JournalAction where
  id := utf8 "1"
  kind := utf8 "post"
  text := [97]
  digest := []
  outcome := .executed
  reason := []
  uri := []
  cid := []
  time := []
  mac := none
  expectation := none

def learning : List DeskAct :=
  [.start 0 .legacy,
    .observe 0 .calm (Core.textOf [97]) ⟨.empty,.empty,0,0,Core.schemaVersion,1⟩,
    .save 0,.stop 0,.record (.action action)]

def mapping (ending : Ending) : List DeskAct := [.start 0 .legacy,.map 0 table 9 [] ending]

theorem current_all {d : Desk} {p : ℕ} {q : Process} (hq : q ∈ d.processes p)
    (h : (d.processes p).all (fun q => q.seen = d.journal.valence.length) = true) :
    d.Current q := by
  rw [Option.mem_def.mp hq] at h
  exact of_decide_eq_true (p := q.seen = d.journal.valence.length) h

def uninterrupted : List DeskAct := learning++mapping none

theorem careful_mapping :
    Guarded (Desk.step .plain) (Desk.Careful .plain) .fresh uninterrupted :=
  ⟨trivial,trivial,fun _ hq => current_all hq (by decide +kernel),trivial,trivial,trivial,
    fun _ hq => .inr (.inl ⟨rfl,current_all hq (by decide +kernel)⟩),trivial⟩

theorem model_folds_journal_sample :
    ∀ g ∈ (runFrom (Desk.step .plain) .fresh uninterrupted).snapshot,
      Faithful (runFrom (Desk.step .plain) .fresh uninterrupted).journal.valence g :=
  (model_folds_journal .plain uninterrupted).2 careful_mapping

/-- The process ends behind its line, and the map that is run again finds nothing to do. -/
def interrupted : Desk :=
  runFrom (Desk.step .plain) .fresh (learning++mapping (some 1)++mapping none)

/-- The line names a token the model knows, whose valence is none. -/
def summary : List (Option Core.Token×Double)×Option (Option ℕ×ℕ) :=
  (interrupted.journal.valence.map fun entry => (lineToken entry,entry.signal.value),
    interrupted.snapshot.map fun g =>
      (g.findNode letter,g.valenceRecords.length))

/-- The rerun saves a model without the event whose line the journal has. -/
theorem interrupted_map_forgets :
    ∃ g ∈ interrupted.snapshot, ¬Folded interrupted.journal.valence g := by
  have hsummary : summary =
      ([(some letter,.finite 0)],some (some 0,0)) := by
    decide +kernel
  obtain ⟨hlines,hmodel⟩ := Prod.mk.inj hsummary
  obtain ⟨entry,hone,hentry⟩ := List.map_eq_singleton_iff.mp hlines
  obtain ⟨hline,hsignal⟩ := Prod.mk.inj hentry
  obtain ⟨g,hg,hmodel⟩ := Option.map_eq_some_iff.mp hmodel
  obtain ⟨hnode,hrecords⟩ := Prod.mk.inj hmodel
  refine ⟨g,hg,fun h => ?_⟩
  have hfold := h _ 0 hnode
  rw [hone,List.eq_nil_of_length_eq_zero hrecords] at hfold
  simp only [List.foldl_cons,List.foldl_nil,markLine,hsignal] at hfold
  rw [if_pos hline] at hfold
  cases hfold

end Sample

end Atperson.Journal
