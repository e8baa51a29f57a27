import Atperson.Journal.Types
import Atperson.Runs.FirstSeen
import Atperson.Runs.Guarded
import Atperson.Sync.Engine

/-!
# Linking records to actions

An observation that cites an executed action is linked to it by an event of the journal. The linker
looks at the journal as it was loaded, with the events it has appended since; actions journaled
meanwhile are seen by the next linker only. Over any run the journal gains every citation once.
-/
namespace Atperson.Sync
open Wire Journal Runs

def journalHasEvent (journal : JournalContents) (actionId eventUri : Bytes) : Bool :=
  journal.events.any fun event => event.actionId = actionId ∧ event.eventUri = eventUri

def journalFindActionByUri (journal : JournalContents) (uri : Bytes) : Option JournalAction :=
  journal.actions.find? fun action => action.outcome = .executed ∧ action.uri = uri

inductive LinkOutcome where
  | noMatch | linked | duplicate
  deriving DecidableEq

structure LinkageResult where
  linked : ℕ := 0
  duplicates : ℕ := 0
  deriving DecidableEq

/-- The journal on disk, and what the linker holds of it. -/
structure Linker where
  file : JournalContents
  journal : JournalContents

/-- An event is appended to the file first. -/
def Linker.append (l : Linker) (event : JournalEvent) : Linker where
  file := {l.file with events := l.file.events++[event]}
  journal := {l.journal with events := l.journal.events++[event]}

/-- `try_link`. An append that fails leaves nothing. -/
def tryLink (l : Linker) (o : SyncObservation) (uri : Bytes) (via : String)
    (fault : Option Thrown) : Except Thrown LinkOutcome×Linker :=
  if uri = [] then (.ok .noMatch,l)
  else match journalFindActionByUri l.journal uri with
  | none => (.ok .noMatch,l)
  | some action =>
      if journalHasEvent l.journal action.id o.sourceUri then (.ok .duplicate,l)
      else match fault with
        | some e => (.error e,l)
        | none => (.ok .linked,l.append {
            actionId := action.id
            eventUri := o.sourceUri
            authorDid := o.authorDid
            via := utf8 via
            time := o.createdAt})

/-- `link_observation`: the parent first, then the root, then the quote. -/
def linkObservation (l : Linker) (o : SyncObservation) (fault : Option Thrown) :
    Except Thrown LinkageResult×Linker :=
  match tryLink l o o.context.replyParentUri "parent" fault with
  | (.error e,l) => (.error e,l)
  | (.ok .linked,l) => (.ok {linked := 1},l)
  | (.ok .duplicate,l) => (.ok {duplicates := 1},l)
  | (.ok .noMatch,l) => match tryLink l o o.context.replyRootUri "root" fault with
      | (.error e,l) => (.error e,l)
      | (.ok .linked,l) => (.ok {linked := 1},l)
      | (.ok .duplicate,l) => (.ok {duplicates := 1},l)
      | (.ok .noMatch,l) => match tryLink l o o.context.quoteUri "quote" fault with
          | (.error e,l) => (.error e,l)
          | (.ok .linked,l) => (.ok {linked := 1},l)
          | (.ok .duplicate,l) => (.ok {},l)
          | (.ok .noMatch,l) => (.ok {},l)

/-! ## What an observation cites -/

/-- The executed action that a field cites. -/
def citedBy (journal : JournalContents) (uri : Bytes) : Option JournalAction :=
  if uri = [] then none else journalFindActionByUri journal uri

/-- The action that the strongest of the fields cites. -/
def cited (journal : JournalContents) (o : SyncObservation) : Option JournalAction :=
  (citedBy journal o.context.replyParentUri).or
    ((citedBy journal o.context.replyRootUri).or (citedBy journal o.context.quoteUri))

/-- What an event links: an action and a record. -/
def linkOf (event : JournalEvent) : Bytes×Bytes := (event.actionId,event.eventUri)

def linksOf (journal : JournalContents) : List (Bytes×Bytes) := journal.events.map linkOf

theorem journalHasEvent_iff {journal : JournalContents} {actionId eventUri : Bytes} :
    journalHasEvent journal actionId eventUri = true ↔ (actionId,eventUri) ∈ linksOf journal := by
  unfold journalHasEvent linksOf
  rw [List.any_eq_true,List.mem_map]
  refine exists_congr fun event => and_congr_right fun _ => ?_
  rw [decide_eq_true_eq]
  exact Prod.mk.injEq _ _ _ _ ▸ Iff.rfl

/-- An action is linked to a record, unless it is already or the append fails. -/
def Links (l : Linker) (o : SyncObservation) (fault : Option Thrown) (action : JournalAction)
    (l' : Linker) : Prop :=
  ((action.id,o.sourceUri) ∈ linksOf l.journal ∧ l' = l) ∨
    (action.id,o.sourceUri) ∉ linksOf l.journal ∧ ((fault ≠ none ∧ l' = l) ∨
      fault = none ∧ ∃ event, linkOf event = (action.id,o.sourceUri) ∧ l' = l.append event)

section Link
variable {l : Linker} {o : SyncObservation} {uri : Bytes} {via : String} {fault : Option Thrown}

/-- A field cites nothing, or the search ends with it. -/
theorem tryLink_cases (l : Linker) (o : SyncObservation) (uri : Bytes) (via : String)
    (fault : Option Thrown) :
    (citedBy l.journal uri = none ∧ tryLink l o uri via fault = (.ok .noMatch,l)) ∨
    ∃ action l', citedBy l.journal uri = some action ∧ Links l o fault action l' ∧
      ((∃ e, tryLink l o uri via fault = (.error e,l')) ∨ tryLink l o uri via fault = (.ok .linked,l') ∨
        tryLink l o uri via fault = (.ok .duplicate,l')) := by
  unfold tryLink citedBy
  by_cases hempty : uri = []
  · rw [if_pos hempty,if_pos hempty]
    exact .inl ⟨rfl,rfl⟩
  · rw [if_neg hempty,if_neg hempty]
    cases journalFindActionByUri l.journal uri with
    | none => exact .inl ⟨rfl,rfl⟩
    | some action =>
        right
        dsimp only
        by_cases hlinked : (action.id,o.sourceUri) ∈ linksOf l.journal
        · rw [if_pos (journalHasEvent_iff.mpr hlinked)]
          exact ⟨action,l,rfl,.inl ⟨hlinked,rfl⟩,.inr (.inr rfl)⟩
        · rw [if_neg fun h => hlinked (journalHasEvent_iff.mp h)]
          cases fault with
          | some e => exact ⟨action,l,rfl,.inr ⟨hlinked,.inl ⟨nofun,rfl⟩⟩,.inl ⟨e,rfl⟩⟩
          | none => exact ⟨action,_,rfl,.inr ⟨hlinked,.inr ⟨rfl,_,rfl,rfl⟩⟩,.inr (.inl rfl)⟩

/-- An observation is linked to what the strongest of its fields cites. -/
theorem linkObservation_cases (l : Linker) (o : SyncObservation) (fault : Option Thrown) :
    (cited l.journal o = none ∧ (linkObservation l o fault).2 = l) ∨
    ∃ action, cited l.journal o = some action ∧
      Links l o fault action (linkObservation l o fault).2 := by
  unfold linkObservation cited
  rcases tryLink_cases l o o.context.replyParentUri "parent" fault with
    ⟨hparent,heq⟩ | ⟨action,l',hparent,hlinks,hout⟩
  · rw [heq,hparent,Option.none_or]
    dsimp only
    rcases tryLink_cases l o o.context.replyRootUri "root" fault with
      ⟨hroot,heq⟩ | ⟨action,l',hroot,hlinks,hout⟩
    · rw [heq,hroot,Option.none_or]
      dsimp only
      rcases tryLink_cases l o o.context.quoteUri "quote" fault with
        ⟨hquote,heq⟩ | ⟨action,l',hquote,hlinks,hout⟩
      · rw [heq]
        exact .inl ⟨hquote,rfl⟩
      · refine .inr ⟨action,hquote,?_⟩
        rcases hout with ⟨e,heq⟩ | heq | heq
        · rw [heq]
          exact hlinks
        · rw [heq]
          exact hlinks
        · rw [heq]
          exact hlinks
    · rw [hroot,Option.some_or]
      refine .inr ⟨action,rfl,?_⟩
      rcases hout with ⟨e,heq⟩ | heq | heq
      · rw [heq]
        exact hlinks
      · rw [heq]
        exact hlinks
      · rw [heq]
        exact hlinks
  · rw [hparent,Option.some_or]
    refine .inr ⟨action,rfl,?_⟩
    rcases hout with ⟨e,heq⟩ | heq | heq
    · rw [heq]
      exact hlinks
    · rw [heq]
      exact hlinks
    · rw [heq]
      exact hlinks

end Link

/-! ## Runs -/

/-- What can happen to the journal. A linker is made when a sync begins, also after a crash. -/
inductive LinkStep where
  | make
  | observe (o : SyncObservation) (fault : Option Thrown)
  | publish (action : JournalAction)

/-- A host with its linker, and what it has seen cited where no append failed. -/
structure LinkHost where
  linker : Linker
  citations : List (Bytes×Bytes)

def linkStep (h : LinkHost) : LinkStep → LinkHost
  | .make => {h with linker := {h.linker with journal := h.linker.file}}
  | .observe o fault => {
      linker := (linkObservation h.linker o fault).2
      citations := h.citations++match cited h.linker.journal o with
        | some action => if fault = none then [(action.id,o.sourceUri)] else []
        | none => []}
  | .publish action => {h with linker := {h.linker with
      file := {h.linker.file with actions := h.linker.file.actions++[action]}}}

/-- The linker knows every event of the file, and the actions that were there when it was made. -/
structure Abreast (start : List (Bytes×Bytes)) (h : LinkHost) : Prop where
  events : linksOf h.linker.journal = linksOf h.linker.file
  actions : h.linker.journal.actions <+: h.linker.file.actions
  links : linksOf h.linker.file = firstSeen start h.citations
  executed : ∀ link ∈ h.citations, ∃ action ∈ h.linker.file.actions,
    action.outcome = .executed ∧ action.id = link.1

section Run
variable {start : List (Bytes×Bytes)} {h : LinkHost}

theorem linksOf_append (l : Linker) (event : JournalEvent) :
    linksOf (l.append event).file = linksOf l.file++[linkOf event] ∧
      linksOf (l.append event).journal = linksOf l.journal++[linkOf event] :=
  ⟨List.map_append,List.map_append⟩

theorem citedBy_executed {journal : JournalContents} {uri : Bytes} {action : JournalAction}
    (hcited : citedBy journal uri = some action) :
    action ∈ journal.actions ∧ action.outcome = .executed := by
  unfold citedBy journalFindActionByUri at hcited
  split at hcited
  · cases hcited
  · have hholds := List.find?_some hcited
    rw [decide_eq_true_eq] at hholds
    exact ⟨List.mem_of_find?_eq_some hcited,hholds.1⟩

theorem cited_executed {journal : JournalContents} {o : SyncObservation} {action : JournalAction}
    (hcited : cited journal o = some action) :
    action ∈ journal.actions ∧ action.outcome = .executed := by
  unfold cited at hcited
  rcases Option.or_eq_some_iff.mp hcited with hparent | ⟨-,hcited⟩
  · exact citedBy_executed hparent
  · rcases Option.or_eq_some_iff.mp hcited with hroot | ⟨-,hquote⟩
    · exact citedBy_executed hroot
    · exact citedBy_executed hquote

theorem Abreast.step (hs : Abreast start h) (step : LinkStep) : Abreast start (linkStep h step) := by
  cases step with
  | make => exact ⟨rfl,List.prefix_rfl,hs.links,hs.executed⟩
  | publish action =>
      refine ⟨hs.events,hs.actions.trans (List.prefix_append _ _),hs.links,fun link hlink => ?_⟩
      obtain ⟨known,hknown,hexecuted⟩ := hs.executed link hlink
      exact ⟨known,List.mem_append_left _ hknown,hexecuted⟩
  | observe o fault =>
      dsimp only [linkStep]
      rcases linkObservation_cases h.linker o fault with ⟨hnone,heq⟩ | ⟨action,hcited,hlinks⟩
      · rw [heq,hnone]
        dsimp only
        rw [List.append_nil]
        exact hs
      · rw [hcited]
        dsimp only
        obtain ⟨haction,hexecuted⟩ := cited_executed hcited
        have hknown : ∀ link ∈ h.citations++[(action.id,o.sourceUri)],
            ∃ action ∈ h.linker.file.actions, action.outcome = .executed ∧ action.id = link.1 := by
          intro link hlink
          rcases List.mem_append.mp hlink with hlink | hlink
          · exact hs.executed link hlink
          · rw [List.mem_singleton.mp hlink]
            exact ⟨action,hs.actions.mem haction,hexecuted,rfl⟩
        rcases hlinks with ⟨hlinked,heq⟩ | ⟨hnew,⟨hfault,heq⟩ | ⟨hfault,event,hevent,heq⟩⟩
        · rw [heq]
          split
          · refine ⟨hs.events,hs.actions,?_,hknown⟩
            rw [firstSeen_concat,← hs.links,takeUp,if_pos (hs.events ▸ hlinked)]
          · rw [List.append_nil]
            exact hs
        · rw [heq,if_neg hfault,List.append_nil]
          exact hs
        · rw [heq,if_pos hfault]
          obtain ⟨hfile,hjournal⟩ := linksOf_append h.linker event
          refine ⟨?_,hs.actions,?_,hknown⟩
          · rw [hfile,hjournal,hs.events]
          · rw [hfile,hevent,firstSeen_concat,← hs.links,takeUp,if_neg (hs.events ▸ hnew)]

/-- Over any run of linkers, observations and publications, with appends that fail, the journal
gains the citations seen in their order, and no link twice. -/
theorem links_run (journal : JournalContents) (steps : List LinkStep) :
    let h := runFrom linkStep ⟨⟨journal,journal⟩,[]⟩ steps
    linksOf h.linker.file = firstSeen (linksOf journal) h.citations ∧
      (∀ link, (linksOf h.linker.file).count link =
        max ((linksOf journal).count link) (if link ∈ h.citations then 1 else 0)) ∧
      ∀ link ∈ h.citations, ∃ action ∈ h.linker.file.actions,
        action.outcome = .executed ∧ action.id = link.1 := by
  have hstart : Abreast (linksOf journal) ⟨⟨journal,journal⟩,[]⟩ :=
    ⟨rfl,List.prefix_rfl,rfl,List.forall_mem_nil _⟩
  have hend := runFrom_invariant (fun _ step hs => hs.step step) hstart steps
  refine ⟨hend.links,fun link => ?_,hend.executed⟩
  rw [hend.links,count_firstSeen]

end Run

end Atperson.Sync
