import Atperson.Wire.LittleEndian
import Atperson.Runs.Guarded

/-!
# Commands that write the model

Every command that writes the model takes the writer lock, adds to the ledger or the journal
and to the graph in memory, and saves the graph as the snapshot. Most commands load the
snapshot before they have the lock and keep that copy. A graph is what it was taught: the
observations of the ledger and the valence lines of the journal.
-/
namespace Atperson.Cli
open Wire Runs

/-- What the ledger knows an observation by: the source and the digest of its content. -/
structure ObservationKey where
  source : Bytes
  digest : UInt64
  deriving DecidableEq

inductive Effect where
  | observation (key : ObservationKey)
  | valence (line : ℕ)
  deriving DecidableEq

abbrev Graph := List Effect

inductive Command where
  | ingest
  | ingestFile
  | sync
  | daemon
  | jetstream
  | jetstreamArchive
  | journalApply
  | journalMap
  | rotate
  | rebuild
  deriving DecidableEq

/-- What a command does with its graph when it has the lock. -/
inductive AtLock where
  | keeps
  | reloads
  | replays
  deriving DecidableEq

def Command.atLock : Command → AtLock
  | .rotate => .reloads
  | .rebuild => .replays
  | _ => .keeps

def Command.observes : Command → Bool
  | .ingest | .ingestFile | .sync | .daemon | .jetstream | .jetstreamArchive => true
  | _ => false

def Command.appliesValence : Command → Bool
  | .journalApply | .journalMap => true
  | _ => false

inductive Phase where
  | started
  | loaded
  | locked
  | working
  deriving DecidableEq

/-- A process: the snapshot it loaded, its graph in memory, what it has added and whether some
of it is not saved. -/
structure Process where
  command : Command
  phase : Phase := .started
  loaded : Graph := []
  graph : Graph := []
  own : List Effect := []
  unsaved : Bool := false

/-- The files, the holder of the lock, the processes, and what those that finished normally
have committed and appended. -/
structure World where
  snapshot : Graph := []
  ledger : List ObservationKey := []
  journal : ℕ := 0
  holder : Option ℕ := none
  process : ℕ → Option Process := fun _ => none
  finished : List Effect := []

inductive Act where
  | start (p : ℕ) (command : Command)
  | load (p : ℕ)
  | lock (p : ℕ)
  | refresh (p : ℕ)
  | observe (p : ℕ) (key : ObservationKey)
  | applyValence (p : ℕ)
  | save (p : ℕ)
  | finish (p : ℕ)
  | die (p : ℕ)

def World.put (w : World) (p : ℕ) (q : Process) : World :=
  { w with process := Function.update w.process p (some q) }

def World.drop (w : World) (p : ℕ) : World :=
  { w with process := Function.update w.process p none }

/-- Everything the ledger and the journal hold. -/
def World.history (w : World) : Graph :=
  w.ledger.map .observation++(List.range w.journal).map .valence

def refreshed (w : World) (q : Process) : Graph :=
  match q.command.atLock with
  | .keeps => q.graph
  | .reloads => w.snapshot
  | .replays => w.history

/-- An effect that is appended and trained. -/
def Process.learn (q : Process) (e : Effect) : Process :=
  { q with graph := q.graph++[e], own := q.own++[e], unsaved := true }

/-- One step of a process; a step that is not the process's turn changes nothing. The ledger
suppresses an observation that it holds. -/
def World.step (w : World) : Act → World
  | .start p command => if w.process p = none then w.put p { command } else w
  | .load p =>
      match w.process p with
      | some q =>
          if q.phase = .started then
            w.put p { q with phase := .loaded, loaded := w.snapshot, graph := w.snapshot }
          else w
      | none => w
  | .lock p =>
      match w.process p with
      | some q =>
          if q.phase = .loaded ∧ w.holder = none then
            { w.put p { q with phase := .locked } with holder := some p }
          else w
      | none => w
  | .refresh p =>
      match w.process p with
      | some q =>
          if q.phase = .locked then w.put p { q with phase := .working, graph := refreshed w q }
          else w
      | none => w
  | .observe p key =>
      match w.process p with
      | some q =>
          if q.phase = .working ∧ q.command.observes ∧ key ∉ w.ledger then
            { w.put p (q.learn (.observation key)) with ledger := w.ledger++[key] }
          else w
      | none => w
  | .applyValence p =>
      match w.process p with
      | some q =>
          if q.phase = .working ∧ q.command.appliesValence then
            { w.put p (q.learn (.valence w.journal)) with journal := w.journal+1 }
          else w
      | none => w
  | .save p =>
      match w.process p with
      | some q =>
          if q.phase = .working then
            { w.put p { q with unsaved := false } with snapshot := q.graph }
          else w
      | none => w
  | .finish p =>
      match w.process p with
      | some q =>
          if q.phase = .working ∧ q.unsaved = false then
            { w.drop p with holder := none, finished := w.finished++q.own }
          else w
      | none => w
  | .die p => { w.drop p with holder := if w.holder = some p then none else w.holder }

/-- A process that keeps the copy it loaded saves only where that copy has what the processes
that have finished learned. -/
def World.Fresh (w : World) : Act → Prop
  | .save p => ∀ q, w.process p = some q → q.phase = .working → q.command.atLock = .keeps →
      ∀ e ∈ w.finished, e ∈ q.loaded
  | _ => True

instance (w : World) : (act : Act) → Decidable (w.Fresh act)
  | .save p => decidable_of_iff (∀ q ∈ w.process p, q.phase = .working →
      q.command.atLock = .keeps → ∀ e ∈ w.finished, e ∈ q.loaded) Iff.rfl
  | .start _ _ | .load _ | .lock _ | .refresh _ | .observe _ _ | .applyValence _ | .finish _
  | .die _ => .isTrue trivial

/-! ## What every step keeps -/

/-- The effect stands in the ledger or the journal. -/
def World.Recorded (w : World) : Effect → Prop
  | .observation key => key ∈ w.ledger
  | .valence line => line < w.journal

theorem mem_history {w : World} {e : Effect} : e ∈ w.history ↔ w.Recorded e := by
  cases e <;> simp [World.history,World.Recorded]

structure Process.Sound (w : World) (p : ℕ) (q : Process) : Prop where
  holds : q.phase = .locked ∨ q.phase = .working → w.holder = some p
  idle : q.phase ≠ .working → q.own = []
  own : ∀ e ∈ q.own, w.Recorded e ∧ e ∈ q.graph
  saved : q.unsaved = false → ∀ e ∈ q.own, e ∈ w.snapshot
  keeps : q.command.atLock = .keeps → ∀ e ∈ q.loaded, e ∈ q.graph
  renewed : q.phase = .working → q.command.atLock ≠ .keeps → ∀ e ∈ w.finished, e ∈ q.graph

structure World.Sound (w : World) : Prop where
  process : ∀ p q, w.process p = some q → q.Sound w p
  recorded : ∀ e ∈ w.finished, w.Recorded e
  kept : ∀ e ∈ w.finished, e ∈ w.snapshot

section Step
variable {w w' : World} {p : ℕ} {q : Process}

/-- A process is not touched by what others do to the files while it has not got the lock. -/
theorem Process.Sound.frame (hq : q.Sound w p) (hmono : ∀ e, w.Recorded e → w'.Recorded e)
    (hidle : w.holder = some p → w'.holder = some p ∧ w'.snapshot = w.snapshot ∧
      w'.finished = w.finished) : q.Sound w' p where
  holds hphase := (hidle (hq.holds hphase)).1
  idle := hq.idle
  own e he := ⟨hmono e (hq.own e he).1,(hq.own e he).2⟩
  saved hsaved e he := by
    by_cases hworking : q.phase = .working
    · rw [(hidle (hq.holds (.inr hworking))).2.1]
      exact hq.saved hsaved e he
    · rw [hq.idle hworking] at he
      cases he
  keeps := hq.keeps
  renewed hworking hrenews := by
    rw [(hidle (hq.holds (.inr hworking))).2.2]
    exact hq.renewed hworking hrenews

/-- A step of one process: the others need that the step leaves alone what the holder of the
lock relies on. -/
theorem World.Sound.step_of (h : w.Sound) (hothers : ∀ p' ≠ p, w'.process p' = w.process p')
    (hself : ∀ q, w'.process p = some q → q.Sound w' p)
    (hmono : ∀ e, w.Recorded e → w'.Recorded e)
    (hidle : ∀ p' ≠ p, w.holder = some p' → w'.holder = some p' ∧ w'.snapshot = w.snapshot ∧
      w'.finished = w.finished)
    (hfinished : ∀ e ∈ w'.finished, w'.Recorded e ∧ e ∈ w'.snapshot) : w'.Sound where
  process p' q' hq' := by
    by_cases hp : p' = p
    · subst hp
      exact hself q' hq'
    · rw [hothers p' hp] at hq'
      exact (h.process p' q' hq').frame hmono (hidle p' hp)
  recorded e he := (hfinished e he).1
  kept e he := (hfinished e he).2

theorem World.Sound.finished (h : w.Sound) :
    ∀ e ∈ w.finished, w.Recorded e ∧ e ∈ w.snapshot := fun e he => ⟨h.recorded e he,h.kept e he⟩

theorem update_self {q' : Process} (hq : Function.update w.process p (some q) p = some q') :
    q' = q := by
  rw [Function.update_self] at hq
  exact (Option.some.inj hq).symm

/-- A process that has not asked for the lock yet. -/
theorem waiting_sound (hphase : q.phase = .started ∨ q.phase = .loaded) (hown : q.own = [])
    (hkeeps : ∀ e ∈ q.loaded, e ∈ q.graph) : q.Sound w p := by
  have hidle : q.phase ≠ .locked ∧ q.phase ≠ .working := by
    rcases hphase with hphase | hphase <;> rw [hphase] <;> decide
  have hnone {P : Effect → Prop} : ∀ e ∈ q.own, P e := fun e he => by
    rw [hown] at he
    cases he
  exact ⟨fun hp => absurd hp (not_or.mpr hidle),fun _ => hown,hnone,fun _ => hnone,
    fun _ => hkeeps,fun hp => absurd hp hidle.2⟩

theorem gone {process : ℕ → Option Process} {q' : Process}
    (hq : Function.update process p none p = some q') : False := by
  rw [Function.update_self] at hq
  cases hq

/-- A step that only puts a process. -/
theorem World.Sound.put (h : w.Sound) (hself : q.Sound (w.put p q) p) : (w.put p q).Sound :=
  h.step_of (p := p) (fun p' hp => Function.update_of_ne hp _ _)
    (fun q' hq' => by rwa [update_self hq']) (fun _ he => he)
    (fun _ _ hp => ⟨hp,rfl,rfl⟩) h.finished

/-- A process learns an effect that is recorded with it. -/
theorem World.Sound.learn (h : w.Sound) (hq : w.process p = some q) (hphase : q.phase = .working)
    {e : Effect} (hprocess : w'.process = Function.update w.process p (some (q.learn e)))
    (hmono : ∀ e, w.Recorded e → w'.Recorded e) (he : w'.Recorded e)
    (hsame : w'.holder = w.holder ∧ w'.snapshot = w.snapshot ∧ w'.finished = w.finished) :
    w'.Sound := by
  obtain ⟨hholder,hsnapshot,hfinished⟩ := hsame
  have hsound := h.process p q hq
  refine h.step_of (p := p) (fun p' hp => by rw [hprocess,Function.update_of_ne hp])
    (fun q' hq' => ?_) hmono (fun p' _ hp => ⟨hholder.trans hp,hsnapshot,hfinished⟩) ?_
  · rw [hprocess] at hq'
    obtain rfl := update_self hq'
    refine ⟨fun hp => hholder.trans (hsound.holds hp),fun hp => absurd hphase hp,
      fun x hx => ?_,nofun,fun hkeeps x hx => ?_,fun hp hrenews x hx => ?_⟩
    · rcases List.mem_append.mp hx with hx | hx
      · exact ⟨hmono x (hsound.own x hx).1,List.mem_append_left _ (hsound.own x hx).2⟩
      · exact ⟨List.mem_singleton.mp hx ▸ he,List.mem_append_right _ hx⟩
    · exact List.mem_append_left _ (hsound.keeps hkeeps x hx)
    · rw [hfinished] at hx
      exact List.mem_append_left _ (hsound.renewed hp hrenews x hx)
  · intro x hx
    rw [hfinished] at hx
    rw [hsnapshot]
    exact ⟨hmono x (h.recorded x hx),h.kept x hx⟩

theorem World.Sound.step {act : Act} (h : w.Sound) (hfresh : w.Fresh act) : (w.step act).Sound := by
  cases act with
  | start p command =>
      rw [World.step]
      split
      · exact h.put (waiting_sound (.inl rfl) rfl nofun)
      · exact h
  | load p =>
      simp only [World.step]
      split
      · split
        · rename_i q hq hphase
          have hsound := h.process p q hq
          have hown : q.own = [] := hsound.idle (by rw [hphase]; decide)
          exact h.put (waiting_sound (.inr rfl) hown fun _ he => he)
        · exact h
      · exact h
  | lock p =>
      simp only [World.step]
      split
      · split
        · rename_i q hq hphase
          have hsound := h.process p q hq
          have hown : q.own = [] := hsound.idle (by rw [hphase.1]; decide)
          refine h.step_of (p := p) (fun p' hp => Function.update_of_ne hp _ _)
            (fun q' hq' => ?_) (fun _ he => he) (fun p' _ hp => ?_) h.finished
          · obtain rfl := update_self hq'
            refine ⟨fun _ => rfl,fun _ => hown,?_,?_,hsound.keeps,fun hp => by cases hp⟩
            · exact fun e he => absurd (hown ▸ he) List.not_mem_nil
            · exact fun _ e he => absurd (hown ▸ he) List.not_mem_nil
          · rw [hphase.2] at hp
            cases hp
        · exact h
      · exact h
  | refresh p =>
      simp only [World.step]
      split
      · split
        · rename_i q hq hphase
          have hsound := h.process p q hq
          have hown : q.own = [] := hsound.idle (by rw [hphase]; decide)
          refine h.put ⟨fun _ => hsound.holds (.inl hphase),fun _ => hown,?_,?_,
            fun hkeeps e he => ?_,fun _ hrenews e he => ?_⟩
          · exact fun e he => absurd (hown ▸ he) List.not_mem_nil
          · exact fun _ e he => absurd (hown ▸ he) List.not_mem_nil
          · have hcommand : q.command.atLock = .keeps := hkeeps
            show e ∈ refreshed w q
            rw [refreshed,hcommand]
            exact hsound.keeps hkeeps e he
          · have hcommand : q.command.atLock ≠ .keeps := hrenews
            show e ∈ refreshed w q
            rw [refreshed]
            cases hat : q.command.atLock with
            | keeps => exact absurd hat hcommand
            | reloads => exact h.kept e he
            | replays => exact mem_history.mpr (h.recorded e he)
        · exact h
      · exact h
  | observe p key =>
      simp only [World.step]
      split
      · split
        · rename_i q hq hphase
          refine h.learn hq hphase.1 rfl (fun e he => ?_) ?_ ⟨rfl,rfl,rfl⟩
          · cases e with
            | observation k => exact List.mem_append_left _ he
            | valence line => exact he
          · exact List.mem_append_right _ (List.mem_singleton_self key)
        · exact h
      · exact h
  | applyValence p =>
      simp only [World.step]
      split
      · split
        · rename_i q hq hphase
          refine h.learn hq hphase.1 rfl (fun e he => ?_) (Nat.lt_succ_self w.journal)
            ⟨rfl,rfl,rfl⟩
          cases e with
          | observation k => exact he
          | valence line => exact Nat.lt_succ_of_lt he
        · exact h
      · exact h
  | save p =>
      simp only [World.step]
      split
      · split
        · rename_i q hq hphase
          have hsound := h.process p q hq
          have hholder := hsound.holds (.inr hphase)
          have hall : ∀ e ∈ w.finished, e ∈ q.graph := by
            by_cases hkeeps : q.command.atLock = .keeps
            · exact fun e he => hsound.keeps hkeeps e (hfresh q hq hphase hkeeps e he)
            · exact hsound.renewed hphase hkeeps
          refine h.step_of (p := p) (fun p' hp => Function.update_of_ne hp _ _)
            (fun q' hq' => ?_) (fun _ he => he) (fun p' hp hother => ?_)
            fun e he => ⟨h.recorded e he,hall e he⟩
          · obtain rfl := update_self hq'
            exact ⟨hsound.holds,hsound.idle,hsound.own,fun _ e he => (hsound.own e he).2,
              hsound.keeps,hsound.renewed⟩
          · rw [hholder] at hother
            exact absurd (Option.some.inj hother).symm hp
        · exact h
      · exact h
  | finish p =>
      simp only [World.step]
      split
      · split
        · rename_i q hq hphase
          have hsound := h.process p q hq
          have hholder := hsound.holds (.inr hphase.1)
          refine h.step_of (p := p) (fun p' hp => Function.update_of_ne hp _ _)
            (fun q' hq' => ?_) (fun _ he => he) (fun p' hp hother => ?_) fun e he => ?_
          · exact (gone hq').elim
          · rw [hholder] at hother
            exact absurd (Option.some.inj hother).symm hp
          · rcases List.mem_append.mp he with he | he
            · exact h.finished e he
            · exact ⟨(hsound.own e he).1,hsound.saved hphase.2 e he⟩
        · exact h
      · exact h
  | die p =>
      refine h.step_of (p := p) (fun p' hp => Function.update_of_ne hp _ _)
        (fun q' hq' => ?_) (fun _ he => he) (fun p' hp hother => ?_) h.finished
      · exact (gone hq').elim
      · refine ⟨?_,rfl,rfl⟩
        show (if w.holder = some p then none else w.holder) = some p'
        rw [if_neg (by rw [hother]; exact fun heq => hp (Option.some.inj heq)),hother]

end Step

/-- In a run whose saves are all from fresh copies, the snapshot has at every moment what the
processes that finished normally committed to the ledger and appended to the journal. -/
theorem writers_keep_learning {acts : List Act}
    (hguard : Guarded World.step World.Fresh {} acts) :
    let w := runFrom World.step {} acts
    w.holder = none → ∀ e ∈ w.finished, w.Recorded e ∧ e ∈ w.snapshot := by
  intro w _
  have hsound : w.Sound := hguard.invariant (P := World.Sound) (fun _ _ h hf => h.step hf)
    ⟨nofun,nofun,nofun⟩
  exact hsound.finished

def sampleKey (digest : UInt64) : ObservationKey := ⟨[],digest⟩

/-- Two processes one after the other, the second loading when the first is through. -/
def orderlyRun : List Act :=
  [.start 0 .ingest,.load 0,.lock 0,.refresh 0,.observe 0 (sampleKey 1),.save 0,.finish 0,
    .start 1 .journalApply,.load 1,.lock 1,.refresh 1,.applyValence 1,.save 1,.finish 1]

theorem writers_keep_learning_sample :
    let w := runFrom World.step {} orderlyRun
    w.finished = [.observation (sampleKey 1),.valence 0] ∧ ∀ e ∈ w.finished, e ∈ w.snapshot := by
  have hguard : Guarded World.step World.Fresh {} orderlyRun := by decide
  exact ⟨by decide,fun e he => (writers_keep_learning hguard (by decide) e he).2⟩

/-- Two ingests load before either has the lock: the second saves over what the first learned,
and the ledger keeps a third from learning it again. -/
def overwrittenRun : List Act :=
  [.start 0 .ingest,.start 1 .ingest,.load 0,.load 1,
    .lock 0,.refresh 0,.observe 0 (sampleKey 1),.save 0,.finish 0,
    .lock 1,.refresh 1,.observe 1 (sampleKey 2),.save 1,.finish 1,
    .start 2 .ingest,.load 2,.lock 2,.refresh 2,.observe 2 (sampleKey 1),.finish 2]

theorem learning_overwritten :
    let w := runFrom World.step {} overwrittenRun
    w.holder = none ∧ .observation (sampleKey 1) ∈ w.finished ∧
      .observation (sampleKey 1) ∉ w.snapshot := by
  decide

end Atperson.Cli
