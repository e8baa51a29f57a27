import Atperson.Ledger.Machine
import Atperson.Sync.Learning
import Atperson.Daemon.Loop

/-!
# What a graceful exit has saved

A cycle that commits observations and then stops for a retryable error leaves a graph that
nothing marks as changed: its observations are duplicates from then on. What the exit saves is
the final graph exactly when every such cycle is made up for, by a later cycle that takes
something and so marks the graph.
-/
namespace Atperson.Daemon
open Atperson.Core (Graph Utf8proc)
open Atperson.Sync (Thrown Learner SyncEnv SyncLimits SyncResult SyncReply SyncObservation SyncPage
  IngestionState Grows Mirrors committedCount runSync runSync_ok runSync_retryable ItemEnv)
open Ledger (Disk Handle Status Faults Op Item Numbered openLedger runOps)

/-- The graph a restart finds: what was saved last, or what the run started from. -/
def Daemon.saved (start : Graph) (d : Daemon) : Graph := d.snapshot.getD start

/-- The saved graph is the graph, and holds every observation committed during the run. -/
structure Flushed (w : Learner) (d : Daemon) : Prop where
  saved : d.saved w.graph = d.learner.graph
  committed : ∀ (i : ℕ) (it : Item), d.learner.session.handle.items[i]? = some it →
    it.outcome.isCommitted = true →
      (∃ it' : Item, w.session.handle.items[i]? = some it' ∧ it'.outcome.isCommitted = true) ∨
        ∃ m ∈ (d.saved w.graph).ledger, m.entry.id = it.entry.id

def Control.goesOn : Control → Bool
  | .next => true
  | _ => false

/-- What a run that returns has taken. -/
def taken (reply : SyncReply) : ℕ :=
  match reply.outcome with
  | .ok r => r.learned+r.skipped
  | .error _ => 0

def retries (reply : SyncReply) : Bool :=
  match reply.outcome with
  | .error .retryable => true
  | _ => false

section Conditions
variable (U : Utf8proc) (linker : Bool) (config : DaemonConfig) (limits : SyncLimits)

/-- The cycle of a round commits observations and then stops for a retryable error, while
nothing is marked as unsaved. -/
def Forgets (d : Daemon) (t : Turn) : Prop :=
  d.runs config t ∧ d.dirty = false ∧ retries (d.sync U linker config limits t) = true ∧
    committedCount d.learner.session.handle.items <
      committedCount (d.sync U linker config limits t).learner.session.handle.items

/-- The cycle of a round returns and has taken something. -/
def Recovers (d : Daemon) (t : Turn) : Prop :=
  d.runs config t ∧ 0 < taken (d.sync U linker config limits t)

instance (d : Daemon) (t : Turn) : Decidable (Forgets U linker config limits d t) :=
  inferInstanceAs (Decidable (_ ∧ _))

instance (d : Daemon) (t : Turn) : Decidable (Recovers U linker config limits d t) :=
  inferInstanceAs (Decidable (_ ∧ _))

/-- Some round that the loop reaches recovers. -/
def Recovered : Daemon → List Turn → Prop
  | _, [] => False
  | d, t::rest => Recovers U linker config limits d t ∨
      (d.turn U linker config limits t).2.goesOn = true ∧
        Recovered (d.turn U linker config limits t).1 rest

/-- Every round that forgets is followed by one that recovers. -/
def Remembers : Daemon → List Turn → Prop
  | _, [] => True
  | d, t::rest =>
      (Forgets U linker config limits d t →
        Recovered U linker config limits (d.turn U linker config limits t).1 rest) ∧
      ((d.turn U linker config limits t).2.goesOn = true →
        Remembers (d.turn U linker config limits t).1 rest)

instance instDecidableRecovered : (d : Daemon) → (turns : List Turn) →
    Decidable (Recovered U linker config limits d turns)
  | _, [] => .isFalse id
  | d, t::rest =>
      have := instDecidableRecovered (d.turn U linker config limits t).1 rest
      inferInstanceAs (Decidable (_ ∨ _ ∧ _))

instance instDecidableRemembers : (d : Daemon) → (turns : List Turn) →
    Decidable (Remembers U linker config limits d turns)
  | _, [] => .isTrue trivial
  | d, t::rest =>
      have := instDecidableRemembers (d.turn U linker config limits t).1 rest
      inferInstanceAs (Decidable
        ((Forgets U linker config limits d t →
          Recovered U linker config limits (d.turn U linker config limits t).1 rest) ∧
        ((d.turn U linker config limits t).2.goesOn = true →
          Remembers U linker config limits (d.turn U linker config limits t).1 rest)))

end Conditions

/-! ## One round -/

section Rounds
variable {U : Utf8proc} {linker : Bool} {config : DaemonConfig} {limits : SyncLimits}

section Turned
variable (U linker config limits)

/-- What a round that raises nothing can do: pass, stop for a retryable error, or complete a
cycle and possibly save. -/
inductive Turned (d : Daemon) (t : Turn) (d' : Daemon) (control : Control) : Prop
  | idle : ¬d.runs config t → d'.learner = d.learner → d'.snapshot = d.snapshot →
      d'.dirty = d.dirty → Turned d t d' control
  | failed (n : ℕ) : d.runs config t → retries (d.sync U linker config limits t) = true →
      d'.learner = (d.sync U linker config limits t).learner → Grows n d.learner d'.learner →
      d'.snapshot = d.snapshot → d'.dirty = d.dirty → control = .next → Turned d t d' control
  | kept (r : SyncResult) : d.runs config t →
      (d.sync U linker config limits t).outcome = .ok r →
      Grows (r.learned+r.skipped) d.learner d'.learner → d'.snapshot = d.snapshot →
      d'.dirty = (d.count r).dirty → Turned d t d' control
  | saved (r : SyncResult) : d.runs config t →
      (d.sync U linker config limits t).outcome = .ok r →
      Grows (r.learned+r.skipped) d.learner d'.learner → (d.count r).dirty = true →
      d'.snapshot = some d'.learner.graph → d'.dirty = false → Turned d t d' control

end Turned

theorem count_dirty {d : Daemon} {r : SyncResult} :
    (d.count r).dirty = true ↔ d.dirty = true ∨ 0 < r.learned+r.skipped := by
  simp [Daemon.count]

/-- A cycle whose run stops passes the exception on. -/
theorem cycle_error {d : Daemon} {t : Turn} {e : Thrown}
    (h : (d.sync U linker config limits t).outcome = .error e) :
    d.cycle U linker config limits t =
      ({d with learner := (d.sync U linker config limits t).learner
               ingestion := (d.sync U linker config limits t).state},some e) := by
  simp only [Daemon.cycle,h]

/-- A cycle whose run returns has counted it, and may have saved. -/
theorem cycle_ok {d d' : Daemon} {t : Turn} {r : SyncResult} {x : Option Thrown}
    (hr : (d.sync U linker config limits t).outcome = .ok r)
    (h : d.cycle U linker config limits t = (d',x)) :
    d'.learner = (d.sync U linker config limits t).learner ∧
      (d'.snapshot = d.snapshot ∧ d'.dirty = (d.count r).dirty ∨
        (d.count r).dirty = true ∧ d'.snapshot = some d'.learner.graph ∧ d'.dirty = false) := by
  simp only [Daemon.cycle,hr] at h
  split at h
  · cases h
    exact ⟨rfl,.inl ⟨rfl,rfl⟩⟩
  · unfold Daemon.snapshotDue Daemon.saveGraph at h
    split at h
    · rename_i hs
      split at hs
      · split at hs <;> cases hs
        cases h
        exact ⟨rfl,.inl ⟨rfl,rfl⟩⟩
      · cases hs
    · rename_i hs
      split at hs
      · rename_i hdue
        split at hs <;> cases hs
        cases h
        exact ⟨rfl,.inr ⟨hdue.1,rfl,rfl⟩⟩
      · cases hs
        cases h
        exact ⟨rfl,.inl ⟨rfl,rfl⟩⟩

theorem turn_cases {d d' : Daemon} {t : Turn} {control : Control}
    (hnum : Numbered d.learner.session) (h : d.turn U linker config limits t = (d',control))
    (hc : ∀ e, control ≠ .raised e) : Turned U linker config limits d t d' control := by
  unfold Daemon.turn at h
  by_cases hstop : t.stopBefore = true
  · rw [if_pos hstop] at h
    cases h
    exact .idle (fun hr => by simp [hr.1] at hstop) rfl rfl rfl
  rw [if_neg hstop] at h
  by_cases hbound : d.boundReached config
  · rw [if_pos hbound] at h
    cases h
    exact .idle (fun hr => hr.2.1 hbound) rfl rfl rfl
  rw [if_neg hbound] at h
  by_cases hready : ¬t.ready = true
  · rw [if_pos hready] at h
    cases h
    exact .idle (fun hr => hready hr.2.2) rfl rfl rfl
  rw [if_neg hready] at h
  have hruns : d.runs config t := ⟨by simpa using hstop,hbound,by simpa using hready⟩
  cases hout : (d.sync U linker config limits t).outcome with
  | error e =>
      rw [cycle_error hout] at h
      cases e with
      | retryable =>
          cases h
          obtain ⟨n,hg⟩ := runSync_retryable hnum hout
          exact .failed n hruns (by simp [retries,hout]) rfl hg rfl rfl rfl
      | failed operation status =>
          cases h
          exact absurd rfl (hc _)
      | runtime what =>
          cases h
          exact absurd rfl (hc _)
  | ok r =>
      have hg := runSync_ok hnum hout
      rcases hcyc : d.cycle U linker config limits t with ⟨d₁,x⟩
      obtain ⟨hl,hd⟩ := cycle_ok hout hcyc
      -- the rest of the round touches the report alone
      have hrest : d'.learner = d₁.learner ∧ d'.snapshot = d₁.snapshot ∧ d'.dirty = d₁.dirty := by
        rw [hcyc] at h
        split at h
        · cases h
          rename_i he
          cases he
          exact ⟨rfl,rfl,rfl⟩
        · cases h
          exact absurd rfl (hc _)
        · rename_i he
          cases he
          split at h
          · cases h
            exact ⟨rfl,rfl,rfl⟩
          · split at h <;> cases h <;> exact ⟨rfl,rfl,rfl⟩
      have hgrows : Grows (r.learned+r.skipped) d.learner d'.learner := by
        rw [hrest.1,hl]
        exact hg
      rcases hd with ⟨hsnap,hdirty⟩ | ⟨hcount,hsnap,hdirty⟩
      · exact .kept r hruns hout hgrows (hrest.2.1.trans hsnap) (hrest.2.2.trans hdirty)
      · exact .saved r hruns hout hgrows hcount
          (by rw [hrest.2.1,hsnap,hrest.1]) (hrest.2.2.trans hdirty)

/-! ## Saved or to be saved -/

section Saving
variable {start : Graph} {d d' : Daemon} {t : Turn} {control : Control}

/-- The exit will save the graph, or it is saved already. -/
def Clean (start : Graph) (d : Daemon) : Prop :=
  d.dirty = true ∨ d.saved start = d.learner.graph

/-- The saved graph lacks entries and nothing marks that. -/
structure Behind (start : Graph) (d : Daemon) : Prop where
  unmarked : d.dirty = false
  lacks : (d.saved start).ledger.length < d.learner.graph.ledger.length

theorem Behind.not_clean (h : Behind start d) : ¬Clean start d := by
  rintro (hd | hs)
  · rw [h.unmarked] at hd
    cases hd
  · have hlt := h.lacks
    rw [hs] at hlt
    exact Nat.lt_irrefl _ hlt

theorem saved_of_snapshot (h : d'.snapshot = d.snapshot) : d'.saved start = d.saved start := by
  rw [Daemon.saved,Daemon.saved,h]

/-- A clean loop stays clean through a round that does not forget. -/
theorem Turned.clean (h : Turned U linker config limits d t d' control) (hclean : Clean start d)
    (hf : ¬Forgets U linker config limits d t) : Clean start d' := by
  cases h with
  | idle hr hl hs hd =>
      rw [Clean,hd,saved_of_snapshot hs,hl]
      exact hclean
  | failed n hr hretry hl hg hs hd hc =>
      rw [Clean,hd,saved_of_snapshot hs]
      rcases hclean with hdirty | hsaved
      · exact .inl hdirty
      · by_cases hdirty : d.dirty = true
        · exact .inl hdirty
        · have hn : n = 0 := by
            by_contra hn
            refine hf ⟨hr,by simpa using hdirty,hretry,?_⟩
            rw [← hl,hg.committed]
            omega
          exact .inr (hsaved.trans (hg.still hn).symm)
  | kept r hr hout hg hs hd =>
      rw [Clean,hd,count_dirty,saved_of_snapshot hs]
      by_cases hmark : d.dirty = true ∨ 0 < r.learned+r.skipped
      · exact .inl hmark
      · rw [not_or] at hmark
        rcases hclean with hdirty | hsaved
        · exact absurd hdirty hmark.1
        · exact .inr (hsaved.trans (hg.still (by omega)).symm)
  | saved r hr hout hg hcount hs hd => exact .inr (by rw [Daemon.saved,hs]; rfl)

/-- A round that forgets leaves the loop behind, and the loop goes on. -/
theorem Turned.forgets (h : Turned U linker config limits d t d' control) (hclean : Clean start d)
    (hf : Forgets U linker config limits d t) : Behind start d' ∧ control = .next := by
  obtain ⟨hruns,hdirty,hretry,hlt⟩ := hf
  have hsaved : d.saved start = d.learner.graph := hclean.resolve_left (by rw [hdirty]; simp)
  cases h with
  | idle hr hl hs hd => exact absurd hruns hr
  | failed n hr hretry' hl hg hs hd hc =>
      refine ⟨⟨hd.trans hdirty,?_⟩,hc⟩
      rw [← hl,hg.committed] at hlt
      rw [saved_of_snapshot hs,hsaved,hg.mirror]
      omega
  | kept r hr hout hg hs hd => simp [retries,hout] at hretry
  | saved r hr hout hg hcount hs hd => simp [retries,hout] at hretry

/-- A round that recovers marks what the saved graph lacks. -/
theorem Turned.recovers (h : Turned U linker config limits d t d' control)
    (hrec : Recovers U linker config limits d t) : Clean start d' := by
  obtain ⟨hruns,htook⟩ := hrec
  cases h with
  | idle hr hl hs hd => exact absurd hruns hr
  | failed n hr hretry hl hg hs hd hc =>
      unfold retries at hretry
      unfold taken at htook
      split at htook
      · rename_i hout
        simp [hout] at hretry
      · exact absurd htook (Nat.lt_irrefl 0)
  | kept r hr hout hg hs hd =>
      simp only [taken,hout] at htook
      exact .inl (by rw [hd,count_dirty]; exact .inr htook)
  | saved r hr hout hg hcount hs hd => exact .inr (by rw [Daemon.saved,hs]; rfl)

/-- Without one it stays behind. -/
theorem Turned.behind (h : Turned U linker config limits d t d' control) (hb : Behind start d)
    (hrec : ¬Recovers U linker config limits d t) : Behind start d' := by
  have hunmarked := hb.unmarked
  have hlacks := hb.lacks
  cases h with
  | idle hr hl hs hd => exact ⟨hd.trans hunmarked,by rw [saved_of_snapshot hs,hl]; exact hlacks⟩
  | failed n hr hretry hl hg hs hd hc =>
      refine ⟨hd.trans hunmarked,?_⟩
      rw [saved_of_snapshot hs,hg.mirror]
      omega
  | kept r hr hout hg hs hd =>
      have hnone : ¬0 < r.learned+r.skipped := fun h => hrec ⟨hr,by simpa [taken,hout] using h⟩
      constructor
      · rw [hd]
        refine Bool.eq_false_iff.mpr fun hc => ?_
        rcases count_dirty.mp hc with hdirty | htook
        · rw [hunmarked] at hdirty
          cases hdirty
        · exact hnone htook
      · rw [saved_of_snapshot hs,hg.mirror]
        omega
  | saved r hr hout hg hcount hs hd =>
      rcases count_dirty.mp hcount with hdirty | htook
      · rw [hunmarked] at hdirty
        cases hdirty
      · exact absurd ⟨hr,by simpa [taken,hout] using htook⟩ hrec

/-- Entries committed since the start are mirrored after a round as before it. -/
theorem Turned.mirrors (h : Turned U linker config limits d t d' control) {base : List Item}
    (hm : Mirrors base d.learner) : Mirrors base d'.learner := by
  cases h with
  | idle hr hl hs hd => rwa [hl]
  | failed n hr hretry hl hg hs hd hc => exact hg.mirrors base hm
  | kept r hr hout hg hs hd => exact hg.mirrors base hm
  | saved r hr hout hg hcount hs hd => exact hg.mirrors base hm

theorem Turned.numbered (h : Turned U linker config limits d t d' control)
    (hn : Numbered d.learner.session) : Numbered d'.learner.session := by
  cases h with
  | idle hr hl hs hd => rwa [hl]
  | failed n hr hretry hl hg hs hd hc => exact hg.numbered
  | kept r hr hout hg hs hd => exact hg.numbered
  | saved r hr hout hg hcount hs hd => exact hg.numbered

end Saving

/-! ## The loop -/

section Run
variable {start : Graph} {d d' : Daemon}

/-- A recovering round does not forget. -/
theorem Recovers.not_forgets {t : Turn} (h : Recovers U linker config limits d t) :
    ¬Forgets U linker config limits d t := by
  rintro ⟨-,-,hretry,-⟩
  have htook := h.2
  unfold taken at htook
  unfold retries at hretry
  split at htook
  · rename_i hout
    simp [hout] at hretry
  · exact absurd htook (Nat.lt_irrefl 0)

theorem loop_mirrors {turns : List Turn} {base : List Item} (hnum : Numbered d.learner.session)
    (hm : Mirrors base d.learner) (h : d.loop U linker config limits turns = (d',.leave)) :
    Mirrors base d'.learner := by
  induction turns generalizing d with
  | nil => cases h
  | cons t rest ih =>
      unfold Daemon.loop at h
      split at h
      · rename_i d₁ ht
        have hturn := turn_cases hnum ht (by simp)
        exact ih (hturn.numbered hnum) (hturn.mirrors hm) h
      · rename_i ht
        cases h
        exact (turn_cases hnum ht (by simp)).mirrors hm

/-- Where the loop ends clean, the rounds made up for what they forgot, and conversely. -/
theorem loop_clean {turns : List Turn} (hnum : Numbered d.learner.session)
    (h : d.loop U linker config limits turns = (d',.leave)) :
    (Clean start d → (Clean start d' ↔ Remembers U linker config limits d turns)) ∧
      (Behind start d → (Clean start d' ↔ Recovered U linker config limits d turns ∧
        Remembers U linker config limits d turns)) := by
  induction turns generalizing d with
  | nil => cases h
  | cons t rest ih =>
      unfold Daemon.loop at h
      rcases ht : d.turn U linker config limits t with ⟨d₁,control⟩
      rw [ht] at h
      cases control with
      | next =>
          have hturn := turn_cases hnum ht (by simp)
          obtain ⟨hc,hb⟩ := ih (hturn.numbered hnum) h
          simp only [Remembers,Recovered,ht,Control.goesOn,true_and,forall_const]
          constructor
          · intro hclean
            by_cases hf : Forgets U linker config limits d t
            · rw [hb (hturn.forgets hclean hf).1]
              exact ⟨fun hr => ⟨fun _ => hr.1,hr.2⟩,fun hr => ⟨hr.1 hf,hr.2⟩⟩
            · rw [hc (hturn.clean hclean hf)]
              exact ⟨fun hr => ⟨fun h => absurd h hf,hr⟩,fun hr => hr.2⟩
          · intro hbehind
            by_cases hrec : Recovers U linker config limits d t
            · rw [hc (hturn.recovers hrec)]
              exact ⟨fun hr => ⟨.inl hrec,fun h => absurd h hrec.not_forgets,hr⟩,fun hr => hr.2.2⟩
            · rw [hb (hturn.behind hbehind hrec)]
              exact ⟨fun hr => ⟨.inr hr.1,fun _ => hr.1,hr.2⟩,
                fun hr => ⟨hr.1.resolve_left hrec,hr.2.2⟩⟩
      | leave =>
          have hturn := turn_cases hnum ht (by simp)
          cases h
          simp only [Remembers,Recovered,ht,Control.goesOn,Bool.false_eq_true,false_and,or_false,
            false_implies,and_true]
          constructor
          · intro hclean
            have hf : ¬Forgets U linker config limits d t := fun hf => by
              cases (hturn.forgets hclean hf).2
            exact ⟨fun _ h => absurd h hf,fun _ => hturn.clean hclean hf⟩
          · intro hbehind
            refine ⟨fun hclean => ?_,fun hr => hturn.recovers hr.1⟩
            have hrec : Recovers U linker config limits d t := by
              by_contra hrec
              exact (hturn.behind hbehind hrec).not_clean hclean
            exact ⟨hrec,fun h => absurd h hrec.not_forgets⟩
      | raised e => cases h

end Run

end Rounds

/-! ## The exit -/

theorem flush_saved {start : Graph} {d d' : Daemon} {exit : Exit}
    (h : d.flush exit = (d',none)) :
    d'.learner = d.learner ∧ (d'.saved start = d'.learner.graph ↔ Clean start d) := by
  unfold Daemon.flush at h
  simp only at h
  split at h
  · cases h
  · split at h
    · rename_i hdirty
      unfold Daemon.saveGraph at h
      split at h
      · cases h
      · cases h
        exact ⟨rfl,fun _ => .inl hdirty,fun _ => rfl⟩
    · rename_i hdirty
      cases h
      exact ⟨rfl,.inr,fun hc => hc.resolve_left hdirty⟩

/-- For every run of the daemon that returns: the saved graph is the graph, and holds every
observation committed during the run, exactly when every cycle that committed observations
unmarked and stopped for a retryable error was followed by one that took something. -/
theorem graceful_exit_saves (U : Utf8proc) (linker : Bool) (config : DaemonConfig)
    (limits : SyncLimits) (migrate : ℕ → Disk → Disk×Status) {d d0 : Disk} {h0 : Handle}
    (hopen : openLedger migrate d = (d0,.ok h0)) {ops : List (Faults×Op)} {s : Ledger.Session}
    {statuses : List Status} (hrun : runOps migrate ⟨d0,h0⟩ ops = some (s,statuses))
    (graph : Graph) (linked : List SyncObservation) (state : IngestionState) (turns : List Turn)
    (exit : Exit) {last : Daemon} {report : DaemonRunReport}
    (hret : runDaemon U linker config limits ⟨graph,s,linked⟩ state turns exit =
      (last,.returned report)) :
    Flushed ⟨graph,s,linked⟩ last ↔
      Remembers U linker config limits (.start ⟨graph,s,linked⟩ state) turns := by
  have hnum := (Ledger.numbered_opened hopen).runOps hrun
  unfold runDaemon at hret
  split at hret
  · cases hret
  · split at hret
    · cases hret
    · cases hret
    · rename_i d₁ hloop
      split at hret
      · cases hret
      · rename_i hflush
        cases hret
        obtain ⟨hl,hsaved⟩ : last.learner = d₁.learner ∧
            (last.saved graph = last.learner.graph ↔ Clean graph d₁) := flush_saved hflush
        have hfresh : Clean graph (.start ⟨graph,s,linked⟩ state) := .inr rfl
        have hclean := (loop_clean hnum hloop).1 hfresh
        have hmirrors : Mirrors s.handle.items d₁.learner :=
          loop_mirrors hnum (fun i it hi hc => .inl ⟨it,hi,hc⟩) hloop
        rw [← hclean,← hsaved]
        refine ⟨Flushed.saved,fun h => ⟨h,fun i it hi hc => ?_⟩⟩
        rw [hl] at hi
        rcases hmirrors i it hi hc with hbase | ⟨m,hm,he⟩
        · exact .inl hbase
        · refine .inr ⟨m,?_,he⟩
          rw [h,hl]
          exact hm

/-! A run whose first cycle learns from one page and cannot fetch the next, stopped before the
next cycle; and the same run with another cycle, which fetches one more observation. -/

def sampleObservation (source : UInt8) : SyncObservation where
  text := [97]
  sourceUri := [source]
  authorDid := []
  createdAt := []
  policyReason := .eligible
  context := ⟨[],[],[]⟩

/-- Page requests answered in order; one that is not answered fails. -/
def sampleSync (pages : List SyncPage) : SyncEnv where
  fetch := fun k _ => match pages[k]? with
    | some page => .ok page
    | none => .error .retryable
  item := fun _ => .calm

def sampleTurn (pages : List SyncPage) (stopBefore : Bool) : Turn where
  stopBefore
  ready := true
  sync := sampleSync pages
  saveIngestion := none
  saveGraph := none
  onCycle := none
  stopAfter := false

def forgetfulTurns : List Turn :=
  [sampleTurn [⟨[sampleObservation 1],some [1]⟩] false,sampleTurn [] true]

def mendedTurns : List Turn :=
  [sampleTurn [⟨[sampleObservation 1],some [1]⟩] false,
    sampleTurn [⟨[sampleObservation 1,sampleObservation 2],none⟩] false,sampleTurn [] true]

def sampleRun (turns : List Turn) (g : Graph) : Daemon×Ending :=
  runDaemon .plain false ⟨2,0,1⟩ ⟨50,1,0⟩ ⟨g,Ledger.createdSession,[]⟩ ⟨⟨false,none,none,none⟩,⟨0,0⟩⟩
    turns ⟨true,none,none⟩

def Ending.isReturned : Ending → Bool
  | .returned _ => true
  | _ => false

theorem Ending.returned_of {ending : Ending} (h : ending.isReturned = true) :
    ∃ report, ending = .returned report := by
  cases ending with
  | returned report => exact ⟨report,rfl⟩
  | running => cases h
  | raised e => cases h

/-- The exit of the first run saves nothing of what it learned. -/
theorem forgotten_cycle_unsaved : ∃ g last report, Core.createGraph .default = some g ∧
    sampleRun forgetfulTurns g = (last,.returned report) ∧
    ¬Flushed ⟨g,Ledger.createdSession,[]⟩ last := by
  have hfacts : (Core.createGraph .default).map (fun g =>
      let r := sampleRun forgetfulTurns g
      decide (r.2.isReturned = true ∧
        (r.1.saved g).ledger.length ≠ r.1.learner.graph.ledger.length)) = some true := by
    decide +kernel
  obtain ⟨g,hg,hdec⟩ := Option.map_eq_some_iff.mp hfacts
  obtain ⟨hret,hlen⟩ := of_decide_eq_true hdec
  obtain ⟨report,hreport⟩ := Ending.returned_of hret
  exact ⟨g,(sampleRun forgetfulTurns g).1,report,hg,Prod.ext rfl hreport,
    fun h => hlen (by rw [h.saved])⟩

theorem graceful_exit_saves_sample : ∃ g last report, Core.createGraph .default = some g ∧
    sampleRun mendedTurns g = (last,.returned report) ∧
    Flushed ⟨g,Ledger.createdSession,[]⟩ last := by
  have hfacts : (Core.createGraph .default).map (fun g =>
      decide ((sampleRun mendedTurns g).2.isReturned = true ∧
        Remembers .plain false ⟨2,0,1⟩ ⟨50,1,0⟩ (.start ⟨g,Ledger.createdSession,[]⟩
          ⟨⟨false,none,none,none⟩,⟨0,0⟩⟩) mendedTurns)) = some true := by
    decide +kernel
  obtain ⟨g,hg,hdec⟩ := Option.map_eq_some_iff.mp hfacts
  obtain ⟨hended,hrem⟩ := of_decide_eq_true hdec
  obtain ⟨report,hreport⟩ := Ending.returned_of hended
  have hret : sampleRun mendedTurns g =
      ((sampleRun mendedTurns g).1,.returned report) := Prod.ext rfl hreport
  have hrun : runOps Ledger.noMigration Ledger.createdSession [] =
      some (Ledger.createdSession,[]) := rfl
  exact ⟨g,_,report,hg,hret,(graceful_exit_saves .plain false ⟨2,0,1⟩ ⟨50,1,0⟩ Ledger.noMigration
    (Ledger.openLedger_fresh _) hrun g [] ⟨⟨false,none,none,none⟩,⟨0,0⟩⟩ mendedTurns
    ⟨true,none,none⟩ hret).mpr hrem⟩

end Atperson.Daemon
