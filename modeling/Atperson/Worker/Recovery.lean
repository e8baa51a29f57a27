import Atperson.Worker.Pool

/-!
# When the pool recovers from a task's error

A worker whose task throws leaves, and so does every worker that looks for work before the
owner has taken the error. Queued tasks stay counted when they leave, and nobody tells an
owner that waits for them. In runs where a worker always stays behind, no task throws while
the owner waits for queued ones, and no wait follows a shutdown that dropped tasks, the owner
never sleeps without a worker that can go on, a wait that returns has seen every task end,
and whenever no error is stored the workers serve what is queued.
-/
namespace Atperson.Worker
open Runs List
variable {α : Type*}

/-! ## Lists of workers -/

/-- One worker of a list changes. -/
def Changed (ws : List (Thread α)) (w w' : Thread α) (ws' : List (Thread α)) : Prop :=
  ∃ pre post, ws = pre++w::post ∧ ws' = pre++w'::post

theorem changed_set {ws : List (Thread α)} {i : ℕ} {w : Thread α} (h : ws[i]? = some w)
    (w' : Thread α) : Changed ws w w' (ws.set i w') := by
  obtain ⟨hi,rfl⟩ := List.getElem?_eq_some_iff.mp h
  exact ⟨ws.take i,ws.drop (i+1),by simp,List.set_eq_take_append_cons_drop.trans (if_pos hi)⟩

theorem changed_wakeFirst (ws : List (Thread α)) :
    Thread.wakeFirst ws = ws ∧ .asleep ∉ ws ∨ Changed ws .asleep .ready (Thread.wakeFirst ws) := by
  induction ws with
  | nil => exact .inl ⟨rfl,List.not_mem_nil⟩
  | cons w rest ih =>
      cases w with
      | asleep => exact .inr ⟨[],rest,rfl,rfl⟩
      | ready | running t | exited =>
          rcases ih with ⟨hrest,hno⟩ | ⟨pre,post,hold,hnew⟩
          · exact .inl ⟨congrArg _ hrest,by simpa using hno⟩
          · exact .inr ⟨_::pre,post,congrArg _ hold,congrArg _ hnew⟩

theorem changed_notifyOne (named : ℕ) (ws : List (Thread α)) :
    Thread.notifyOne named ws = ws ∧ .asleep ∉ ws ∨
      Changed ws .asleep .ready (Thread.notifyOne named ws) := by
  unfold Thread.notifyOne
  split
  · rename_i h
    exact .inr (changed_set h _)
  · exact changed_wakeFirst ws

namespace Changed
variable {ws ws' : List (Thread α)} {w w' v : Thread α}

theorem mem (h : Changed ws w w' ws') : w' ∈ ws' := by
  obtain ⟨pre,post,rfl,rfl⟩ := h
  simp

theorem mem_old (h : Changed ws w w' ws') (hv : v ∈ ws') : v = w' ∨ v ∈ ws := by
  obtain ⟨pre,post,rfl,rfl⟩ := h
  simp only [List.mem_append,List.mem_cons] at hv ⊢
  tauto

theorem mem_new (h : Changed ws w w' ws') (hv : v ∈ ws) : v = w ∨ v ∈ ws' := by
  obtain ⟨pre,post,rfl,rfl⟩ := h
  simp only [List.mem_append,List.mem_cons] at hv ⊢
  tauto

theorem tasks (h : Changed ws w w' ws') :
    (w.task?.toList++ws'.filterMap Thread.task?).Perm (w'.task?.toList++ws.filterMap Thread.task?) := by
  obtain ⟨pre,post,rfl,rfl⟩ := h
  have hcons : ∀ v : Thread α, ((pre++v::post).filterMap Thread.task?).Perm
      (v.task?.toList++(pre++post).filterMap Thread.task?) := by
    intro v
    have hmiddle : ((pre++v::post).filterMap Thread.task?).Perm
        ((v::(pre++post)).filterMap Thread.task?) := List.perm_middle.filterMap Thread.task?
    refine hmiddle.trans (.of_eq ?_)
    rw [List.filterMap_cons]
    cases v.task? <;> rfl
  calc (w.task?.toList++(pre++w'::post).filterMap Thread.task?)
    _ ~ w.task?.toList++(w'.task?.toList++(pre++post).filterMap Thread.task?) :=
        (hcons w').append_left _
    _ ~ w'.task?.toList++(w.task?.toList++(pre++post).filterMap Thread.task?) := by
        simpa only [List.append_assoc] using (List.perm_append_comm).append_right _
    _ ~ w'.task?.toList++(pre++w::post).filterMap Thread.task? := (hcons w).symm.append_left _

end Changed

theorem tasks_notifyAll (ws : List (Thread α)) :
    (Thread.notifyAll ws).filterMap Thread.task? = ws.filterMap Thread.task? := by
  rw [Thread.notifyAll,List.filterMap_map]
  exact List.filterMap_congr fun w _ => by cases w <;> rfl

/-! ## What a step can do -/

/-- Each way a step can go. -/
inductive Move (s : Pool α) : Action α → Pool α → Prop
  | stay (a : Action α) : Move s a s
  | refused (named : ℕ) (task : α) : s.owner = .idle → s.shuttingDown = true →
      Move s (.submit named task) { s with last := some (.threw "worker pool is shutting down") }
  | rethrown (a : Action α) (message : String) : s.error = some message →
      Move s a (s.throwFirst message)
  | full (a : Action α) (task : α) : s.error = none → s.config.maxQueue ≤ s.pending →
      s.shuttingDown = false → Move s a { s with owner := .submitAsleep task, last := none }
  | pushed (a : Action α) (named : ℕ) (task : α) : s.error = none →
      Move s a (s.push named task)
  | waiting (a : Action α) : s.error = none → 0 < s.pending →
      (a = .wait ∧ s.owner = .idle ∨ s.owner = .waitReady) →
      Move s a { s with owner := .waitAsleep, last := none }
  | waited (a : Action α) : s.error = none → s.pending = 0 →
      Move s a { s with owner := .idle, last := some .waited }
  | shutdown : s.owner = .idle → Move s .shutdown s.shutdown
  | joined : s.owner = .joining → (∀ w ∈ s.workers, w.hasExited = true) → Move s .join s.join
  | left (i : ℕ) : s.workers[i]? = some .ready → (s.error.isSome = true ∨ s.shuttingDown = true) →
      Move s (.look i) { s with workers := s.workers.set i .exited }
  | slept (i : ℕ) : s.workers[i]? = some .ready → s.error = none → s.shuttingDown = false →
      s.queue = [] → Move s (.look i) { s with workers := s.workers.set i .asleep }
  | took (i : ℕ) (t : α) (rest : List α) : s.workers[i]? = some .ready → s.error = none →
      s.shuttingDown = false → s.queue = t::rest →
      Move s (.look i) { s with queue := rest, workers := s.workers.set i (.running t) }
  | finished (i : ℕ) (t : α) : s.workers[i]? = some (.running t) →
      Move s (.finish i) (s.finish i t)
  | failed (i : ℕ) (t : α) (what : Option String) : s.workers[i]? = some (.running t) →
      Move s (.fail i what) (s.markFailed i t (Pool.failure what))
  | ownerWoken : Move s .wakeOwner { s with owner := s.owner.spaceAvailable.workDone }
  | workerWoken (i : ℕ) : s.workers[i]? = some .asleep →
      Move s (.wakeWorker i) { s with workers := s.workers.set i .ready }

section Moves
variable {s : Pool α}

theorem move_trySubmit (s : Pool α) (a : Action α) (named : ℕ) (task : α) :
    Move s a (s.trySubmit named task) := by
  unfold Pool.trySubmit
  split
  · rename_i message h
    exact .rethrown a message h
  · rename_i h
    split_ifs with hfull
    · exact .full a task h hfull.1 hfull.2
    · exact .pushed a named task h

theorem move_tryWait {a : Action α} (h : a = .wait ∧ s.owner = .idle ∨ s.owner = .waitReady) :
    Move s a s.tryWait := by
  unfold Pool.tryWait
  split
  · rename_i message herror
    exact .rethrown a message herror
  · rename_i herror
    split_ifs with hpending
    · exact .waiting a herror hpending h
    · exact .waited a herror (Nat.eq_zero_of_not_pos hpending)

theorem move_look {i : ℕ} (h : s.workers[i]? = some .ready) : Move s (.look i) (s.look i) := by
  unfold Pool.look
  split_ifs with hleave
  · exact .left i h hleave
  · have herror : s.error = none := by simpa using fun he => hleave (.inl he)
    have hup : s.shuttingDown = false := by simpa using fun hd => hleave (.inr hd)
    split
    · rename_i hqueue
      exact .slept i h herror hup hqueue
    · rename_i t rest hqueue
      exact .took i t rest h herror hup hqueue

theorem move_submit {named : ℕ} {task : α} (h : s.owner = .idle) :
    Move s (.submit named task) (s.submit named task) := by
  unfold Pool.submit
  split_ifs with hdown
  · exact .refused named task h hdown
  · exact move_trySubmit s _ named task

theorem move_step (s : Pool α) (a : Action α) : Move s a (s.step a) := by
  cases a with
  | submit named task =>
      simp only [Pool.step]
      split
      · exact move_submit ‹_›
      · exact .stay _
  | wait =>
      simp only [Pool.step]
      split
      · exact move_tryWait (.inl ⟨rfl,‹_›⟩)
      · exact .stay _
  | shutdown =>
      simp only [Pool.step]
      split
      · exact .shutdown ‹_›
      · exact .stay _
  | join =>
      simp only [Pool.step]
      split
      · split_ifs with hexited
        · exact .joined ‹_› (List.all_eq_true.mp hexited)
        · exact .stay _
      · exact .stay _
  | resume named =>
      simp only [Pool.step]
      split
      · exact move_trySubmit s _ named _
      · exact move_tryWait (.inr ‹_›)
      · exact .stay _
  | look i =>
      simp only [Pool.step]
      split
      · exact move_look ‹_›
      · exact .stay _
  | finish i =>
      simp only [Pool.step]
      split
      · exact .finished i _ ‹_›
      · exact .stay _
  | fail i what =>
      simp only [Pool.step]
      split
      · exact .failed i _ what ‹_›
      · exact .stay _
  | wakeOwner => exact .ownerWoken
  | wakeWorker i =>
      simp only [Pool.step]
      split
      · exact .workerWoken i ‹_›
      · exact .stay _

end Moves

/-! ## The condition -/

/-- Another worker is still there. -/
def Remains (s : Pool α) (i : ℕ) : Prop :=
  ∃ j w, j ≠ i ∧ s.workers[j]? = some w ∧ w ≠ .exited

/-- A worker that leaves by an error leaves another behind, no task throws while the owner
sleeps in `wait` and tasks are queued, and no wait follows a shutdown that dropped tasks. -/
def Spared (s : Pool α) : Action α → Prop
  | .wait => s.shuttingDown = true → s.error = none → s.pending = 0
  | .look i => s.workers[i]? = some .ready → s.error.isSome = true → s.shuttingDown = false →
      Remains s i
  | .fail i _ => (∃ t, s.workers[i]? = some (.running t)) →
      (s.shuttingDown = false → Remains s i) ∧ (s.owner = .waitAsleep → s.queue = [])
  | _ => True

/-! ## Workers -/

/-- Who looks for work or is told of some. -/
structure Staffed (s : Pool α) : Prop where
  awake : s.error.isSome = true ∨ s.shuttingDown = true → .asleep ∉ s.workers
  alive : s.shuttingDown = false → ∃ w ∈ s.workers, w ≠ .exited
  served : s.shuttingDown = false → s.queue ≠ [] → ∃ w ∈ s.workers, w ≠ .asleep ∧ w ≠ .exited

section Workers
variable {s : Pool α} {ws ws' : List (Thread α)} {w w' : Thread α}

theorem active_of_alive (hno : .asleep ∉ ws) (h : ∃ w ∈ ws, w ≠ .exited) :
    ∃ w ∈ ws, w ≠ .asleep ∧ w ≠ .exited := by
  obtain ⟨w,hw,hlive⟩ := h
  exact ⟨w,hw,fun he => hno (he ▸ hw),hlive⟩

theorem asleep_notifyAll (ws : List (Thread α)) : .asleep ∉ Thread.notifyAll ws := by
  intro h
  obtain ⟨w,_,hw⟩ := List.mem_map.mp h
  cases w <;> simp [Thread.wake] at hw

theorem alive_notifyAll (h : ∃ w ∈ ws, w ≠ .exited) : ∃ w ∈ Thread.notifyAll ws, w ≠ .exited := by
  obtain ⟨w,hw,hlive⟩ := h
  refine ⟨w.wake,List.mem_map_of_mem hw,?_⟩
  cases w with
  | exited => exact absurd rfl hlive
  | ready | asleep | running t => exact nofun

theorem Remains.alive {i : ℕ} (h : Remains s i) (v : Thread α) :
    ∃ w ∈ s.workers.set i v, w ≠ .exited := by
  obtain ⟨j,w,hne,hj,hlive⟩ := h
  refine ⟨w,List.mem_of_getElem? (i := j) ?_,hlive⟩
  rw [List.getElem?_set_ne hne.symm]
  exact hj

theorem asleep_changed (h : Changed ws w w' ws') (hw : w' ≠ .asleep) (hno : .asleep ∉ ws) :
    .asleep ∉ ws' := by
  intro hmem
  rcases h.mem_old hmem with he | hold
  · exact hw he.symm
  · exact hno hold

/-- A worker that is now awake keeps the queue served. -/
theorem staffed_awake (queue : List α) (h : Staffed s) (hchanged : Changed s.workers w w' ws)
    (hasleep : w' ≠ .asleep) (hexited : w' ≠ .exited) :
    Staffed { s with queue := queue, workers := ws } where
  awake he := asleep_changed hchanged hasleep (h.awake he)
  alive _ := ⟨w',hchanged.mem,hexited⟩
  served _ _ := ⟨w',hchanged.mem,hasleep,hexited⟩

/-- What the owner alone changes is nothing to the workers. -/
theorem Staffed.frame {t : Pool α} (h : Staffed s) (hqueue : t.queue = s.queue)
    (herror : t.error = s.error ∨ t.error = none) (hdown : t.shuttingDown = s.shuttingDown)
    (hworkers : t.workers = s.workers) : Staffed t where
  awake he := by
    rw [hworkers]
    refine h.awake ?_
    rcases herror with herror | herror <;> simp_all
  alive := by rw [hdown,hworkers]; exact h.alive
  served := by rw [hdown,hworkers,hqueue]; exact h.served

theorem Staffed.push (h : Staffed s) (named : ℕ) (task : α) : Staffed (s.push named task) := by
  rcases changed_notifyOne named s.workers with ⟨hsame,hno⟩ | hchanged
  · have hworkers : (s.push named task).workers = s.workers := hsame
    exact ⟨fun _ => hworkers ▸ hno,fun hup => hworkers ▸ h.alive hup,
      fun hup _ => hworkers ▸ active_of_alive hno (h.alive hup)⟩
  · have hawake := staffed_awake (s.queue++[task]) h hchanged nofun nofun
    exact hawake.frame rfl (.inl rfl) rfl rfl

theorem Staffed.markFailed {i : ℕ} {t : α} {message : String} (h : Staffed s)
    (hrun : s.workers[i]? = some (.running t)) (hremains : s.shuttingDown = false → Remains s i) :
    Staffed (s.markFailed i t message) := by
  have hdown : (s.markFailed i t message).shuttingDown = s.shuttingDown := by
    unfold Pool.markFailed Pool.store
    split <;> rfl
  have hno : .asleep ∉ (s.markFailed i t message).workers := by
    unfold Pool.markFailed Pool.store
    split
    · rename_i herror
      exact asleep_changed (changed_set hrun _) nofun (h.awake (.inl herror))
    · exact asleep_notifyAll _
  have halive : s.shuttingDown = false →
      ∃ w ∈ (s.markFailed i t message).workers, w ≠ .exited := by
    intro hup
    unfold Pool.markFailed Pool.store
    split
    · exact (hremains hup).alive _
    · exact alive_notifyAll ((hremains hup).alive _)
  exact ⟨fun _ => hno,fun hup => halive (hdown ▸ hup),
    fun hup _ => active_of_alive hno (halive (hdown ▸ hup))⟩

theorem Staffed.move {a : Action α} {next : Pool α} (h : Staffed s)
    (hjoining : s.owner = .joining → s.shuttingDown = true) (hguard : Spared s a)
    (hmove : Move s a next) : Staffed next := by
  cases hmove with
  | stay => exact h
  | refused named task => exact h.frame rfl (.inl rfl) rfl rfl
  | rethrown => exact h.frame rfl (.inr rfl) rfl rfl
  | full => exact h.frame rfl (.inl rfl) rfl rfl
  | pushed _ named task => exact h.push named task
  | waiting => exact h.frame rfl (.inl rfl) rfl rfl
  | waited => exact h.frame rfl (.inl rfl) rfl rfl
  | shutdown => exact ⟨fun _ => asleep_notifyAll _,nofun,nofun⟩
  | joined howner =>
      have hdown := hjoining howner
      refine ⟨fun _ => List.not_mem_nil,fun hup => ?_,fun hup => ?_⟩ <;>
        exact absurd (hdown.symm.trans hup) nofun
  | left i hready hleave =>
      have hno : .asleep ∉ s.workers.set i .exited :=
        asleep_changed (changed_set hready _) nofun (h.awake hleave)
      have halive : s.shuttingDown = false → ∃ w ∈ s.workers.set i .exited, w ≠ .exited := by
        intro hup
        have herror := hleave.resolve_right (by simp [hup])
        exact (hguard hready herror hup).alive _
      exact ⟨fun _ => hno,halive,fun hup _ => active_of_alive hno (halive hup)⟩
  | slept i hready herror hup hqueue =>
      refine ⟨fun he => ?_,fun _ => ⟨_,(changed_set hready .asleep).mem,nofun⟩,
        fun _ hne => absurd hqueue hne⟩
      simp [herror,hup] at he
  | took i t rest hready herror hup hqueue =>
      exact staffed_awake rest h (changed_set hready _) nofun nofun
  | finished i t hrun =>
      exact (staffed_awake s.queue h (changed_set hrun .ready) nofun nofun).frame
        rfl (.inl rfl) rfl rfl
  | failed i t what hrun => exact h.markFailed hrun (hguard ⟨t,hrun⟩).1
  | ownerWoken => exact h.frame rfl (.inl rfl) rfl rfl
  | workerWoken i hasleep => exact staffed_awake s.queue h (changed_set hasleep _) nofun nofun

end Workers

/-! ## Tasks -/

/-- Every submitted task is queued, runs or has ended, and those not ended are counted. -/
structure Counted (s : Pool α) : Prop where
  pending : s.pending = s.queue.length+s.running.length
  kept : s.queue++s.running++s.ended ~ s.submitted
  waited : s.last = some .waited → s.pending = 0

section Tasks
variable {s : Pool α}

theorem Counted.frame {t : Pool α} (h : Counted s) (hqueue : t.queue = s.queue)
    (hrunning : t.running ~ s.running) (hpending : t.pending = s.pending)
    (hsubmitted : t.submitted = s.submitted) (hended : t.ended = s.ended)
    (hlast : t.last = some .waited → t.pending = 0) : Counted t where
  pending := by rw [hpending,hqueue,hrunning.length_eq,h.pending]
  kept := by
    rw [hqueue,hsubmitted,hended]
    exact ((hrunning.append_left _).append_right _).trans h.kept
  waited := hlast

theorem running_changed {w w' : Thread α} {ws : List (Thread α)} (h : Changed s.workers w w' ws)
    (htask : w.task? = none) (htask' : w'.task? = none) :
    ws.filterMap Thread.task? ~ s.running := by
  have htasks := h.tasks
  rw [htask,htask'] at htasks
  exact htasks

/-- A worker that ran a task has it no longer. -/
theorem Counted.settle {t : α} {w' : Thread α} {ws : List (Thread α)} (h : Counted s)
    (hchanged : Changed s.workers (.running t) w' ws) (htask : w'.task? = none) :
    Counted ({ s with workers := ws }.settle t) where
  pending := by
    have hlength := (hchanged.tasks).length_eq
    rw [htask] at hlength
    have hpending := h.pending
    simp only [Pool.running,Pool.settle,Thread.task?,Option.toList_some,Option.toList_none,
      List.length_append,List.length_cons,List.length_nil] at hlength hpending ⊢
    omega
  kept := by
    have htasks := hchanged.tasks
    rw [htask] at htasks
    change s.queue++ws.filterMap Thread.task?++(s.ended++[t]) ~ s.submitted
    calc s.queue++ws.filterMap Thread.task?++(s.ended++[t])
      _ ~ t::(s.queue++ws.filterMap Thread.task?++s.ended) := by
          rw [← List.append_assoc]
          exact List.perm_append_singleton t _
      _ ~ s.queue++(t::ws.filterMap Thread.task?)++s.ended :=
          (List.perm_middle.symm).append_right _
      _ ~ s.queue++s.running++s.ended := (htasks.append_left _).append_right _
      _ ~ s.submitted := h.kept
  waited hlast := by
    have hzero := h.waited hlast
    simp only [Pool.settle,hzero]

theorem Counted.push (h : Counted s) (named : ℕ) (task : α) : Counted (s.push named task) := by
  have hrunning : (s.push named task).running ~ s.running := by
    rcases changed_notifyOne named s.workers with ⟨hsame,-⟩ | hchanged
    · exact .of_eq (congrArg (List.filterMap Thread.task?) hsame)
    · exact running_changed hchanged rfl rfl
  refine ⟨?_,?_,nofun⟩
  · have hlength := hrunning.length_eq
    have hpending := h.pending
    rw [hlength]
    simp only [Pool.push,List.length_append,List.length_singleton]
    omega
  · change s.queue++[task]++(s.push named task).running++s.ended ~ s.submitted++[task]
    calc s.queue++[task]++(s.push named task).running++s.ended
      _ ~ s.queue++[task]++s.running++s.ended := (hrunning.append_left _).append_right _
      _ ~ task::(s.queue++s.running++s.ended) := by
          rw [List.append_assoc,List.append_assoc,List.append_assoc]
          exact List.perm_middle
      _ ~ s.queue++s.running++s.ended++[task] := (List.perm_append_singleton task _).symm
      _ ~ s.submitted++[task] := h.kept.append_right _

theorem Counted.take {i : ℕ} {t : α} {rest : List α} (h : Counted s)
    (hready : s.workers[i]? = some .ready) (hqueue : s.queue = t::rest) :
    Counted { s with queue := rest, workers := s.workers.set i (.running t) } := by
  have htasks := (changed_set hready (.running t)).tasks
  have hkept := h.kept
  have hpending := h.pending
  rw [hqueue] at hkept hpending
  refine ⟨?_,?_,h.waited⟩
  · have hlength := htasks.length_eq
    simp only [Pool.running,Thread.task?,Option.toList_some,Option.toList_none,List.length_append,
      List.length_cons,List.length_nil] at hlength hpending ⊢
    omega
  · change rest++(s.workers.set i (.running t)).filterMap Thread.task?++s.ended ~ s.submitted
    calc rest++(s.workers.set i (.running t)).filterMap Thread.task?++s.ended
      _ ~ rest++(t::s.running)++s.ended := (htasks.append_left _).append_right _
      _ ~ (t::(rest++s.running))++s.ended := List.perm_middle.append_right _
      _ ~ s.submitted := hkept

theorem Counted.markFailed {i : ℕ} {t : α} {message : String} (h : Counted s)
    (hrun : s.workers[i]? = some (.running t)) : Counted (s.markFailed i t message) := by
  have hsettled : Counted ({ s with workers := s.workers.set i .exited }.settle t) :=
    h.settle (changed_set hrun .exited) rfl
  unfold Pool.markFailed Pool.store
  split
  · exact hsettled
  · exact hsettled.frame rfl (.of_eq (tasks_notifyAll _)) rfl rfl rfl hsettled.waited

theorem Counted.move {a : Action α} {next : Pool α} (h : Counted s) (hmove : Move s a next) :
    Counted next := by
  cases hmove with
  | stay => exact h
  | refused named task => exact h.frame rfl (.refl _) rfl rfl rfl nofun
  | rethrown => exact h.frame rfl (.refl _) rfl rfl rfl nofun
  | full => exact h.frame rfl (.refl _) rfl rfl rfl nofun
  | pushed _ named task => exact h.push named task
  | waiting => exact h.frame rfl (.refl _) rfl rfl rfl nofun
  | waited _ _ hzero => exact h.frame rfl (.refl _) rfl rfl rfl fun _ => hzero
  | shutdown => exact h.frame rfl (.of_eq (tasks_notifyAll _)) rfl rfl rfl nofun
  | joined howner hexited =>
      refine h.frame rfl (.of_eq ?_) rfl rfl rfl nofun
      refine (List.filterMap_eq_nil_iff.mpr fun w hw => ?_).symm
      have hw := hexited w hw
      cases w <;> first | rfl | cases hw
  | left i hready hleave =>
      exact h.frame rfl (running_changed (changed_set hready .exited) rfl rfl) rfl rfl rfl h.waited
  | slept i hready =>
      exact h.frame rfl (running_changed (changed_set hready .asleep) rfl rfl) rfl rfl rfl h.waited
  | took i t rest hready herror hup hqueue => exact h.take hready hqueue
  | finished i t hrun => exact h.settle (changed_set hrun .ready) rfl
  | failed i t what hrun => exact h.markFailed hrun
  | ownerWoken => exact h.frame rfl (.refl _) rfl rfl rfl h.waited
  | workerWoken i hasleep =>
      exact h.frame rfl (running_changed (changed_set hasleep .ready) rfl rfl) rfl rfl rfl h.waited

end Tasks

/-! ## The owner -/

/-- What the owner's sleep says of the pool. -/
structure Attended (s : Pool α) : Prop where
  room : 0 < s.config.maxQueue
  calling : s.owner ≠ .idle → s.owner ≠ .joining → s.shuttingDown = false
  joining : s.owner = .joining → s.shuttingDown = true
  submitting : ∀ task, s.owner = .submitAsleep task →
    s.error = none ∧ s.config.maxQueue ≤ s.pending
  waiting : s.owner = .waitAsleep → 0 < s.pending ∧ (s.error.isSome = true → s.queue = [])

section Calls
variable {s : Pool α}

theorem Attended.idle {t : Pool α} (h : Attended s) (hconfig : t.config = s.config)
    (howner : t.owner = .idle) : Attended t where
  room := hconfig ▸ h.room
  calling hidle := absurd howner hidle
  joining hj := by rw [howner] at hj; cases hj
  submitting task ht := by rw [howner] at ht; cases ht
  waiting hw := by rw [howner] at hw; cases hw

/-- A step of a worker that leaves the owner where it is. -/
theorem Attended.frame {t : Pool α} (h : Attended s) (hconfig : t.config = s.config)
    (howner : t.owner = s.owner) (hdown : t.shuttingDown = s.shuttingDown)
    (herror : t.error = s.error) (hpending : t.pending = s.pending)
    (hqueue : s.queue = [] → t.queue = []) : Attended t where
  room := hconfig ▸ h.room
  calling := by rw [howner,hdown]; exact h.calling
  joining := by rw [howner,hdown]; exact h.joining
  submitting := by rw [howner,herror,hconfig,hpending]; exact h.submitting
  waiting := by
    rw [howner,herror,hpending]
    exact fun hw => ⟨(h.waiting hw).1,fun he => hqueue ((h.waiting hw).2 he)⟩

theorem spaceAvailable_ne (o : Owner α) (task : α) : o.spaceAvailable ≠ .submitAsleep task := by
  cases o <;> exact nofun

theorem Attended.woken {o : Owner α} (h : Attended s)
    (ho : o = s.owner ∨ o = s.owner.spaceAvailable ∨ o = s.owner.spaceAvailable.workDone) :
    (o ≠ .idle → o ≠ .joining → s.shuttingDown = false) ∧
      (o = .joining → s.shuttingDown = true) ∧ (o = .waitAsleep → s.owner = .waitAsleep) := by
  have hcalling := h.calling
  have hjoining := h.joining
  rcases ho with rfl | rfl | rfl <;>
    cases howner : s.owner <;> simp_all [Owner.spaceAvailable,Owner.workDone]

theorem workDone_ne (o : Owner α) : o.workDone ≠ .waitAsleep := by
  cases o <;> exact nofun

theorem Attended.settle (h : Attended s) (t : α) : Attended (s.settle t) := by
  have hwoken := h.woken (o := (s.settle t).owner) (by
    unfold Pool.settle
    split_ifs
    · exact .inr (.inr rfl)
    · exact .inr (.inl rfl))
  refine ⟨h.room,hwoken.1,hwoken.2.1,fun task htask => ?_,fun hwait => ?_⟩
  · simp only [Pool.settle] at htask
    split_ifs at htask
    · cases howner : s.owner <;> simp [howner,Owner.spaceAvailable,Owner.workDone] at htask
    · exact absurd htask (spaceAvailable_ne _ _)
  · have hold := h.waiting (hwoken.2.2 hwait)
    simp only [Pool.settle] at hwait ⊢
    split_ifs at hwait with hzero
    · exact absurd hwait (workDone_ne _)
    · exact ⟨Nat.pos_of_ne_zero hzero,hold.2⟩

theorem Attended.store (h : Attended s) (hwaiting : s.owner = .waitAsleep → s.queue = [])
    (message : String) : Attended (s.store message) := by
  unfold Pool.store
  split
  · exact h
  · have hwoken := h.woken (.inr (.inl rfl))
    exact ⟨h.room,hwoken.1,hwoken.2.1,fun task htask => absurd htask (spaceAvailable_ne _ _),
      fun hwait => ⟨(h.waiting (hwoken.2.2 hwait)).1,fun _ => hwaiting (hwoken.2.2 hwait)⟩⟩

theorem Attended.move {a : Action α} {next : Pool α} (h : Attended s) (hguard : Spared s a)
    (hmove : Move s a next) : Attended next := by
  cases hmove with
  | stay => exact h
  | refused named task hidle => exact h.idle rfl hidle
  | rethrown => exact h.idle rfl rfl
  | full _ task herror hfull hup =>
      exact ⟨h.room,fun _ _ => hup,nofun,fun _ _ => ⟨herror,hfull⟩,nofun⟩
  | pushed => exact h.idle rfl rfl
  | waiting _ herror hpending hwait =>
      have hup : s.shuttingDown = false := by
        rcases hwait with ⟨rfl,-⟩ | hready
        · cases hdown : s.shuttingDown with
          | false => rfl
          | true => exact absurd (hguard hdown herror) (Nat.ne_of_gt hpending)
        · exact h.calling (by simp [hready]) (by simp [hready])
      exact ⟨h.room,fun _ _ => hup,nofun,nofun,fun _ => ⟨hpending,fun he => by simp [herror] at he⟩⟩
  | waited => exact h.idle rfl rfl
  | shutdown => exact ⟨h.room,fun _ hj => absurd rfl hj,fun _ => rfl,nofun,nofun⟩
  | joined => exact h.idle rfl rfl
  | left => exact h.frame rfl rfl rfl rfl rfl id
  | slept => exact h.frame rfl rfl rfl rfl rfl id
  | took i t rest hready herror hup hqueue =>
      exact h.frame rfl rfl rfl rfl rfl fun hnil => by simp [hqueue] at hnil
  | finished i t hrun =>
      have hready : Attended { s with workers := s.workers.set i .ready } :=
        h.frame rfl rfl rfl rfl rfl id
      exact hready.settle t
  | failed i t what hrun =>
      have hleft : Attended { s with workers := s.workers.set i .exited } :=
        h.frame rfl rfl rfl rfl rfl id
      exact (hleft.store (hguard ⟨t,hrun⟩).2 _).settle t
  | ownerWoken =>
      have hwoken := h.woken (.inr (.inr rfl))
      refine ⟨h.room,hwoken.1,hwoken.2.1,fun task htask => ?_,fun hwait => absurd hwait (workDone_ne _)⟩
      cases howner : s.owner <;> simp [howner,Owner.spaceAvailable,Owner.workDone] at htask
  | workerWoken => exact h.frame rfl rfl rfl rfl rfl id

end Calls

/-! ## Runs -/

structure Sound (s : Pool α) : Prop where
  counted : Counted s
  staffed : Staffed s
  attended : Attended s

theorem sound_start (config : Config) : Sound (Pool.start (α := α) config) where
  counted := by
    have hrunning : (Pool.start (α := α) config).running = [] :=
      List.filterMap_eq_nil_iff.mpr fun w hw => by rw [List.eq_of_mem_replicate hw]; rfl
    refine ⟨?_,?_,nofun⟩
    · rw [hrunning]; rfl
    · rw [hrunning]; exact .refl _
  staffed := by
    have hready : .ready ∈ (Pool.start (α := α) config).workers :=
      List.mem_replicate.mpr ⟨Nat.ne_of_gt config.threads_pos,rfl⟩
    exact ⟨fun he => by simp [Pool.start] at he,fun _ => ⟨_,hready,nofun⟩,fun _ hne => absurd rfl hne⟩
  attended := ⟨config.queue_pos,fun hidle => absurd rfl hidle,nofun,nofun,nofun⟩

theorem Sound.step {s : Pool α} {a : Action α} (h : Sound s) (hguard : Spared s a) :
    Sound (s.step a) where
  counted := h.counted.move (move_step s a)
  staffed := h.staffed.move h.attended.joining hguard (move_step s a)
  attended := h.attended.move hguard (move_step s a)

/-! ## Service -/

/-- How a worker goes on when its task does not throw. -/
def Pool.goOn (s : Pool α) (i : ℕ) : Action α :=
  match s.workers[i]? with
  | some (.running _) => .finish i
  | _ => .look i

def Thread.weight : Thread α → ℕ
  | .ready => 1
  | .running _ => 2
  | .asleep | .exited => 0

/-- How many steps the workers can still take. -/
def Pool.toDo (s : Pool α) : ℕ := 2*s.queue.length+(s.workers.map Thread.weight).sum

/-- The workers, left to themselves, end every task and leave the owner awake. -/
structure Serves (s : Pool α) : Prop where
  alive : ∃ w ∈ s.workers, w ≠ .exited
  ends : ∀ is, Guarded (fun s i => s.step (s.goOn i)) Pool.CanStep s is →
    is.length ≤ s.toDo ∧
      ((∀ i, ¬ (runFrom (fun s i => s.step (s.goOn i)) s is).CanStep i) →
        (runFrom (fun s i => s.step (s.goOn i)) s is).ended ~ s.submitted ∧
          ¬ (runFrom (fun s i => s.step (s.goOn i)) s is).Blocked)

/-- What the pool owes its owner. -/
structure Recovers (s : Pool α) : Prop where
  /-- The owner sleeps only while a worker can go on. -/
  progress : s.Blocked → ∃ i, s.CanStep i
  /-- A wait returns only after every submitted task has ended. -/
  complete : s.last = some .waited → s.ended ~ s.submitted
  /-- Without a stored error, as after it was rethrown, what is submitted is run and waited for. -/
  serves : s.error = none → s.shuttingDown = false → Serves s

section Service
variable {s : Pool α}

theorem canStep_of_mem {w : Thread α} (hw : w ∈ s.workers) (hasleep : w ≠ .asleep)
    (hexited : w ≠ .exited) : ∃ i, s.CanStep i := by
  obtain ⟨i,hi⟩ := List.getElem?_of_mem hw
  exact ⟨i,w,hi,hasleep,hexited⟩

theorem running_mem {t : α} (h : t ∈ s.running) : Thread.running t ∈ s.workers := by
  obtain ⟨w,hw,ht⟩ := List.mem_filterMap.mp h
  cases w with
  | running u => cases ht; exact hw
  | ready | asleep | exited => cases ht

/-- While a task is counted and the queue is served, a worker can go on. -/
theorem Sound.canStep (h : Sound s) (hpending : 0 < s.pending) (hup : s.shuttingDown = false) :
    ∃ i, s.CanStep i := by
  cases hqueue : s.queue with
  | cons t rest =>
      obtain ⟨w,hw,hasleep,hexited⟩ := h.staffed.served hup (by simp [hqueue])
      exact canStep_of_mem hw hasleep hexited
  | nil =>
      have hcount := h.counted.pending
      rw [hqueue,List.length_nil,Nat.zero_add] at hcount
      obtain ⟨t,ht⟩ := List.exists_mem_of_length_pos (hcount ▸ hpending)
      exact canStep_of_mem (running_mem ht) nofun nofun

theorem Sound.up (h : Sound s) (hblocked : s.Blocked) : s.shuttingDown = false := by
  rcases hblocked with howner | ⟨task,howner⟩
  · exact h.attended.calling (by simp [howner]) (by simp [howner])
  · exact h.attended.calling (by simp [howner]) (by simp [howner])

theorem Sound.pending_pos (h : Sound s) (hblocked : s.Blocked) : 0 < s.pending := by
  rcases hblocked with howner | ⟨task,howner⟩
  · exact (h.attended.waiting howner).1
  · exact Nat.lt_of_lt_of_le h.attended.room (h.attended.submitting task howner).2

theorem Counted.all_ended (h : Counted s) (hzero : s.pending = 0) : s.ended ~ s.submitted := by
  have hkept := h.kept
  have hcount := h.pending
  rw [List.length_eq_zero_iff.mp (by omega : s.queue.length = 0),
    List.length_eq_zero_iff.mp (by omega : s.running.length = 0)] at hkept
  exact hkept

theorem Changed.weights {ws ws' : List (Thread α)} {w w' : Thread α} (h : Changed ws w w' ws') :
    (ws'.map Thread.weight).sum+w.weight = (ws.map Thread.weight).sum+w'.weight := by
  obtain ⟨pre,post,rfl,rfl⟩ := h
  simp only [List.map_append,List.map_cons,List.sum_append,List.sum_cons]
  omega

theorem goOn_keeps {i : ℕ} (herror : s.error = none) (hup : s.shuttingDown = false)
    (hcan : s.CanStep i) : (s.step (s.goOn i)).error = none ∧
      (s.step (s.goOn i)).shuttingDown = false ∧
      (s.step (s.goOn i)).submitted = s.submitted ∧
      (s.step (s.goOn i)).toDo < s.toDo := by
  obtain ⟨w,hw,hasleep,hexited⟩ := hcan
  cases w with
  | asleep => exact absurd rfl hasleep
  | exited => exact absurd rfl hexited
  | ready =>
      have hstep : s.step (s.goOn i) = s.look i := by simp only [Pool.goOn,hw,Pool.step]
      rw [hstep]
      unfold Pool.look
      rw [if_neg (by simp [herror,hup])]
      split
      · have hweights := (changed_set hw .asleep).weights
        refine ⟨herror,hup,rfl,?_⟩
        simp only [Pool.toDo,Thread.weight] at hweights ⊢
        omega
      · rename_i t rest hqueue
        have hweights := (changed_set hw (.running t)).weights
        refine ⟨herror,hup,rfl,?_⟩
        simp only [Pool.toDo,Thread.weight,hqueue,List.length_cons] at hweights ⊢
        omega
  | running t =>
      have hstep : s.step (s.goOn i) = s.finish i t := by simp only [Pool.goOn,hw,Pool.step]
      have hweights := (changed_set hw .ready).weights
      rw [hstep]
      refine ⟨herror,hup,rfl,?_⟩
      simp only [Pool.toDo,Pool.finish,Pool.settle,Thread.weight] at hweights ⊢
      omega

theorem Sound.serves (h : Sound s) (herror : s.error = none) (hup : s.shuttingDown = false) :
    Serves s := by
  refine ⟨h.staffed.alive hup,fun is his => ?_⟩
  induction is generalizing s with
  | nil =>
      refine ⟨Nat.zero_le _,fun hstuck => ?_⟩
      have hzero : s.pending = 0 := Nat.eq_zero_of_not_pos fun hpos => by
        obtain ⟨i,hi⟩ := h.canStep hpos hup
        exact hstuck i hi
      exact ⟨h.counted.all_ended hzero,fun hblocked => Nat.ne_of_gt (h.pending_pos hblocked) hzero⟩
  | cons i is ih =>
      obtain ⟨hcan,his⟩ := his
      obtain ⟨herror',hup',hsubmitted,hless⟩ := goOn_keeps herror hup hcan
      have hguard : Spared s (s.goOn i) := by
        unfold Pool.goOn
        split
        · trivial
        · exact fun _ he => by simp [herror] at he
      obtain ⟨hlength,hend⟩ := ih (h.step hguard) herror' hup' his
      rw [hsubmitted] at hend
      exact ⟨by rw [List.length_cons]; omega,hend⟩

theorem Sound.recovers (h : Sound s) : Recovers s where
  progress hblocked := h.canStep (h.pending_pos hblocked) (h.up hblocked)
  complete hwaited := h.counted.all_ended (h.counted.waited hwaited)
  serves := h.serves

end Service

/-- In every run that meets the condition the owner never sleeps without a worker that can go
on, a wait returns only after all tasks, and an error taken by the owner leaves a pool that
serves. -/
theorem pool_recovers (config : Config) (actions : List (Action α))
    (h : Guarded Pool.step Spared (Pool.start config) actions) :
    Recovers (runFrom Pool.step (Pool.start config) actions) :=
  (h.invariant (fun _ _ => Sound.step) (sound_start config)).recovers

/-! ## Samples -/

namespace Sample

/-- One worker, two tasks, and the first throws while the owner waits. -/
def deserted : Pool ℕ := runFrom Pool.step (Pool.start (Config.clamp 1 4))
  [.submit 0 1,.submit 0 2,.wait,.look 0,.fail 0 none]

/-- One worker, a task that throws, its error taken, and a task after it. -/
def abandoned : Pool ℕ := runFrom Pool.step (Pool.start (Config.clamp 1 4))
  [.submit 0 1,.look 0,.fail 0 none,.wait,.submit 0 2,.wait]

theorem exited_stuck {s : Pool ℕ} (h : s.workers = [.exited]) (i : ℕ) : ¬ s.CanStep i := by
  rintro ⟨w,hw,-,hexited⟩
  have hmem := List.mem_of_getElem? hw
  rw [h,List.mem_singleton] at hmem
  exact hexited hmem

/-- The owner sleeps in `wait` and nobody is left to wake it. -/
theorem wait_deserted :
    (deserted.Blocked ∧ deserted.ended = [1] ∧ deserted.queue = [2] ∧ ∀ i, ¬ deserted.CanStep i) ∧
      abandoned.Blocked ∧ abandoned.error = none ∧ abandoned.queue = [2] ∧
        ∀ i, ¬ abandoned.CanStep i :=
  ⟨⟨.inl rfl,rfl,rfl,exited_stuck rfl⟩,.inl rfl,rfl,rfl,exited_stuck rfl⟩

/-- Two workers; the second hears of the error but looks again only after the owner took it. -/
def survived : List (Action ℕ) :=
  [.submit 0 1,.look 0,.look 1,.fail 0 (some "no reply"),.wait,.submit 0 2,.look 1,.finish 1,.wait]

theorem pool_recovers_survived : Recovers (runFrom Pool.step (Pool.start (Config.clamp 2 4)) survived) ∧
    (runFrom Pool.step (Pool.start (Config.clamp 2 4)) survived).ended = [1,2] := by
  have h : Guarded Pool.step Spared (Pool.start (Config.clamp 2 4)) survived :=
    ⟨trivial,fun _ he => absurd he (by decide),fun _ he => absurd he (by decide),
      fun _ => ⟨fun _ => ⟨1,.asleep,by decide,rfl,nofun⟩,fun _ => rfl⟩,
      fun hd => absurd hd (by decide),trivial,fun _ he => absurd he (by decide),trivial,
      fun hd => absurd hd (by decide),trivial⟩
  exact ⟨pool_recovers (Config.clamp 2 4) survived h,rfl⟩

end Sample
end Atperson.Worker
