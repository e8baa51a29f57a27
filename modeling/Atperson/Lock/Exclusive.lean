import Atperson.Lock.StateLock

/-!
# When the writer lock is exclusive

Between the verdict that a lock file is stale and its removal another process may have put
its own file at the path. In runs where a takeover removes only the file that it read, or
a file whose creator is no longer alive, a constructed lock has its own file at the path.
-/
namespace Atperson.Lock
open Wire Runs

namespace World

/-- The process that created the file is alive. -/
def CreatorAlive (w : World) (f : LockFile) : Prop := (f.creator.bind w.pcOf).isSome = true

instance (w : World) (f : LockFile) : Decidable (w.CreatorAlive f) :=
  inferInstanceAs (Decidable (_ = true))

/-- A boot marker that a process alive now may have read. -/
def Current (w : World) (boot : Bytes) : Prop :=
  boot = bootMarker none ∨ boot = bootMarker (some w.bootTime)

end World

namespace Pc

/-- The process has created the file and not yet given it up. -/
def owns : Pc → Bool
  | .created _ | .holding => true
  | _ => false

def boot? : Pc → Option Bytes
  | .opening boot _ | .created boot | .sizing boot _ | .reading boot _ | .removing boot _ _ =>
      some boot
  | .idle | .holding => none

def takesOver : Pc → Bool
  | .removing _ _ _ => true
  | _ => false

def judged? : Pc → Option ℕ
  | .removing _ _ judged => judged
  | _ => none

end Pc

section Frames
variable {w : World} {i j : ℕ} {pc old : Pc}

theorem pcOf_eq_some : w.pcOf i = some pc ↔
    ∃ p, w.procs[i]? = some p ∧ p.alive = true ∧ p.pc = pc := by
  unfold World.pcOf
  cases w.procs[i]? with
  | none => simp
  | some p => cases h : p.alive <;> simp [h]

theorem pcOf_setPc_ne (h : j ≠ i) : (w.setPc i pc).pcOf j = w.pcOf j := by
  simp [World.pcOf,World.setPc,List.getElem?_modify,h.symm]

theorem pcOf_setPc_self (h : w.pcOf i = some old) : (w.setPc i pc).pcOf i = some pc := by
  obtain ⟨p,hp,halive,-⟩ := pcOf_eq_some.mp h
  simp [World.pcOf,World.setPc,List.getElem?_modify,hp,halive]

theorem pcOf_setPc {found : Pc} (hi : w.pcOf i = some old)
    (h : (w.setPc i pc).pcOf j = some found) :
    j = i ∧ found = pc ∨ j ≠ i ∧ w.pcOf j = some found := by
  rcases eq_or_ne j i with rfl | hne
  · rw [pcOf_setPc_self hi] at h
    exact .inl ⟨rfl,(Option.some.inj h).symm⟩
  · exact .inr ⟨hne,pcOf_setPc_ne hne ▸ h⟩

theorem isSome_pcOf_setPc : ((w.setPc i pc).pcOf j).isSome = (w.pcOf j).isSome := by
  rcases eq_or_ne j i with rfl | hne
  · cases h : w.pcOf j with
    | some old => rw [pcOf_setPc_self h]; rfl
    | none =>
        simp only [World.pcOf,World.setPc,List.getElem?_modify] at h ⊢
        cases hp : w.procs[j]? with
        | none => simp
        | some p =>
            rw [hp] at h
            simpa using h
  · rw [pcOf_setPc_ne hne]

theorem creatorAlive_iff {f : LockFile} : w.CreatorAlive f ↔
    ∃ i, f.creator = some i ∧ (w.pcOf i).isSome = true := by
  unfold World.CreatorAlive
  cases f.creator <;> simp

theorem creatorAlive_setPc {f : LockFile} :
    (w.setPc i pc).CreatorAlive f ↔ w.CreatorAlive f := by
  simp only [creatorAlive_iff,isSome_pcOf_setPc]

end Frames

/-- What holds between the file and the processes alive. -/
structure Sound (w : World) : Prop where
  owner : ∀ i pc, w.pcOf i = some pc → pc.owns = true →
    ∃ f, w.file = some f ∧ f.creator = some i
  known : ∀ f, w.file = some f → f.serial < w.creations ∧
    ∀ i, f.creator = some i → i < w.procs.length
  marked : ∀ i pc, w.pcOf i = some pc → ∀ boot, pc.boot? = some boot → w.Current boot
  written : ∀ f i p, w.file = some f → f.creator = some i → w.procs[i]? = some p →
    p.alive = true → ∃ bootTime clock n, w.Current (bootMarker bootTime) ∧
      f.content = (lockPayload p.pid (bootMarker bootTime) clock).take n
  judged : ∀ i pc, w.pcOf i = some pc → ∀ serial, pc.judged? = some serial →
    serial < w.creations ∧ ∀ f, w.file = some f → f.serial = serial → ¬ w.CreatorAlive f

section Parts
variable {w : World} {i : ℕ} {pc old : Pc}

theorem sound_start (left : Option Bytes) (bootTime : ℤ) :
    Sound (World.start left bootTime) where
  owner i pc h := by cases h
  known f h := by
    cases left with
    | none => cases h
    | some content =>
        cases h
        exact ⟨Nat.one_pos,nofun⟩
  marked i pc h := by cases h
  written f i p _ _ h := by cases h
  judged i pc h := by cases h

/-- A process alive moves on. -/
theorem Sound.setPc (h : Sound w) (hi : w.pcOf i = some old)
    (howns : pc.owns = true → ∃ f, w.file = some f ∧ f.creator = some i)
    (hmarked : ∀ boot, pc.boot? = some boot → w.Current boot)
    (hjudged : ∀ serial, pc.judged? = some serial → serial < w.creations ∧
      ∀ f, w.file = some f → f.serial = serial → ¬ w.CreatorAlive f) :
    Sound (w.setPc i pc) where
  owner j found hj ho := by
    rcases pcOf_setPc hi hj with ⟨rfl,rfl⟩ | ⟨-,hj⟩
    · exact howns ho
    · exact h.owner j found hj ho
  known f hf := by
    obtain ⟨hserial,hcreator⟩ := h.known f hf
    exact ⟨hserial,fun j hj => by simpa [World.setPc] using hcreator j hj⟩
  marked j found hj boot hb := by
    rcases pcOf_setPc hi hj with ⟨rfl,rfl⟩ | ⟨-,hj⟩
    · exact hmarked boot hb
    · exact h.marked j found hj boot hb
  written f j p hf hc hp halive := by
    simp only [World.setPc,List.getElem?_modify] at hp
    obtain ⟨p',hp',rfl⟩ := Option.map_eq_some_iff.mp hp
    obtain ⟨bootTime,clock,n,hcurrent,hcontent⟩ :=
      h.written f j p' hf hc hp' (by split at halive <;> exact halive)
    refine ⟨bootTime,clock,n,hcurrent,?_⟩
    split <;> exact hcontent
  judged j found hj serial hs := by
    have hgoal : serial < w.creations ∧
        ∀ f, w.file = some f → f.serial = serial → ¬ w.CreatorAlive f := by
      rcases pcOf_setPc hi hj with ⟨rfl,rfl⟩ | ⟨-,hj⟩
      · exact hjudged serial hs
      · exact h.judged j found hj serial hs
    exact ⟨hgoal.1,fun f hf hser halive => hgoal.2 f hf hser (creatorAlive_setPc.mp halive)⟩

theorem Sound.noFile (h : Sound w) (hfree : ∀ i pc, w.pcOf i = some pc → pc.owns = false) :
    Sound { w with file := none } where
  owner i pc hi ho := by
    rw [hfree i pc hi] at ho
    cases ho
  known f hf := by cases hf
  marked := h.marked
  written f i p hf := by cases hf
  judged i pc hi serial hs := ⟨(h.judged i pc hi serial hs).1,nofun⟩

theorem Sound.newFile (h : Sound w) (hnone : w.file = none) (hi : w.pcOf i = some old) :
    Sound { w with
      file := some { serial := w.creations, creator := some i, content := [] }
      creations := w.creations+1 } where
  owner j pc hj ho := by
    obtain ⟨f,hf,-⟩ := h.owner j pc hj ho
    rw [hnone] at hf
    cases hf
  known f hf := by
    cases hf
    refine ⟨Nat.lt_succ_self _,fun j hj => ?_⟩
    cases hj
    obtain ⟨p,hp,-⟩ := pcOf_eq_some.mp hi
    exact (List.getElem?_eq_some_iff.mp hp).choose
  marked := h.marked
  written f j p hf _ _ _ := by
    cases hf
    exact ⟨none,0,0,.inl rfl,rfl⟩
  judged j pc hj serial hs := by
    obtain ⟨hlt,-⟩ := h.judged j pc hj serial hs
    refine ⟨hlt.trans (Nat.lt_succ_self _),fun f hf hserial => ?_⟩
    cases hf
    exact absurd hserial hlt.ne'

theorem Sound.content (h : Sound w) {f : LockFile} {content : Bytes} (hf : w.file = some f)
    (hcontent : ∀ i p, f.creator = some i → w.procs[i]? = some p → p.alive = true →
      ∃ bootTime clock n, w.Current (bootMarker bootTime) ∧
        content = (lockPayload p.pid (bootMarker bootTime) clock).take n) :
    Sound { w with file := some { f with content := content } } where
  owner i pc hi ho := by
    obtain ⟨g,hg,hcreator⟩ := h.owner i pc hi ho
    cases hf.symm.trans hg
    exact ⟨_,rfl,hcreator⟩
  known g hg := by
    cases hg
    exact h.known f hf
  marked := h.marked
  written g i p hg hc hp halive := by
    cases hg
    exact hcontent i p hc hp halive
  judged i pc hi serial hs := by
    obtain ⟨hlt,hdead⟩ := h.judged i pc hi serial hs
    refine ⟨hlt,fun g hg hserial => ?_⟩
    cases hg
    exact hdead f hf hserial

/-- Fewer processes alive, the rest as it was. -/
theorem Sound.fewer (h : Sound w) {procs : List Process}
    (hlength : procs.length = w.procs.length)
    (hfewer : ∀ (j : ℕ) (p : Process), procs[j]? = some p → p.alive = true →
      w.procs[j]? = some p) :
    Sound { w with procs := procs } := by
  have hpc {j : ℕ} {pc : Pc} (hj : ({ w with procs := procs } : World).pcOf j = some pc) :
      w.pcOf j = some pc := by
    obtain ⟨p,hp,halive,hpc⟩ := pcOf_eq_some.mp hj
    exact pcOf_eq_some.mpr ⟨p,hfewer j p hp halive,halive,hpc⟩
  refine ⟨fun j found hj => h.owner j found (hpc hj),fun f hf => ?_,
    fun j found hj => h.marked j found (hpc hj),
    fun f j p hf hc hp halive => h.written f j p hf hc (hfewer j p hp halive) halive,
    fun j found hj serial hs => ?_⟩
  · exact ⟨(h.known f hf).1,fun j hj => hlength ▸ (h.known f hf).2 j hj⟩
  · obtain ⟨hlt,hdead⟩ := h.judged j found (hpc hj) serial hs
    refine ⟨hlt,fun f hf hserial halive => hdead f hf hserial ?_⟩
    obtain ⟨k,hk,hsome⟩ := creatorAlive_iff.mp halive
    obtain ⟨found',hfound⟩ := Option.isSome_iff_exists.mp hsome
    exact creatorAlive_iff.mpr ⟨k,hk,by rw [hpc hfound]; rfl⟩

theorem Sound.crash (h : Sound w) (i : ℕ) : Sound (step w (.crash i)) := by
  refine h.fewer (List.length_modify ..) fun j p hp halive => ?_
  simp only [List.getElem?_modify] at hp
  obtain ⟨p',hp',rfl⟩ := Option.map_eq_some_iff.mp hp
  by_cases hij : i = j
  · rw [if_pos hij] at halive
    cases halive
  · rw [if_neg hij] at halive ⊢
    exact hp'

theorem Sound.reboot (h : Sound w) (bootTime : ℤ) : Sound (step w (.reboot bootTime)) := by
  have hdead : ∀ j, (step w (.reboot bootTime)).pcOf j = none := by
    intro j
    cases hj : (step w (.reboot bootTime)).pcOf j with
    | none => rfl
    | some pc =>
        obtain ⟨p,hp,halive,-⟩ := pcOf_eq_some.mp hj
        simp only [step,List.getElem?_map] at hp
        obtain ⟨p',-,rfl⟩ := Option.map_eq_some_iff.mp hp
        cases halive
  refine ⟨fun j found hj => ?_,fun f hf => ?_,fun j found hj => ?_,fun f j p _ _ hp halive => ?_,
    fun j found hj => ?_⟩
  · rw [hdead] at hj
    cases hj
  · exact ⟨(h.known f hf).1,fun j hj => by
      simpa [step] using (h.known f hf).2 j hj⟩
  · rw [hdead] at hj
    cases hj
  · have := pcOf_eq_some.mpr ⟨p,hp,halive,rfl⟩
    rw [hdead] at this
    cases this
  · rw [hdead] at hj
    cases hj

theorem Sound.spawn (h : Sound w) (pid : Pid) :
    Sound { w with procs := w.procs++[⟨pid,true,.idle⟩] } := by
  have hold {j : ℕ} (hj : j < w.procs.length) :
      (w.procs++[⟨pid,true,.idle⟩])[j]? = w.procs[j]? := List.getElem?_append_left hj
  have hpc {j : ℕ} {pc : Pc}
      (hj : ({ w with procs := w.procs++[⟨pid,true,.idle⟩] } : World).pcOf j = some pc) :
      w.pcOf j = some pc ∨ pc = .idle := by
    obtain ⟨p,hp,halive,hpc⟩ := pcOf_eq_some.mp hj
    rcases Nat.lt_or_ge j w.procs.length with hlt | hge
    · rw [hold hlt] at hp
      exact .inl (pcOf_eq_some.mpr ⟨p,hp,halive,hpc⟩)
    · rw [List.getElem?_append_right hge] at hp
      rw [List.mem_singleton.mp (List.mem_of_getElem? hp)] at hpc
      exact .inr hpc.symm
  refine ⟨fun j found hj ho => ?_,fun f hf => ?_,fun j found hj boot hb => ?_,
    fun f j p hf hc hp halive => ?_,fun j found hj serial hs => ?_⟩
  · rcases hpc hj with hj | rfl
    · exact h.owner j found hj ho
    · cases ho
  · refine ⟨(h.known f hf).1,fun j hj => ?_⟩
    have := (h.known f hf).2 j hj
    simp only [List.length_append]
    omega
  · rcases hpc hj with hj | rfl
    · exact h.marked j found hj boot hb
    · cases hb
  · rw [hold ((h.known f hf).2 j hc)] at hp
    exact h.written f j p hf hc hp halive
  · rcases hpc hj with hj | rfl
    · obtain ⟨hlt,hdead⟩ := h.judged j found hj serial hs
      refine ⟨hlt,fun f hf hserial halive => hdead f hf hserial ?_⟩
      obtain ⟨k,hk,hsome⟩ := creatorAlive_iff.mp halive
      refine creatorAlive_iff.mpr ⟨k,hk,?_⟩
      have hlt := (h.known f hf).2 k hk
      simpa only [World.pcOf,hold hlt] using hsome
    · cases hs

/-- A file that its creator wrote is not judged stale while the creator is alive. -/
theorem Sound.verdict (h : Sound w) {f : LockFile} {contents : LockContents} {boot : Bytes}
    {group : Bool} (hf : w.file = some f) (hparse : parseLockFile (some f.content) = some contents)
    (hboot : w.Current boot)
    (hstale : lockIsStale contents boot (w.processAlive contents.pid group) = true) :
    ¬ w.CreatorAlive f := by
  intro halive
  obtain ⟨i,hcreator,hsome⟩ := creatorAlive_iff.mp halive
  obtain ⟨pc,hpc⟩ := Option.isSome_iff_exists.mp hsome
  obtain ⟨p,hp,hlives,-⟩ := pcOf_eq_some.mp hpc
  obtain ⟨bootTime,clock,n,hcurrent,hcontent⟩ := h.written f i p hf hcreator hp hlives
  rw [hcontent] at hparse
  obtain ⟨hpid,hmarker⟩ := parseLockFile_payload hparse
  have hpos := p.pid.pos
  have hfits := p.pid.fits
  have hmod : Int.bmod (p.pid.value : ℤ) (2^32) = p.pid.value := by
    have hlt : (p.pid.value : ℤ) < 2^31 := by exact_mod_cast hfits
    exact Int.bmod_eq_of_le (by omega) (by omega)
  have hprobe : w.processAlive contents.pid group = true := by
    rw [hpid,World.processAlive,hmod,if_neg (by omega),if_pos (by omega),List.any_eq_true]
    exact ⟨p,List.mem_of_getElem? hp,by simp [hlives]⟩
  have hmarkerne : contents.boot ≠ [] := hmarker ▸ (bootMarker_word bootTime).1
  have hsame : contents.boot = boot ∨ contents.boot = bootMarker none ∨
      boot = bootMarker none := by
    rw [hmarker]
    rcases hcurrent with h | h
    · exact .inr (.inl h)
    · rcases hboot with hb | hb
      · exact .inr (.inr hb)
      · exact .inl (h.trans hb.symm)
  rw [lockIsStale,hprobe,if_neg (by rw [hpid]; simp only [hmarkerne,or_false]; omega),if_neg (by decide)]
    at hstale
  rcases hsame with h | h | h <;> simp [h] at hstale

end Parts

/-- A takeover removes the file that it read or one whose creator is no longer alive. -/
def Undisturbed (w : World) : Action → Prop
  | .remove i => ∀ pc ∈ w.pcOf i, ∀ f ∈ w.file, pc.takesOver = true →
      pc.judged? = some f.serial ∨ ¬ w.CreatorAlive f
  | _ => True

instance (w : World) : (a : Action) → Decidable (Undisturbed w a)
  | .remove i => inferInstanceAs (Decidable (∀ pc ∈ w.pcOf i, ∀ f ∈ w.file,
      pc.takesOver = true → pc.judged? = some f.serial ∨ ¬ w.CreatorAlive f))
  | .spawn _ | .construct _ _ | .create _ | .createFails _ | .write _ _ _ | .sizeCheck _
  | .read _ _ | .release _ | .crash _ | .reboot _ => .isTrue trivial

section Run
variable {w : World}

theorem Sound.act (h : Sound w) (a : Action) (ha : Undisturbed w a) : Sound (step w a) := by
  have howned {i : ℕ} {pc : Pc} (hi : w.pcOf i = some pc) (ho : pc.owns = true) :=
    h.owner i pc hi ho
  cases a with
  | spawn pid =>
      simp only [step]
      split
      · exact h
      · exact h.spawn pid
  | construct i bootKnown =>
      simp only [step]
      split
      · rename_i hi
        refine h.setPc hi nofun (fun boot hb => ?_) nofun
        cases hb
        cases bootKnown
        · exact .inl rfl
        · exact .inr rfl
      · exact h
  | create i =>
      simp only [step]
      split
      · rename_i boot retries hi
        have hboot := h.marked i _ hi boot rfl
        split
        · rename_i hnone
          refine (h.newFile hnone hi).setPc (i := i) hi (fun _ => ⟨_,rfl,rfl⟩)
            (fun b hb => ?_) nofun
          cases hb
          exact hboot
        · refine h.setPc hi nofun (fun b hb => ?_) nofun
          cases hb
          exact hboot
      · exact h
  | createFails i =>
      simp only [step]
      split
      · rename_i hi
        exact h.setPc hi nofun nofun nofun
      · exact h
  | write i clock written =>
      simp only [step]
      split
      · rename_i boot p hi hp
        obtain ⟨f,hf,hcreator⟩ := howned hi rfl
        obtain ⟨bootTime,hboot⟩ : ∃ bootTime, boot = bootMarker bootTime := by
          rcases h.marked i _ hi boot rfl with hb | hb
          · exact ⟨none,hb⟩
          · exact ⟨some w.bootTime,hb⟩
        have hcurrent := h.marked i _ hi boot rfl
        subst hboot
        have hwritten := h.content hf (by
            intro j q hj hq _
            cases hcreator.symm.trans hj
            cases hp.symm.trans hq
            exact ⟨bootTime,clock,written,hcurrent,rfl⟩)
        have hnew : w.file.map (fun (f : LockFile) => if f.creator = some i then
            { f with content := (lockPayload p.pid (bootMarker bootTime) clock).take written }
            else f) = some { f with
              content := (lockPayload p.pid (bootMarker bootTime) clock).take written } := by
          rw [hf,Option.map_some,if_pos hcreator]
        rw [hnew]
        exact hwritten.setPc (i := i) hi (fun _ => ⟨_,rfl,hcreator⟩) nofun nofun
      · exact h
  | sizeCheck i =>
      simp only [step]
      split
      · rename_i boot retries hi
        have hmark (b : Bytes) (hb : some boot = some b) : w.Current b :=
          h.marked i _ hi b hb
        split
        · split
          · split
            · exact h.setPc hi nofun hmark nofun
            · exact h.setPc hi nofun hmark nofun
          · exact h.setPc hi nofun hmark nofun
        · exact h.setPc hi nofun hmark nofun
      · exact h
  | read i group =>
      simp only [step]
      split
      · rename_i boot retries hi
        have hmark (b : Bytes) (hb : some boot = some b) : w.Current b :=
          h.marked i _ hi b hb
        split
        · rename_i contents hparse
          split
          · rename_i hstale
            refine h.setPc hi nofun hmark (fun serial hs => ?_)
            obtain ⟨f,hf,rfl⟩ := Option.map_eq_some_iff.mp hs
            rw [hf,Option.map_some] at hparse
            refine ⟨(h.known f hf).1,fun g hg _ => ?_⟩
            cases hf.symm.trans hg
            exact h.verdict hf hparse (hmark boot rfl) hstale
          · exact h.setPc hi nofun nofun nofun
        · exact h.setPc hi nofun nofun nofun
      · exact h
  | remove i =>
      simp only [step]
      split
      · rename_i boot retries judged hi
        have hmark (b : Bytes) (hb : some boot = some b) : w.Current b :=
          h.marked i _ hi b hb
        -- an owner would have its file at the path, and it is alive
        have hfree : ∀ j pc, w.pcOf j = some pc → pc.owns = false := by
          intro j pc hj
          by_contra ho
          obtain ⟨f,hf,hcreator⟩ := howned hj (by simpa using ho)
          have halive : w.CreatorAlive f :=
            creatorAlive_iff.mpr ⟨j,hcreator,by rw [hj]; rfl⟩
          rcases ha _ hi f hf rfl with hsame | hdead
          · exact (h.judged i _ hi f.serial hsame).2 f hf rfl halive
          · exact hdead halive
        exact (h.noFile hfree).setPc (i := i) hi nofun hmark nofun
      · exact h
  | release i =>
      simp only [step]
      split
      · rename_i hi
        have hidle : Sound (w.setPc i .idle) := h.setPc hi nofun nofun nofun
        refine Sound.noFile hidle fun j pc hj => ?_
        rcases pcOf_setPc hi hj with ⟨-,rfl⟩ | ⟨hne,hj⟩
        · rfl
        · by_contra ho
          obtain ⟨f,hf,hcreator⟩ := howned hi rfl
          obtain ⟨g,hg,hcreator'⟩ := howned hj (by simpa using ho)
          cases hf.symm.trans hg
          exact hne (Option.some.inj (hcreator'.symm.trans hcreator))
      · exact h
  | crash i => exact h.crash i
  | reboot bootTime => exact h.reboot bootTime

theorem Sound.holder {i : ℕ} (h : Sound w) (hi : w.pcOf i = some .holding) :
    ∃ f, w.file = some f ∧ f.creator = some i := h.owner i _ hi rfl

theorem sound_run {left : Option Bytes} {bootTime : ℤ} {actions : List Action}
    (h : Guarded step Undisturbed (World.start left bootTime) actions) :
    Sound (runFrom step (World.start left bootTime) actions) :=
  h.invariant (fun _ a hs ha => hs.act a ha) (sound_start left bootTime)

/-- In an undisturbed run at most one process alive has the lock, and what its release removes
is the file it created. -/
theorem undisturbed_run_exclusive {left : Option Bytes} {bootTime : ℤ} {actions : List Action}
    (h : Guarded step Undisturbed (World.start left bootTime) actions) :
    let w := runFrom step (World.start left bootTime) actions
    (∀ i j, w.pcOf i = some .holding → w.pcOf j = some .holding → i = j) ∧
    (∀ i, w.pcOf i = some .holding → ∀ f, w.file = some f → f.creator = some i) := by
  intro w
  have hsound : Sound w := sound_run h
  refine ⟨fun i j hi hj => ?_,fun i hi f hf => ?_⟩
  · obtain ⟨f,hf,hcreator⟩ := hsound.holder hi
    obtain ⟨g,hg,hcreator'⟩ := hsound.holder hj
    cases hf.symm.trans hg
    exact Option.some.inj (hcreator.symm.trans hcreator')
  · obtain ⟨g,hg,hcreator⟩ := hsound.holder hi
    cases hf.symm.trans hg
    exact hcreator

/-- A dead process's file is taken over and held. -/
def takeover (i : ℕ) : List Action := [.create i,.sizeCheck i,.read i false]

def pidSeven : Pid := ⟨7,by decide,by decide⟩

def pidEight : Pid := ⟨8,by decide,by decide⟩

def leftBehind : Bytes := utf8 "99 boot:1 1970-01-01T00:00:00Z\n"

theorem undisturbed_run_exclusive_sample :
    let w := runFrom step (World.start (some leftBehind) 1)
      ([.spawn pidSeven,.construct 0 true]++takeover 0++
        [.remove 0,.create 0,.write 0 0 99])
    (∀ i j, w.pcOf i = some .holding → w.pcOf j = some .holding → i = j) ∧
    (∀ i, w.pcOf i = some .holding → ∀ f, w.file = some f → f.creator = some i) :=
  undisturbed_run_exclusive (by decide +kernel)

/-- Two contenders judge one stale file; the second removes the lock of the first. -/
theorem both_hold : ¬ ∀ (left : Option Bytes) (bootTime : ℤ) (actions : List Action) (i j : ℕ),
    (runFrom step (World.start left bootTime) actions).pcOf i = some .holding →
    (runFrom step (World.start left bootTime) actions).pcOf j = some .holding → i = j := by
  intro h
  have hsame := h (some leftBehind) 1
    ([.spawn pidSeven,.spawn pidEight,.construct 0 true,.construct 1 true]++takeover 0++takeover 1++
      [.remove 0,.create 0,.write 0 0 99,.remove 1,.create 1,.write 1 0 99]) 0 1
    (by decide +kernel) (by decide +kernel)
  exact absurd hsame (by decide)

end Run

end Atperson.Lock
