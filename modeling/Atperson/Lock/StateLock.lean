import Atperson.Wire.Timestamp
import Atperson.Runs.Guarded

/-!
# The writer lock

Any number of processes and the lock file at one path. A step is one file operation of a
constructor or of a release, or a process starting, dying or the machine rebooting. A file
remembers which process created it and as which creation; the code sees neither.
-/
namespace Atperson.Lock
open Wire

def isSpace (c : UInt8) : Bool := c = 32 || (9 ≤ c && c ≤ 13)

/-- The next word of a stream and what is left behind it. -/
def nextWord (stream : Bytes) : Option (Bytes × Bytes) :=
  let rest := stream.dropWhile isSpace
  if rest = [] then none
  else some (rest.takeWhile (fun c => !isSpace c),rest.dropWhile (fun c => !isSpace c))

/-- Reads a number up to its first byte that is no digit, into 64 bits. -/
def strtoll (word : Bytes) : ℤ :=
  let value (digits : Bytes) : ℤ :=
    decimalValue (digits.takeWhile fun c => 48 ≤ c && c ≤ 57)
  match word with
  | 45::digits => max (-2^63) (-value digits)
  | 43::digits => min (2^63-1) (value digits)
  | digits => min (2^63-1) (value digits)

structure LockContents where
  pid : ℤ
  boot : Bytes
  created : Bytes
  deriving DecidableEq

def parseLockFile (file : Option Bytes) : Option LockContents := do
  let stream ← file
  let (pidText,stream) ← nextWord stream
  let (boot,stream) ← nextWord stream
  let (created,_) ← nextWord stream
  some { pid := strtoll pidText, boot := boot, created := created }

/-- The boot time of the machine, when it can be told. -/
def bootMarker : Option ℤ → Bytes
  | some bootTime => utf8 "boot:"++formatPadded 1 bootTime
  | none => utf8 "boot:?"

def lockIsStale (contents : LockContents) (boot : Bytes) (alive : Bool) : Bool :=
  if contents.pid ≤ 0 ∨ contents.boot = [] then true
  else if alive = false then true
  else contents.boot ≠ boot && contents.boot ≠ bootMarker none && boot ≠ bootMarker none

/-- A process number as the kernel gives them out. -/
structure Pid where
  value : ℕ
  pos : 0 < value
  fits : value < 2^31

def lockPayload (pid : Pid) (boot : Bytes) (clock : ℤ) : Bytes :=
  decimalString pid.value++32::(boot++32::(rfc3339FromUnix clock++[10]))

structure LockFile where
  serial : ℕ
  creator : Option ℕ
  content : Bytes

/-- Where a process stands: outside, between two file operations of the constructor, or with
a lock constructed. -/
inductive Pc where
  | idle
  | opening (boot : Bytes) (retries : ℕ)
  | created (boot : Bytes)
  | sizing (boot : Bytes) (retries : ℕ)
  | reading (boot : Bytes) (retries : ℕ)
  | removing (boot : Bytes) (retries : ℕ) (judged : Option ℕ)
  | holding
  deriving DecidableEq

structure Process where
  pid : Pid
  alive : Bool
  pc : Pc

structure World where
  file : Option LockFile
  procs : List Process
  bootTime : ℤ
  creations : ℕ

def kEmptyRetries : ℕ := 50

namespace World

def pcOf (w : World) (i : ℕ) : Option Pc :=
  (w.procs[i]?).bind fun p => if p.alive then some p.pc else none

def setPc (w : World) (i : ℕ) (pc : Pc) : World :=
  { w with procs := w.procs.modify i fun p => { p with pc := pc } }

/-- The probe of a number; cut to 32 bits it may name a group of processes. -/
def processAlive (w : World) (pid : ℤ) (group : Bool) : Bool :=
  if pid ≤ 0 then false
  else if 0 < Int.bmod pid (2^32) then
    w.procs.any fun p => p.alive && p.pid.value = Int.bmod pid (2^32)
  else group

end World

inductive Action where
  | spawn (pid : Pid)
  | construct (i : ℕ) (bootKnown : Bool)
  | create (i : ℕ)
  | createFails (i : ℕ)
  | write (i : ℕ) (clock : ℤ) (written : ℕ)
  | sizeCheck (i : ℕ)
  | read (i : ℕ) (group : Bool)
  | remove (i : ℕ)
  | release (i : ℕ)
  | crash (i : ℕ)
  | reboot (bootTime : ℤ)

/-- An action that a process is not at does nothing. -/
def step (w : World) : Action → World
  | .spawn pid =>
      if w.procs.any fun p => p.alive && p.pid.value = pid.value then w
      else { w with procs := w.procs++[⟨pid,true,.idle⟩] }
  | .construct i bootKnown =>
      match w.pcOf i with
      | some .idle =>
          w.setPc i (.opening (bootMarker (if bootKnown then some w.bootTime else none)) 0)
      | _ => w
  | .create i =>
      match w.pcOf i with
      | some (.opening boot retries) =>
          match w.file with
          | none =>
              { w with
                file := some { serial := w.creations, creator := some i, content := [] }
                creations := w.creations+1 }.setPc i (.created boot)
          | some _ => w.setPc i (.sizing boot retries)
      | _ => w
  | .createFails i =>
      match w.pcOf i with
      | some (.opening _ _) => w.setPc i .idle
      | _ => w
  | .write i clock written =>
      match w.pcOf i, w.procs[i]? with
      | some (.created boot), some p =>
          -- a short write is let pass, and so is one into a file no longer at the path
          { w with
            file := w.file.map fun (f : LockFile) =>
              if f.creator = some i then
                { f with content := (lockPayload p.pid boot clock).take written }
              else f }.setPc i .holding
      | _, _ => w
  | .sizeCheck i =>
      match w.pcOf i with
      | some (.sizing boot retries) =>
          match w.file with
          | some f =>
              if f.content = [] then
                if retries+1 ≤ kEmptyRetries then w.setPc i (.opening boot (retries+1))
                else w.setPc i (.removing boot (retries+1) none)
              else w.setPc i (.reading boot retries)
          | none => w.setPc i (.reading boot retries)
      | _ => w
  | .read i group =>
      match w.pcOf i with
      | some (.reading boot retries) =>
          match parseLockFile (w.file.map (·.content)) with
          | some contents =>
              if lockIsStale contents boot (w.processAlive contents.pid group) then
                w.setPc i (.removing boot retries (w.file.map (·.serial)))
              else w.setPc i .idle
          | none => w.setPc i .idle
      | _ => w
  | .remove i =>
      match w.pcOf i with
      | some (.removing boot retries _) => { w with file := none }.setPc i (.opening boot retries)
      | _ => w
  | .release i =>
      match w.pcOf i with
      | some .holding => { w with file := none }.setPc i .idle
      | _ => w
  | .crash i => { w with procs := w.procs.modify i fun p => { p with alive := false } }
  | .reboot bootTime =>
      { w with
        procs := w.procs.map fun p => { p with alive := false }, bootTime := bootTime }

/-- No process yet, and whatever an earlier one left at the path. -/
def World.start (left : Option Bytes) (bootTime : ℤ) : World where
  file := left.map fun content => { serial := 0, creator := none, content := content }
  procs := []
  bootTime := bootTime
  creations := 1

section Words

theorem nextWord_space (stream : Bytes) : nextWord (32::stream) = nextWord stream := rfl

theorem nextWord_word {word rest : Bytes} (hne : word ≠ [])
    (hword : ∀ c ∈ word, isSpace c = false) :
    nextWord (word++32::rest) = some (word,32::rest) := by
  obtain ⟨c,cs,rfl⟩ := List.exists_cons_of_ne_nil hne
  have hfirst : isSpace c = false := hword c List.mem_cons_self
  have hdrop : ((c::cs)++32::rest).dropWhile isSpace = (c::cs)++32::rest := by
    rw [List.cons_append,List.dropWhile_cons_of_neg (by simp [hfirst])]
  have hall : ∀ b ∈ c::cs, (!isSpace b) = true := by
    intro b hb
    simp [hword b hb]
  have hspace : (!isSpace 32) = false := by decide
  unfold nextWord
  rw [hdrop]
  simp only [List.cons_append,reduceCtorEq,if_false]
  rw [← List.cons_append,List.takeWhile_append_of_pos hall,List.dropWhile_append_of_pos hall]
  simp [hspace]

theorem nextWord_last {word : Bytes} (hword : ∀ c ∈ word, isSpace c = false) :
    ∀ found rest, nextWord word = some (found,rest) → rest = [] := by
  intro found rest h
  have hall : ∀ b ∈ word, (!isSpace b) = true := by
    intro b hb
    simp [hword b hb]
  have hdrop : word.dropWhile isSpace = word := by
    cases word with
    | nil => rfl
    | cons c cs => exact List.dropWhile_cons_of_neg (by simp [hword c List.mem_cons_self])
  simp only [nextWord,hdrop] at h
  split at h
  · cases h
  · cases h
    rw [List.dropWhile_eq_nil_iff]
    exact hall

theorem take_word (word rest : Bytes) (n : ℕ) :
    (word++32::rest).take n = word.take n ∨
      ∃ m, (word++32::rest).take n = word++32::rest.take m := by
  rcases Nat.lt_or_ge word.length n with h | h
  · refine .inr ⟨n-word.length-1,?_⟩
    obtain ⟨m,hm⟩ : ∃ m, n-word.length = m+1 := ⟨n-word.length-1,by omega⟩
    rw [List.take_append,List.take_of_length_le h.le,hm,List.take_succ_cons]
    rfl
  · exact .inl (List.take_append_of_le_length h)

theorem not_space_of_digit {c : UInt8} (h : 48 ≤ c ∧ c ≤ 57) : isSpace c = false := by
  have hlo := UInt8.le_iff_toNat_le.mp h.1
  have hhi := UInt8.le_iff_toNat_le.mp h.2
  have h48 : (48 : UInt8).toNat = 48 := rfl
  have h57 : (57 : UInt8).toNat = 57 := rfl
  have h32 : c ≠ 32 := by
    rintro rfl
    exact absurd hlo (by decide)
  have h13 : ¬ c ≤ 13 := by
    intro hle
    have := UInt8.le_iff_toNat_le.mp hle
    have h13 : (13 : UInt8).toNat = 13 := rfl
    omega
  simp [isSpace,h32,h13]

theorem strtoll_decimal {n : ℕ} (h : n < 2^31) : strtoll (decimalString n) = n := by
  have hdigit : ∀ c ∈ decimalString n, (48 ≤ c && c ≤ 57) = true := by
    intro c hc
    simpa using digit_of_mem_decimalString hc
  have htake : (decimalString n).takeWhile (fun c => 48 ≤ c && c ≤ 57) = decimalString n :=
    List.takeWhile_eq_self_iff.mpr hdigit
  have hfits : (n : ℤ) ≤ 2^63-1 := by
    have : (n : ℤ) < 2^31 := by exact_mod_cast h
    exact this.le.trans (by norm_num)
  unfold strtoll
  split
  · rename_i digits heq
    have := hdigit 45 (heq ▸ List.mem_cons_self)
    exact absurd this (by decide)
  · rename_i digits heq
    have := hdigit 43 (heq ▸ List.mem_cons_self)
    exact absurd this (by decide)
  · simp only [htake,decimalValue_string]
    exact min_eq_right hfits

theorem bootMarker_word (bootTime : Option ℤ) :
    bootMarker bootTime ≠ [] ∧ ∀ c ∈ bootMarker bootTime, isSpace c = false := by
  have hprefix : ∀ c ∈ utf8 "boot:", isSpace c = false := by decide +kernel
  cases bootTime with
  | none => decide +kernel
  | some bootTime =>
      refine ⟨nofun,fun c hc => ?_⟩
      rcases List.mem_append.mp hc with hc | hc
      · exact hprefix c hc
      · simp only [formatPadded] at hc
        split at hc
        · rcases List.mem_cons.mp hc with rfl | hc
          · decide
          · exact not_space_of_digit (digit_of_mem_paddedDecimal hc)
        · exact not_space_of_digit (digit_of_mem_paddedDecimal hc)

/-- However much of it was written, a lock file says who wrote it or cannot be read. -/
theorem parseLockFile_payload {pid : Pid} {bootTime : Option ℤ} {clock : ℤ} {written : ℕ}
    {contents : LockContents}
    (h : parseLockFile (some ((lockPayload pid (bootMarker bootTime) clock).take written)) =
      some contents) : contents.pid = pid.value ∧ contents.boot = bootMarker bootTime := by
  have hpid : ∀ c ∈ decimalString pid.value, isSpace c = false := fun c hc =>
    not_space_of_digit (digit_of_mem_decimalString hc)
  obtain ⟨hbootne,hboot⟩ := bootMarker_word bootTime
  have hnone : nextWord [] = none := rfl
  simp only [parseLockFile,lockPayload,Option.bind_eq_bind,Option.bind_some] at h
  obtain ⟨⟨pidText,stream⟩,hfirst,h⟩ := Option.bind_eq_some_iff.mp h
  obtain ⟨⟨boot,stream'⟩,hsecond,h⟩ := Option.bind_eq_some_iff.mp h
  obtain ⟨⟨created,stream''⟩,hthird,h⟩ := Option.bind_eq_some_iff.mp h
  simp only at hsecond hthird
  cases h
  rcases take_word (decimalString pid.value)
    (bootMarker bootTime++32::(rfc3339FromUnix clock++[10])) written with hcut | ⟨m,hcut⟩
  · rw [hcut] at hfirst
    rw [nextWord_last (fun c hc => hpid c (List.mem_of_mem_take hc)) _ _ hfirst,hnone] at hsecond
    cases hsecond
  rw [hcut,nextWord_word (decimalString_ne_nil _) hpid] at hfirst
  cases hfirst
  rw [nextWord_space] at hsecond
  rcases take_word (bootMarker bootTime) (rfc3339FromUnix clock++[10]) m with hcut | ⟨k,hcut⟩
  · rw [hcut] at hsecond
    rw [nextWord_last (fun c hc => hboot c (List.mem_of_mem_take hc)) _ _ hsecond,hnone] at hthird
    cases hthird
  rw [hcut,nextWord_word hbootne hboot] at hsecond
  cases hsecond
  exact ⟨strtoll_decimal pid.fits,rfl⟩

end Words

end Atperson.Lock
