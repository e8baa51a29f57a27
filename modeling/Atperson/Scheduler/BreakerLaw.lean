import Atperson.Runs.Fallible
import Atperson.Runs.Guarded
import Atperson.Scheduler.Breaker

/-!
# The law of the breaker

The failures since the last success tell when the breaker opens and for how long, and those of
one proposal since it last succeeded or was set aside tell when it is set aside. A history is
lawful as long as the numbers of the state stay within what its file can hold.
-/
namespace Atperson.Scheduler
open Wire Runs

inductive BreakerEvent where
  | success (digest : Bytes)
  | failure (digest detail : Bytes) (now : ℤ)
  | restart

/-- What the law counts: the failures since the last success, all openings, and the failures of
each proposal since its last success or quarantine. -/
structure Course where
  streak : ℕ
  openings : ℕ
  tally : Bytes → ℕ

namespace Course

def start : Course := ⟨0,0,fun _ => 0⟩

/-- The next failure is one at which the breaker opens. -/
def Ripe (c : Course) (config : BreakerConfig) : Prop :=
  config.failureThreshold.toNat ≤ c.streak+1

instance (c : Course) (config : BreakerConfig) : Decidable (c.Ripe config) :=
  inferInstanceAs (Decidable (_ ≤ _))

/-- The openings since the last success. -/
def opened (c : Course) (config : BreakerConfig) : ℕ := c.streak+1-config.failureThreshold.toNat

/-- The next failure of a proposal is the one at which it is set aside. -/
def Spoilt (c : Course) (config : BreakerConfig) (digest : Bytes) : Prop :=
  c.tally digest+1 = config.proposalFailureLimit.toNat

instance (c : Course) (config : BreakerConfig) (digest : Bytes) :
    Decidable (c.Spoilt config digest) := inferInstanceAs (Decidable (_ = _))

def after (config : BreakerConfig) (c : Course) : BreakerEvent → Course
  | .success digest => {c with streak := 0,tally := Function.update c.tally digest 0}
  | .failure digest _ _ => {
      streak := c.streak+1
      openings := if c.Ripe config then c.openings+1 else c.openings
      tally := Function.update c.tally digest
        (if c.Spoilt config digest then 0 else c.tally digest+1)}
  | .restart => c

end Course

def courseOf (config : BreakerConfig) (history : List BreakerEvent) : Course :=
  runFrom (Course.after config) .start history

/-- How long the `k`-th opening since the last success lasts. -/
def lasts (config : BreakerConfig) (k : ℕ) : ℤ :=
  min (config.baseCooldownSeconds*2^(k-1)) config.maxCooldownSeconds

def BreakerState.step (config : BreakerConfig) (state : BreakerState) :
    BreakerEvent → Option BreakerState
  | .success digest => some (recordSuccess state digest)
  | .failure digest detail now => (recordFailure state config digest detail now).map Prod.fst
  | .restart => (loadBreakerState (some (saveBreakerState state))).toOption

/-- The state after a history, where every step gives one. -/
def runBreaker (config : BreakerConfig) (history : List BreakerEvent) : Option BreakerState :=
  history.foldl (fun state event => state.bind (·.step config event)) (some .closed)

/-- A failure that the file can still hold: its times are within the bound, and so is the streak
as it is read; what is kept of the texts has no NUL. -/
def Admissible (config : BreakerConfig) (c : Course) : BreakerEvent → Prop
  | .failure digest detail now =>
      (0 ≤ now ∧ now ≤ numberBound) ∧ (c.streak+1 : ℕ) ≤ maxStreak ∧
      (c.Ripe config → now+lasts config (c.opened config+1) ≤ numberBound ∧
        (c.openings+1 : ℕ) ≤ numberBound) ∧
      (0 : UInt8) ∉ detail.take 200 ∧ (¬c.Spoilt config digest → (0 : UInt8) ∉ digest)
  | _ => True

instance (config : BreakerConfig) (c : Course) :
    (event : BreakerEvent) → Decidable (Admissible config c event)
  | .failure _ _ _ => inferInstanceAs (Decidable (_ ∧ _))
  | .success _ => .isTrue trivial
  | .restart => .isTrue trivial

/-! ## The file holds the state -/

/-- A state whose numbers and texts the file can hold. -/
structure Storable (s : BreakerState) : Prop where
  streak : (s.consecutiveFailures.toNat : ℤ) ≤ maxStreak
  openUntil : 0 ≤ s.openUntil ∧ s.openUntil ≤ numberBound
  cooldown : 0 ≤ s.cooldownSeconds ∧ s.cooldownSeconds ≤ numberBound
  trips : (s.trips.toNat : ℤ) ≤ numberBound
  lastFailureAt : 0 ≤ s.lastFailureAt ∧ s.lastFailureAt ≤ numberBound
  detail : (0 : UInt8) ∉ s.lastFailureDetail
  names : ∀ entry ∈ s.proposalFailures, (0 : UInt8) ∉ entry.1
  distinct : (s.proposalFailures.map Prod.fst).Nodup

theorem nearestDouble_bound {n : ℤ} (h0 : 0 ≤ n) (h : n ≤ numberBound) : nearestDouble n = n := by
  refine nearestDouble_of_small ?_
  unfold numberBound at h
  omega

theorem nameBytes_text (raw : Bytes) : nameBytes (text raw) = raw := by
  unfold nameBytes text
  rw [String.toList_ofList,List.map_map]
  refine (List.map_congr_left fun b _ => ?_).trans (List.map_id' raw)
  have hlt : b.toNat < 55296 := b.toNat_lt.trans (by decide)
  have hchar : (Char.ofNat b.toNat).toNat = b.toNat := by
    rw [Char.toNat_ofNat,if_pos (Or.inl hlt)]
  rw [Function.comp_apply,hchar]
  exact UInt8.ofNat_toNat

theorem readTally_members {t done : Tally} (hnames : ∀ entry ∈ t, (0 : UInt8) ∉ entry.1)
    (hdistinct : ((done++t).map Prod.fst).Nodup) :
    readTally done (t.map fun entry =>
      (text (CString.ofRaw entry.1).bytes,.number entry.2.toNat)) = .ok (done++t) := by
  induction t generalizing done with
  | nil => rw [List.append_nil]; rfl
  | cons entry t ih =>
      have hsmall : nearestDouble entry.2.toNat = entry.2.toNat := by
        refine nearestDouble_of_small ?_
        have hlt := entry.2.toNat_lt
        rw [Int.natAbs_natCast]
        omega
      have hname : nameBytes (text (CString.ofRaw entry.1).bytes) = entry.1 := by
        rw [nameBytes_text,ofRaw_bytes_of_noNul (hnames entry List.mem_cons_self)]
      have hnew : entry.1 ∉ done.map Prod.fst := by
        rw [List.map_append,List.map_cons] at hdistinct
        exact fun h => (List.nodup_append.mp hdistinct).2.2 _ h _ List.mem_cons_self rfl
      have hassign : done.assign entry.1 (UInt32.ofNat (entry.2.toNat : ℤ).toNat) =
          done++[entry] := by
        rw [Tally.assign,if_neg (mt List.contains_iff_mem.mp hnew),Int.toNat_natCast,UInt32.ofNat_toNat]
      rw [List.map_cons,readTally,hsmall,if_neg (by omega),hname,hassign,
        ih (fun e he => hnames e (List.mem_cons_of_mem _ he))
          (by rwa [List.append_assoc,List.singleton_append]),List.append_assoc]
      rfl

theorem numberField_saved {object : Json ℤ} {name : String} {n : ℤ}
    (hget : object.get? name = some (.number n)) (h0 : 0 ≤ n) (h : n ≤ numberBound) :
    numberField object name = .ok n := by
  unfold numberField
  rw [hget]
  simp only [nearestDouble_bound h0 h]
  rw [if_neg (by omega)]

/-- A state that the file holds loads back. -/
theorem Storable.reload {s : BreakerState} (h : Storable s) :
    loadBreakerState (some (saveBreakerState s)) = .ok s := by
  have hopen := h.openUntil
  have hcooldown := h.cooldown
  have hlast := h.lastFailureAt
  have hstreak : (s.consecutiveFailures.toNat : ℤ) ≤ numberBound := h.streak.trans (by decide)
  have htally : tallyField (saveBreakerState s) = .ok s.proposalFailures := by
    show readTally [] (s.proposalFailures.map fun entry =>
      (text (CString.ofRaw entry.1).bytes,.number entry.2.toNat)) = _
    exact readTally_members h.names h.distinct
  have hdetail : detailField (saveBreakerState s) = s.lastFailureDetail := by
    show (CString.ofRaw (CString.ofRaw s.lastFailureDetail).bytes).bytes = s.lastFailureDetail
    rw [ofRaw_bytes_of_noNul h.detail,ofRaw_bytes_of_noNul h.detail]
  have hone : isVersionOne (saveBreakerState s) = true := by
    show decide (nearestDouble 1 = 1) = true
    exact decide_eq_true (nearestDouble_of_small (by decide))
  have hread := @numberField_saved (saveBreakerState s)
  have hconsecutive : numberField (saveBreakerState s) "consecutive_failures" =
      .ok s.consecutiveFailures.toNat := hread rfl (Int.natCast_nonneg _) hstreak
  have hopenUntil : numberField (saveBreakerState s) "open_until" = .ok s.openUntil :=
    hread (by rw [← nearestDouble_bound hopen.1 hopen.2]; rfl) hopen.1 hopen.2
  have hcooldownSeconds : numberField (saveBreakerState s) "cooldown_seconds" =
      .ok s.cooldownSeconds :=
    hread (by rw [← nearestDouble_bound hcooldown.1 hcooldown.2]; rfl) hcooldown.1 hcooldown.2
  have htrips : numberField (saveBreakerState s) "trips" = .ok s.trips.toNat :=
    hread (by rw [← nearestDouble_bound (Int.natCast_nonneg _) h.trips]; rfl)
      (Int.natCast_nonneg _) h.trips
  have hlastFailureAt : numberField (saveBreakerState s) "last_failure_at" =
      .ok s.lastFailureAt :=
    hread (by rw [← nearestDouble_bound hlast.1 hlast.2]; rfl) hlast.1 hlast.2
  show readBreaker (saveBreakerState s) = .ok s
  rw [readBreaker,if_neg (by rw [hone]; decide),hconsecutive,hopenUntil,hcooldownSeconds,htrips,
    hlastFailureAt,htally,hdetail]
  have hstreakSame : UInt32.ofNat (min (s.consecutiveFailures.toNat : ℤ) maxStreak).toNat =
      s.consecutiveFailures := by
    rw [min_eq_left h.streak,Int.toNat_natCast,UInt32.ofNat_toNat]
  have htripsSame : UInt64.ofNat (s.trips.toNat : ℤ).toNat = s.trips := by
    rw [Int.toNat_natCast,UInt64.ofNat_toNat]
  show Except.ok _ = Except.ok s
  rw [hstreakSame,htripsSame]

/-! ## Counting failures of proposals -/

namespace Tally
variable {t : Tally} {digest d : Bytes} {n : UInt32}

theorem count_nil (d : Bytes) : count [] d = 0 := rfl

theorem count_cons (entry : Bytes×UInt32) (t : Tally) (d : Bytes) :
    count (entry::t) d = if d = entry.1 then entry.2 else count t d := by
  unfold count
  rw [List.lookup_cons]
  by_cases h : d = entry.1
  · rw [if_pos h,beq_iff_eq.mpr h]
    rfl
  · rw [if_neg h,beq_eq_false_iff_ne.mpr h]

theorem count_of_not_mem (h : d ∉ t.map Prod.fst) : t.count d = 0 := by
  induction t with
  | nil => rfl
  | cons entry t ih =>
      rw [List.map_cons,List.mem_cons,not_or] at h
      rw [count_cons,if_neg h.1,ih h.2]

theorem count_forget (t : Tally) (digest d : Bytes) :
    (t.forget digest).count d = if d = digest then 0 else t.count d := by
  induction t with
  | nil => exact (ite_self _).symm
  | cons entry t ih =>
      unfold forget at ih ⊢
      by_cases hentry : entry.1 = digest
      · rw [List.filter_cons_of_neg (by simp [hentry]),ih,count_cons,hentry]
        by_cases hd : d = digest
        · rw [if_pos hd,if_pos hd]
        · rw [if_neg hd,if_neg hd,if_neg hd]
      · rw [List.filter_cons_of_pos (by simp [hentry]),count_cons,count_cons,ih]
        by_cases hd : d = digest
        · rw [if_pos hd,if_pos hd,if_neg fun h => hentry (h.symm.trans hd)]
        · rw [if_neg hd,if_neg hd]

theorem count_append (t : Tally) (digest d : Bytes) (n : UInt32) (h : digest ∉ t.map Prod.fst) :
    count (t++[(digest,n)]) d = if d = digest then n else t.count d := by
  induction t with
  | nil =>
      rw [List.nil_append,count_cons]
  | cons entry t ih =>
      rw [List.map_cons,List.mem_cons,not_or] at h
      rw [List.cons_append,count_cons,count_cons,ih h.2]
      by_cases hd : d = digest
      · rw [if_pos hd,if_pos hd,if_neg fun heq => h.1 (hd.symm.trans heq)]
      · rw [if_neg hd,if_neg hd]

theorem count_replace (t : Tally) (digest d : Bytes) (n : UInt32) (h : digest ∈ t.map Prod.fst) :
    count (t.map fun entry => if entry.1 = digest then (digest,n) else entry) d =
      if d = digest then n else t.count d := by
  induction t with
  | nil => cases h
  | cons entry t ih =>
      rw [List.map_cons,count_cons,count_cons]
      by_cases hentry : entry.1 = digest
      · rw [if_pos hentry,hentry]
        by_cases hd : d = digest
        · rw [if_pos hd,if_pos hd]
        · rw [if_neg hd,if_neg hd,if_neg hd]
          by_cases hmem : digest ∈ t.map Prod.fst
          · rw [ih hmem,if_neg hd]
          · refine congrArg (count · d) ((List.map_congr_left fun e he => ?_).trans (List.map_id' t))
            exact if_neg fun heq : e.1 = digest => hmem (heq ▸ List.mem_map_of_mem he)
      · have hmem : digest ∈ t.map Prod.fst :=
          (List.mem_cons.mp h).resolve_left fun heq => hentry heq.symm
        rw [if_neg hentry,ih hmem]
        by_cases hd : d = digest
        · rw [if_pos hd,if_pos hd,if_neg fun heq => hentry (heq.symm.trans hd)]
        · rw [if_neg hd,if_neg hd]

theorem count_assign (t : Tally) (digest d : Bytes) (n : UInt32) :
    (t.assign digest n).count d = if d = digest then n else t.count d := by
  unfold assign
  split
  · next h => exact count_replace t digest d n (List.contains_iff_mem.mp h)
  · next h => exact count_append t digest d n (mt List.contains_iff_mem.mpr h)

theorem names_assign (t : Tally) (digest : Bytes) (n : UInt32) : (t.assign digest n).map Prod.fst =
    if digest ∈ t.map Prod.fst then t.map Prod.fst else t.map Prod.fst++[digest] := by
  unfold assign
  simp only [List.contains_iff_mem]
  split
  · rw [List.map_map]
    refine List.map_congr_left fun entry _ => ?_
    rw [Function.comp_apply]
    split
    · next h => exact h.symm
    · rfl
  · rw [List.map_append]
    rfl

theorem distinct_assign (h : (t.map Prod.fst).Nodup) : ((t.assign digest n).map Prod.fst).Nodup := by
  rw [names_assign]
  split
  · exact h
  · next hnew => exact h.append (List.nodup_singleton digest) (List.disjoint_singleton.mpr hnew)

theorem distinct_forget (h : (t.map Prod.fst).Nodup) : ((t.forget digest).map Prod.fst).Nodup :=
  h.sublist (List.filter_sublist.map Prod.fst)

/-- Whether all names are without NUL. -/
def Clean (t : Tally) : Prop := ∀ entry ∈ t, (0 : UInt8) ∉ entry.1

theorem clean_names : t.Clean ↔ ∀ name ∈ t.map Prod.fst, (0 : UInt8) ∉ name := by
  rw [Clean,List.forall_mem_map]

theorem Clean.assign (h : t.Clean) (hdigest : (0 : UInt8) ∉ digest) : (t.assign digest n).Clean := by
  rw [clean_names] at h ⊢
  rw [names_assign]
  split
  · exact h
  · intro name hname
    rcases List.mem_append.mp hname with hname | hname
    · exact h name hname
    · rw [List.mem_singleton.mp hname]
      exact hdigest

theorem Clean.forget (h : t.Clean) : (t.forget digest).Clean :=
  fun entry hentry => h entry (List.mem_of_mem_filter hentry)

end Tally

/-! ## The state follows the law -/

/-- What `scheduler_config_from_environment` lets through. -/
structure Accepted (config : BreakerConfig) : Prop where
  threshold : 1 ≤ config.failureThreshold.toNat
  limit : 1 ≤ config.proposalFailureLimit.toNat
  base : 1 ≤ config.baseCooldownSeconds
  ordered : config.baseCooldownSeconds ≤ config.maxCooldownSeconds

/-- The state is what the law makes of the history. -/
structure Follows (config : BreakerConfig) (c : Course) (s : BreakerState) : Prop where
  streak : s.consecutiveFailures.toNat = c.streak
  closed : c.opened config = 0 → s.openUntil = 0 ∧ s.cooldownSeconds = 0
  opened : 0 < c.opened config → 0 < s.openUntil ∧ s.cooldownSeconds = lasts config (c.opened config)
  trips : s.trips.toNat = c.openings
  tally : ∀ d, (s.proposalFailures.count d).toNat = c.tally d
  unspoilt : ∀ d, c.tally d < config.proposalFailureLimit.toNat
  storable : Storable s

section Law
variable {config : BreakerConfig} {c : Course} {s : BreakerState} {digest detail : Bytes} {now : ℤ}

theorem positiveEnv_least {name : String} {raw : Option Bytes} {target minimum value : ℤ}
    (h : positiveEnv name raw target minimum = .ok value) (htarget : minimum ≤ target) :
    minimum ≤ value := by
  unfold positiveEnv at h
  split at h
  · rwa [← Except.ok.inj h]
  · rwa [← Except.ok.inj h]
  · split at h
    · split at h
      · cases h
      · next hle => rw [← Except.ok.inj h]; omega
    · cases h

theorem clamped_pos {n : ℤ} (h : 1 ≤ n) : 1 ≤ (UInt32.ofNat (min n 1000000).toNat).toNat := by
  rw [UInt32.toNat_ofNat_of_lt' (by show (min n 1000000).toNat < 4294967296; omega)]
  omega

theorem accepted_environment {env : BreakerEnvironment}
    (h : breakerConfigFromEnvironment env = .ok config) : Accepted config := by
  obtain ⟨threshold,hthreshold,h⟩ := bind_ok.mp h
  obtain ⟨cooldown,hcooldown,h⟩ := bind_ok.mp h
  obtain ⟨maxCooldown,hmax,h⟩ := bind_ok.mp h
  obtain ⟨limit,hlimit,h⟩ := bind_ok.mp h
  split at h
  · cases h
  · next hordered =>
      rw [← Except.ok.inj h]
      exact ⟨clamped_pos (positiveEnv_least hthreshold (by decide)),
        clamped_pos (positiveEnv_least hlimit (by decide)),
        positiveEnv_least hcooldown (by decide),not_lt.mp hordered⟩

theorem lasts_pos (h : Accepted config) (k : ℕ) : 1 ≤ lasts config k := by
  have hpow : (1 : ℤ) ≤ 2^(k-1) := one_le_pow₀ (by decide)
  have hbase := h.base
  have hordered := h.ordered
  exact le_min (hbase.trans (le_mul_of_one_le_right (by omega) hpow)) (by omega)

theorem lasts_one (h : Accepted config) : lasts config 1 = config.baseCooldownSeconds := by
  rw [lasts,Nat.sub_self,pow_zero,mul_one]
  exact min_eq_left h.ordered

/-- Each opening lasts twice as long as the one before, up to the bound. -/
theorem lasts_succ (h : Accepted config) {k : ℕ} (hk : 0 < k) :
    min (lasts config k*2) config.maxCooldownSeconds = lasts config (k+1) := by
  have hmax : 0 ≤ config.maxCooldownSeconds := by
    have hbase := h.base
    have hordered := h.ordered
    omega
  have hdouble : config.baseCooldownSeconds*2^(k+1-1) =
      config.baseCooldownSeconds*2^(k-1)*2 := by
    rw [mul_assoc,← pow_succ,Nat.sub_add_cancel hk,Nat.add_sub_cancel]
  unfold lasts
  rw [hdouble]
  omega

theorem follows_start (h : Accepted config) : Follows config .start .closed := by
  have hthreshold := h.threshold
  have hzero : Course.start.opened config = 0 := by
    show 0+1-config.failureThreshold.toNat = 0
    omega
  refine ⟨rfl,fun _ => ⟨rfl,rfl⟩,fun hpos => absurd hpos (by omega),rfl,fun d => rfl,
    fun d => h.limit,?_⟩
  exact ⟨by decide,by decide,by decide,by decide,by decide,by decide,
    fun entry hentry => absurd hentry List.not_mem_nil,List.nodup_nil⟩

theorem Follows.succeeds (h : Accepted config) (hf : Follows config c s) (digest : Bytes) :
    Follows config (c.after config (.success digest)) (recordSuccess s digest) := by
  have hthreshold := h.threshold
  have hzero : (c.after config (.success digest)).opened config = 0 := by
    show 0+1-config.failureThreshold.toNat = 0
    omega
  refine ⟨rfl,fun _ => ⟨rfl,rfl⟩,fun hpos => absurd hpos (by omega),hf.trips,fun d => ?_,
    fun d => ?_,?_⟩
  · show ((s.proposalFailures.forget digest).count d).toNat = Function.update c.tally digest 0 d
    rw [Tally.count_forget,Function.update_apply]
    split
    · rfl
    · exact hf.tally d
  · show Function.update c.tally digest 0 d < _
    rw [Function.update_apply]
    split
    · exact h.limit
    · exact hf.unspoilt d
  · exact ⟨by show (0 : ℤ) ≤ maxStreak; decide,by show (0 : ℤ) ≤ 0 ∧ (0 : ℤ) ≤ numberBound; decide,
      by show (0 : ℤ) ≤ 0 ∧ (0 : ℤ) ≤ numberBound; decide,hf.storable.trips,
      hf.storable.lastFailureAt,hf.storable.detail,Tally.Clean.forget hf.storable.names,
      Tally.distinct_forget hf.storable.distinct⟩

theorem checked64_small {n : ℤ} (h0 : 0 ≤ n) (h : n ≤ 2*numberBound) : checked64 n = some n := by
  unfold numberBound at h
  exact if_pos ⟨by omega,by omega⟩

/-- An opening within the bound of the file is computed without overflow. -/
theorem trip_eq (h : Accepted config) {k : ℕ} (hfirst : k = 0 → s.cooldownSeconds = 0)
    (hagain : 0 < k → s.cooldownSeconds = lasts config k) (hcooldown : s.cooldownSeconds ≤ numberBound)
    (hnow : 0 ≤ now) (hbound : now+lasts config (k+1) ≤ numberBound) :
    s.trip config now = some {s with
      cooldownSeconds := lasts config (k+1)
      openUntil := now+lasts config (k+1)
      trips := s.trips+1} := by
  have hpos := lasts_pos h (k+1)
  have hsum : checked64 (now+lasts config (k+1)) = some (now+lasts config (k+1)) :=
    checked64_small (by omega) (by unfold numberBound at hbound ⊢; omega)
  have hlast : min (lasts config (k+1)) config.maxCooldownSeconds = lasts config (k+1) :=
    min_eq_left (min_le_right _ _)
  unfold BreakerState.trip
  rcases Nat.eq_zero_or_pos k with hk | hk
  · subst hk
    rw [if_pos (hfirst rfl)]
    rw [lasts_one h] at hsum hlast ⊢
    simp only [Option.bind_eq_bind,Option.bind_some,hlast,hsum]
  · have hlasts := lasts_pos h k
    have hdouble : checked64 (s.cooldownSeconds*2) = some (s.cooldownSeconds*2) :=
      checked64_small (by rw [hagain hk]; omega) (by omega)
    rw [if_neg (by rw [hagain hk]; omega),hdouble,hagain hk]
    simp only [Option.bind_eq_bind,Option.map_some,Option.bind_some,lasts_succ h hk,hlast,hsum]

/-- The count of a proposal reaches the limit where the law says. -/
theorem spoilt_iff (hf : Follows config c s) (digest : Bytes) :
    config.proposalFailureLimit ≤ s.proposalFailures.count digest+1 ↔ c.Spoilt config digest := by
  have hcount := hf.tally digest
  have hless := hf.unspoilt digest
  have hlimit := config.proposalFailureLimit.toNat_lt
  rw [UInt32.le_iff_toNat_le,UInt32.toNat_add,show (1 : UInt32).toNat = 1 from rfl,
    Nat.mod_eq_of_lt (by omega),hcount]
  unfold Course.Spoilt
  omega

theorem Follows.streak_succ (hf : Follows config c s) (hstreak : ((c.streak+1 : ℕ) : ℤ) ≤ maxStreak) :
    (s.consecutiveFailures+1).toNat = c.streak+1 := by
  have hless : c.streak+1 < 2^32 := by
    unfold maxStreak at hstreak
    omega
  rw [UInt32.toNat_add,hf.streak]
  exact Nat.mod_eq_of_lt hless

theorem tripped_iff (hf : Follows config c s) (hstreak : ((c.streak+1 : ℕ) : ℤ) ≤ maxStreak) :
    (s.openUntil ≠ 0 || config.failureThreshold ≤ s.consecutiveFailures+1) = decide (c.Ripe config) := by
  have hcount : config.failureThreshold ≤ s.consecutiveFailures+1 ↔ c.Ripe config := by
    rw [UInt32.le_iff_toNat_le,hf.streak_succ hstreak]
    rfl
  rcases Nat.eq_zero_or_pos (c.opened config) with hzero | hpos
  · rw [(hf.closed hzero).1]
    simp [hcount]
  · have hripe : c.Ripe config := by
      unfold Course.opened at hpos
      unfold Course.Ripe
      omega
    have hopen := (hf.opened hpos).1
    have hne : s.openUntil ≠ 0 := by omega
    simp [hne,hripe]

/-- The proposals after a failure. -/
def failedTally (config : BreakerConfig) (c : Course) (s : BreakerState) (digest : Bytes) : Tally :=
  if c.Spoilt config digest then s.proposalFailures.forget digest
  else s.proposalFailures.assign digest (s.proposalFailures.count digest+1)

theorem failedTally_count (hf : Follows config c s) (d : Bytes) :
    ((failedTally config c s digest).count d).toNat =
      Function.update c.tally digest (if c.Spoilt config digest then 0 else c.tally digest+1) d := by
  have hless := hf.unspoilt digest
  have hlimit := config.proposalFailureLimit.toNat_lt
  unfold failedTally
  rw [Function.update_apply]
  split
  · rw [Tally.count_forget]
    split
    · rfl
    · exact hf.tally d
  · rw [Tally.count_assign]
    split
    · rw [UInt32.toNat_add,hf.tally,show (1 : UInt32).toNat = 1 from rfl,
        Nat.mod_eq_of_lt (by omega)]
    · exact hf.tally d

theorem failedTally_unspoilt (h : Accepted config) (hf : Follows config c s) (d : Bytes) :
    Function.update c.tally digest (if c.Spoilt config digest then 0 else c.tally digest+1) d <
      config.proposalFailureLimit.toNat := by
  have hless := hf.unspoilt digest
  have hlimit := h.limit
  rw [Function.update_apply]
  split
  · split
    · omega
    · next hspoilt =>
        unfold Course.Spoilt at hspoilt
        omega
  · exact hf.unspoilt d

/-- The state after a failure. -/
def failedState (config : BreakerConfig) (c : Course) (s : BreakerState) (digest detail : Bytes)
    (now : ℤ) : BreakerState where
  consecutiveFailures := s.consecutiveFailures+1
  openUntil := if c.Ripe config then now+lasts config (c.opened config+1) else s.openUntil
  cooldownSeconds := if c.Ripe config then lasts config (c.opened config+1) else s.cooldownSeconds
  trips := if c.Ripe config then s.trips+1 else s.trips
  lastFailureAt := now
  lastFailureDetail := detail.take 200
  proposalFailures := failedTally config c s digest

theorem recordFailure_eq (h : Accepted config) (hf : Follows config c s)
    (hadmissible : Admissible config c (.failure digest detail now)) :
    recordFailure s config digest detail now = some (failedState config c s digest detail now,
      ⟨decide (c.Ripe config),decide (c.Spoilt config digest)⟩) := by
  obtain ⟨hnow,hstreak,hripe,-,-⟩ := hadmissible
  have htripped := tripped_iff hf hstreak
  have hspoilt := spoilt_iff hf digest
  unfold recordFailure
  simp only [htripped,decide_eq_true_eq]
  by_cases hopens : c.Ripe config
  · have htrip := @trip_eq config {s with
        lastFailureAt := now
        lastFailureDetail := detail.take 200
        consecutiveFailures := s.consecutiveFailures+1} now h _ (fun hk => (hf.closed hk).2)
      (fun hk => (hf.opened hk).2) hf.storable.cooldown.2 hnow.1 (hripe hopens).1
    rw [if_pos hopens,htrip]
    by_cases hset : c.Spoilt config digest
    · simp [hspoilt,failedState,failedTally,hopens,hset]
    · simp [hspoilt,failedState,failedTally,hopens,hset]
  · rw [if_neg hopens]
    by_cases hset : c.Spoilt config digest
    · simp [hspoilt,failedState,failedTally,hopens,hset]
    · simp [hspoilt,failedState,failedTally,hopens,hset]

theorem failedState_storable (h : Accepted config) (hf : Follows config c s)
    (hadmissible : Admissible config c (.failure digest detail now)) :
    Storable (failedState config c s digest detail now) := by
  obtain ⟨hnow,hstreak,hripe,hdetail,hdigest⟩ := hadmissible
  have hpos := lasts_pos h (c.opened config+1)
  refine ⟨?_,?_,?_,?_,hnow,hdetail,?_,?_⟩
  · show (((s.consecutiveFailures+1).toNat : ℕ) : ℤ) ≤ maxStreak
    rw [hf.streak_succ hstreak]
    exact hstreak
  · unfold failedState
    dsimp only
    split
    · next hopens =>
        have hbound := (hripe hopens).1
        omega
    · exact hf.storable.openUntil
  · unfold failedState
    dsimp only
    split
    · next hopens =>
        have hbound := (hripe hopens).1
        omega
    · exact hf.storable.cooldown
  · unfold failedState
    dsimp only
    split
    · next hopens =>
        have hbound := (hripe hopens).2
        have hless : c.openings+1 < 2^64 := by
          unfold numberBound at hbound
          omega
        rw [UInt64.toNat_add,hf.trips]
        exact (Int.ofNat_le.mpr (Nat.mod_le _ _)).trans hbound
    · exact hf.storable.trips
  · show Tally.Clean (failedTally config c s digest)
    unfold failedTally
    split
    · exact Tally.Clean.forget hf.storable.names
    · next hspoilt => exact Tally.Clean.assign hf.storable.names (hdigest hspoilt)
  · show ((failedTally config c s digest).map Prod.fst).Nodup
    unfold failedTally
    split
    · exact Tally.distinct_forget hf.storable.distinct
    · exact Tally.distinct_assign hf.storable.distinct

theorem Follows.fails (h : Accepted config) (hf : Follows config c s)
    (hadmissible : Admissible config c (.failure digest detail now)) :
    Follows config (c.after config (.failure digest detail now))
      (failedState config c s digest detail now) := by
  have hthreshold := h.threshold
  have hpos := lasts_pos h (c.opened config+1)
  have hcount : (c.after config (.failure digest detail now)).opened config =
      c.streak+1+1-config.failureThreshold.toNat := rfl
  have hsucc : c.Ripe config →
      (c.after config (.failure digest detail now)).opened config = c.opened config+1 := by
    intro hopens
    unfold Course.Ripe at hopens
    unfold Course.opened at hcount ⊢
    omega
  refine ⟨hf.streak_succ hadmissible.2.1,fun hzero => ?_,fun hopened => ?_,?_,
    failedTally_count hf,failedTally_unspoilt h hf,failedState_storable h hf hadmissible⟩
  · have hnot : ¬c.Ripe config := by
      unfold Course.Ripe
      omega
    have hclosed := hf.closed (by unfold Course.opened; omega)
    unfold failedState
    dsimp only
    rw [if_neg hnot,if_neg hnot]
    exact hclosed
  · have hopens : c.Ripe config := by
      unfold Course.Ripe
      omega
    unfold failedState
    dsimp only
    rw [if_pos hopens,if_pos hopens,hsucc hopens]
    have hnow := hadmissible.1.1
    exact ⟨by omega,rfl⟩
  · unfold failedState Course.after
    dsimp only
    split
    · next hopens =>
        have hbound := (hadmissible.2.2.1 hopens).2
        have hless : c.openings+1 < 2^64 := by
          unfold numberBound at hbound
          omega
        rw [UInt64.toNat_add,hf.trips]
        exact Nat.mod_eq_of_lt hless
    · exact hf.trips

theorem follows_step (h : Accepted config) {event : BreakerEvent} (hf : Follows config c s)
    (hadmissible : Admissible config c event) :
    ∃ s', s.step config event = some s' ∧ Follows config (c.after config event) s' := by
  cases event with
  | success digest => exact ⟨_,rfl,hf.succeeds h digest⟩
  | failure digest detail now =>
      refine ⟨_,?_,hf.fails h hadmissible⟩
      show (recordFailure s config digest detail now).map Prod.fst = _
      rw [recordFailure_eq h hf hadmissible]
      rfl
  | restart =>
      refine ⟨s,?_,hf⟩
      show (loadBreakerState (some (saveBreakerState s))).toOption = _
      rw [hf.storable.reload]
      rfl

/-- Over any lawful history there is a state, and it is what the law says. -/
theorem follows_run (h : Accepted config) {history : List BreakerEvent} (hf : Follows config c s)
    (hguarded : Guarded (Course.after config) (Admissible config) c history) :
    ∃ s', history.foldl (fun state event => state.bind (·.step config event)) (some s) = some s' ∧
      Follows config (runFrom (Course.after config) c history) s' := by
  induction history generalizing c s with
  | nil => exact ⟨s,rfl,hf⟩
  | cons event history ih =>
      obtain ⟨s',hstep,hf'⟩ := follows_step h hf hguarded.1
      obtain ⟨last,hlast,hfollows⟩ := ih hf' hguarded.2
      refine ⟨last,?_,hfollows⟩
      rw [List.foldl_cons,Option.bind_some,hstep]
      exact hlast

/-- What a state of the breaker keeps: the next failure opens it from the threshold on, for as
long as the law says, and sets its proposal aside at the limit; the gate is shut until the
opening ends; a success closes it; and its file loads back. -/
structure Lawful (config : BreakerConfig) (c : Course) (s : BreakerState) : Prop where
  failure : ∀ digest detail now, Admissible config c (.failure digest detail now) →
    ∃ s' effect, recordFailure s config digest detail now = some (s',effect) ∧
      (effect.tripped ↔ c.Ripe config) ∧
      (c.Ripe config → s'.openUntil = now+lasts config (c.opened config+1)) ∧
      (¬c.Ripe config → s'.openUntil = s.openUntil) ∧
      (effect.quarantine ↔ c.Spoilt config digest)
  closed : s.openUntil = 0 ↔ c.opened config = 0
  gate : ∀ now, 0 ≤ now → (breakerGate s now = .opened ↔ now < s.openUntil)
  success : ∀ digest now, breakerGate (recordSuccess s digest) now = .closed
  reload : loadBreakerState (some (saveBreakerState s)) = .ok s

theorem Follows.closed_iff (hf : Follows config c s) : s.openUntil = 0 ↔ c.opened config = 0 := by
  refine ⟨fun hzero => ?_,fun hzero => (hf.closed hzero).1⟩
  by_contra hne
  have hpos := (hf.opened (Nat.pos_of_ne_zero hne)).1
  omega

theorem gate_opened (hnow : 0 ≤ now) : breakerGate s now = .opened ↔ now < s.openUntil := by
  unfold breakerGate
  split
  · next hzero => exact iff_of_false nofun (by omega)
  · split
    · next hless => exact iff_of_true rfl hless
    · next hless => exact iff_of_false nofun hless

theorem Follows.lawful (h : Accepted config) (hf : Follows config c s) : Lawful config c s := by
  refine ⟨fun digest detail now hadmissible => ?_,hf.closed_iff,fun now hnow => gate_opened hnow,
    fun digest now => rfl,hf.storable.reload⟩
  refine ⟨_,_,recordFailure_eq h hf hadmissible,decide_eq_true_iff,fun hripe => if_pos hripe,
    fun hripe => if_neg hripe,decide_eq_true_iff⟩

end Law

/-- In every history that stays within the numbers of the file, the breaker is lawful: no step
overflows and every state of it loads back. -/
theorem breaker_lawful {config : BreakerConfig} {env : BreakerEnvironment}
    {history : List BreakerEvent} (haccepted : breakerConfigFromEnvironment env = .ok config)
    (hguarded : Guarded (Course.after config) (Admissible config) .start history) :
    ∃ s, runBreaker config history = some s ∧ Lawful config (courseOf config history) s := by
  have h := accepted_environment haccepted
  obtain ⟨s,hrun,hf⟩ := follows_run h (follows_start h) hguarded
  exact ⟨s,hrun,hf.lawful h⟩

namespace Sample

/-- The default breaker. -/
def quietly : BreakerEnvironment := ⟨none,none,none,none⟩

/-- Three failures, a restart, and a failure while it is open. -/
def troubled : List BreakerEvent := [.failure [97] [] 1000,.failure [97] [] 1060,
  .failure [97] [] 1120,.restart,.failure [98] [] 2100]

theorem breaker_lawful_troubled : ∃ s, runBreaker .default troubled = some s ∧
    Lawful .default (courseOf .default troubled) s := by
  have haccepted : breakerConfigFromEnvironment quietly = .ok .default := by rfl
  have hguarded : Guarded (Course.after .default) (Admissible .default) .start troubled := by
    decide +kernel
  exact breaker_lawful haccepted hguarded

/-- A breaker that stays open for some nine thousand million million seconds. -/
def patient : BreakerEnvironment :=
  ⟨some [49],some (nameBytes "9000000000000000"),some (nameBytes "9000000000000000"),none⟩

/-- Its first failure leaves a state that does not load. -/
theorem patient_unloadable : ∃ config s,
    breakerConfigFromEnvironment patient = .ok config ∧
    runBreaker config [.failure [97] [] 1700000000] = some s ∧
    (loadBreakerState (some (saveBreakerState s))).toOption = none := by
  refine ⟨⟨1,9000000000000000,9000000000000000,3⟩,
    ⟨1,9000001700000000,9000000000000000,1,1700000000,[],[([97],1)]⟩,?_,?_,?_⟩
  · decide +kernel
  · decide +kernel
  · decide +kernel

end Sample

end Atperson.Scheduler
