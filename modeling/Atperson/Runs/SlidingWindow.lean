import Mathlib

/-!
# Logs ordered in time

A log is pruned by a cutoff and then cut to its newest entries. Over a log in time order
both only lose a prefix, so what they keep answers every question about recent entries.
A log grown under a full trailing-window test keeps every closed window below the limit.
-/
namespace Atperson.Runs

section Pruned
variable {α T : Type*} [LinearOrder T] (time : α → T)

/-- `kept` is the log without a prefix of entries before `bound`. -/
def KeepsFrom (bound : T) (log kept : List α) : Prop :=
  ∃ dropped, log = dropped++kept ∧ ∀ a ∈ dropped, time a < bound

variable {time} {bound cutoff : T} {log kept : List α}

theorem KeepsFrom.refl : KeepsFrom time bound log log := ⟨[],rfl,by simp⟩

theorem KeepsFrom.trans {bound' : T} {kept' : List α} (h : KeepsFrom time bound log kept)
    (h' : KeepsFrom time bound' kept kept') (hb : bound' ≤ bound) :
    KeepsFrom time bound log kept' := by
  obtain ⟨first,rfl,hfirst⟩ := h
  obtain ⟨second,rfl,hsecond⟩ := h'
  refine ⟨first++second,by simp,fun a ha => ?_⟩
  rcases List.mem_append.mp ha with ha | ha
  · exact hfirst a ha
  · exact (hsecond a ha).trans_le hb

theorem KeepsFrom.mono {bound' : T} (h : KeepsFrom time bound log kept)
    (hb : bound ≤ bound') : KeepsFrom time bound' log kept :=
  h.imp fun _ hd => ⟨hd.1,fun a ha => (hd.2 a ha).trans_le hb⟩

theorem KeepsFrom.mem (h : KeepsFrom time bound log kept) {a : α} (ha : a ∈ log)
    (hb : bound ≤ time a) : a ∈ kept := by
  obtain ⟨dropped,rfl,hd⟩ := h
  rcases List.mem_append.mp ha with hdropped | hkept
  · exact absurd (hd a hdropped) (not_lt.mpr hb)
  · exact hkept

theorem KeepsFrom.sublist (h : KeepsFrom time bound log kept) : kept.Sublist log := by
  obtain ⟨dropped,rfl,_⟩ := h
  exact List.sublist_append_right _ _

theorem KeepsFrom.append (h : KeepsFrom time bound log kept) (a : α) :
    KeepsFrom time bound (log++[a]) (kept++[a]) := by
  obtain ⟨dropped,rfl,hd⟩ := h
  exact ⟨dropped,by simp,hd⟩

/-- The kept entries count what the log holds from the bound on. -/
theorem KeepsFrom.countP (h : KeepsFrom time bound log kept) {p : α → Bool}
    (hp : ∀ a, p a → bound ≤ time a) : kept.countP p = log.countP p := by
  obtain ⟨dropped,rfl,hd⟩ := h
  have hz : dropped.countP p = 0 :=
    List.countP_eq_zero.mpr fun a ha hpa => absurd (hd a ha) (not_lt.mpr (hp a hpa))
  rw [List.countP_append,hz,Nat.zero_add]

theorem keepsFrom_filter (hs : log.Pairwise (fun a b => time a ≤ time b)) :
    KeepsFrom time cutoff log (log.filter (fun a => ¬time a < cutoff)) := by
  induction log with
  | nil => exact KeepsFrom.refl
  | cons a rest ih =>
      obtain ⟨ha,hs⟩ := List.pairwise_cons.mp hs
      by_cases hc : time a < cutoff
      · obtain ⟨dropped,hd,hlt⟩ := ih hs
        refine ⟨a::dropped,?_,by simpa [hc] using hlt⟩
        rw [List.filter_cons_of_neg (by simpa using hc),List.cons_append,← hd]
      · have hall : (a::rest).filter (fun a => ¬time a < cutoff) = a::rest := by
          refine List.filter_eq_self.mpr fun b hb => ?_
          rcases List.mem_cons.mp hb with rfl | hb
          · simpa using hc
          · simpa using (not_lt.mp hc).trans (ha b hb)
        rw [hall]
        exact KeepsFrom.refl

/-- Cutting to the newest `cap` entries is harmless while at most `cap` are recent. -/
theorem keepsFrom_newest {cap : ℕ} (hs : log.Pairwise (fun a b => time a ≤ time b))
    (hcap : log.countP (fun a => bound ≤ time a) ≤ cap) :
    KeepsFrom time bound log (log.drop (log.length-cap)) := by
  refine ⟨log.take (log.length-cap),(List.take_append_drop _ _).symm,fun a ha => ?_⟩
  by_contra hrecent
  rw [not_lt] at hrecent
  have hsplit : (log.take (log.length-cap)++log.drop (log.length-cap)).Pairwise
      (fun a b => time a ≤ time b) := by rwa [List.take_append_drop]
  have hnew : (log.drop (log.length-cap)).countP (fun a => bound ≤ time a) =
      (log.drop (log.length-cap)).length :=
    List.countP_eq_length.mpr fun b hb => by
      simpa using hrecent.trans ((List.pairwise_append.mp hsplit).2.2 a ha b hb)
  have hold : 0 < (log.take (log.length-cap)).countP (fun a => bound ≤ time a) :=
    List.countP_pos_iff.mpr ⟨a,ha,by simpa using hrecent⟩
  have hlen := List.length_pos_of_mem ha
  rw [← List.take_append_drop (log.length-cap) log,List.countP_append,hnew,
    List.length_drop] at hcap
  simp only [List.length_take] at hlen
  omega

end Pruned

section Window
variable (span : ℤ) (limit : ℕ)

/-- No closed window of length `span` holds more than `limit` times. -/
def WindowLimit (times : List ℤ) : Prop :=
  ∀ start, times.countP (fun t => start ≤ t ∧ t ≤ start+span) ≤ limit

variable {span limit} {times : List ℤ} {now : ℤ}

/-- Admission under a trailing-window test keeps all windows. -/
theorem WindowLimit.extend (h : WindowLimit span limit times)
    (hopen : times.countP (fun t => now-span ≤ t) < limit) :
    WindowLimit span limit (times++[now]) := by
  intro start
  rw [List.countP_append]
  by_cases hin : start ≤ now ∧ now ≤ start+span
  · have hmono : times.countP (fun t => start ≤ t ∧ t ≤ start+span) ≤
        times.countP (fun t => now-span ≤ t) :=
      List.countP_mono_left fun t _ ht => by
        simp only [decide_eq_true_eq] at ht ⊢
        omega
    have hone : [now].countP (fun t => start ≤ t ∧ t ≤ start+span) = 1 := by simp [hin]
    omega
  · have hzero : [now].countP (fun t => start ≤ t ∧ t ≤ start+span) = 0 := by
      simpa using hin
    rw [hzero]
    exact h start

theorem WindowLimit.nil : WindowLimit span limit [] := fun _ => by simp

theorem countP_le_add {α : Type*} {p q r : α → Bool} (h : ∀ a, p a = true → q a = true ∨ r a = true)
    (l : List α) : l.countP p ≤ l.countP q+l.countP r := by
  induction l with
  | nil => exact Nat.zero_le _
  | cons a l ih =>
      have ha := h a
      rw [List.countP_cons,List.countP_cons,List.countP_cons]
      by_cases hp : p a = true
      · rcases ha hp with hq | hr
        · rw [if_pos hp,if_pos hq]
          omega
        · rw [if_pos hp,if_pos hr]
          omega
      · rw [if_neg hp]
        omega

/-- Windows side by side hold as many times the limit. -/
theorem WindowLimit.cover (h : WindowLimit span limit times) (start : ℤ) (k : ℕ) :
    times.countP (fun t => start ≤ t ∧ t < start+k*(span+1)) ≤ k*limit := by
  induction k with
  | zero =>
      rw [Nat.zero_mul,Nat.le_zero,List.countP_eq_zero]
      intro t _
      simp
  | succ k ih =>
      have hlast := h (start+k*(span+1))
      have hsplit : times.countP (fun t => start ≤ t ∧ t < start+(k+1 : ℕ)*(span+1)) ≤
          times.countP (fun t => start ≤ t ∧ t < start+k*(span+1))+
            times.countP (fun t => start+k*(span+1) ≤ t ∧ t ≤ start+k*(span+1)+span) := by
        refine countP_le_add (fun t ht => ?_) times
        simp only [decide_eq_true_eq] at ht ⊢
        have hnext : start+((k+1 : ℕ) : ℤ)*(span+1) = start+k*(span+1)+span+1 := by
          push_cast
          ring
        rw [hnext] at ht
        omega
      rw [Nat.succ_mul]
      omega

end Window

end Atperson.Runs
