import Atperson.Runs.Guarded
import Atperson.Sync.JetstreamClient

/-!
# Gaps in the stream

On an unfiltered stream the protocol cursor takes one number after the other; a jump opens a
gap that only a verified resync closes. The cursor of a call starts from the persisted text,
while the client keeps its own position. So a call persists the client's position with
nothing missed where it continues a traversal, hands over each frame it is given and closes
no gap itself; in the other cases it depends on the frames.
-/
namespace Atperson.Sync
open Wire
open Atperson.Core (Utf8proc)
open Runs

/-! ## The protocol cursor -/

/-- One operation on the cursor of an unfiltered stream. -/
inductive CursorAct where
  | sequence (n : UInt64)
  | stream (n : UInt64) (repo revision : Bytes)
  | resync (r : JetstreamResyncResult)

/-- An operation that may close a gap. -/
def CursorAct.verified : CursorAct → Bool
  | .resync r => r.verified
  | _ => false

def CursorResult.accepted : CursorResult → Bool
  | .initialized | .advanced => true
  | _ => false

/-- The results that ask for a resync. -/
def CursorResult.losing : CursorResult → Bool
  | .gap | .rewind | .rejected => true
  | _ => false

namespace CursorState

def act (s : CursorState) : CursorAct → CursorState×CursorResult
  | .sequence n => observeSequence s n true
  | .stream n repo revision => observeStream s n repo revision true
  | .resync r =>
      match completeResync s r with
      | some s => (s,.advanced)
      | none => (s,.rejected)

def next (s : CursorState) (a : CursorAct) : CursorState := (s.act a).1

/-- A gap is open behind a number. -/
def Waits (s : CursorState) : Prop := s.resyncRequired = true → s.lastSequence ≠ 0

section Act
variable {s : CursorState} {a : CursorAct}

/-- The ways an observation on an unfiltered stream can go. -/
inductive Observed (s : CursorState) (n : UInt64) : CursorState → CursorResult → Prop
  | rejected (hn : n = 0) : Observed s n s .rejected
  | initialized (hn : n ≠ 0) (hs : s.lastSequence = 0) :
      Observed s n {s with lastSequence := n,resyncRequired := false} .initialized
  | held (hs : s.lastSequence ≠ 0) (ho : s.resyncRequired = true) : Observed s n s .gap
  | duplicate (hn : n ≠ 0) (he : n = s.lastSequence) (ho : s.resyncRequired = false) :
      Observed s n s .duplicate
  | rewind (hn : n ≠ 0) (hlt : n < s.lastSequence) (ho : s.resyncRequired = false) :
      Observed s n s .rewind
  | gap (hs : s.lastSequence ≠ 0) (hlt : s.lastSequence < n) (hne : n ≠ s.lastSequence+1)
      (ho : s.resyncRequired = false) :
      Observed s n {s with resyncRequired := true} .gap
  | advanced (hs : s.lastSequence ≠ 0) (hlt : s.lastSequence < n) (he : n = s.lastSequence+1)
      (ho : s.resyncRequired = false) :
      Observed s n {s with lastSequence := n} .advanced

theorem observeSequence_observed (s : CursorState) (n : UInt64) :
    Observed s n (observeSequence s n true).1 (observeSequence s n true).2 := by
  unfold observeSequence
  split
  · rename_i hn
    exact .rejected hn
  · rename_i hn
    split
    · rename_i hs
      exact .initialized hn hs
    · rename_i hs
      split
      · rename_i ho
        exact .held hs ho
      · rename_i ho
        have ho := Bool.eq_false_iff.mpr ho
        split
        · rename_i he
          exact .duplicate hn he ho
        · rename_i he
          split
          · rename_i hlt
            exact .rewind hn hlt ho
          · rename_i hge
            have hlt : s.lastSequence < n := by
              rw [UInt64.lt_iff_toNat_lt] at hge ⊢
              have hne : n.toNat ≠ s.lastSequence.toNat := fun h => he (UInt64.toNat_inj.mp h)
              omega
            split
            · rename_i hne
              exact .gap hs hlt hne.2 ho
            · rename_i hnext
              exact .advanced hs hlt (not_not.mp fun hne => hnext ⟨rfl,hne⟩) ho

theorem sequence_mono (s : CursorState) (n : UInt64) :
    s.lastSequence ≤ (observeSequence s n true).1.lastSequence := by
  have h := observeSequence_observed s n
  generalize observeSequence s n true = r at h
  obtain ⟨s',met⟩ := r
  cases h with
  | initialized hn hs =>
      simp only [hs]
      exact UInt64.zero_le
  | advanced hs hlt => exact UInt64.le_of_lt hlt
  | _ => exact UInt64.le_refl _

theorem sequence_waits (h : s.Waits) (n : UInt64) : (observeSequence s n true).1.Waits := by
  have ho := observeSequence_observed s n
  generalize observeSequence s n true = r at ho
  obtain ⟨s',met⟩ := r
  cases ho with
  | initialized => nofun
  | gap hs => exact fun _ => hs
  | advanced hs hlt he hcalm => exact fun hopen => absurd (hcalm.symm.trans hopen) (by decide)
  | _ => exact h

theorem sequence_open (hopen : s.resyncRequired = true) (h : s.Waits) (n : UInt64) :
    (observeSequence s n true).1 = s ∧ (observeSequence s n true).2.accepted = false := by
  unfold observeSequence
  split
  · exact ⟨rfl,rfl⟩
  · simp [h hopen,CursorResult.accepted]

theorem sequence_repo (s : CursorState) (n : UInt64) :
    (observeSequence s n true).1.repo = s.repo ∧
      (observeSequence s n true).1.repoRevision = s.repoRevision := by
  have h := observeSequence_observed s n
  generalize observeSequence s n true = r at h
  obtain ⟨s',met⟩ := r
  cases h <;> exact ⟨rfl,rfl⟩

/-- What `observe_stream` does is what `observe_sequence` does, or nothing. -/
theorem stream_cases (s : CursorState) (n : UInt64) (repo revision : Bytes) :
    observeStream s n repo revision true = (s,.rejected) ∨
    ((observeSequence s n true).2.accepted = true ∧ observeStream s n repo revision true =
      ({(observeSequence s n true).1 with repo,repoRevision := revision},
        (observeSequence s n true).2)) ∨
    ((observeSequence s n true).2.accepted = false ∧
      observeStream s n repo revision true = observeSequence s n true) := by
  unfold observeStream
  split
  · exact .inl rfl
  · rcases observeSequence s n true with ⟨s',r⟩
    cases r with
    | initialized => exact .inr (.inl ⟨rfl,rfl⟩)
    | advanced => exact .inr (.inl ⟨rfl,rfl⟩)
    | _ => exact .inr (.inr ⟨rfl,rfl⟩)

theorem act_mono (s : CursorState) (a : CursorAct) :
    s.lastSequence ≤ (s.next a).lastSequence := by
  cases a with
  | sequence n => exact sequence_mono s n
  | stream n repo revision =>
      have h := sequence_mono s n
      rcases stream_cases s n repo revision with he | ⟨-,he⟩ | ⟨-,he⟩
      · simp only [next,act,he]
        exact UInt64.le_refl _
      · simp only [next,act,he]
        exact h
      · simp only [next,act,he]
        exact h
  | resync r =>
      simp only [next,act]
      split
      · rename_i s' hs
        unfold completeResync at hs
        split at hs
        · cases hs
        · rename_i hcond
          cases hs
          exact UInt64.not_lt.mp (not_or.mp (not_or.mp hcond).2).1
      · exact UInt64.le_refl _

theorem act_waits (h : s.Waits) (a : CursorAct) : (s.next a).Waits := by
  cases a with
  | sequence n => exact sequence_waits h n
  | stream n repo revision =>
      have hseq := sequence_waits h n
      rcases stream_cases s n repo revision with he | ⟨-,he⟩ | ⟨-,he⟩ <;>
        simp only [next,act,he]
      · exact h
      · exact hseq
      · exact hseq
  | resync r =>
      simp only [next,act]
      split
      · rename_i s' hs
        unfold completeResync at hs
        split at hs
        · cases hs
        · cases hs
          nofun
      · exact h

/-- Behind a gap nothing is accepted, but a verified resync. -/
theorem act_open (hopen : s.resyncRequired = true) (h : s.Waits) (ha : a.verified = false) :
    s.next a = s ∧ (s.act a).2.accepted = false := by
  cases a with
  | sequence n => exact sequence_open hopen h n
  | stream n repo revision =>
      obtain ⟨hsame,hnot⟩ := sequence_open hopen h n
      rcases stream_cases s n repo revision with he | ⟨hacc,-⟩ | ⟨-,he⟩
      · simp only [next,act,he]
        exact ⟨trivial,rfl⟩
      · rw [hnot] at hacc
        cases hacc
      · simp only [next,act,he]
        exact ⟨hsame,hnot⟩
  | resync r =>
      have hnone : completeResync s r = none := by
        unfold completeResync
        have hr : r.verified = false := ha
        simp [hr]
      simp only [next,act,hnone]
      exact ⟨trivial,rfl⟩

theorem run_waits (h : s.Waits) (acts : List CursorAct) : (runFrom next s acts).Waits := by
  induction acts generalizing s with
  | nil => exact h
  | cons a rest ih => exact ih (act_waits h a)

theorem run_open (hopen : s.resyncRequired = true) (h : s.Waits) {acts : List CursorAct}
    (ha : ∀ a ∈ acts, a.verified = false) : runFrom next s acts = s := by
  induction acts with
  | nil => rfl
  | cons a rest ih =>
      obtain ⟨hfirst,hrest⟩ := List.forall_mem_cons.mp ha
      rw [runFrom_cons,(act_open hopen h hfirst).1]
      exact ih hrest

end Act

end CursorState

/-! ## Events -/

/-- What an event does to the cursor of an unfiltered stream. -/
def JetstreamEvent.observe (s : CursorState) (e : JetstreamEvent) : CursorState×CursorResult :=
  if e.protocolOnly || e.repoRevision = [] then observeSequence s e.sequence true
  else observeStream s e.sequence e.authorDid e.repoRevision true

/-- The cursor behind some events, and whether one of them asks for a resync. -/
def follows : CursorState → List JetstreamEvent → CursorState×Bool
  | s, [] => (s,false)
  | s, e::es =>
      ((follows (e.observe s).1 es).1,(e.observe s).2.losing || (follows (e.observe s).1 es).2)

/-- No event gives the cursor another repository. -/
def Quiet : CursorState → List JetstreamEvent → Prop
  | _, [] => True
  | s, e::es =>
      (e.observe s).1.repo = s.repo ∧ (e.observe s).1.repoRevision = s.repoRevision ∧
        Quiet (e.observe s).1 es

theorem follows_append (s : CursorState) (es es' : List JetstreamEvent) :
    follows s (es++es') = ((follows (follows s es).1 es').1,
      (follows s es).2 || (follows (follows s es).1 es').2) := by
  induction es generalizing s with
  | nil => simp [follows]
  | cons e rest ih =>
      simp only [List.cons_append,follows,ih,Bool.or_assoc]

theorem quiet_append {s : CursorState} {es es' : List JetstreamEvent} (h : Quiet s es)
    (h' : Quiet (follows s es).1 es') : Quiet s (es++es') := by
  induction es generalizing s with
  | nil => exact h'
  | cons e rest ih => exact ⟨h.1,h.2.1,ih h.2.2 h'⟩

section Intake
variable {U : Utf8proc} {linker evidence : Bool} {env : EventEnv} {p p' : Intake}
  {e : JetstreamEvent}

theorem take_frame (U : Utf8proc) (linker : Bool) (env : EventEnv) (p : Intake)
    (e : JetstreamEvent) : (p.take U linker env e).1.cursor = p.cursor ∧
      (p.take U linker env e).1.state = p.state ∧
      (p.take U linker env e).1.result.protocolResyncRequired =
        p.result.protocolResyncRequired := by
  unfold Intake.take
  split
  · exact ⟨rfl,rfl,rfl⟩
  · simp only
    split
    · exact ⟨rfl,rfl,rfl⟩
    · exact ⟨rfl,rfl,rfl⟩
    · split
      · exact ⟨rfl,rfl,rfl⟩
      · refine ⟨rfl,rfl,?_⟩
        simp only [JetstreamRunResult.countNew]
        split <;> rfl

theorem follow_observe (p : Intake) (e : JetstreamEvent) :
    (p.follow true e).1.cursor = (e.observe p.cursor).1 ∧
      (p.follow true e).1.state = p.state ∧
      (p.follow true e).1.result.protocolResyncRequired =
        (p.result.protocolResyncRequired || (e.observe p.cursor).2.losing) ∧
      (p.follow true e).2 = (e.observe p.cursor).2 := by
  have hobs : (if e.protocolOnly || e.repoRevision = [] then
      observeSequence p.cursor e.sequence true
    else observeStream p.cursor e.sequence e.authorDid e.repoRevision true) =
      e.observe p.cursor := rfl
  unfold Intake.follow
  rw [hobs]
  rcases e.observe p.cursor with ⟨s,met⟩
  refine ⟨rfl,rfl,?_,rfl⟩
  cases met <;> simp [CursorResult.losing]

/-- The pair of the ingestion state is the cursor's. -/
def Intake.Paired (p : Intake) : Prop :=
  p.cursor.repo = [] ∨ (p.state.catchup.protocolRepo = some p.cursor.repo ∧
    p.state.catchup.protocolRevision = some p.cursor.repoRevision)

theorem noteRepo_paired (h : p.Paired) (e : JetstreamEvent) : p.noteRepo e = p := by
  unfold Intake.noteRepo
  split
  · rename_i hnote
    rcases h with h | ⟨hrepo,hrev⟩
    · simp [h] at hnote
    · rw [← hrepo,← hrev]
  · rfl

/-- What the events of a call leave, where none gives the cursor another repository. -/
structure Tracked (p p' : Intake) (es : List JetstreamEvent) : Prop where
  cursor : p'.cursor = (follows p.cursor es).1
  lost : p'.result.protocolResyncRequired =
    (p.result.protocolResyncRequired || (follows p.cursor es).2)
  state : p'.state = p.state

theorem Intake.Paired.of_eq (h : p.Paired) (hs : p'.state = p.state)
    (hrepo : p'.cursor.repo = p.cursor.repo)
    (hrev : p'.cursor.repoRevision = p.cursor.repoRevision) : p'.Paired := by
  unfold Intake.Paired
  rw [hs,hrepo,hrev]
  exact h

theorem enter_tracked {recordCommits goes : Bool} (h : p.Paired)
    (hrepo : (e.observe p.cursor).1.repo = p.cursor.repo)
    (hrev : (e.observe p.cursor).1.repoRevision = p.cursor.repoRevision)
    (henter : p.enter evidence true recordCommits env e = (p',.ok goes)) :
    p'.cursor = (e.observe p.cursor).1 ∧ p'.state = p.state ∧
      p'.result.protocolResyncRequired =
        (p.result.protocolResyncRequired || (e.observe p.cursor).2.losing) := by
  obtain ⟨hcursor,hstate,hlost,-⟩ := follow_observe p e
  have hpaired : (p.follow true e).1.Paired :=
    h.of_eq hstate (by rw [hcursor,hrepo]) (by rw [hcursor,hrev])
  have hnote := noteRepo_paired hpaired e
  have hfirst : (p.enter evidence true recordCommits env e).1 = (p.follow true e).1 := by
    unfold Intake.enter
    simp only
    split
    · rfl
    · exact hnote
  rw [henter] at hfirst
  have hp' : p' = (p.follow true e).1 := hfirst
  rw [hp']
  exact ⟨hcursor,hstate,hlost⟩

theorem intake_tracked {recordCommits : Bool} {es : List (EventEnv×JetstreamEvent)}
    (h : intake U linker (Intake.enter evidence true recordCommits) p es = (p',.ok ()))
    (hquiet : Quiet p.cursor (es.map Prod.snd)) (hpaired : p.Paired) :
    Tracked p p' (es.map Prod.snd) := by
  induction es generalizing p with
  | nil =>
      cases h
      exact ⟨rfl,(Bool.or_false _).symm,rfl⟩
  | cons x rest ih =>
      obtain ⟨env,e⟩ := x
      obtain ⟨hrepo,hrev,hrest⟩ := hquiet
      unfold intake at h
      rcases henter : p.enter evidence true recordCommits env e with ⟨q,t | goes⟩
      · rw [henter] at h
        cases h
      · obtain ⟨hcursor,hstate,hlost⟩ := enter_tracked hpaired hrepo hrev henter
        rw [henter] at h
        have hon : ∀ q', q'.cursor = q.cursor → q'.state = q.state →
            q'.result.protocolResyncRequired = q.result.protocolResyncRequired →
            intake U linker (Intake.enter evidence true recordCommits) q' rest = (p',.ok ()) →
            Tracked p p' (((env,e)::rest).map Prod.snd) := by
          intro q' hc hs hl hrun
          have hq' : q'.cursor = (e.observe p.cursor).1 := hc.trans hcursor
          have hpaired' : q'.Paired := hpaired.of_eq (hs.trans hstate) (by rw [hq',hrepo])
            (by rw [hq',hrev])
          obtain ⟨h1,h2,h3⟩ := ih hrun (by rw [hq']; exact hrest) hpaired'
          refine ⟨by rw [h1,hq']; rfl,?_,h3.trans (hs.trans hstate)⟩
          rw [h2,hl,hlost,hq',Bool.or_assoc]
          rfl
        cases goes with
        | false => exact hon q rfl rfl rfl h
        | true =>
            obtain ⟨hc,hs,hl⟩ := take_frame U linker env q e
            rcases htake : q.take U linker env e with ⟨q',t | u⟩
            · simp only [htake] at h
              cases h
            · simp only [htake] at h
              rw [htake] at hc hs hl
              exact hon q' hc hs hl h

end Intake

/-! ## Frames -/

/-- The number a frame is observed with. -/
def Frame.sequence (v2 : Bool) (f : Frame) : UInt64 :=
  if 0 < f.position v2 then UInt64.ofNat (f.position v2).toNat else 0

/-- The frame has a DID and a body, so that it is handed over. -/
def Frame.handed (f : Frame) : Bool := f.did.isSome && f.json.isSome

/-- A number that was observed: observing it again changes nothing. -/
def Seen (n : UInt64) (s : CursorState) : Prop :=
  (observeSequence s n true).1 = s ∧ (observeSequence s n true).2.accepted = false

/-- A number is seen once it was observed. -/
theorem seen_observed (s : CursorState) (n : UInt64) : Seen n (observeSequence s n true).1 := by
  have hbehind : n = 0 ∨ (observeSequence s n true).1.lastSequence ≠ 0 ∧
      ((observeSequence s n true).1.resyncRequired = true ∨
        n ≤ (observeSequence s n true).1.lastSequence) := by
    have h := s.observeSequence_observed n
    generalize observeSequence s n true = r at h
    obtain ⟨s',met⟩ := r
    cases h with
    | rejected hn => exact .inl hn
    | initialized hn hs => exact .inr ⟨hn,.inr (UInt64.le_refl _)⟩
    | held hs ho => exact .inr ⟨hs,.inl ho⟩
    | duplicate hn he ho => exact .inr ⟨he ▸ hn,.inr (he ▸ UInt64.le_refl _)⟩
    | rewind hn hlt ho =>
        refine .inr ⟨fun h => ?_,.inr (UInt64.le_of_lt hlt)⟩
        rw [h] at hlt
        exact UInt64.not_lt_zero hlt
    | gap hs hlt hne ho => exact .inr ⟨hs,.inl rfl⟩
    | advanced hs hlt he ho =>
        refine .inr ⟨fun hn : n = 0 => ?_,.inr (UInt64.le_refl _)⟩
        rw [hn] at hlt
        exact UInt64.not_lt_zero hlt
  generalize (observeSequence s n true).1 = s' at hbehind
  have h := s'.observeSequence_observed n
  unfold Seen
  generalize observeSequence s' n true = r at h ⊢
  obtain ⟨s'',met⟩ := r
  cases h with
  | initialized hn hs => exact absurd hs (hbehind.resolve_left hn).1
  | gap hs hlt hne ho =>
      rcases hbehind with hn | ⟨-,hopen | hle⟩
      · rw [hn] at hlt
        exact absurd hlt UInt64.not_lt_zero
      · exact absurd (ho.symm.trans hopen) (by decide)
      · exact absurd hlt (UInt64.not_lt.mpr hle)
  | advanced hs hlt he ho =>
      rcases hbehind with hn | ⟨-,hopen | hle⟩
      · rw [hn] at hlt
        exact absurd hlt UInt64.not_lt_zero
      · exact absurd (ho.symm.trans hopen) (by decide)
      · exact absurd hlt (UInt64.not_lt.mpr hle)
  | _ => exact ⟨rfl,rfl⟩

/-- An event with a number that was seen leaves the cursor alone. -/
theorem Seen.observe {n : UInt64} {s : CursorState} (h : Seen n s) {e : JetstreamEvent}
    (he : e.sequence = n) : (e.observe s).1 = s := by
  unfold JetstreamEvent.observe
  rw [he]
  split
  · exact h.1
  · rcases s.stream_cases n e.authorDid e.repoRevision with hc | ⟨hacc,-⟩ | ⟨-,hc⟩
    · rw [hc]
    · rw [h.2] at hacc
      cases hacc
    · rw [hc]
      exact h.1

theorem Seen.follows {n : UInt64} {s : CursorState} (h : Seen n s) {es : List JetstreamEvent}
    (hes : ∀ e ∈ es, e.sequence = n) : (follows s es).1 = s ∧ Quiet s es := by
  induction es with
  | nil => exact ⟨rfl,trivial⟩
  | cons e rest ih =>
      obtain ⟨he,hrest⟩ := List.forall_mem_cons.mp hes
      have hsame := h.observe he
      obtain ⟨hfollow,hquiet⟩ := ih hrest
      unfold Sync.follows Quiet
      rw [hsame]
      exact ⟨hfollow,rfl,rfl,hquiet⟩

section Frame
variable {v2 : Bool} {f : Frame} {s : CursorState}

theorem events_silent (h : f.handed = false) : f.events v2 = [] := by
  unfold Frame.events
  unfold Frame.handed at h
  cases hd : f.did <;> cases hj : f.json <;> simp_all

/-- The events of a frame that is handed over: the first is observed by its number alone, and
all have the same. -/
theorem events_handed (h : f.handed = true) : ∃ e rest, f.events v2 = e::rest ∧
    e.protocolOnly = true ∧ ∀ x ∈ e::rest, x.sequence = f.sequence v2 := by
  obtain ⟨hd,hj⟩ := Bool.and_eq_true_iff.mp h
  obtain ⟨did,hd⟩ := Option.isSome_iff_exists.mp hd
  obtain ⟨json,hj⟩ := Option.isSome_iff_exists.mp hj
  unfold Frame.events
  rw [hd,hj]
  simp only
  split
  · refine ⟨_,_,rfl,rfl,fun x hx => ?_⟩
    rcases List.mem_cons.mp hx with rfl | hx
    · rfl
    · unfold Frame.recordEvents at hx
      split at hx
      · obtain rfl := List.mem_singleton.mp hx
        rfl
      · split at hx
        · obtain ⟨o,ho⟩ := Option.mem_toList.mp hx |> Option.map_eq_some_iff.mp
          exact ho.2 ▸ rfl
        · cases hx
  · refine ⟨_,[],rfl,rfl,fun x hx => ?_⟩
    obtain rfl := List.mem_singleton.mp hx
    rfl

/-- The cursor follows a frame by its number, and no frame gives it another repository. -/
theorem frame_follows (h : f.handed = true) :
    (follows s (f.events v2)).1 = (observeSequence s (f.sequence v2) true).1 ∧
      Quiet s (f.events v2) ∧ ((follows s (f.events v2)).2 = false →
        (observeSequence s (f.sequence v2) true).2.losing = false) := by
  obtain ⟨e,rest,hevents,hfirst,hall⟩ := @events_handed v2 f h
  obtain ⟨he,hrest⟩ := List.forall_mem_cons.mp hall
  have hobserve : e.observe s = observeSequence s (f.sequence v2) true := by
    unfold JetstreamEvent.observe
    rw [hfirst,he]
    rfl
  obtain ⟨hfollow,hquiet⟩ := (seen_observed s (f.sequence v2)).follows hrest
  rw [hevents]
  unfold follows Quiet
  rw [hobserve]
  obtain ⟨hrepo,hrev⟩ := s.sequence_repo (f.sequence v2)
  refine ⟨hfollow,⟨hrepo,hrev,hquiet⟩,fun hlost => ?_⟩
  exact (Bool.or_eq_false_iff.mp hlost).1

theorem frames_quiet (fs : List Frame) (s : CursorState) : Quiet s (fs.flatMap (Frame.events v2)) := by
  induction fs generalizing s with
  | nil => trivial
  | cons f rest ih =>
      rw [List.flatMap_cons]
      cases h : f.handed with
      | false =>
          rw [events_silent h]
          exact ih s
      | true => exact quiet_append (frame_follows h).2.1 (ih _)

end Frame

/-! ## Frames in a row -/

/-- The place of a frame in the stream. -/
def Frame.place (v2 : Bool) (f : Frame) : ℕ := (f.sequence v2).toNat

theorem parseCursor_decimal (n : UInt64) : parseCursor (decimalString n.toNat) = some n := by
  have hdigits : (decimalString n.toNat).all isDigit = true := by
    rw [List.all_eq_true]
    intro c hc
    obtain ⟨hlow,hhigh⟩ := digit_of_mem_decimalString hc
    simp [isDigit,hlow,hhigh]
  unfold parseCursor
  rw [decimalValue_string,if_neg]
  · simp
  · rintro (h | h | h)
    · exact decimalString_ne_nil _ h
    · exact h hdigits
    · have hlt := n.toNat_lt
      omega

section Row
variable {v2 : Bool} {f : Frame} {fs : List Frame} {s : CursorState}

theorem Frame.position_lt (v2 : Bool) (f : Frame) : f.position v2 < 2^63 := by
  unfold Frame.position
  split
  · have h := f.seq.toInt_lt
    omega
  · have h := f.timeUs.toInt_lt
    omega

theorem sequence_toNat (hpos : 0 < f.position v2) :
    (f.sequence v2).toNat = (f.position v2).toNat := by
  have hbound := f.position_lt v2
  unfold Frame.sequence
  rw [if_pos hpos,UInt64.toNat_ofNat_of_lt']
  have hsize : UInt64.size = 2^64 := rfl
  omega

theorem sequence_position (hf : f.sequence v2 ≠ 0) : 0 < f.position v2 := by
  unfold Frame.sequence at hf
  split at hf
  · assumption
  · exact absurd rfl hf

theorem moves_zero (hf : f.sequence v2 = 0) (cursor : Bytes) : f.moves v2 cursor = cursor := by
  unfold Frame.moves
  refine if_neg fun hpos => ?_
  have hnat := sequence_toNat hpos
  have hzero : (f.sequence v2).toNat = 0 := congrArg UInt64.toNat hf
  omega

theorem moves_decimal (hf : f.sequence v2 ≠ 0) (cursor : Bytes) :
    f.moves v2 cursor = decimalString (f.place v2) := by
  have hpos := sequence_position hf
  unfold Frame.moves
  rw [if_pos hpos,← sequence_toNat hpos]
  rfl

/-- A frame that nobody misses: it comes again, or it is the next. -/
theorem frame_next (h : f.handed = true) (hlost : (follows s (f.events v2)).2 = false)
    (hs : s.lastSequence ≠ 0) (ho : s.resyncRequired = false) :
    (follows s (f.events v2)).1.lastSequence = f.sequence v2 ∧ f.sequence v2 ≠ 0 ∧
      (follows s (f.events v2)).1.resyncRequired = false ∧
      (f.place v2 = s.lastSequence.toNat ∨ f.place v2 = s.lastSequence.toNat+1) := by
  obtain ⟨hcursor,-,hgood⟩ := frame_follows (s := s) h
  have hmet := hgood hlost
  rw [hcursor]
  have hobs := s.observeSequence_observed (f.sequence v2)
  unfold Frame.place
  generalize f.sequence v2 = n at hobs hmet ⊢
  generalize observeSequence s n true = r at hobs hmet ⊢
  obtain ⟨s',met⟩ := r
  cases hobs with
  | initialized hn hzero => exact absurd hzero hs
  | duplicate hn he _ => exact ⟨he.symm,hn,ho,.inl (by rw [he])⟩
  | advanced _ hlt he _ =>
      have hn : n ≠ 0 := fun h0 => UInt64.not_lt_zero (h0 ▸ hlt)
      refine ⟨rfl,hn,ho,.inr ?_⟩
      rw [UInt64.lt_iff_toNat_lt] at hlt
      have hbound := n.toNat_lt
      have hval := congrArg UInt64.toNat he
      rw [UInt64.toNat_add] at hval
      have hone : (1 : UInt64).toNat = 1 := rfl
      omega
  | _ => cases hmet

/-- The first frame of a traversal. -/
theorem frame_first (h : f.handed = true) (hlost : (follows s (f.events v2)).2 = false)
    (hs : s.lastSequence = 0) :
    (follows s (f.events v2)).1.lastSequence = f.sequence v2 ∧ f.sequence v2 ≠ 0 ∧
      (follows s (f.events v2)).1.resyncRequired = false := by
  obtain ⟨hcursor,-,hgood⟩ := frame_follows (s := s) h
  have hmet := hgood hlost
  rw [hcursor]
  have hobs := s.observeSequence_observed (f.sequence v2)
  generalize f.sequence v2 = n at hobs hmet ⊢
  generalize observeSequence s n true = r at hobs hmet ⊢
  obtain ⟨s',met⟩ := r
  cases hobs with
  | initialized hn _ => exact ⟨rfl,hn,rfl⟩
  | duplicate hn he _ => exact absurd (he.trans hs) hn
  | advanced hne => exact absurd hs hne
  | _ => cases hmet

/-- Frames without a gap between them, behind a cursor that stands. -/
structure InRow (v2 : Bool) (fs : List Frame) (s s' : CursorState) : Prop where
  numbered : ∀ f ∈ fs, f.sequence v2 ≠ 0 ∧ s.lastSequence.toNat ≤ f.place v2
  filled : ∀ n, s.lastSequence.toNat < n → n ≤ s'.lastSequence.toNat → ∃ f ∈ fs, f.place v2 = n
  cursor : fs ≠ [] → ∀ cursor, fs.foldl (fun c f => Frame.moves v2 c f) cursor =
    decimalString s'.lastSequence.toNat

theorem frames_inRow (hall : ∀ f ∈ fs, f.handed = true)
    (hlost : (follows s (fs.flatMap (Frame.events v2))).2 = false) (hs : s.lastSequence ≠ 0)
    (ho : s.resyncRequired = false) :
    InRow v2 fs s (follows s (fs.flatMap (Frame.events v2))).1 := by
  induction fs generalizing s with
  | nil =>
      rw [List.flatMap_nil,follows]
      exact ⟨List.forall_mem_nil _,fun n hlt hle => absurd (hlt.trans_le hle) (lt_irrefl _),fun h => absurd rfl h⟩
  | cons f rest ih =>
      obtain ⟨hf,hrest⟩ := List.forall_mem_cons.mp hall
      rw [List.flatMap_cons,follows_append] at hlost ⊢
      obtain ⟨hlostf,hlostrest⟩ := Bool.or_eq_false_iff.mp hlost
      obtain ⟨hlast,hne,hcalm,hplace⟩ := frame_next hf hlostf hs ho
      have hrow := ih hrest hlostrest (by rw [hlast]; exact hne) hcalm
      have hat : (follows s (f.events v2)).1.lastSequence.toNat = f.place v2 :=
        congrArg UInt64.toNat hlast
      refine ⟨List.forall_mem_cons.mpr ⟨⟨hne,by omega⟩,fun x hx => ?_⟩,fun n hlt hle => ?_,
        fun _ cursor => ?_⟩
      · obtain ⟨hx0,hx⟩ := hrow.numbered x hx
        exact ⟨hx0,by omega⟩
      · by_cases hn : n ≤ f.place v2
        · exact ⟨f,List.mem_cons_self,by omega⟩
        · obtain ⟨x,hx,hxn⟩ := hrow.filled n (by omega) hle
          exact ⟨x,List.mem_cons_of_mem f hx,hxn⟩
      · rw [List.foldl_cons]
        by_cases hnil : rest = []
        · subst hnil
          simp only [List.foldl_nil,List.flatMap_nil,follows]
          rw [moves_decimal hne,hlast]
          rfl
        · exact hrow.cursor hnil _

end Row

end Atperson.Sync
