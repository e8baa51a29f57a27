import Atperson.Control.Envelope
import Mathlib.Data.List.Sort
import Mathlib.Data.List.Lex

/-!
# The first covering envelope

The search stops at the first file that covers and is ended by the first that does not parse. It
answers as its contract says exactly when no broken file stands before the first covering one and
that one carries its own file's name.
-/
namespace Atperson.Envelope
open Wire Outbound

/-- What is asked of a directory of envelopes. -/
structure Attempt where
  policy : OutboundPolicy
  kind : OutboundActionKind
  content : Bytes
  evidence : EnvelopeEvidence
  budget : OutboundBudgetState
  now : ℤ

/-! ## The scan -/

section Scan
variable (load : Bytes → Except String (Option AuthorizationEnvelope))
  (covers : AuthorizationEnvelope → EnvelopeCoverage)

/-- A file that is read and does not cover. -/
def Idle (id : Bytes) : Prop :=
  ∃ r, load id = .ok r ∧ ∀ e ∈ r, (covers e).covered = false

theorem betterReason_idle {best coverage : EnvelopeCoverage} (hbest : best.covered = false)
    (h : coverage.covered = false) : (betterReason best coverage).covered = false := by
  unfold betterReason
  split
  · exact h
  · exact hbest

/-- The search passes idle files, up to the first that breaks it or covers. -/
theorem search_cases (ids : List Bytes) {best : EnvelopeCoverage} (hbest : best.covered = false) :
    ((∀ id ∈ ids, Idle load covers id) ∧
      ∃ c, searchEnvelopes load covers ids best = .ok c ∧ c.covered = false) ∨
    ∃ before id after, ids = before++id::after ∧ (∀ i ∈ before, Idle load covers i) ∧
      ((∃ m, load id = .error m ∧ searchEnvelopes load covers ids best = .error m) ∨
        ∃ e, load id = .ok (some e) ∧ (covers e).covered = true ∧
          searchEnvelopes load covers ids best = .ok (covers e)) := by
  induction ids generalizing best with
  | nil => exact .inl ⟨by simp,best,rfl,hbest⟩
  | cons id ids ih =>
      have hpast {best' : EnvelopeCoverage} (hbest' : best'.covered = false)
          (hidle : Idle load covers id)
          (heq : searchEnvelopes load covers (id::ids) best = searchEnvelopes load covers ids best') :
          ((∀ i ∈ id::ids, Idle load covers i) ∧
            ∃ c, searchEnvelopes load covers (id::ids) best = .ok c ∧ c.covered = false) ∨
          ∃ before i after, id::ids = before++i::after ∧ (∀ j ∈ before, Idle load covers j) ∧
            ((∃ m, load i = .error m ∧ searchEnvelopes load covers (id::ids) best = .error m) ∨
              ∃ e, load i = .ok (some e) ∧ (covers e).covered = true ∧
                searchEnvelopes load covers (id::ids) best = .ok (covers e)) := by
        rw [heq]
        rcases ih hbest' with ⟨hall,hc⟩ | ⟨before,i,after,rfl,hbefore,hend⟩
        · exact .inl ⟨List.forall_mem_cons.mpr ⟨hidle,hall⟩,hc⟩
        · exact .inr ⟨id::before,i,after,rfl,List.forall_mem_cons.mpr ⟨hidle,hbefore⟩,hend⟩
      rcases hload : load id with m | (_ | e)
      · exact .inr ⟨[],id,ids,rfl,by simp,.inl ⟨m,hload,by simp only [searchEnvelopes,hload]⟩⟩
      · exact hpast hbest ⟨none,hload,by simp⟩ (by simp only [searchEnvelopes,hload])
      · cases hcovered : (covers e).covered with
        | true =>
            exact .inr ⟨[],id,ids,rfl,by simp,.inr ⟨e,hload,hcovered,by
              simp only [searchEnvelopes,hload,hcovered,if_true]⟩⟩
        | false =>
            refine hpast (betterReason_idle hbest hcovered) ⟨some e,hload,?_⟩ ?_
            · intro e' he'
              rw [← Option.some.inj he']
              exact hcovered
            · simp [searchEnvelopes,hload,hcovered]

end Scan

/-! ## The listing -/

theorem envelopeFile_injective : Function.Injective envelopeFile :=
  fun _ _ h => List.append_cancel_right h

theorem listedId_iff {entry : Bytes × DirEntry} {id : Bytes} : listedId entry = some id ↔
    isEnvelopeId id = true ∧ ∃ document, entry = (envelopeFile id,.file document) := by
  obtain ⟨name,document | _⟩ := entry
  · have hstem : (envelopeFile id).take ((envelopeFile id).length-jsonExtension.length) = id := by
      rw [envelopeFile,List.length_append,Nat.add_sub_cancel,List.take_left']
      rfl
    constructor
    · intro h
      simp only [listedId] at h
      split at h
      · next hc =>
          rw [Bool.and_eq_true,decide_eq_true_eq] at hc
          rw [Option.some.inj h] at hc
          exact ⟨hc.2,document,by rw [← hc.1]⟩
      · cases h
    · rintro ⟨hid,document',h⟩
      rw [(Prod.mk.inj h).1]
      simp only [listedId,hstem,hid]
      simp
  · simp [listedId]

theorem mem_list {dir : EnvelopeDir} {id : Bytes} : id ∈ listAuthorizationEnvelopes dir ↔
    isEnvelopeId id = true ∧ ∃ document, (envelopeFile id,.file document) ∈ dir.entries := by
  rw [listAuthorizationEnvelopes,List.mem_mergeSort,List.mem_filterMap]
  constructor
  · rintro ⟨entry,hmem,h⟩
    obtain ⟨hid,document,rfl⟩ := listedId_iff.mp h
    exact ⟨hid,document,hmem⟩
  · rintro ⟨hid,document,hmem⟩
    exact ⟨_,hmem,listedId_iff.mpr ⟨hid,document,rfl⟩⟩

theorem list_nodup (dir : EnvelopeDir) : (listAuthorizationEnvelopes dir).Nodup := by
  rw [listAuthorizationEnvelopes,(List.mergeSort_perm _ _).nodup_iff]
  have hdistinct := dir.distinct
  generalize dir.entries = entries at hdistinct
  induction entries with
  | nil => exact List.nodup_nil
  | cons entry entries ih =>
      rw [List.map_cons,List.nodup_cons] at hdistinct
      rw [List.filterMap_cons]
      cases hentry : listedId entry with
      | none => exact ih hdistinct.2
      | some id =>
          refine List.nodup_cons.mpr ⟨fun hmem => hdistinct.1 ?_,ih hdistinct.2⟩
          obtain ⟨entry',hmem',hentry'⟩ := List.mem_filterMap.mp hmem
          obtain ⟨-,document,rfl⟩ := listedId_iff.mp hentry
          obtain ⟨-,document',rfl⟩ := listedId_iff.mp hentry'
          exact List.mem_map.mpr ⟨_,hmem',rfl⟩

theorem list_ascending (dir : EnvelopeDir) :
    (listAuthorizationEnvelopes dir).Pairwise (· < ·) := by
  have hsorted : (listAuthorizationEnvelopes dir).Pairwise (· ≤ ·) := by
    have htrans : ∀ a b c : Bytes, decide (a ≤ b) = true → decide (b ≤ c) = true →
        decide (a ≤ c) = true := by
      simp only [decide_eq_true_eq]
      exact fun a b c => Std.le_trans
    have htotal : ∀ a b : Bytes, (decide (a ≤ b) || decide (b ≤ a)) = true := by
      simp only [Bool.or_eq_true,decide_eq_true_eq]
      exact fun a b => Std.le_total
    exact (List.pairwise_mergeSort htrans htotal (dir.entries.filterMap listedId)).imp
      fun h => of_decide_eq_true h
  exact (hsorted.and (list_nodup dir)).imp fun h => Std.lt_of_le_of_ne h.1 h.2

/-! ## The answer -/

section Answer

variable (casts : Casts) (dir : EnvelopeDir) (attempt : Attempt)

def Attempt.coverage (attempt : Attempt) (e : AuthorizationEnvelope) : EnvelopeCoverage :=
  coversAction e attempt.kind attempt.content attempt.evidence (attempt.budget.usage attempt.kind)
    attempt.now

def Attempt.find : Except String EnvelopeCoverage :=
  findCoveringEnvelope casts dir attempt.policy attempt.kind attempt.content attempt.evidence
    attempt.budget attempt.now

/-- The document of a listed file, as it parses under the current policy. -/
def Parses (id : Bytes) (e : AuthorizationEnvelope) : Prop :=
  isEnvelopeId id = true ∧ ∃ document, (envelopeFile id,.file document) ∈ dir.entries ∧
    parseAuthorizationEnvelope casts document attempt.policy (text (envelopeFile id)) = .ok e

/-- A listed file that does not parse. -/
def Broken (id : Bytes) : Prop :=
  isEnvelopeId id = true ∧ ∃ document m, (envelopeFile id,.file document) ∈ dir.entries ∧
    parseAuthorizationEnvelope casts document attempt.policy (text (envelopeFile id)) = .error m

def Covering (id : Bytes) : Prop :=
  ∃ e, Parses casts dir attempt id e ∧ (attempt.coverage e).covered = true

def FirstCovering (id : Bytes) : Prop :=
  Covering casts dir attempt id ∧ ∀ id', Covering casts dir attempt id' → id ≤ id'

/-- The contract: an answer whatever the files hold, covered exactly when some file covers, and
then under the first such identifier. -/
def Contract : Prop :=
  ∃ c, attempt.find casts dir = .ok c ∧
    (c.covered = true ↔ ∃ id, Covering casts dir attempt id) ∧
    (c.covered = true → ∃ id, FirstCovering casts dir attempt id ∧
      c = {covered := true, envelopeId := id})

/-- Broken files stand behind a covering one, and the first covering file is named after the
identifier in it. -/
structure Sound : Prop where
  broken : ∀ id, Broken casts dir attempt id → ∃ id', Covering casts dir attempt id' ∧ id' < id
  named : ∀ id e, FirstCovering casts dir attempt id → Parses casts dir attempt id e → e.id = id

variable {casts dir attempt}

theorem coversAction_covered {e : AuthorizationEnvelope} {kind : OutboundActionKind}
    {content : Bytes} {evidence : EnvelopeEvidence} {usage : OutboundKindUsage} {now : ℤ}
    (h : (coversAction e kind content evidence usage now).covered = true) :
    coversAction e kind content evidence usage now = {covered := true, envelopeId := e.id} := by
  unfold coversAction at h ⊢
  by_cases hexpired : expired e now = true
  · rw [if_pos hexpired] at h
    cases h
  rw [if_neg hexpired] at h ⊢
  cases hrule : e.kinds.find? (·.kind = kind) with
  | none =>
      simp only [hrule] at h
      cases h
  | some rule =>
      simp only [hrule] at h ⊢
      split_ifs at h ⊢
      rfl

theorem entry_unique {name : Bytes} {a b : DirEntry} (ha : (name,a) ∈ dir.entries)
    (hb : (name,b) ∈ dir.entries) : a = b := by
  have h := List.inj_on_of_nodup_map dir.distinct ha hb rfl
  exact (Prod.mk.inj h).2

/-- A listed file is read as its document parses. -/
theorem load_listed {id : Bytes} {policy : OutboundPolicy} {document : Option (Json Double)}
    (hid : isEnvelopeId id = true) (hmem : (envelopeFile id,.file document) ∈ dir.entries) :
    loadAuthorizationEnvelope casts dir id policy =
      (parseAuthorizationEnvelope casts document policy (text (envelopeFile id))).map some := by
  have hfind : dir.entries.find? (·.1 = envelopeFile id) = some (envelopeFile id,.file document) := by
    cases hf : dir.entries.find? (·.1 = envelopeFile id) with
    | none => simpa using List.find?_eq_none.mp hf _ hmem
    | some entry =>
        obtain ⟨name,content⟩ := entry
        have hname : name = envelopeFile id := by simpa using List.find?_some hf
        subst hname
        rw [entry_unique (List.mem_of_find?_eq_some hf) hmem]
  simp only [loadAuthorizationEnvelope,hid,Bool.true_eq_false,if_false,hfind]

theorem parses_listed {id : Bytes} {e : AuthorizationEnvelope}
    (h : Parses casts dir attempt id e) : id ∈ listAuthorizationEnvelopes dir :=
  mem_list.mpr ⟨h.1,h.2.choose,h.2.choose_spec.1⟩

theorem load_ok {id : Bytes} (hmem : id ∈ listAuthorizationEnvelopes dir)
    {e : AuthorizationEnvelope} : loadAuthorizationEnvelope casts dir id attempt.policy =
      .ok (some e) ↔ Parses casts dir attempt id e := by
  obtain ⟨hid,document,hdocument⟩ := mem_list.mp hmem
  rw [load_listed hid hdocument]
  constructor
  · intro h
    cases hparse : parseAuthorizationEnvelope casts document attempt.policy
        (text (envelopeFile id)) with
    | error m => rw [hparse] at h; cases h
    | ok e' =>
        rw [hparse] at h
        cases h
        exact ⟨hid,document,hdocument,hparse⟩
  · rintro ⟨-,document',hdocument',hparse⟩
    have hsame := entry_unique hdocument hdocument'
    cases hsame
    rw [hparse]
    rfl

/-- A listed file that is not read is broken, and a broken file is not read. -/
theorem load_error {id : Bytes} (hmem : id ∈ listAuthorizationEnvelopes dir) :
    (∃ m, loadAuthorizationEnvelope casts dir id attempt.policy = .error m) ↔
      Broken casts dir attempt id := by
  obtain ⟨hid,document,hdocument⟩ := mem_list.mp hmem
  rw [load_listed hid hdocument]
  constructor
  · rintro ⟨m,h⟩
    cases hparse : parseAuthorizationEnvelope casts document attempt.policy
        (text (envelopeFile id)) with
    | error m' => exact ⟨hid,document,m',hdocument,hparse⟩
    | ok e' => rw [hparse] at h; cases h
  · rintro ⟨-,document',m,hdocument',hparse⟩
    have hsame := entry_unique hdocument hdocument'
    cases hsame
    exact ⟨m,by rw [hparse]; rfl⟩

theorem broken_listed {id : Bytes} (h : Broken casts dir attempt id) :
    id ∈ listAuthorizationEnvelopes dir :=
  mem_list.mpr ⟨h.1,h.2.choose,h.2.choose_spec.choose_spec.1⟩

/-- An idle listed file neither covers nor is broken. -/
theorem idle_listed {id : Bytes} (hmem : id ∈ listAuthorizationEnvelopes dir)
    (h : Idle (fun id => loadAuthorizationEnvelope casts dir id attempt.policy) attempt.coverage id) :
    ¬Covering casts dir attempt id ∧ ¬Broken casts dir attempt id := by
  obtain ⟨r,hload,hidle⟩ := h
  dsimp only at hload
  constructor
  · rintro ⟨e,hparses,hcovered⟩
    rw [(load_ok hmem).mpr hparses] at hload
    cases hload
    rw [hidle e rfl] at hcovered
    cases hcovered
  · intro hbroken
    obtain ⟨m,herror⟩ := (load_error hmem).mpr hbroken
    rw [herror] at hload
    cases hload

/-- What stands before a name in the listing is what is listed and smaller. -/
theorem before_iff {ids before after : List Bytes} {id : Bytes} (h : ids.Pairwise (· < ·))
    (hsplit : ids = before++id::after) {i : Bytes} (hi : i ∈ ids) : i < id ↔ i ∈ before := by
  subst hsplit
  obtain ⟨-,hrest,hcross⟩ := List.pairwise_append.mp h
  constructor
  · intro hlt
    rcases List.mem_append.mp hi with hbefore | hafter
    · exact hbefore
    · rcases List.mem_cons.mp hafter with rfl | hafter
      · exact absurd hlt (Std.lt_irrefl)
      · exact absurd (Std.lt_trans hlt ((List.pairwise_cons.mp hrest).1 i hafter)) Std.lt_irrefl
  · exact fun hbefore => hcross i hbefore id List.mem_cons_self

theorem parses_unique {id : Bytes} {e e' : AuthorizationEnvelope}
    (h : Parses casts dir attempt id e) (h' : Parses casts dir attempt id e') : e = e' := by
  have hload := (load_ok (parses_listed h)).mpr h
  rw [(load_ok (parses_listed h)).mpr h'] at hload
  exact (Option.some.inj (Except.ok.inj hload)).symm

theorem firstCovering_unique {id id' : Bytes} (h : FirstCovering casts dir attempt id)
    (h' : FirstCovering casts dir attempt id') : id = id' :=
  Std.le_antisymm (h.2 id' h'.1) (h'.2 id h.1)

/-- An answer taken from the first covering file. -/
theorem contract_of_first {id : Bytes} {e : AuthorizationEnvelope}
    (hfind : attempt.find casts dir = .ok (attempt.coverage e))
    (hcovered : (attempt.coverage e).covered = true)
    (hfirst : FirstCovering casts dir attempt id) :
    Contract casts dir attempt ↔ e.id = id := by
  have hanswer : attempt.coverage e = {covered := true, envelopeId := e.id} :=
    coversAction_covered hcovered
  constructor
  · rintro ⟨c,hc,-,hnamed⟩
    rw [hfind] at hc
    obtain rfl := Except.ok.inj hc
    obtain ⟨id',hfirst',heq⟩ := hnamed hcovered
    rw [hanswer] at heq
    rw [firstCovering_unique hfirst hfirst']
    exact congrArg EnvelopeCoverage.envelopeId heq
  · intro hid
    refine ⟨_,hfind,iff_of_true hcovered ⟨id,hfirst.1⟩,fun _ => ⟨id,hfirst,?_⟩⟩
    rw [hanswer,hid]

/-- The search keeps its contract exactly over sound directories. -/
theorem find_covering_contract (casts : Casts) (dir : EnvelopeDir) (attempt : Attempt) :
    Contract casts dir attempt ↔ Sound casts dir attempt := by
  have hbest : EnvelopeCoverage.covered
      {reason := if listAuthorizationEnvelopes dir = [] then "no_envelope" else "not_covered"} =
      false := rfl
  have hcases := search_cases (fun id => loadAuthorizationEnvelope casts dir id attempt.policy)
    attempt.coverage (listAuthorizationEnvelopes dir) hbest
  have hfind : attempt.find casts dir = searchEnvelopes
      (fun id => loadAuthorizationEnvelope casts dir id attempt.policy) attempt.coverage
      (listAuthorizationEnvelopes dir)
      {reason := if listAuthorizationEnvelopes dir = [] then "no_envelope" else "not_covered"} := rfl
  rw [← hfind] at hcases
  rcases hcases with ⟨hidle,c,hc,hcovered⟩ | ⟨before,id,after,hsplit,hbefore,hend⟩
  · -- no file covers and none is broken
    have hnone : ∀ id, ¬Covering casts dir attempt id := fun id h =>
      (idle_listed (parses_listed h.choose_spec.1) (hidle id (parses_listed h.choose_spec.1))).1 h
    refine iff_of_true ⟨c,hc,iff_of_false (by simp [hcovered]) (fun ⟨id,h⟩ => hnone id h),?_⟩ ⟨?_,?_⟩
    · intro h
      rw [hcovered] at h
      cases h
    · exact fun id h => absurd h (idle_listed (broken_listed h) (hidle id (broken_listed h))).2
    · exact fun id e h => absurd h.1 (hnone id)
  · have hmem : id ∈ listAuthorizationEnvelopes dir := by simp [hsplit]
    have hearlier {i : Bytes} (hi : i ∈ listAuthorizationEnvelopes dir) (hlt : i < id) :
        ¬Covering casts dir attempt i ∧ ¬Broken casts dir attempt i :=
      idle_listed hi (hbefore i ((before_iff (list_ascending dir) hsplit hi).mp hlt))
    rcases hend with ⟨m,hload,herror⟩ | ⟨e,hload,hcovered,hanswer⟩
    · -- the first decisive file is broken
      refine iff_of_false (fun ⟨c,hc,_⟩ => ?_) fun hsound => ?_
      · rw [herror] at hc
        cases hc
      · obtain ⟨id',hcovering,hlt⟩ := hsound.broken id ((load_error hmem).mp ⟨m,hload⟩)
        exact (hearlier (parses_listed hcovering.choose_spec.1) hlt).1 hcovering
    · -- the first decisive file covers
      have hparses := (load_ok hmem).mp hload
      have hcovering : Covering casts dir attempt id := ⟨e,hparses,hcovered⟩
      have hfirst : FirstCovering casts dir attempt id := ⟨hcovering,fun id' h =>
        Std.not_lt.mp fun hlt => (hearlier (parses_listed h.choose_spec.1) hlt).1 h⟩
      rw [contract_of_first hanswer hcovered hfirst]
      constructor
      · intro hid
        refine ⟨fun id' hbroken => ⟨id,hcovering,?_⟩,fun id' e' hfirst' hparses' => ?_⟩
        · have hle : id ≤ id' := Std.not_lt.mp fun hlt => (hearlier (broken_listed hbroken) hlt).2 hbroken
          refine Std.lt_of_le_of_ne hle ?_
          rintro rfl
          obtain ⟨m,herror⟩ := (load_error hmem).mpr hbroken
          rw [herror] at hload
          cases hload
        · obtain rfl := firstCovering_unique hfirst hfirst'
          rw [parses_unique hparses' hparses]
          exact hid
      · exact fun hsound => hsound.named id e hfirst hparses

end Answer

namespace Sample

def rule : Json Double :=
  .object [("kind",.string (utf8 "post")),("max_in_window",.number (.finite 1)),
    ("window_seconds",.number (.finite 3600))]

def document : Json Double :=
  .object [("format",.string kAuthorizationEnvelopeFormat),("version",.number (.finite 1)),
    ("id",.string (utf8 "b")),("created_at",.string (utf8 "2026-01-01T00:00:00Z")),
    ("scope_terms",.array []),("kinds",.array [rule])]

def attempt : Attempt where
  policy := {budgets := fun _ => {enabled := true}}
  kind := .post
  content := utf8 "hello"
  evidence := ⟨none,none⟩
  budget := {}
  now := 0

theorem distinct : ([(utf8 "a.json"),(utf8 "b.json")] : List Bytes).Nodup := by decide

/-- A corrupt file listed before one that covers. -/
def dir : EnvelopeDir where
  entries := [(utf8 "a.json",.file none),(utf8 "b.json",.file (some document))]
  distinct := distinct

theorem listed : listAuthorizationEnvelopes dir = [utf8 "a",utf8 "b"] := by
  have hentries : dir.entries.filterMap listedId = [utf8 "a",utf8 "b"] := by decide +kernel
  rw [listAuthorizationEnvelopes,hentries]
  exact List.mergeSort_of_pairwise (by decide +kernel)

/-- The corrupt file ends the search, although the next one covers. -/
theorem corrupt_file_ends_search :
    attempt.find plainCasts dir =
      .error "authorization envelope: a.json: not a valid JSON object" ∧
    Covering plainCasts dir attempt (utf8 "b") ∧ ¬∀ casts dir attempt, Contract casts dir attempt := by
  have hfind : attempt.find plainCasts dir =
      .error "authorization envelope: a.json: not a valid JSON object" := by
    rw [Attempt.find,findCoveringEnvelope,listed]
    decide +kernel
  refine ⟨hfind,?_,fun h => ?_⟩
  · refine ⟨⟨1,utf8 "b",none,[],[⟨.post,1,3600,.finite 0,.finite 0⟩],[],
      utf8 "2026-01-01T00:00:00Z"⟩,⟨by decide +kernel,some document,?_,by decide +kernel⟩,
      by decide +kernel⟩
    exact List.mem_cons_of_mem _ List.mem_cons_self
  · obtain ⟨c,hc,-⟩ := h plainCasts dir attempt
    rw [hfind] at hc
    cases hc

end Sample

end Atperson.Envelope
