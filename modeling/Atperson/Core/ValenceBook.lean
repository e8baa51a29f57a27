import Atperson.Core.Prune
import Atperson.Core.ValenceFold
import Atperson.Core.Backdrop
import Atperson.Runs.Roster

/-!
# Valence in exact arithmetic

A book keeps what the valence of a graph is kept as, with rational values and unbounded
counters. Beside it stands the history of the events that were accepted. The book of a
history has one record for each token with events, which is their fold, and the newest events
in its log.
-/
namespace Atperson.Core
open Wire Runs
open Ledger (Status)

/-! ## Rates -/

/-- The number a float is, by its bits. -/
def singleOf (bits : UInt32) : Double :=
  let negative := decide (2^31 ≤ bits.toNat)
  let exponent : ℕ := bits.toNat/2^23%2^8
  let fraction : ℕ := bits.toNat%2^23
  if exponent = 255 then if fraction = 0 then .infinite negative else .nan
  else
    let magnitude : ℚ := if exponent = 0 then fraction*2^(-149 : ℤ)
      else (2^23+fraction)*2^((exponent : ℤ)-150)
    .finite (if negative then -magnitude else magnitude)

/-- `atp_valence_effective_rate`, as the number it is. -/
def exactRate (config : GraphConfig) : ℚ :=
  match singleOf config.valenceRate.toBits with
  | .finite q => if 0 < q ∧ q ≤ 1 then q else 1/4
  | _ => 1/4

theorem exactRate_unit (config : GraphConfig) : 0 ≤ exactRate config ∧ exactRate config ≤ 1 := by
  unfold exactRate
  split
  · split
    · rename_i h
      exact ⟨h.1.le,h.2⟩
    · norm_num
  · norm_num

theorem clampSignal_unit (q : ℚ) : -1 ≤ clampSignal q ∧ clampSignal q ≤ 1 := by
  unfold clampSignal
  split_ifs with hhigh hlow
  · norm_num
  · norm_num
  · exact ⟨not_lt.mp hlow,not_lt.mp hhigh⟩

/-! ## Histories -/

/-- An event that was accepted: the token it is on, and the rate that was in force. -/
structure Arrival where
  token : Token
  rate : ℚ
  kind : ValenceKind
  signal : ℚ
  atEpoch : UInt64
  sourceId : SourceId

/-- The events on a token, in the order they came. -/
def arrivalsOn (t : Token) (history : List Arrival) : List Arrival :=
  history.filter fun a => a.token = t

def positives (history : List Arrival) : ℕ := history.countP fun a => 0 < a.signal

def negatives (history : List Arrival) : ℕ := history.countP fun a => a.signal < 0

/-- The fold of a token's events, from neutral. -/
def valenceOf (history : List Arrival) : ℚ :=
  history.foldl (fun v a => v+a.rate*(a.signal-v)) 0

/-- Rates and signals as they are after all checks. -/
structure Arrival.InRange (a : Arrival) : Prop where
  rate : 0 ≤ a.rate ∧ a.rate ≤ 1
  signal : -1 ≤ a.signal ∧ a.signal ≤ 1

/-- Moving a share of the way to a signal in range stays in range. -/
theorem valenceOf_unit {history : List Arrival} (h : ∀ a ∈ history, a.InRange) :
    -1 ≤ valenceOf history ∧ valenceOf history ≤ 1 := by
  induction history using List.reverseRecOn with
  | nil => norm_num [valenceOf]
  | append_singleton history a ih =>
      have hold := ih fun b hb => h b (List.mem_append_left _ hb)
      have ha := h a (List.mem_append_right _ (List.mem_singleton_self a))
      obtain ⟨⟨hr0,hr1⟩,hs0,hs1⟩ := ha
      have hstep : valenceOf (history++[a]) =
          (1-a.rate)*valenceOf history+a.rate*a.signal := by
        rw [valenceOf,List.foldl_append]
        show valenceOf history+a.rate*(a.signal-valenceOf history) = _
        ring
      rw [hstep]
      constructor
      · calc (-1 : ℚ) = (1-a.rate)*(-1)+a.rate*(-1) := by ring
          _ ≤ (1-a.rate)*valenceOf history+a.rate*a.signal :=
            add_le_add (mul_le_mul_of_nonneg_left hold.1 (by linarith))
              (mul_le_mul_of_nonneg_left hs0 hr0)
      · calc (1-a.rate)*valenceOf history+a.rate*a.signal ≤ (1-a.rate)*1+a.rate*1 :=
            add_le_add (mul_le_mul_of_nonneg_left hold.2 (by linarith))
              (mul_le_mul_of_nonneg_left hs1 hr0)
          _ = 1 := by ring

theorem positives_negatives_le (history : List Arrival) :
    positives history+negatives history ≤ history.length := by
  unfold positives negatives
  induction history with
  | nil => exact le_rfl
  | cons a history ih =>
      have hone : (if 0 < a.signal then 1 else 0)+(if a.signal < 0 then 1 else 0) ≤ 1 := by
        split_ifs with hpos hneg <;> first | omega | linarith
      simp only [List.countP_cons,List.length_cons,decide_eq_true_eq]
      omega

/-! ## Books -/

structure ExactRecord where
  nodeIndex : ℕ
  valence : ℚ
  eventCount : ℕ
  positiveEvents : ℕ
  negativeEvents : ℕ
  lastEventAt : UInt64

structure ExactEvent where
  nodeIndex : ℕ
  kind : ValenceKind
  signal : ℚ
  atEpoch : UInt64
  sourceId : SourceId

structure ValenceBook where
  records : List ExactRecord
  events : List ExactEvent
  evictions : ℕ

def ExactRecord.bump (a : Arrival) (r : ExactRecord) : ExactRecord :=
  {r with
    valence := r.valence+a.rate*(a.signal-r.valence)
    eventCount := r.eventCount+1
    positiveEvents := if 0 < a.signal then r.positiveEvents+1 else r.positiveEvents
    negativeEvents := if a.signal < 0 then r.negativeEvents+1 else r.negativeEvents
    lastEventAt := a.atEpoch}

def ExactRecord.first (node : ℕ) (a : Arrival) : ExactRecord where
  nodeIndex := node
  valence := a.rate*a.signal
  eventCount := 1
  positiveEvents := if 0 < a.signal then 1 else 0
  negativeEvents := if a.signal < 0 then 1 else 0
  lastEventAt := a.atEpoch

namespace ValenceBook

def empty : ValenceBook := ⟨[],[],0⟩

/-- One more event on a node, as `atp_graph_valence_event` keeps it. -/
def record (b : ValenceBook) (node : ℕ) (a : Arrival) : ValenceBook where
  records := upsert ExactRecord.nodeIndex node (.bump a) (.first node a) b.records
  events := pushNewest valenceEventCapacity b.events ⟨node,a.kind,a.signal,a.atEpoch,a.sourceId⟩
  evictions := if b.events.length = valenceEventCapacity then b.evictions+1 else b.evictions

/-- The nodes have new places. -/
def remap (f : ℕ → ℕ) (b : ValenceBook) : ValenceBook where
  records := b.records.map fun r => {r with nodeIndex := f r.nodeIndex}
  events := b.events.map fun e => {e with nodeIndex := f e.nodeIndex}
  evictions := b.evictions

/-- Where no node with valence moves, the book is the same. -/
theorem remap_self {f : ℕ → ℕ} {b : ValenceBook}
    (hrecords : ∀ r ∈ b.records, f r.nodeIndex = r.nodeIndex)
    (hevents : ∀ e ∈ b.events, f e.nodeIndex = e.nodeIndex) : b.remap f = b := by
  have hr : b.records.map (fun r => {r with nodeIndex := f r.nodeIndex}) = b.records := by
    refine (List.map_congr_left fun r hr => ?_).trans (List.map_id _)
    rw [hrecords r hr]
    rfl
  have he : b.events.map (fun e => {e with nodeIndex := f e.nodeIndex}) = b.events := by
    refine (List.map_congr_left fun e he => ?_).trans (List.map_id _)
    rw [hevents e he]
    rfl
  unfold remap
  rw [hr,he]

/-- The book beside a graph that was pruned: the nodes have moved if there are fewer. -/
def pruned (b : ValenceBook) (g g' : Graph) (maxNodes : ℕ) : ValenceBook :=
  if g'.nodes.length = g.nodes.length then b
  else b.remap (g.remapOf (g.pruned maxNodes)).index

end ValenceBook

/-! ## The book of a history -/

/-- A record is the fold of events. -/
structure ExactRecord.Folds (r : ExactRecord) (history : List Arrival) : Prop where
  valence : r.valence = valenceOf history
  count : r.eventCount = history.length
  positive : r.positiveEvents = positives history
  negative : r.negativeEvents = negatives history

/-- An event of the log is one of the history, on the node of its token. -/
structure ExactEvent.Logs (tokens : List Token) (a : Arrival) (e : ExactEvent) : Prop where
  token : tokens[e.nodeIndex]? = some a.token
  kind : e.kind = a.kind
  signal : e.signal = a.signal
  atEpoch : e.atEpoch = a.atEpoch
  sourceId : e.sourceId = a.sourceId

/-- The book of a history, over the tokens of a graph. -/
structure BookOf (tokens : List Token) (history : List Arrival) (b : ValenceBook) : Prop where
  sorted : SortedBy ExactRecord.nodeIndex b.records
  folded : ∀ r ∈ b.records, ∃ t, tokens[r.nodeIndex]? = some t ∧ r.Folds (arrivalsOn t history)
  known : ∀ a ∈ history, ∃ r ∈ b.records, tokens[r.nodeIndex]? = some a.token
  logged : List.Forall₂ (ExactEvent.Logs tokens) (newest valenceEventCapacity history) b.events
  counted : (b.records.map ExactRecord.eventCount).sum = history.length
  evicted : b.evictions = history.length-valenceEventCapacity

section Books
variable {tokens tokens' : List Token} {history : List Arrival} {b : ValenceBook}

theorem arrivalsOn_concat (t : Token) (history : List Arrival) (a : Arrival) :
    arrivalsOn t (history++[a]) =
      if a.token = t then arrivalsOn t history++[a] else arrivalsOn t history := by
  unfold arrivalsOn
  rw [List.filter_append]
  split <;> simp [*]

theorem ExactRecord.Folds.bump {r : ExactRecord} (h : r.Folds history) (a : Arrival) :
    (r.bump a).Folds (history++[a]) where
  valence := by
    rw [valenceOf,List.foldl_append]
    show r.valence+a.rate*(a.signal-r.valence) = _
    rw [h.valence]
    rfl
  count := by
    rw [List.length_append]
    exact congrArg (·+1) h.count
  positive := by
    show (if 0 < a.signal then r.positiveEvents+1 else r.positiveEvents) = _
    rw [h.positive,positives,positives,List.countP_append,List.countP_singleton]
    split <;> simp [*]
  negative := by
    show (if a.signal < 0 then r.negativeEvents+1 else r.negativeEvents) = _
    rw [h.negative,negatives,negatives,List.countP_append,List.countP_singleton]
    split <;> simp [*]

theorem folds_first (node : ℕ) (a : Arrival) : (ExactRecord.first node a).Folds [a] where
  valence := by simp [ExactRecord.first,valenceOf]
  count := rfl
  positive := by
    show (if 0 < a.signal then 1 else 0) = _
    rw [positives,List.countP_singleton]
    split <;> simp [*]
  negative := by
    show (if a.signal < 0 then 1 else 0) = _
    rw [negatives,List.countP_singleton]
    split <;> simp [*]

theorem forall₂_pushNewest {α β : Type} {R : α → β → Prop} {cap : ℕ} {as : List α} {bs : List β}
    {x : α} {y : β} (h : List.Forall₂ R as bs) (hxy : R x y) :
    List.Forall₂ R (pushNewest cap as x) (pushNewest cap bs y) := by
  unfold pushNewest
  rw [h.length_eq]
  split
  · exact List.rel_append (List.forall₂_drop 1 h) (.cons hxy .nil)
  · exact List.rel_append h (.cons hxy .nil)

theorem index_of_token (hd : tokens.Nodup) {i j : ℕ} {t : Token} (hi : tokens[i]? = some t)
    (hj : tokens[j]? = some t) : i = j := by
  obtain ⟨hilt,rfl⟩ := List.getElem?_eq_some_iff.mp hi
  obtain ⟨hjlt,heq⟩ := List.getElem?_eq_some_iff.mp hj
  exact (hd.getElem_inj_iff.mp heq).symm

/-- One more event goes into the book of the history. -/
theorem BookOf.recorded (h : BookOf tokens history b) (hd : tokens.Nodup) {node : ℕ} {a : Arrival}
    (hnode : tokens[node]? = some a.token) :
    BookOf tokens (history++[a]) (b.record node a) := by
  have hbump : ∀ r : ExactRecord, (r.bump a).nodeIndex = r.nodeIndex := fun _ => rfl
  refine ⟨h.sorted.after_upsert hbump rfl,fun r hr => ?_,fun a' ha' => ?_,?_,?_,?_⟩
  · rcases h.sorted.mem_upsert hr with ⟨hold,hne⟩ | ⟨old,hold,hindex,rfl⟩ | ⟨hnone,rfl⟩
    · obtain ⟨t,ht,hfolds⟩ := h.folded r hold
      refine ⟨t,ht,?_⟩
      have hother : a.token ≠ t := by
        rintro rfl
        exact hne (index_of_token hd ht hnode)
      rwa [arrivalsOn_concat,if_neg hother]
    · obtain ⟨t,ht,hfolds⟩ := h.folded old hold
      rw [hindex,hnode] at ht
      obtain rfl := Option.some.inj ht
      refine ⟨a.token,by rw [hbump,hindex,hnode],?_⟩
      rw [arrivalsOn_concat,if_pos rfl]
      exact hfolds.bump a
    · refine ⟨a.token,hnode,?_⟩
      have hfirst : arrivalsOn a.token history = [] := by
        rw [arrivalsOn,List.filter_eq_nil_iff]
        intro a' ha' htoken
        obtain ⟨r,hr,ht⟩ := h.known a' ha'
        rw [of_decide_eq_true htoken] at ht
        exact hnone r hr (index_of_token hd ht hnode)
      rw [arrivalsOn_concat,if_pos rfl,hfirst]
      exact folds_first node a
  · obtain ⟨hthere,hkept⟩ := h.sorted.exists_upsert node (.bump a) (.first node a) hbump rfl
    rcases List.mem_append.mp ha' with hold | hnew
    · obtain ⟨r,hr,ht⟩ := h.known a' hold
      obtain ⟨r',hr',hindex⟩ := hkept r hr
      exact ⟨r',hr',by rw [hindex,ht]⟩
    · obtain rfl := List.mem_singleton.mp hnew
      obtain ⟨r',hr',hindex⟩ := hthere
      exact ⟨r',hr',by rw [hindex,hnode]⟩
  · rw [← pushNewest_newest (by decide)]
    exact forall₂_pushNewest h.logged ⟨hnode,rfl,rfl,rfl,rfl⟩
  · rw [List.length_append]
    exact (h.sorted.sum_upsert (fun _ => rfl) rfl).trans (congrArg (·+1) h.counted)
  · have hlength := h.logged.length_eq
    rw [newest_length] at hlength
    show (if b.events.length = valenceEventCapacity then b.evictions+1 else b.evictions) = _
    rw [h.evicted,← hlength,List.length_append,List.length_singleton]
    split <;> omega

theorem forall₂_map {α β γ : Type} {R : α → β → Prop} {S : α → γ → Prop} {f : β → γ}
    {as : List α} {bs : List β} (h : List.Forall₂ R as bs)
    (hf : ∀ a, ∀ b ∈ bs, R a b → S a (f b)) : List.Forall₂ S as (bs.map f) := by
  induction h with
  | nil => exact .nil
  | cons hab _ ih =>
      obtain ⟨hfirst,hrest⟩ : S _ (f _) ∧ ∀ a, ∀ b ∈ _, R a b → S a (f b) :=
        ⟨hf _ _ List.mem_cons_self hab,fun a b hb => hf a b (List.mem_cons_of_mem _ hb)⟩
      exact .cons hfirst (ih hrest)

/-- Where the nodes with valence keep their tokens and their order, the book is moved along. -/
theorem BookOf.moved (h : BookOf tokens history b) {f : ℕ → ℕ}
    (hrecords : ∀ r ∈ b.records, tokens'[f r.nodeIndex]? = tokens[r.nodeIndex]?)
    (hevents : ∀ e ∈ b.events, tokens'[f e.nodeIndex]? = tokens[e.nodeIndex]?)
    (hmono : ∀ r ∈ b.records, ∀ s ∈ b.records, r.nodeIndex < s.nodeIndex →
      f r.nodeIndex < f s.nodeIndex) : BookOf tokens' history (b.remap f) := by
  refine ⟨?_,fun r hr => ?_,fun a ha => ?_,?_,?_,h.evicted⟩
  · refine List.pairwise_map.mpr (h.sorted.imp_of_mem ?_)
    exact fun hr hs hlt => hmono _ hr _ hs hlt
  · obtain ⟨old,hold,rfl⟩ := List.mem_map.mp hr
    obtain ⟨t,ht,hfolds⟩ := h.folded old hold
    exact ⟨t,(hrecords old hold).trans ht,⟨hfolds.valence,hfolds.count,hfolds.positive,
      hfolds.negative⟩⟩
  · obtain ⟨r,hr,ht⟩ := h.known a ha
    exact ⟨_,List.mem_map_of_mem hr,(hrecords r hr).trans ht⟩
  · refine forall₂_map h.logged fun a e he hlogs => ?_
    exact ⟨(hevents e he).trans hlogs.token,hlogs.kind,hlogs.signal,hlogs.atEpoch,hlogs.sourceId⟩
  · rw [ValenceBook.remap,List.map_map]
    exact h.counted

end Books

/-! ## The graph beside the book -/

/-- A record of the graph, but for its value, which is rounded there. Its counters are the
exact ones modulo their width. -/
structure ValenceRecord.Tracks (r : ValenceRecord) (e : ExactRecord) : Prop where
  nodeIndex : r.nodeIndex = e.nodeIndex
  eventCount : r.eventCount = UInt64.ofNat e.eventCount
  positiveEvents : r.positiveEvents = UInt64.ofNat e.positiveEvents
  negativeEvents : r.negativeEvents = UInt64.ofNat e.negativeEvents
  lastEventAt : r.lastEventAt = e.lastEventAt

structure ValenceEvent.Tracks (e : ValenceEvent) (x : ExactEvent) : Prop where
  nodeIndex : e.nodeIndex = x.nodeIndex
  kind : e.kind = x.kind
  atEpoch : e.atEpoch = x.atEpoch
  sourceId : e.sourceId = x.sourceId

namespace Graph

structure Tracks (g : Graph) (b : ValenceBook) : Prop where
  records : List.Forall₂ ValenceRecord.Tracks g.valenceRecords b.records
  events : List.Forall₂ ValenceEvent.Tracks g.valenceEvents b.events
  evictions : g.valenceEventEvictions = UInt64.ofNat b.evictions

variable {g g' : Graph} {b : ValenceBook}

theorem ofNat_add_one (n : ℕ) : UInt64.ofNat (n+1) = UInt64.ofNat n+1 := UInt64.ofNat_add n 1

theorem recordValence_eq (rate : Float32) (node : ℕ) (signal : ℚ) (atEpoch : UInt64)
    (records : List ValenceRecord) :
    recordValence rate node signal atEpoch records = upsert ValenceRecord.nodeIndex node
      (.bump rate signal atEpoch) (.first node rate signal atEpoch) records := rfl

theorem logValence_events (g : Graph) (e : ValenceEvent) :
    (g.logValence e).valenceEvents = pushNewest valenceEventCapacity g.valenceEvents e := by
  unfold logValence pushNewest
  split <;> rfl

theorem logValence_evictions (g : Graph) (e : ValenceEvent) :
    (g.logValence e).valenceEventEvictions =
      if g.valenceEvents.length = valenceEventCapacity then g.valenceEventEvictions+1
      else g.valenceEventEvictions := by
  unfold logValence
  split <;> rfl

theorem tracks_bump {r : ValenceRecord} {x : ExactRecord} (h : r.Tracks x) (rate : Float32)
    (a : Arrival) : (r.bump rate a.signal a.atEpoch).Tracks (x.bump a) where
  nodeIndex := h.nodeIndex
  eventCount := by
    show r.eventCount+1 = UInt64.ofNat (x.eventCount+1)
    rw [h.eventCount,ofNat_add_one]
  positiveEvents := by
    show (if 0 < a.signal then r.positiveEvents+1 else r.positiveEvents) =
      UInt64.ofNat (if 0 < a.signal then x.positiveEvents+1 else x.positiveEvents)
    rw [h.positiveEvents]
    split
    · exact (ofNat_add_one _).symm
    · rfl
  negativeEvents := by
    show (if a.signal < 0 then r.negativeEvents+1 else r.negativeEvents) =
      UInt64.ofNat (if a.signal < 0 then x.negativeEvents+1 else x.negativeEvents)
    rw [h.negativeEvents]
    split
    · exact (ofNat_add_one _).symm
    · rfl
  lastEventAt := rfl

theorem tracks_first (node : ℕ) (rate : Float32) (a : Arrival) :
    (ValenceRecord.first node rate a.signal a.atEpoch).Tracks (.first node a) where
  nodeIndex := rfl
  eventCount := rfl
  positiveEvents := by
    show (if 0 < a.signal then 1 else 0) = UInt64.ofNat (if 0 < a.signal then 1 else 0)
    split <;> rfl
  negativeEvents := by
    show (if a.signal < 0 then 1 else 0) = UInt64.ofNat (if a.signal < 0 then 1 else 0)
    split <;> rfl
  lastEventAt := rfl

/-- The arrival of an accepted event. -/
def arrival (g : Graph) (token : Token) (kind : ValenceKind) (q : ℚ) (atEpoch : UInt64)
    (sourceId : CString) : Arrival :=
  ⟨token,exactRate g.config,kind,clampSignal q,atEpoch,CText.truncate sourceId⟩

theorem arrival_inRange (g : Graph) (token : Token) (kind : ValenceKind) (q : ℚ)
    (atEpoch : UInt64) (sourceId : CString) :
    (g.arrival token kind q atEpoch sourceId).InRange :=
  ⟨exactRate_unit g.config,clampSignal_unit q⟩

/-- An event that is accepted, as a whole. -/
theorem valenceEvent_eq {token sourceId : CString} {kind : ValenceKind} {signal : Single} {q : ℚ}
    {atEpoch : UInt64} {node : ℕ} (hq : signal.value = .finite q)
    (hnode : g.findToken token = some node) :
    g.valenceEvent token kind signal atEpoch sourceId =
      (logValence {g with
          valenceRecords := recordValence (effectiveValenceRate g.config) node (clampSignal q)
            atEpoch g.valenceRecords}
        ⟨node,kind,floatOf (clampSignal q),atEpoch,CText.truncate sourceId⟩,.ok) := by
  unfold valenceEvent
  rw [hq]
  simp only [hnode]

theorem map_nodeIndex {rs : List ValenceRecord} {xs : List ExactRecord}
    (h : List.Forall₂ ValenceRecord.Tracks rs xs) :
    rs.map ValenceRecord.nodeIndex = xs.map ExactRecord.nodeIndex := by
  induction h with
  | nil => rfl
  | cons hrx _ ih => exact congrArg₂ List.cons hrx.nodeIndex ih

theorem Tracks.sorted (h : g.Tracks b) (hsorted : SortedBy ExactRecord.nodeIndex b.records) :
    SortedBy ValenceRecord.nodeIndex g.valenceRecords := by
  have hmap := List.pairwise_map.mpr hsorted
  rw [← map_nodeIndex h.records] at hmap
  exact List.pairwise_map.mp hmap

/-- The graph and its book record the same event. -/
theorem Tracks.event (h : g.Tracks b) (hsorted : SortedBy ExactRecord.nodeIndex b.records)
    {token sourceId : CString} {t : Token} {kind : ValenceKind} {signal : Single} {q : ℚ}
    {atEpoch : UInt64} {node : ℕ} (hq : signal.value = .finite q)
    (hnode : g.findToken token = some node) :
    (g.valenceEvent token kind signal atEpoch sourceId).1.Tracks
      (b.record node (g.arrival t kind q atEpoch sourceId)) := by
  have hmachine := h.sorted hsorted
  rw [valenceEvent_eq hq hnode]
  refine ⟨?_,?_,?_⟩
  · rw [logValence_records,recordValence_eq]
    exact hmachine.forall₂_upsert h.records (fun _ _ hrx => hrx.nodeIndex)
      (fun _ _ hrx => tracks_bump hrx _ (g.arrival t kind q atEpoch sourceId))
      (tracks_first node _ (g.arrival t kind q atEpoch sourceId))
  · rw [logValence_events]
    exact forall₂_pushNewest h.events ⟨rfl,rfl,rfl,rfl⟩
  · rw [logValence_evictions]
    show (if g.valenceEvents.length = valenceEventCapacity then g.valenceEventEvictions+1
        else g.valenceEventEvictions) =
      UInt64.ofNat (if b.events.length = valenceEventCapacity then b.evictions+1 else b.evictions)
    rw [h.events.length_eq,h.evictions]
    split
    · exact (ofNat_add_one _).symm
    · rfl

/-! ### Prunes -/

theorem Tracks.of_backdrop (h : g.Tracks b) (hb : g'.backdrop = g.backdrop) : g'.Tracks b := by
  have hrecords : g'.valenceRecords = g.valenceRecords := congrArg Backdrop.valenceRecords hb
  have hevents : g'.valenceEvents = g.valenceEvents := congrArg Backdrop.valenceEvents hb
  have hevictions : g'.valenceEventEvictions = g.valenceEventEvictions :=
    congrArg Backdrop.valenceEventEvictions hb
  exact ⟨hrecords ▸ h.records,hevents ▸ h.events,hevictions.trans h.evictions⟩

theorem map_eventIndex {es : List ValenceEvent} {xs : List ExactEvent}
    (h : List.Forall₂ ValenceEvent.Tracks es xs) :
    es.map ValenceEvent.nodeIndex = xs.map ExactEvent.nodeIndex := by
  induction h with
  | nil => rfl
  | cons hex _ ih => exact congrArg₂ List.cons hex.nodeIndex ih

/-- The nodes of the book stay. -/
theorem Tracks.keeps_record (h : g.Tracks b) {r : ExactRecord} (hr : r ∈ b.records)
    (maxNodes : ℕ) : keeps (g.pruned maxNodes) r.nodeIndex = true := by
  have hmem := List.mem_map_of_mem (f := ExactRecord.nodeIndex) hr
  rw [← map_nodeIndex h.records] at hmem
  obtain ⟨r',hr',hindex⟩ := List.mem_map.mp hmem
  rw [← hindex]
  exact Graph.keeps_record hr' maxNodes

theorem Tracks.keeps_event (h : g.Tracks b) {e : ExactEvent} (he : e ∈ b.events)
    (maxNodes : ℕ) : keeps (g.pruned maxNodes) e.nodeIndex = true := by
  have hmem := List.mem_map_of_mem (f := ExactEvent.nodeIndex) he
  rw [← map_eventIndex h.events] at hmem
  obtain ⟨e',he',hindex⟩ := List.mem_map.mp hmem
  rw [← hindex]
  exact Graph.keeps_event he' maxNodes

theorem Tracks.restricted (h : g.Tracks b) (dropped : List ℕ) :
    (g.restrict dropped).Tracks (b.remap (g.remapOf dropped).index) := by
  refine ⟨?_,?_,h.evictions⟩
  · refine List.rel_map (fun r x hrx => ?_) h.records
    exact ⟨congrArg (g.remapOf dropped).index hrx.nodeIndex,hrx.eventCount,
      hrx.positiveEvents,hrx.negativeEvents,hrx.lastEventAt⟩
  · refine List.rel_map (fun e x hex => ?_) h.events
    exact ⟨congrArg (g.remapOf dropped).index hex.nodeIndex,hex.kind,hex.atEpoch,hex.sourceId⟩

end Graph

section Prunes
variable {g : Graph} {b : ValenceBook} {history : List Arrival}

theorem BookOf.record_lt (h : BookOf g.tokens history b) {r : ExactRecord} (hr : r ∈ b.records) :
    r.nodeIndex < g.nodes.length := by
  obtain ⟨t,ht,-⟩ := h.folded r hr
  rw [← g.tokens_length]
  exact (List.getElem?_eq_some_iff.mp ht).1

theorem BookOf.event_lt (h : BookOf g.tokens history b) {e : ExactEvent} (he : e ∈ b.events) :
    e.nodeIndex < g.nodes.length := by
  have hside : ∀ {as : List Arrival} {es : List ExactEvent},
      List.Forall₂ (ExactEvent.Logs g.tokens) as es → ∀ e ∈ es, ∃ a, e.Logs g.tokens a := by
    intro as es hlogs
    induction hlogs with
    | nil => exact nofun
    | cons hae _ ih => exact List.forall_mem_cons.2 ⟨⟨_,hae⟩,ih⟩
  obtain ⟨a,ha⟩ := hside h.logged e he
  rw [← g.tokens_length]
  exact (List.getElem?_eq_some_iff.mp ha.token).1

/-- A rewrite that keeps all nodes with valence takes the book along. -/
theorem BookOf.restricted (h : BookOf g.tokens history b) (ht : g.Tracks b) (maxNodes : ℕ) :
    BookOf (g.restrict (g.pruned maxNodes)).tokens history
      (b.remap (g.remapOf (g.pruned maxNodes)).index) := by
  refine h.moved (fun r hr => ?_) (fun e he => ?_) fun r hr s hs hlt => ?_
  · exact Graph.token_restrict (h.record_lt hr) (ht.keeps_record hr maxNodes)
  · exact Graph.token_restrict (h.event_lt he) (ht.keeps_event he maxNodes)
  · rw [Graph.remapOf_index (h.record_lt hr) (ht.keeps_record hr maxNodes),
      Graph.remapOf_index (h.record_lt hs) (ht.keeps_record hs maxNodes)]
    exact place_lt (ht.keeps_record hr maxNodes) hlt

/-- Where a rewrite drops no node, the book is as it was. -/
theorem BookOf.unmoved (h : BookOf g.tokens history b) (ht : g.Tracks b) {maxNodes : ℕ}
    (hsame : (g.restrict (g.pruned maxNodes)).nodes.length = g.nodes.length) :
    b.remap (g.remapOf (g.pruned maxNodes)).index = b := by
  have hfull : place (Graph.keeps (g.pruned maxNodes)) g.nodes.length = g.nodes.length := by
    rw [← survivors_length]
    exact hsame
  refine ValenceBook.remap_self (fun r hr => ?_) fun e he => ?_
  · rw [Graph.remapOf_index (h.record_lt hr) (ht.keeps_record hr maxNodes)]
    exact place_eq_self hfull (h.record_lt hr).le
  · rw [Graph.remapOf_index (h.event_lt he) (ht.keeps_event he maxNodes)]
    exact place_eq_self hfull (h.event_lt he).le

/-- However a prune ends, its book is that of the same history. -/
theorem BookOf.pruned (h : BookOf g.tokens history b) (ht : g.Tracks b) {g' : Graph}
    (allocated : Bool) (allocs : Allocs) (maxNodes : ℕ)
    (hg : g' = (g.pruneVocabulary allocated allocs maxNodes).1) :
    BookOf g'.tokens history (b.pruned g g' maxNodes) ∧ g'.Tracks (b.pruned g g' maxNodes) := by
  subst hg
  rcases g.pruneVocabulary_cases allocated allocs maxNodes with ⟨index,hg'⟩ | ⟨index,hg'⟩
  · rw [hg']
    unfold ValenceBook.pruned
    rw [if_pos rfl]
    exact ⟨h,ht.of_backdrop rfl⟩
  · rw [hg']
    have hbook := h.restricted ht maxNodes
    have htracks := ht.restricted (g.pruned maxNodes)
    unfold ValenceBook.pruned
    split
    · rename_i hsame
      rw [h.unmoved ht hsame] at hbook htracks
      exact ⟨hbook,htracks.of_backdrop rfl⟩
    · exact ⟨hbook,htracks.of_backdrop rfl⟩

end Prunes

end Atperson.Core
