import Atperson.Replicate.Observations
import Atperson.Runs.CountCursor

/-!
# Journal lines and thoughts are published

A kind that is published by a count loses nothing while what its count covers stays in place
and no two lines meet under one key. Journals grow at their end; the thought store is read in
the order of its ids, so a thought has to come behind those that are published. The keys of
valence lines add their place to their time and can meet.
-/
namespace Atperson.Replicate
open Wire Journal Thought Ledger Runs

/-- The repository as a store of what lines say. -/
def storeOf (records : Records) (key : Key) : Option (Except String (Json Double)) :=
  (records key).map .ok

theorem storeOf_update (records : Records) (key : Key) (document : Json Double) :
    storeOf (Function.update records key (some document)) =
      Function.update (storeOf records) key (some (.ok document)) := by
  funext k
  by_cases hk : k = key
  · subst hk
    rw [storeOf,Function.update_self,Function.update_self]
    rfl
  · rw [storeOf,Function.update_of_ne hk,Function.update_of_ne hk]
    rfl

theorem not_last_of_nodup {lines : List Line} (h : (lines.map Prod.fst).Nodup) {i : ℕ}
    {line : Line} (hline : lines[i]? = some line) :
    ∀ j x, i < j → lines[j]? = some x → x.1 ≠ line.1 := by
  intro j x hj hx hkey
  have hi := (List.getElem?_eq_some_iff.mp hline).choose
  have hsame : (lines.map Prod.fst)[i]? = (lines.map Prod.fst)[j]? := by
    rw [List.getElem?_map,List.getElem?_map,hline,hx]
    exact congrArg some hkey.symm
  have := (List.nodup_iff_getElem?_ne_getElem?.mp h) i j hj
    (by rw [List.length_map]; exact (List.getElem?_eq_some_iff.mp hx).choose)
  exact this hsame

section Acts
variable {d : DrainInput} {s s' : Published} {lines : List Line} {kind : Kind} {n : ℕ}

theorem ReplicateCursor.advance_count (c : ReplicateCursor) (kind : Kind) :
    (c.advance kind).count kind = c.count kind+1 := by
  cases kind <;> rfl

theorem ReplicateCursor.advance_count_of_ne (c : ReplicateCursor) {kind k : Kind}
    (h : k ≠ kind) : (c.advance kind).count k = c.count k := by
  cases k <;> cases kind <;> first | rfl | exact absurd rfl h

/-- The count of a kind says of its lines how far they are published. -/
structure CountedTo (lines : List Line) (kind : Kind) (s : Published) : Prop where
  covered : Covered lines (s.cursor.count kind).toNat (storeOf s.records)
  within : (s.cursor.count kind).toNat ≤ lines.length

/-- What an act does to the lines of a kind: it leaves their records, or it puts the line at
the count, which a confirmed put moves on. -/
theorem Act.counted_cases (hsub : ∀ (i : ℕ) x, (d.lines kind)[i]? = some x → lines[i]? = some x)
    (hkind : ∀ (i : ℕ) x, lines[i]? = some x → x.1.1 = kind.collection)
    (hfew : lines.length+1 < 2^64) (h : Act d s s') :
    (∃ key document, lines[(s.cursor.count kind).toNat]? = some (key,.ok document) ∧
      s'.records = Function.update s.records key (some document) ∧
      ((s'.cursor.count kind).toNat = (s.cursor.count kind).toNat ∨
        (s'.cursor.count kind).toNat = (s.cursor.count kind).toNat+1)) ∨
    (s'.cursor.count kind = s.cursor.count kind ∧ ∀ (i : ℕ) key v, lines[i]? = some (key,v) →
      s'.records key = s.records key) := by
  have hother {key : Key} {document : Json Double} (hkey : key.1 ≠ kind.collection) :
      ∀ (i : ℕ) k v, lines[i]? = some (k,v) →
        (s.put key document).records k = s.records k := by
    intro i k v hline
    refine s.put_of_ne document ?_
    rintro rfl
    exact hkey (hkind i _ hline)
  cases h with
  | withdrawal => exact .inr ⟨rfl,hother (by cases kind <;> exact Collection.noConfusion)⟩
  | @observation _ _ confirmed _ _ _ _ =>
      refine .inr ⟨by cases confirmed <;> cases kind <;> rfl,?_⟩
      rw [Published.advance_records]
      exact hother (by cases kind <;> exact Collection.noConfusion)
  | @counted k key document confirmed hline =>
      rw [Published.advance_records]
      by_cases hk : k = kind
      · subst hk
        have hline' := hsub _ _ hline
        have hlt : (s.cursor.count k).toNat < lines.length :=
          (List.getElem?_eq_some_iff.mp hline').choose
        refine .inl ⟨key,document,hline',rfl,?_⟩
        cases confirmed with
        | false => exact .inl rfl
        | true =>
            right
            have hone : (1 : UInt64).toNat = 1 := rfl
            rw [Published.advance_true_cursor,ReplicateCursor.advance_count,UInt64.toNat_add,hone]
            omega
      · refine .inr ⟨?_,hother ?_⟩
        · cases confirmed with
          | false => rfl
          | true =>
              rw [Published.advance_true_cursor,
                ReplicateCursor.advance_count_of_ne _ (Ne.symm hk)]
        · have hcollection : key.1 = k.collection := linesOf_collection hline
          rw [hcollection]
          cases k <;> cases kind <;> first | exact absurd rfl hk | exact Collection.noConfusion

/-- The count of a kind only grows, over the lines that there are. -/
theorem Act.count_grows (hsub : ∀ (i : ℕ) x, (d.lines kind)[i]? = some x → lines[i]? = some x)
    (hkind : ∀ (i : ℕ) x, lines[i]? = some x → x.1.1 = kind.collection)
    (hfew : lines.length+1 < 2^64) (h : Act d s s') :
    (s.cursor.count kind).toNat ≤ (s'.cursor.count kind).toNat ∧
      ((s.cursor.count kind).toNat ≤ lines.length →
        (s'.cursor.count kind).toNat ≤ lines.length) := by
  rcases h.counted_cases hsub hkind hfew with ⟨key,document,hline,-,hcount⟩ | ⟨hcount,-⟩
  · have hlt := (List.getElem?_eq_some_iff.mp hline).choose
    omega
  · rw [hcount]
    exact ⟨le_rfl,id⟩

theorem Acts.count_grows (hsub : ∀ (i : ℕ) x, (d.lines kind)[i]? = some x → lines[i]? = some x)
    (hkind : ∀ (i : ℕ) x, lines[i]? = some x → x.1.1 = kind.collection)
    (hfew : lines.length+1 < 2^64) (h : Acts d s s') :
    (s.cursor.count kind).toNat ≤ (s'.cursor.count kind).toNat ∧
      ((s.cursor.count kind).toNat ≤ lines.length →
        (s'.cursor.count kind).toNat ≤ lines.length) := by
  induction h with
  | refl => exact ⟨le_rfl,id⟩
  | tail _ hlast ih =>
      have hstep := hlast.count_grows hsub hkind hfew
      exact ⟨ih.1.trans hstep.1,fun hs => hstep.2 (ih.2 hs)⟩

/-- Where keys are distinct, the record of a line that the count has passed is left alone. -/
theorem Acts.passed_line (hsub : ∀ (i : ℕ) x, (d.lines kind)[i]? = some x → lines[i]? = some x)
    (hkind : ∀ (i : ℕ) x, lines[i]? = some x → x.1.1 = kind.collection)
    (hfew : lines.length+1 < 2^64) (hnodup : (lines.map Prod.fst).Nodup) (h : Acts d s s')
    {line : Line} (hline : lines[n]? = some line) (hn : n < (s.cursor.count kind).toNat) :
    s'.records line.1 = s.records line.1 := by
  induction h with
  | refl => rfl
  | @tail t u hpre hlast ih =>
      rw [← ih]
      have hgrown := (Acts.count_grows hsub hkind hfew hpre).1
      rcases hlast.counted_cases hsub hkind hfew with
        ⟨key,document,hput,hrecords,-⟩ | ⟨-,hrecords⟩
      · rw [hrecords]
        refine Function.update_of_ne (fun hkey => ?_) _ _
        exact not_last_of_nodup hnodup hline _ _ (hn.trans_le hgrown) hput hkey.symm
      · exact hrecords n line.1 line.2 hline

theorem Acts.counted (hsub : ∀ (i : ℕ) x, (d.lines kind)[i]? = some x → lines[i]? = some x)
    (hkind : ∀ (i : ℕ) x, lines[i]? = some x → x.1.1 = kind.collection)
    (hfew : lines.length+1 < 2^64) (h : Acts d s s') (hs : CountedTo lines kind s) :
    CountedTo lines kind s' ∧ (s.cursor.count kind).toNat ≤ (s'.cursor.count kind).toNat ∧
      Covered lines (s.cursor.count kind).toNat (storeOf s'.records) := by
  induction h with
  | refl => exact ⟨hs,le_rfl,hs.covered⟩
  | @tail t u _ hlast ih =>
      obtain ⟨hmid,hle,hkept⟩ := ih
      rcases hlast.counted_cases hsub hkind hfew with
        ⟨key,document,hline,hrecords,hcount⟩ | ⟨hcount,hrecords⟩
      · have hlt := (List.getElem?_eq_some_iff.mp hline).choose
        have hput := hmid.covered.put le_rfl hline
        rw [← storeOf_update,← hrecords] at hput
        refine ⟨⟨?_,by omega⟩,by omega,?_⟩
        · rcases hcount with hcount | hcount <;> rw [hcount]
          · exact hput
          · refine hput.succ hline ?_
            rw [hrecords,storeOf_update]
            exact Function.update_self _ _ _
        · have := hkept.put hle hline
          rwa [← storeOf_update,← hrecords] at this
      · have hframe (i : ℕ) (k : Key) (v : Except String (Json Double))
            (hline : lines[i]? = some (k,v)) :
            storeOf u.records k = storeOf t.records k :=
          congrArg (Option.map Except.ok) (hrecords i k v hline)
        refine ⟨⟨?_,?_⟩,?_,hkept.frame hframe⟩
        · rw [hcount]
          exact hmid.covered.frame hframe
        · rw [hcount]
          exact hmid.within
        · rw [hcount]
          exact hle

end Acts

/-- What the counts need of a write: a count stays exact in the cursor file, a
valence line has a key of its own and a thought comes behind the published ones. -/
def Host.StableWrite (path : String) (h : Host) : Write → Prop
  | .append _ _ => h.items.length+1 < 2^53
  | .action entry => h.journal.actions.length+1 < 2^53 ∧ ∀ a ∈ h.journal.actions, a.id ≠ entry.id
  | .valence entry => h.journal.valence.length+1 < 2^53 ∧
      ∀ (i : ℕ) v, h.journal.valence[i]? = some v →
        v.atEpoch+.ofNat i ≠ entry.atEpoch+.ofNat h.journal.valence.length
  | .intent _ => h.journal.intents.length+1 < 2^53
  | .thought entry => writeThought h.thoughts entry = h.thoughts ∨
      h.thoughts.length+1 < 2^53 ∧
      ∀ cursor, loadReplicateCursor h.cursorFile path = .ok cursor →
        cursor.thoughtsPublished.toNat ≤ smallerIds h.thoughts entry.id
  | _ => True

def Host.Stable (path : String) (h : Host) : Event → Prop
  | .write w => h.StableWrite path w
  | .drain _ => True

/-- The counts of a cursor, each over the lines of its kind. -/
structure Counting (path : String) (h : Host) (cursor : ReplicateCursor) : Prop where
  ready : Ready path h cursor
  few : ∀ kind, (h.lines kind).length < 2^53
  counted : ∀ kind, CountedTo (h.lines kind) kind ⟨cursor,h.records⟩

section Run
variable {path : String} {config : ReplicateConfig} {h : Host} {cursor c : ReplicateCursor}
  {pass : Pass}

theorem stored_of_small (hsmall : ∀ kind, (c.count kind).toNat ≤ 2^53) : c.stored = c := by
  have hactions := storedCount_of_small (hsmall .actions)
  have hvalence := storedCount_of_small (hsmall .valence)
  have hthoughts := storedCount_of_small (hsmall .thoughts)
  have hintents := storedCount_of_small (hsmall .intents)
  simp only [ReplicateCursor.count] at hactions hvalence hthoughts hintents
  rw [ReplicateCursor.stored,hactions,hvalence,hthoughts,hintents]

theorem lines_collection (h : Host) (kind : Kind) :
    ∀ (i : ℕ) x, (h.lines kind)[i]? = some x → x.1.1 = kind.collection :=
  fun _ _ hx => linesOf_collection hx

theorem input_lines_sub (h : Host) (kind : Kind) :
    ∀ (i : ℕ) x, ((h.input config pass).lines kind)[i]? = some x → (h.lines kind)[i]? = some x := by
  intro i x hx
  rcases input_lines config h pass kind with heq | heq <;> rw [heq] at hx
  · exact hx
  · cases hx

theorem counting_start : Counting path .start {} where
  ready := ready_start
  few kind := by cases kind <;> decide
  counted kind := by cases kind <;> exact ⟨covered_zero _ _,Nat.zero_le _⟩

/-- A pass keeps the counts, with the records it puts. -/
theorem Counting.acts (hc : Counting path h cursor) {records : Records}
    (hacts : Acts (h.input config pass) ⟨cursor,h.records⟩ ⟨c,records⟩) (kind : Kind) :
    CountedTo (h.lines kind) kind ⟨c,records⟩ ∧ CountedTo (h.lines kind) kind ⟨cursor,records⟩ := by
  have hfew := hc.few kind
  obtain ⟨hcounted,-,hkept⟩ := Acts.counted (input_lines_sub h kind) (lines_collection h kind)
    (by omega) hacts (hc.counted kind)
  exact ⟨hcounted,hkept,(hc.counted kind).within⟩

theorem Counting.stored (hc : Counting path h cursor) {records : Records}
    (hacts : Acts (h.input config pass) ⟨cursor,h.records⟩ ⟨c,records⟩) : c.stored = c := by
  refine stored_of_small fun kind => ?_
  have hwithin : (c.count kind).toNat ≤ (h.lines kind).length := ((hc.acts hacts) kind).1.within
  have hfew := hc.few kind
  omega

theorem Counting.drained (hc : Counting path h cursor) :
    ∃ cursor', Counting path (h.drain path config pass) cursor' := by
  obtain ⟨c,cursor',hacts,hready,hcursor⟩ := hc.ready.drained config pass
  refine ⟨cursor',hready,hc.few,fun kind => ?_⟩
  rcases hcursor with rfl | ⟨-,rfl,-⟩
  · exact (hc.acts hacts kind).2
  · rw [hc.stored hacts]
    exact (hc.acts hacts kind).1

/-- A line behind the others. -/
theorem CountedTo.append {lines : List Line} {kind : Kind} {s : Published}
    (hc : CountedTo lines kind s) (more : List Line) : CountedTo (lines++more) kind s :=
  ⟨hc.covered.append hc.within more,hc.within.trans (by rw [List.length_append]; omega)⟩

/-- A thought among the others, behind the published ones. -/
theorem CountedTo.insert {front back : List Line} {line : Line} {kind : Kind} {s : Published}
    (hc : CountedTo (front++back) kind s) (hn : (s.cursor.count kind).toNat ≤ front.length) :
    CountedTo (front++line::back) kind s := by
  refine ⟨hc.covered.change (fun i hi => ?_) fun i x hi hx => ?_,?_⟩
  · rw [List.getElem?_append_left (by omega),List.getElem?_append_left (by omega)]
  · by_cases hfront : i < front.length
    · refine ⟨i,hi,?_⟩
      rw [List.getElem?_append_left hfront] at hx ⊢
      exact hx
    · refine ⟨i+1,by omega,?_⟩
      rw [List.getElem?_append_right (by omega)] at hx ⊢
      rw [show i+1-front.length = (i-front.length)+1 by omega,List.getElem?_cons_succ]
      exact hx
  · have := hc.within
    rw [List.length_append] at this ⊢
    rw [List.length_cons]
    omega

theorem Host.StableWrite.room {w : Write} (hs : h.StableWrite path w) :
    h.Room w ∨ ∃ entry, w = .thought entry ∧ writeThought h.thoughts entry = h.thoughts := by
  cases w with
  | append _ _ => exact .inl hs
  | action entry => exact .inl (show _ < _ by have := hs.1; omega)
  | valence entry => exact .inl (show _ < _ by have := hs.1; omega)
  | intent entry =>
      have hs' : h.journal.intents.length+1 < 2^53 := hs
      exact .inl (show _ < _ by omega)
  | thought entry =>
      rcases hs with hsame | hs
      · exact .inr ⟨entry,rfl,hsame⟩
      · exact .inl (show _ < _ by have := hs.1; omega)
  | commit => exact .inl trivial
  | withdraw => exact .inl trivial

def thoughtLine (thought : Thought) : Line := (thoughtKey 0 thought,thoughtDocument thought)

theorem thought_lines (h : Host) : h.lines .thoughts = (loadThoughts h.thoughts).map thoughtLine := by
  refine List.ext_getElem? fun i => ?_
  simp only [Host.lines,linesOf]
  rw [List.getElem?_mapIdx,List.getElem?_map]
  rfl

/-- A write keeps the counts. -/
theorem Counting.wrote (hc : Counting path h cursor) {w : Write} (hs : h.StableWrite path w) :
    Counting path (h.write w) cursor := by
  rcases hs.room with hroom | ⟨entry,rfl,hsame⟩
  swap
  · have : h.write (.thought entry) = h := by rw [Host.write,hsame]
    rwa [this]
  have hready := (hc.ready.wrote hroom).1
  have hkinds (hfew : ∀ kind, ((h.write w).lines kind).length < 2^53)
      (hcounted : ∀ kind, CountedTo ((h.write w).lines kind) kind ⟨cursor,h.records⟩) :
      Counting path (h.write w) cursor :=
    ⟨hready,hfew,by rw [write_records]; exact hcounted⟩
  cases w with
  | append fault args => exact hkinds hc.few hc.counted
  | commit fault id learned => exact hkinds hc.few hc.counted
  | withdraw fault id => exact hkinds hc.few hc.counted
  | action entry =>
      have hlines : (h.write (.action entry)).lines .actions =
          h.lines .actions++[(actionKey h.journal.actions.length entry,actionDocument entry)] :=
        List.mapIdx_concat
      have hlen := hs.1
      refine hkinds (fun kind => ?_) fun kind => ?_
      · cases kind with
        | actions =>
            rw [hlines,List.length_append,List.length_singleton]
            simpa [Host.lines,linesOf] using hlen
        | valence => exact hc.few .valence
        | thoughts => exact hc.few .thoughts
        | intents => exact hc.few .intents
      · cases kind with
        | actions =>
            rw [hlines]
            exact (hc.counted .actions).append _
        | valence => exact hc.counted .valence
        | thoughts => exact hc.counted .thoughts
        | intents => exact hc.counted .intents
  | valence entry =>
      have hlines : (h.write (.valence entry)).lines .valence =
          h.lines .valence++[(valenceKey h.journal.valence.length entry,valenceDocument entry)] :=
        List.mapIdx_concat
      have hlen := hs.1
      refine hkinds (fun kind => ?_) fun kind => ?_
      · cases kind with
        | actions => exact hc.few .actions
        | valence =>
            rw [hlines,List.length_append,List.length_singleton]
            simpa [Host.lines,linesOf] using hlen
        | thoughts => exact hc.few .thoughts
        | intents => exact hc.few .intents
      · cases kind with
        | actions => exact hc.counted .actions
        | valence =>
            rw [hlines]
            exact (hc.counted .valence).append _
        | thoughts => exact hc.counted .thoughts
        | intents => exact hc.counted .intents
  | intent entry =>
      have hlines : (h.write (.intent entry)).lines .intents =
          h.lines .intents++[(intentKey h.journal.intents.length entry,intentDocument entry)] :=
        List.mapIdx_concat
      have hlen : h.journal.intents.length+1 < 2^53 := hs
      refine hkinds (fun kind => ?_) fun kind => ?_
      · cases kind with
        | actions => exact hc.few .actions
        | valence => exact hc.few .valence
        | thoughts => exact hc.few .thoughts
        | intents =>
            rw [hlines,List.length_append,List.length_singleton]
            simpa [Host.lines,linesOf] using hlen
      · cases kind with
        | actions => exact hc.counted .actions
        | valence => exact hc.counted .valence
        | thoughts => exact hc.counted .thoughts
        | intents =>
            rw [hlines]
            exact (hc.counted .intents).append _
  | thought entry =>
      by_cases hsame : writeThought h.thoughts entry = h.thoughts
      · have : h.write (.thought entry) = h := by rw [Host.write,hsame]
        rwa [this]
      have hwrite : writeThought h.thoughts entry = entry::h.thoughts := by
        rw [writeThought] at hsame ⊢
        split
        · rename_i hrefused
          rw [if_pos hrefused] at hsame
          exact absurd rfl hsame
        · rfl
      obtain ⟨hlen,hbehind⟩ := hs.resolve_left hsame
      obtain ⟨front,back,hold,hnew,hfront⟩ := loadThoughts_cons entry h.thoughts
      have hlines : (h.write (.thought entry)).lines .thoughts =
          front.map thoughtLine++thoughtLine entry::back.map thoughtLine := by
        rw [thought_lines]
        show (loadThoughts (writeThought h.thoughts entry)).map thoughtLine = _
        rw [hwrite,hnew,List.map_append,List.map_cons]
      have hlines' : h.lines .thoughts = front.map thoughtLine++back.map thoughtLine := by
        rw [thought_lines,hold,List.map_append]
      refine hkinds (fun kind => ?_) fun kind => ?_
      · cases kind with
        | actions => exact hc.few .actions
        | valence => exact hc.few .valence
        | thoughts =>
            have hcount := length_loadThoughts h.thoughts
            rw [hold,List.length_append] at hcount
            rw [hlines,List.length_append,List.length_cons,List.length_map,List.length_map]
            omega
        | intents => exact hc.few .intents
      · cases kind with
        | actions => exact hc.counted .actions
        | valence => exact hc.counted .valence
        | thoughts =>
            rw [hlines]
            have hcounted := hc.counted .thoughts
            rw [hlines'] at hcounted
            refine hcounted.insert ?_
            rw [List.length_map,hfront]
            exact hbehind cursor hc.ready.loads
        | intents => exact hc.counted .intents

/-- No two lines of a kind have one key, intents apart. -/
def Unmixed (h : Host) : Prop :=
  ∀ kind, kind ≠ .intents → ((h.lines kind).map Prod.fst).Nodup

theorem nodup_concat {keys : List Key} (h : keys.Nodup) {key : Key} (hnew : key ∉ keys) :
    (keys++[key]).Nodup :=
  List.nodup_append.mpr ⟨h,List.nodup_singleton _,fun a ha b hb => by
    obtain rfl := List.mem_singleton.mp hb
    rintro rfl
    exact hnew ha⟩

theorem writeThought_cases (store : List Thought) (entry : Thought) :
    writeThought store entry = store ∨ (writeThought store entry = entry::store ∧
      ∀ t ∈ store, t.id ≠ entry.id) := by
  rw [writeThought]
  split
  · exact .inl rfl
  · rename_i hopen
    refine .inr ⟨rfl,fun t ht hid => hopen (.inr (.inr ?_))⟩
    exact List.any_eq_true.mpr ⟨t,ht,by simpa using hid⟩

theorem Unmixed.wrote (hu : Unmixed h) {w : Write} (hs : h.StableWrite path w) :
    Unmixed (h.write w) := by
  intro kind hkind
  cases w with
  | append fault args => exact hu kind hkind
  | commit fault id learned => exact hu kind hkind
  | withdraw fault id => exact hu kind hkind
  | action entry =>
      cases kind with
      | actions =>
          have hlines : (h.write (.action entry)).lines .actions =
              h.lines .actions++[(actionKey h.journal.actions.length entry,actionDocument entry)] :=
            List.mapIdx_concat
          rw [hlines,List.map_append]
          refine nodup_concat (hu .actions hkind) fun hmem => ?_
          obtain ⟨line,hline,hkey⟩ := List.mem_map.mp hmem
          obtain ⟨i,hi,rfl⟩ := List.mem_mapIdx.mp hline
          exact hs.2 _ (List.getElem_mem hi) (Prod.mk.inj hkey).2
      | valence => exact hu .valence hkind
      | thoughts => exact hu .thoughts hkind
      | intents => exact absurd rfl hkind
  | valence entry =>
      cases kind with
      | actions => exact hu .actions hkind
      | valence =>
          have hlines : (h.write (.valence entry)).lines .valence =
              h.lines .valence++[(valenceKey h.journal.valence.length entry,
                valenceDocument entry)] :=
            List.mapIdx_concat
          rw [hlines,List.map_append]
          refine nodup_concat (hu .valence hkind) fun hmem => ?_
          obtain ⟨line,hline,hkey⟩ := List.mem_map.mp hmem
          obtain ⟨i,hi,rfl⟩ := List.mem_mapIdx.mp hline
          exact hs.2 i _ (List.getElem?_eq_getElem hi)
            (observationRkey_injective (Prod.mk.inj hkey).2)
      | thoughts => exact hu .thoughts hkind
      | intents => exact absurd rfl hkind
  | intent entry =>
      cases kind with
      | actions => exact hu .actions hkind
      | valence => exact hu .valence hkind
      | thoughts => exact hu .thoughts hkind
      | intents => exact absurd rfl hkind
  | thought entry =>
      cases kind with
      | actions => exact hu .actions hkind
      | valence => exact hu .valence hkind
      | intents => exact absurd rfl hkind
      | thoughts =>
          have hold := hu .thoughts hkind
          rw [thought_lines] at hold ⊢
          show (((loadThoughts (writeThought h.thoughts entry)).map thoughtLine).map _).Nodup
          rcases writeThought_cases h.thoughts entry with hsame | ⟨hwrite,hnew⟩
          · rwa [hsame]
          · rw [hwrite]
            have hperm : (loadThoughts (entry::h.thoughts)).Perm (entry::loadThoughts h.thoughts) :=
              List.perm_orderedInsert _ _ _
            refine (((hperm.map thoughtLine).map Prod.fst).nodup_iff).mpr ?_
            rw [List.map_cons,List.map_cons,List.nodup_cons]
            refine ⟨fun hmem => ?_,hold⟩
            obtain ⟨line,hline,hkey⟩ := List.mem_map.mp hmem
            obtain ⟨t,ht,rfl⟩ := List.mem_map.mp hline
            exact hnew t (mem_loadThoughts.mp ht) (Prod.mk.inj hkey).2

/-- All that a cursor leaves of the host to publish. -/
def Host.left (h : Host) (c : ReplicateCursor) : ℕ :=
  observationsLeft h.items c.nextObservationId+linesLeft (h.lines .actions) (c.count .actions)+
    linesLeft (h.lines .valence) (c.count .valence)+
    linesLeft (h.lines .thoughts) (c.count .thoughts)+
    linesLeft (h.lines .intents) (c.count .intents)

/-- Everything the host has written. -/
def Host.size (h : Host) : ℕ :=
  h.items.length+h.journal.actions.length+h.journal.valence.length+h.thoughts.length+
    h.journal.intents.length

theorem left_le_size (h : Host) (c : ReplicateCursor) : h.left c ≤ h.size := by
  have hobservations := observationsLeft_le h.items c.nextObservationId
  have hthoughts := length_loadThoughts h.thoughts
  simp only [Host.left,Host.size,linesLeft,Host.lines,linesOf,List.length_mapIdx]
  omega

theorem drains_same (path : String) (config : ReplicateConfig) (h : Host) (passes : List Pass) :
    (h.drains path config passes).lines = h.lines ∧
      (h.drains path config passes).items = h.items := by
  induction passes generalizing h with
  | nil => exact ⟨rfl,rfl⟩
  | cons pass rest ih => exact ih (h.drain path config pass)

/-- Passes without failures publish what is left, one record at least each. -/
theorem Counting.drains (hc : Counting path h cursor) (hmax : 1 ≤ config.maxRecordsPerDrain)
    {passes : List Pass} (hworks : ∀ pass ∈ passes, pass.Works) :
    ∃ c, Counting path (h.drains path config passes) c ∧ h.left c ≤ h.left cursor-passes.length := by
  induction passes generalizing h cursor with
  | nil => exact ⟨cursor,hc,le_rfl⟩
  | cons pass rest ih =>
      have hpass := hworks pass List.mem_cons_self
      obtain ⟨c,hacts,hready,hless,-⟩ := hc.ready.worked hmax hpass
      have hstored := hc.stored hacts
      rw [hstored] at hready
      have hleft (c : ReplicateCursor) : (h.input config pass).left c = h.left c := by
        obtain ⟨hjournal,hthoughts,-⟩ := hpass
        simp only [DrainInput.left,DrainInput.lines,Host.input,hjournal,hthoughts,loaded]
        rfl
      rw [hleft,hleft] at hless
      have hnext : Counting path (h.drain path config pass) c :=
        ⟨hready,hc.few,fun kind => (hc.acts hacts kind).1⟩
      obtain ⟨c',hc',hle⟩ := ih hnext fun p hp => hworks p (List.mem_cons_of_mem _ hp)
      have hle' : h.left c' ≤ h.left c-rest.length := hle
      refine ⟨c',hc',?_⟩
      rw [List.length_cons]
      omega

/-- The repository holds the record of a line. -/
def Host.Holds (h : Host) (line : Line) : Prop :=
  ∃ document, line.2 = .ok document ∧ h.records line.1 = some document

/-- Counts of all the lines leave the last line of every key. -/
theorem Counting.holds (hc : Counting path h cursor) (kind : Kind)
    (hdone : linesLeft (h.lines kind) (cursor.count kind) = 0) {i : ℕ} {line : Line}
    (hline : (h.lines kind)[i]? = some line)
    (hlast : ∀ j x, i < j → (h.lines kind)[j]? = some x → x.1 ≠ line.1) : h.Holds line := by
  have hstore := (hc.counted kind).covered.last (Nat.sub_eq_zero_iff_le.mp hdone) hline
    fun j w hj hw => hlast j _ hj hw rfl
  obtain ⟨document,hrecord,hdocument⟩ := Option.map_eq_some_iff.mp hstore
  exact ⟨document,hdocument.symm,hrecord⟩

/-- The record of a line that its count has passed is left alone by all passes. -/
theorem Ready.passed_line (hr : Ready path h cursor) (config : ReplicateConfig) (kind : Kind)
    (hfew : ∀ kind, (h.lines kind).length < 2^53)
    (hwithin : ∀ kind, (cursor.count kind).toNat ≤ (h.lines kind).length)
    (hnodup : ((h.lines kind).map Prod.fst).Nodup) {i : ℕ} {line : Line}
    (hline : (h.lines kind)[i]? = some line) (hi : i < (cursor.count kind).toNat)
    (passes : List Pass) : (h.drains path config passes).records line.1 = h.records line.1 := by
  induction passes generalizing h cursor with
  | nil => rfl
  | cons pass rest ih =>
      obtain ⟨c,cursor',hacts,hready,hcursor⟩ := hr.drained config pass
      have hgrows (k : Kind) := Acts.count_grows (input_lines_sub h k) (lines_collection h k)
        (by have := hfew k; omega) hacts
      have hrecord := Acts.passed_line (input_lines_sub h kind) (lines_collection h kind)
        (by have := hfew kind; omega) hnodup hacts hline hi
      have hc (k : Kind) : (c.count k).toNat ≤ (h.lines k).length := (hgrows k).2 (hwithin k)
      have hsame : c.stored = c := stored_of_small fun k => by
        have := hc k
        have := hfew k
        omega
      refine (ih hready hfew ?_ hnodup hline ?_).trans hrecord
      · rcases hcursor with rfl | ⟨-,rfl,-⟩
        · exact hwithin
        · rw [hsame]
          exact hc
      · rcases hcursor with rfl | ⟨-,rfl,-⟩
        · exact hi
        · rw [hsame]
          exact hi.trans_le (hgrows kind).1

/-- What a repository holds of the host's lines when nothing is left to publish: every action,
valence line and thought, and the last line of every intent. -/
def Host.Delivered (h final : Host) : Prop :=
  (∀ action ∈ h.journal.actions, final.Holds (actionKey 0 action,actionDocument action)) ∧
  (∀ i valence, h.journal.valence[i]? = some valence →
    final.Holds (valenceKey i valence,valenceDocument valence)) ∧
  (∀ thought ∈ h.thoughts, final.Holds (thoughtKey 0 thought,thoughtDocument thought)) ∧
  ∀ i intent, h.journal.intents[i]? = some intent →
    (∀ j other, i < j → h.journal.intents[j]? = some other → other.id ≠ intent.id) →
    final.Holds (intentKey i intent,intentDocument intent)

theorem Counting.delivers (hc : Counting path h cursor) (hunmixed : Unmixed h)
    (hmax : 1 ≤ config.maxRecordsPerDrain) {passes : List Pass}
    (hworks : ∀ pass ∈ passes, pass.Works) (hmany : h.size ≤ passes.length) :
    h.Delivered (h.drains path config passes) := by
  obtain ⟨c,hfinal,hleft⟩ := hc.drains hmax hworks
  have hsize := left_le_size h cursor
  have hnone : h.left c = 0 := by omega
  obtain ⟨hlines,-⟩ := drains_same path config h passes
  have hholds (kind : Kind) {i : ℕ} {line : Line} (hline : (h.lines kind)[i]? = some line)
      (hlast : ∀ j x, i < j → (h.lines kind)[j]? = some x → x.1 ≠ line.1) :
      (h.drains path config passes).Holds line := by
    refine hfinal.holds kind ?_ (by rw [hlines]; exact hline) (by rw [hlines]; exact hlast)
    rw [hlines]
    simp only [Host.left] at hnone
    cases kind <;> omega
  have hdistinct (kind : Kind) (hkind : kind ≠ .intents) {i : ℕ} {line : Line}
      (hline : (h.lines kind)[i]? = some line) : (h.drains path config passes).Holds line :=
    hholds kind hline (not_last_of_nodup (hunmixed kind hkind) hline)
  refine ⟨fun action haction => ?_,fun i valence hvalence => ?_,fun thought hthought => ?_,
    fun i intent hintent hlast => ?_⟩
  · obtain ⟨i,hi⟩ := List.mem_iff_getElem?.mp haction
    refine hdistinct .actions (by decide) (i := i) ?_
    simp only [Host.lines,linesOf,List.getElem?_mapIdx,hi]
    rfl
  · refine hdistinct .valence (by decide) (i := i) ?_
    simp only [Host.lines,linesOf,List.getElem?_mapIdx,hvalence]
    rfl
  · obtain ⟨i,hi⟩ := List.mem_iff_getElem?.mp (mem_loadThoughts.mpr hthought)
    refine hdistinct .thoughts (by decide) (i := i) ?_
    simp only [Host.lines,linesOf,List.getElem?_mapIdx,hi]
    rfl
  · refine hholds .intents (i := i) ?_ fun j x hj hx => ?_
    · simp only [Host.lines,linesOf,List.getElem?_mapIdx,hintent]
      rfl
    · simp only [Host.lines,linesOf,List.getElem?_mapIdx] at hx
      obtain ⟨other,hother,rfl⟩ := Option.map_eq_some_iff.mp hx
      exact fun hkey => hlast j other hj hother (Prod.mk.inj hkey).2

end Run

/-- A run that keeps the counts loses no line: enough passes without failures leave a record of
every action, valence line and thought, and of the last line of every intent. -/
theorem journal_and_thoughts_published (path : String) {config : ReplicateConfig}
    (hmax : 1 ≤ config.maxRecordsPerDrain) {events : List Event}
    (hguard : Guarded (Host.step path config) (Host.Stable path) .start events) :
    let h := runFrom (Host.step path config) Host.start events
    ∀ passes : List Pass, (∀ pass ∈ passes, pass.Works) → h.size ≤ passes.length →
      let final := h.drains path config passes
      (∀ action ∈ h.journal.actions, final.Holds (actionKey 0 action,actionDocument action)) ∧
      (∀ i valence, h.journal.valence[i]? = some valence →
        final.Holds (valenceKey i valence,valenceDocument valence)) ∧
      (∀ thought ∈ h.thoughts, final.Holds (thoughtKey 0 thought,thoughtDocument thought)) ∧
      ∀ i intent, h.journal.intents[i]? = some intent →
        (∀ j other, i < j → h.journal.intents[j]? = some other → other.id ≠ intent.id) →
        final.Holds (intentKey i intent,intentDocument intent) := by
  intro h passes hworks hmany final
  obtain ⟨⟨cursor,hc⟩,hunmixed⟩ : (∃ cursor, Counting path h cursor) ∧ Unmixed h := by
    refine hguard.invariant (P := fun g => (∃ cursor, Counting path g cursor) ∧ Unmixed g)
      (fun g event hg hs => ?_) ⟨⟨_,counting_start⟩,fun kind _ => by cases kind <;> exact List.nodup_nil⟩
    obtain ⟨⟨cursor,hc⟩,hu⟩ := hg
    cases event with
    | write w => exact ⟨⟨cursor,hc.wrote hs⟩,hu.wrote hs⟩
    | drain pass => exact ⟨hc.drained,hu⟩
  exact hc.delivers hunmixed hmax hworks hmany

def sampleThought (id : String) : Thought where
  id := utf8 id
  kind := utf8 "reflection"
  text := []
  aboutUri := []
  time := []
  spanStart := []
  spanEnd := []
  topic := []

def sampleValence (atEpoch : UInt64) : JournalValence where
  token := []
  kind := []
  signal := Double.toSingle (.finite 0)
  source := []
  atEpoch
  time := []
  provenance := []

/-- A thought and a valence line, with a pass behind each. -/
def stableRun : List Event :=
  [.write (.thought (sampleThought "a")),.drain steadyPass,.write (.thought (sampleThought "b")),
    .write (.valence (sampleValence 9)),.drain steadyPass,.write (.valence (sampleValence 10))]

theorem journal_and_thoughts_published_sample :
    Guarded (Host.step "cursor.json" {}) (Host.Stable "cursor.json") .start stableRun ∧
    ∀ thought ∈ (sampleHost stableRun).thoughts,
      ((sampleHost stableRun).drains "cursor.json" {} (List.replicate 4 steadyPass)).Holds
        (thoughtKey 0 thought,thoughtDocument thought) := by
  have hguard : Guarded (Host.step "cursor.json" {}) (Host.Stable "cursor.json") .start
      stableRun := by
    refine ⟨.inr ⟨by decide,fun cursor hload => ?_⟩,trivial,
      .inr ⟨by decide +kernel,fun cursor hload => ?_⟩,⟨by decide +kernel,fun i v hv => ?_⟩,trivial,
      ⟨by decide +kernel,fun i v hv => ?_⟩,trivial⟩
    · obtain rfl : ({} : ReplicateCursor) = cursor := Except.ok.inj hload
      decide
    · have hcount : (loadReplicateCursor (sampleHost (stableRun.take 2)).cursorFile
          "cursor.json").toOption.map ReplicateCursor.thoughtsPublished = some 1 := by
        decide +kernel
      rw [show loadReplicateCursor (sampleHost (stableRun.take 2)).cursorFile "cursor.json" =
        .ok cursor from hload] at hcount
      rw [show cursor.thoughtsPublished = 1 from Option.some.inj hcount]
      decide +kernel
    · cases hv
    · obtain ⟨rfl,rfl⟩ : i = 0 ∧ sampleValence 9 = v := by
        cases i with
        | zero => exact ⟨rfl,Option.some.inj hv⟩
        | succ i => cases hv
      decide
  refine ⟨hguard,(journal_and_thoughts_published "cursor.json" (by decide) hguard
    (List.replicate 4 steadyPass) (fun pass hpass => ?_) (by decide +kernel)).2.2.1⟩
  rw [List.eq_of_mem_replicate hpass]
  exact ⟨rfl,rfl,fun _ => rfl,rfl⟩

/-- A thought written below the one that is published. -/
def insertedRun : List Event :=
  [.write (.thought (sampleThought "b")),.drain steadyPass,.write (.thought (sampleThought "a"))]

/-- Two valence lines whose times differ by one, the later line first in time. -/
def meetingRun : List Event :=
  [.write (.valence (sampleValence 10)),.write (.valence (sampleValence 9))]

/-- However many passes follow, the inserted thought has no record, and no repository holds both
valence lines. -/
theorem lines_unpublished :
    (∀ passes, ((sampleHost insertedRun).drains "cursor.json" {} passes).records
      (thoughtKey 0 (sampleThought "a")) = none) ∧
    ∀ passes, ¬∀ i valence, (sampleHost meetingRun).journal.valence[i]? = some valence →
      ((sampleHost meetingRun).drains "cursor.json" {} passes).Holds
        (valenceKey i valence,valenceDocument valence) := by
  constructor
  · intro passes
    have hrooms : Guarded (Host.step "cursor.json" {}) Host.Roomy .start insertedRun :=
      ⟨by change _ < _; decide,trivial,by change _ < _; decide +kernel,trivial⟩
    obtain ⟨cursor,hr⟩ : ∃ cursor, Ready "cursor.json" (sampleHost insertedRun) cursor :=
      hrooms.invariant (P := fun g => ∃ c, Ready "cursor.json" g c)
        (fun g a hs hg => Ready.step hs hg) ⟨{},ready_start⟩
    have hload : (loadReplicateCursor (sampleHost insertedRun).cursorFile
        "cursor.json").toOption = some { thoughtsPublished := 1 } := by
      decide +kernel
    rw [hr.loads] at hload
    obtain rfl : cursor = { thoughtsPublished := 1 } := Option.some.inj hload
    have hkeys : ((sampleHost insertedRun).lines .thoughts).map Prod.fst =
        [thoughtKey 0 (sampleThought "a"),thoughtKey 0 (sampleThought "b")] := by
      decide +kernel
    obtain ⟨line,hline,hkey⟩ : ∃ line, ((sampleHost insertedRun).lines .thoughts)[0]? = some line ∧
        line.1 = thoughtKey 0 (sampleThought "a") := by
      have := congrArg (·[0]?) hkeys
      simp only [List.getElem?_map] at this
      exact Option.map_eq_some_iff.mp this
    have hleft := hr.passed_line {} .thoughts (fun kind => by cases kind <;> decide +kernel)
      (fun kind => by cases kind <;> decide +kernel) (by rw [hkeys]; decide +kernel) hline
      (by decide) passes
    rw [← hkey,hleft,hkey]
    have hnone : ((sampleHost insertedRun).records
        (thoughtKey 0 (sampleThought "a"))).isNone = true := by
      decide +kernel
    exact Option.isNone_iff_eq_none.mp hnone
  · intro passes hall
    obtain ⟨first,hfirst,hrecord⟩ := hall 0 (sampleValence 10) rfl
    obtain ⟨second,hsecond,hrecord'⟩ := hall 1 (sampleValence 9) rfl
    have hkeys : valenceKey 0 (sampleValence 10) = valenceKey 1 (sampleValence 9) := by
      decide +kernel
    rw [hkeys] at hrecord
    obtain rfl := Option.some.inj (hrecord.symm.trans hrecord')
    have hdocuments : valenceDocument (sampleValence 10) = valenceDocument (sampleValence 9) :=
      hfirst.trans hsecond.symm
    have hepochs : some (u64String 10) = some (u64String 9) :=
      congrArg (fun document : Json Double => document.get? "atEpoch") (Except.ok.inj hdocuments)
    have htexts : decimalString 10 = decimalString 9 :=
      Json.string.inj (Option.some.inj hepochs)
    exact absurd htexts (by decide +kernel)

end Atperson.Replicate
