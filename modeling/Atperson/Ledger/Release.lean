import Atperson.Ledger.Clean

/-!
# Size-capped release

A release over the cap gives up the shortest run of the oldest releasable texts that
covers what the log is over its target, or all of them. The plan and the pass are two
loops; both are the same count over the sizes of the releasable texts, `prefixCount`.

The bound on the log rests on an account of its bytes: what a rewrite would write never
exceeds the committed log, since patch records and dropped texts only add to the latter,
and every byte released is a byte less to write.
-/
namespace Atperson.Ledger
open Wire

/-! ## The shortest prefix that covers a need -/

def prefixCount : ℕ → List ℕ → ℕ
  | _, [] => 0
  | need, n::ns => if need = 0 then 0 else prefixCount (need-n) ns+1

/-- The first `k` numbers cover the need or are all there are, and no fewer do. -/
structure ShortestPrefix (need : ℕ) (ns : List ℕ) (k : ℕ) : Prop where
  inside : k ≤ ns.length
  covers : need ≤ (ns.take k).sum ∨ k = ns.length
  shortest : ∀ j < k, (ns.take j).sum < need

theorem prefixCount_shortest (need : ℕ) (ns : List ℕ) :
    ShortestPrefix need ns (prefixCount need ns) := by
  induction ns generalizing need with
  | nil => exact ⟨le_rfl,.inr rfl,fun j hj => absurd hj (Nat.not_lt_zero j)⟩
  | cons n ns ih =>
      unfold prefixCount
      split
      · rename_i h0
        subst h0
        exact ⟨Nat.zero_le _,.inl (Nat.zero_le _),fun j hj => absurd hj (Nat.not_lt_zero j)⟩
      · rename_i h0
        obtain ⟨hin,hcov,hshort⟩ := ih (need-n)
        refine ⟨Nat.succ_le_succ hin,?_,?_⟩
        · rw [List.take_succ_cons,List.sum_cons,List.length_cons]
          omega
        · intro j hj
          cases j with
          | zero => simpa using Nat.pos_of_ne_zero h0
          | succ j =>
              have := hshort j (by omega)
              rw [List.take_succ_cons,List.sum_cons]
              omega

/-! ## What a release does to the entries -/

def releasableSizes (items : List Item) : List ℕ :=
  (items.filter Item.releasable).map fun it => it.payload.retained.length

/-- Withdrawn text is dropped by every rewrite. -/
def dropWithdrawn (it : Item) : Item :=
  if it.outcome = .withdrawn ∧ it.payload.holdsText then it.withPayload (.text .none) else it

/-- Release the first `k` releasable texts and drop what is withdrawn. -/
def releaseFirst : ℕ → List Item → List Item
  | _, [] => []
  | 0, it::rest => dropWithdrawn it::releaseFirst 0 rest
  | k+1, it::rest =>
      if it.releasable then it.withPayload .released::releaseFirst k rest
      else dropWithdrawn it::releaseFirst (k+1) rest

theorem releasableSizes_cons (it : Item) (rest : List Item) :
    releasableSizes (it::rest) =
      if it.releasable then it.payload.retained.length::releasableSizes rest
      else releasableSizes rest := by
  unfold releasableSizes
  rw [List.filter_cons]
  split <;> rfl

theorem planItems_eq (need bytes payloads : ℕ) (items : List Item) :
    planItems need (bytes,payloads) items =
      (bytes+((releasableSizes items).take (prefixCount (need-bytes) (releasableSizes items))).sum,
        payloads+prefixCount (need-bytes) (releasableSizes items)) := by
  induction items generalizing bytes payloads with
  | nil => simp [planItems,releasableSizes,prefixCount]
  | cons it rest ih =>
      unfold planItems
      by_cases hcov : need ≤ bytes
      · have h0 : need-bytes = 0 := by omega
        have hk : ∀ ns, prefixCount 0 ns = 0 := fun ns => by cases ns <;> simp [prefixCount]
        rw [if_pos hcov,h0,hk]
        simp
      · rw [if_neg hcov,releasableSizes_cons]
        by_cases hr : it.releasable = true
        · rw [if_pos hr,if_pos hr,ih,prefixCount,if_neg (by omega),List.take_succ_cons,
            List.sum_cons,Nat.sub_sub]
          refine Prod.ext ?_ ?_ <;> simp only <;> omega
        · rw [if_neg hr,if_neg hr,ih]

@[simp] theorem prefixCount_zero (ns : List ℕ) : prefixCount 0 ns = 0 := by
  cases ns <;> simp [prefixCount]

@[simp] theorem releaseFirst_zero (it : Item) (rest : List Item) :
    releaseFirst 0 (it::rest) = dropWithdrawn it::releaseFirst 0 rest := rfl

theorem releaseFirst_skip {it : Item} (h : ¬it.releasable = true) (k : ℕ) (rest : List Item) :
    releaseFirst k (it::rest) = dropWithdrawn it::releaseFirst k rest := by
  cases k with
  | zero => rfl
  | succ k => rw [releaseFirst,if_neg h]

theorem releaseFirst_take {it : Item} (h : it.releasable = true) (k : ℕ) (rest : List Item) :
    releaseFirst (k+1) (it::rest) = it.withPayload .released::releaseFirst k rest := by
  rw [releaseFirst,if_pos h]

theorem passItem_spared {need : ℕ} {p : Pass} {it : Item}
    (h : ¬(p.releasedBytes < need ∧ it.releasable = true)) :
    (passItem need p it).1.releasedBytes = p.releasedBytes ∧
      (passItem need p it).1.payloadsReleased = p.payloadsReleased ∧
      (passItem need p it).2 = dropWithdrawn it := by
  have hc : ¬(0 < need ∧ p.releasedBytes < need ∧ it.releasable) := fun hc => h hc.2
  rw [passItem_item,if_neg hc]
  simp only [passItem,releaseItem,if_neg hc,dropItem,dropWithdrawn]
  split <;> simp

theorem passItem_released {need : ℕ} {p : Pass} {it : Item} (hb : p.releasedBytes < need)
    (hr : it.releasable = true) :
    (passItem need p it).1.releasedBytes = p.releasedBytes+it.payload.retained.length ∧
      (passItem need p it).1.payloadsReleased = p.payloadsReleased+1 ∧
      (passItem need p it).2 = it.withPayload .released := by
  have hc : 0 < need ∧ p.releasedBytes < need ∧ it.releasable = true := ⟨by omega,hb,hr⟩
  rw [passItem_item,if_pos hc]
  simp only [passItem,releaseItem,if_pos hc,dropItem]
  split <;> simp

/-- The pass releases what the count says. -/
theorem passItems_release {need : ℕ} {fault : Option ℕ} {p q : Pass}
    {items items' : List Item} (h : passItems need fault p items = (q,items',true)) :
    q.payloadsReleased =
        p.payloadsReleased+prefixCount (need-p.releasedBytes) (releasableSizes items) ∧
      items' = releaseFirst (prefixCount (need-p.releasedBytes) (releasableSizes items)) items := by
  induction items generalizing fault p items' with
  | nil =>
      obtain ⟨rfl,rfl,-⟩ := by simpa [passItems] using h
      simp [releasableSizes,prefixCount,releaseFirst]
  | cons it rest ih =>
      simp only [passItems] at h
      split at h
      · simp at h
      · simp only [Prod.mk.injEq] at h
        obtain ⟨rfl,rfl,hok⟩ := h
        obtain ⟨hcount,htail⟩ := ih (Prod.ext rfl (Prod.ext rfl hok))
        suffices hone : (passItem need p it).1.payloadsReleased+
              prefixCount (need-(passItem need p it).1.releasedBytes) (releasableSizes rest) =
            p.payloadsReleased+prefixCount (need-p.releasedBytes) (releasableSizes (it::rest)) ∧
            (passItem need p it).2::releaseFirst (prefixCount
              (need-(passItem need p it).1.releasedBytes) (releasableSizes rest)) rest =
            releaseFirst (prefixCount (need-p.releasedBytes) (releasableSizes (it::rest)))
              (it::rest) from
          ⟨hcount.trans hone.1,(congrArg ((passItem need p it).2::·) htail).trans hone.2⟩
        by_cases hr : it.releasable = true
        · by_cases hb : p.releasedBytes < need
          · obtain ⟨h1,h2,h3⟩ := passItem_released hb hr
            rw [h1,h2,h3,releasableSizes_cons,if_pos hr,prefixCount,if_neg (by omega),
              releaseFirst_take hr,Nat.sub_sub]
            exact ⟨by omega,rfl⟩
          · obtain ⟨h1,h2,h3⟩ := passItem_spared (fun hc => hb hc.1)
            have h0 : need-p.releasedBytes = 0 := by omega
            rw [h1,h2,h3,h0]
            simp
        · obtain ⟨h1,h2,h3⟩ := passItem_spared fun hc => hr hc.2
          rw [h1,h2,h3,releasableSizes_cons,if_neg hr,releaseFirst_skip hr]
          exact ⟨rfl,rfl⟩

/-! ## The account of the log's bytes -/

def imageSize (items : List Item) : ℕ := ledgerHeaderSize+(items.map recordSize).sum

theorem logImage_size (items : List Item) : (logImage items).length = imageSize items := by
  rw [logImage_length,imageSize,records,List.length_flatMap]
  rfl

theorem recordSize_withPayload (it : Item) (p : Payload) :
    recordSize (it.withPayload p)+it.payload.retained.length =
      recordSize it+p.retained.length := by
  rw [recordSize_eq,recordSize_eq,serializeEntry_length,serializeEntry_length]
  simp only [Item.withPayload_entry,Item.withPayload_context,Item.withPayload_payload]
  omega

theorem recordSize_dropWithdrawn (it : Item) : recordSize (dropWithdrawn it) ≤ recordSize it := by
  unfold dropWithdrawn
  split
  · have h := recordSize_withPayload it (.text .none)
    have h0 : (Payload.text .none).retained.length = 0 := rfl
    omega
  · exact le_rfl

theorem recordSize_withOutcome (o : Outcome) (it : Item) :
    recordSize (it.withOutcome o) = recordSize it := by
  rw [recordSize_eq,recordSize_eq,serializeEntry_length,serializeEntry_length]
  rfl

/-- Every byte released is a byte less to write. -/
theorem releaseFirst_size (k : ℕ) (items : List Item) :
    ((releaseFirst k items).map recordSize).sum+((releasableSizes items).take k).sum ≤
      (items.map recordSize).sum := by
  induction items generalizing k with
  | nil => simp [releaseFirst,releasableSizes]
  | cons it rest ih =>
      rw [releasableSizes_cons]
      by_cases hr : it.releasable = true
      · rw [if_pos hr]
        cases k with
        | zero =>
            have := ih 0
            have := recordSize_dropWithdrawn it
            simp only [releaseFirst_zero,List.map_cons,List.sum_cons,List.take_zero,
              List.sum_nil] at *
            omega
        | succ k =>
            have := ih k
            have hp := recordSize_withPayload it .released
            have h0 : Payload.released.retained.length = 0 := rfl
            rw [releaseFirst_take hr]
            simp only [List.map_cons,List.sum_cons,List.take_succ_cons]
            omega
      · rw [if_neg hr,releaseFirst_skip hr]
        have := ih k
        have := recordSize_dropWithdrawn it
        simp only [List.map_cons,List.sum_cons]
        omega

theorem dropWithdrawn_not_releasable {it : Item} (h : ¬it.releasable = true) :
    (dropWithdrawn it).releasable = false := by
  unfold dropWithdrawn
  split
  · simp [Item.releasable,Payload.holdsText,PayloadText.none]
  · simpa using h

/-- When everything was released, nothing that is learned or skipped holds text. -/
theorem releaseFirst_all {k : ℕ} {items : List Item} (h : (releasableSizes items).length ≤ k) :
    ∀ it ∈ releaseFirst k items, it.releasable = false := by
  induction items generalizing k with
  | nil => simp [releaseFirst]
  | cons it rest ih =>
      rw [releasableSizes_cons] at h
      by_cases hr : it.releasable = true
      · rw [if_pos hr,List.length_cons] at h
        cases k with
        | zero => omega
        | succ k =>
            rw [releaseFirst_take hr]
            intro x hx
            rcases List.mem_cons.mp hx with rfl | hx
            · simp [Item.releasable,Payload.holdsText]
            · exact ih (by omega) x hx
      · rw [if_neg hr] at h
        rw [releaseFirst_skip hr]
        intro x hx
        rcases List.mem_cons.mp hx with rfl | hx
        · exact dropWithdrawn_not_releasable hr
        · exact ih h x hx

/-! ## The account over runs -/

def headerFor (items : List Item) : Bytes :=
  if anyReleased items then releasedHeader else currentHeader

theorem logImage_take (items : List Item) :
    (logImage items).take ledgerHeaderSize = headerFor items := by
  unfold logImage headerFor
  split
  · exact List.take_left' releasedHeader_length
  · exact List.take_left' currentHeader_length

/-- A sound session whose log is no shorter than its rewrite and has the header its
payloads need. -/
structure Accounted (s : Session) : Prop where
  sound : Sound s
  size : imageSize s.handle.items ≤ s.handle.committedOffset
  header : ∃ log, s.disk.log = some log ∧ log.take ledgerHeaderSize = headerFor s.handle.items

section Accounted
variable {migrate : ℕ → Disk → Disk×Status} {s s' : Session}

theorem accounted_created : Accounted createdSession :=
  ⟨sound_created,by decide,currentHeader,rfl,by decide⟩

theorem anyReleased_append_text (items : List Item) (v : Observation) :
    anyReleased (items++[v.item]) = anyReleased items := by
  simp [anyReleased,Observation.item]

theorem anyReleased_setOutcomeAt (i : ℕ) (o : Outcome) (items : List Item) :
    anyReleased (setOutcomeAt i o items) = anyReleased items := by
  have h : ∀ l : List Item, anyReleased l = (l.map Item.payload).any (· = .released) := fun l => by
    rw [List.any_map]
    rfl
  rw [h,h]
  congr 1
  refine List.ext_getElem? fun j => ?_
  rw [List.getElem?_map,getElem?_setOutcomeAt,List.getElem?_map]
  split <;> simp [Option.map_map,Function.comp_def]

theorem recordSizes_setOutcomeAt (i : ℕ) (o : Outcome) (items : List Item) :
    (setOutcomeAt i o items).map recordSize = items.map recordSize := by
  refine List.ext_getElem? fun j => ?_
  rw [List.getElem?_map,getElem?_setOutcomeAt,List.getElem?_map]
  split <;> simp [Option.map_map,Function.comp_def,recordSize_withOutcome]

theorem header_written (h : Accounted s) {record : Bytes} {off : Option Bytes}
    (hc : CommitWritten s s' record off) {items : List Item}
    (hany : anyReleased items = anyReleased s.handle.items) :
    ∃ log, s'.disk.log = some log ∧ log.take ledgerHeaderSize = headerFor items := by
  obtain ⟨log,hlog,hhead⟩ := h.header
  obtain ⟨log',hclean⟩ := h.sound.clean
  have hb : s.disk.logBytes = log := by rw [Disk.logBytes,hlog,Option.getD_some]
  obtain rfl : log = log' := by rw [← hb,hclean.logBytes]
  refine ⟨_,hc.log,?_⟩
  rw [hb,List.take_append_of_le_length hclean.header.1,hhead,headerFor,headerFor,hany]

theorem Accounted.advance (h : Accounted s) (hstep : Advance migrate s s') : Accounted s' := by
  have hsound := h.sound.advance hstep
  have hsize := h.size
  cases hstep with
  | @appended a v s' hd hc =>
      refine ⟨hsound,?_,header_written h hc (anyReleased_append_text _ v)⟩
      have hoff : (s'.withItems (s.handle.items++[v.item])).handle.committedOffset =
          s.handle.committedOffset+recordSize v.item := hc.offset
      rw [hoff]
      show imageSize (s.handle.items++[v.item]) ≤ _
      simp only [imageSize,List.map_append,List.sum_append,List.map_cons,List.map_nil,
        List.sum_cons,List.sum_nil] at hsize ⊢
      omega
  | @changed id byte o s' hd hc =>
      refine ⟨hsound,?_,header_written h hc (anyReleased_setOutcomeAt _ _ _)⟩
      have hoff : (s'.withItems (setOutcomeAt (id.toNat-1) o s.handle.items)).handle.committedOffset =
          s.handle.committedOffset+(buildRecord (patchFrame id o)).length := hc.offset
      rw [hoff]
      show imageSize (setOutcomeAt _ _ _) ≤ _
      rw [imageSize,recordSizes_setOutcomeAt]
      exact hsize.trans (Nat.le_add_right _ _)
  | rewritten hrw hlog hmark hoff hmax =>
      refine ⟨hsound,?_,_,hlog,logImage_take _⟩
      rw [hoff,logImage_size]
  | reopened ho =>
      obtain ⟨-,hhandle,hlog⟩ := h.sound.reopen ho
      refine ⟨hsound,by rw [hhandle]; exact hsize,?_⟩
      rw [hhandle,hlog]
      exact h.header

theorem Accounted.runOps (h : Accounted s) {ops : List (Faults×Op)} {statuses : List Status}
    (hr : Ledger.runOps migrate s ops = some (s',statuses)) (hok : ∀ st ∈ statuses, st ≠ .io) :
    Accounted s' :=
  (runOps_advances hr hok).invariant h fun _ _ ha hstep => ha.advance hstep

end Accounted

/-! ## A successful rewrite -/

theorem swapLog_ok {fault : Option CompactFault} {s : Session} {image : Bytes}
    {report : CompactReport} (hok : (swapLog fault s image report).status = .ok) :
    swapLog fault s image report =
      ⟨⟨writeOff {s.disk with off := none,logTmp := none,log := some image} s.handle.items.length
          image.length,{s.handle with committedOffset := image.length}⟩,true,.ok,
        {report with bytesAfter := image.length}⟩ := by
  unfold swapLog at hok ⊢
  by_cases h1 : fault = some .rename
  · simp [h1] at hok
  simp only [if_neg h1] at hok ⊢
  by_cases h2 : fault = some .closeLog ∨ fault = some .reopen
  · simp [h2] at hok
  simp only [if_neg h2] at hok ⊢
  by_cases h3 : fault = some .seek
  · simp [h3] at hok
  simp only [if_neg h3] at hok ⊢
  split at hok
  · rename_i f
    cases f <;> simp [tryWriteOff] at hok
  · rfl

/-- What a rewrite with a budget left when it succeeded: the first `k` releasable texts are
gone, in memory and in the log. -/
structure Released (s : Session) (k : ℕ) (r : CompactReply) : Prop where
  items : r.session.handle.items = releaseFirst k s.handle.items
  log : r.session.disk.log = some (logImage r.session.handle.items)
  offset : r.session.handle.committedOffset = (logImage r.session.handle.items).length
  before : r.report.bytesBefore = s.handle.committedOffset
  after : r.report.bytesAfter = r.session.handle.committedOffset
  count : r.report.payloadsReleased = k

theorem rewriteLog_ok {fault : Option CompactFault} {s : Session} {releaseBytes : ℕ}
    {report : CompactReport} (hbefore : report.bytesBefore = s.handle.committedOffset)
    (hok : (rewriteLog fault s releaseBytes report).status = .ok) :
    Released s (prefixCount releaseBytes (releasableSizes s.handle.items))
      (rewriteLog fault s releaseBytes report) := by
  unfold rewriteLog at hok ⊢
  simp only at hok ⊢
  split at hok
  · simp at hok
  · rename_i hpass
    rw [if_neg hpass]
    simp only [not_or,Bool.not_eq_false] at hpass
    have heq : passItems releaseBytes (recordFault fault) .start s.handle.items =
        (_,_,true) := Prod.ext rfl (Prod.ext rfl hpass.1)
    obtain ⟨hcount,hitems⟩ := passItems_release heq
    have himage := (passItems_image hpass.1).1
    rw [himage] at hok ⊢
    rw [swapLog_ok hok]
    refine ⟨hitems,rfl,rfl,hbefore,rfl,?_⟩
    simpa [Pass.start] using hcount

theorem compactRelease_ok {fault : Option CompactFault} {wantReport : Bool} {s : Session}
    {releaseBytes : ℕ} (hok : (compactRelease fault wantReport s releaseBytes).status = .ok) :
    Released s (prefixCount releaseBytes (releasableSizes s.handle.items))
      (compactRelease fault wantReport s releaseBytes) := by
  unfold compactRelease at hok ⊢
  split at hok
  · rename_i e he
    simp only at hok
    subst hok
    split at he
    · exact absurd rfl (scanReport_error he)
    · cases he
  · simp only at hok ⊢
    split at hok
    · simp at hok
    · split at hok
      · simp at hok
      · rename_i h1 h2
        rw [if_neg h1,if_neg h2]
        exact rewriteLog_ok rfl hok

/-! ## The plan -/

theorem subU64_of_le {a b : ℕ} (hb : b ≤ a) (ha : a < 2^64) : subU64 a b = a-b := by
  unfold subU64
  omega

theorem releaseTarget_le (maxBytes : ℕ) : releaseTarget maxBytes ≤ maxBytes := Nat.sub_le _ _

theorem releasableSizes_nil {items : List Item} (h : items.any Item.releasable = false) :
    releasableSizes items = [] := by
  rw [List.any_eq_false] at h
  rw [releasableSizes,List.map_eq_nil_iff,List.filter_eq_nil_iff]
  exact fun it hit => h it hit

theorem imageSize_releaseFirst (k : ℕ) (items : List Item) :
    imageSize (releaseFirst k items)+((releasableSizes items).take k).sum ≤ imageSize items := by
  have := releaseFirst_size k items
  unfold imageSize
  omega

section Plan
variable {s : Session} {maxBytes : ℕ}

theorem Accounted.offset_lt (h : Accounted s) : s.handle.committedOffset < 2^63 := by
  obtain ⟨log,hclean⟩ := h.sound.clean
  have := hclean.size
  rw [hclean.offset]
  simp only [fileMax] at this
  omega

/-- The plan over the cap, with neither subtraction wrapping. -/
theorem Accounted.plan (h : Accounted s) (hcap : 0 < maxBytes)
    (hover : maxBytes < s.handle.committedOffset) {k : ℕ}
    (hk : k = prefixCount (s.handle.committedOffset-releaseTarget maxBytes)
      (releasableSizes s.handle.items)) :
    releasePlan s.handle maxBytes = (.ok,{CompactReport.zero with
      bytesBefore := s.handle.committedOffset
      payloadsReleased := k
      bytesAfter := s.handle.committedOffset-((releasableSizes s.handle.items).take k).sum}) := by
  subst hk
  have hoff := h.offset_lt
  have htarget := releaseTarget_le maxBytes
  have hsum := imageSize_releaseFirst (prefixCount (s.handle.committedOffset-releaseTarget maxBytes)
    (releasableSizes s.handle.items)) s.handle.items
  have hsize := h.size
  unfold releasePlan
  simp only [if_neg hcap.ne',if_neg (Nat.not_le.mpr hover)]
  rw [planItems_eq,subU64_of_le (by omega) (by omega)]
  simp only [Nat.zero_add,Nat.sub_zero]
  rw [subU64_of_le (by omega) (by omega)]

end Plan

/-! ## What a release promises -/

theorem rewritten_kept {items items' : List Item} (h : List.Forall₂ Rewritten items items')
    {i : ℕ} {it : Item} (hi : items[i]? = some it) :
    ∃ it', items'[i]? = some it' ∧ Rewritten it it' := by
  obtain ⟨hlt,rfl⟩ := List.getElem?_eq_some_iff.mp hi
  have hlt' : i < items'.length := h.length_eq ▸ hlt
  exact ⟨items'[i],List.getElem?_eq_getElem _,List.forall₂_iff_get.mp h |>.2 i hlt hlt'⟩

theorem lookup_of_entries {items items' : List Item}
    (h : items'.map Item.entry = items.map Item.entry) (source : Bytes) (digest : UInt64) :
    lookup items' source digest = lookup items source digest := by
  have hfind : ∀ l : List Item, (indexFind l source digest).map Item.entry =
      (l.map Item.entry).find? fun e => (e.sourceId.bytes,e.contentDigest) = (source,digest) :=
    fun l => by
      rw [List.find?_map]
      rfl
  have hlook : ∀ l : List Item, lookup l source digest =
      match (indexFind l source digest).map Item.entry with
      | none => (.notFound,none)
      | some e => (if e.outcome.isCommitted then .existsCommitted else .existsPending,some e) :=
    fun l => by
      rw [lookup]
      cases indexFind l source digest <;> rfl
  rw [hlook,hlook,hfind,hfind,h]

/-- The log is over the cap and has text to give up. -/
def ReleaseDue (s : Session) (maxBytes : ℕ) : Prop :=
  maxBytes < s.handle.committedOffset ∧ s.handle.items.any Item.releasable = true

/-- What every entry keeps: all but the text of what was learned, skipped or withdrawn. -/
structure Spared (items items' : List Item) : Prop where
  length : items'.length = items.length
  each : ∀ (i : ℕ) (it : Item), items[i]? = some it → ∃ it', items'[i]? = some it' ∧
    it'.entry = it.entry ∧ it'.context = it.context ∧
      (it.outcome = .pending ∨ it.outcome = .failed → it'.payload = it.payload)
  lookups : ∀ source digest, lookup items' source digest = lookup items source digest

theorem spared_of_rewritten {items items' : List Item} (h : List.Forall₂ Rewritten items items') :
    Spared items items' := by
  refine ⟨h.length_eq.symm,fun i it hi => ?_,lookup_of_entries (rewritten_entries h)⟩
  obtain ⟨it',hi',hrw⟩ := rewritten_kept h hi
  refine ⟨it',hi',hrw.entry,hrw.context,fun hopen => ?_⟩
  rcases hrw.payload with hp | ⟨hr,-⟩ | ⟨hw,-⟩
  · exact hp
  · rcases hopen with ho | ho <;> simp [Item.releasable,ho] at hr
  · rcases hopen with ho | ho <;> rw [ho] at hw <;> cases hw

/-- A log that opens to the handle, with the version-4 header exactly when some entry is
released. -/
def OpensStamped (migrate : ℕ → Disk → Disk×Status) (s : Session) : Prop :=
  ∃ s' log, reopen migrate s.disk = some s' ∧ s'.handle = s.handle ∧ s'.disk.log = some log ∧
    headerAccepted (log.take ledgerHeaderSize) = true ∧
    (log.take ledgerHeaderSize = releasedHeader ↔
      ∃ it ∈ s.handle.items, it.payload = .released)

theorem Accounted.opensStamped {s : Session} (h : Accounted s)
    (migrate : ℕ → Disk → Disk×Status) : OpensStamped migrate s := by
  obtain ⟨log,hclean⟩ := h.sound.clean
  obtain ⟨log',hlog,hhead⟩ := h.header
  obtain rfl : log = log' := Option.some.inj (hclean.file.symm.trans hlog)
  refine ⟨⟨discardStaging s.disk,s.handle⟩,log,?_,rfl,hlog,hclean.header.2,?_⟩
  · rw [reopen,hclean.reopen migrate]
  · have hne : currentHeader ≠ releasedHeader := by decide
    rw [hhead,headerFor]
    have hany : anyReleased s.handle.items = true ↔
        ∃ it ∈ s.handle.items, it.payload = .released := by simp [anyReleased]
    rw [← hany]
    split <;> simp [*]

structure ReleaseMeets (migrate : ℕ → Disk → Disk×Status) (s : Session) (maxBytes : ℕ)
    (r : CompactReply) : Prop where
  bound : r.session.handle.committedOffset ≤ maxBytes ∨
    ∀ it ∈ r.session.handle.items, it.releasable = false
  prefix_released : ReleaseDue s maxBytes → ∃ k,
    ShortestPrefix (s.handle.committedOffset-releaseTarget maxBytes)
        (releasableSizes s.handle.items) k ∧
      r.session.handle.items = releaseFirst k s.handle.items ∧ r.report.payloadsReleased = k
  idle : ¬ReleaseDue s maxBytes → r.session = s
  plan : (releasePlan s.handle maxBytes).1 = .ok ∧
    (releasePlan s.handle maxBytes).2.payloadsReleased = r.report.payloadsReleased ∧
    r.report.bytesAfter ≤ (releasePlan s.handle maxBytes).2.bytesAfter
  bytesAfter : r.report.bytesAfter = r.session.handle.committedOffset
  spared : Spared s.handle.items r.session.handle.items
  stamped : OpensStamped migrate r.session

section Meets
variable {migrate : ℕ → Disk → Disk×Status} {s : Session} {maxBytes : ℕ}

theorem Accounted.idle_meets (h : Accounted s) (hcap : 0 < maxBytes)
    (hdue : ¬ReleaseDue s maxBytes) : ReleaseMeets migrate s maxBytes
      ⟨s,true,.ok,{CompactReport.zero with
        bytesBefore := s.handle.committedOffset,bytesAfter := s.handle.committedOffset}⟩ := by
  have hspared : Spared s.handle.items s.handle.items :=
    spared_of_rewritten (List.forall₂_same.mpr fun _ _ => ⟨rfl,rfl,.inl rfl⟩)
  by_cases hover : maxBytes < s.handle.committedOffset
  · have hnone : s.handle.items.any Item.releasable = false :=
      Bool.eq_false_iff.mpr fun hany => hdue ⟨hover,hany⟩
    have hplan := h.plan hcap hover rfl
    rw [releasableSizes_nil hnone] at hplan
    refine ⟨.inr ?_,fun hd => absurd hd hdue,fun _ => rfl,?_,rfl,hspared,h.opensStamped migrate⟩
    · exact fun it hit => by simpa using List.any_eq_false.mp hnone it hit
    · rw [hplan]
      exact ⟨rfl,rfl,le_rfl⟩
  · refine ⟨.inl (Nat.not_lt.mp hover),fun hd => absurd hd hdue,fun _ => rfl,?_,rfl,hspared,
      h.opensStamped migrate⟩
    have hplan : releasePlan s.handle maxBytes = (.ok,{CompactReport.zero with
        bytesBefore := s.handle.committedOffset,bytesAfter := s.handle.committedOffset}) := by
      simp only [releasePlan,if_neg hcap.ne',if_pos (Nat.not_lt.mp hover)]
    rw [hplan]
    exact ⟨rfl,rfl,le_rfl⟩

theorem Accounted.release_meets (h : Accounted s) (hcap : 0 < maxBytes)
    (hdue : ReleaseDue s maxBytes) {r : CompactReply} (hlogged : Accounted r.session)
    (hrw : List.Forall₂ Rewritten s.handle.items r.session.handle.items)
    (hdone : Released s (prefixCount (s.handle.committedOffset-releaseTarget maxBytes)
      (releasableSizes s.handle.items)) r) : ReleaseMeets migrate s maxBytes r := by
  obtain ⟨hk,hcovers,hshort⟩ := prefixCount_shortest
    (s.handle.committedOffset-releaseTarget maxBytes) (releasableSizes s.handle.items)
  have hplan := h.plan hcap hdue.1 rfl
  have hsum := imageSize_releaseFirst (prefixCount (s.handle.committedOffset-
    releaseTarget maxBytes) (releasableSizes s.handle.items)) s.handle.items
  have hafter : r.session.handle.committedOffset = imageSize r.session.handle.items := by
    rw [hdone.offset,logImage_size]
  have hsize := h.size
  have htarget := releaseTarget_le maxBytes
  rw [← hdone.items,← hafter] at hsum
  refine ⟨?_,fun _ => ⟨_,⟨hk,hcovers,hshort⟩,hdone.items,hdone.count⟩,
    fun hd => absurd hdue hd,?_,hdone.after,spared_of_rewritten hrw,hlogged.opensStamped migrate⟩
  · rcases hcovers with hc | hc
    · exact .inl (by omega)
    · rw [hdone.items]
      exact .inr (releaseFirst_all hc.ge)
  · rw [hplan,hdone.after,hdone.count]
    exact ⟨rfl,rfl,by simp only; omega⟩

end Meets

/-- Every release that succeeds, on every ledger that met no I/O error, meets its cap and
its plan. -/
theorem release_meets_plan (migrate : ℕ → Disk → Disk×Status) {ops : List (Faults×Op)}
    {s : Session} {statuses : List Status}
    (hr : runOps migrate createdSession ops = some (s,statuses))
    (hclean : ∀ st ∈ statuses, st ≠ .io) (fault : Option CompactFault) (wantReport : Bool)
    (maxBytes : ℕ) (hok : (releasePayloads fault wantReport s maxBytes).status = .ok) :
    ReleaseMeets migrate s maxBytes (releasePayloads fault wantReport s maxBytes) := by
  have h := accounted_created.runOps hr hclean
  unfold releasePayloads at hok ⊢
  simp only at hok ⊢
  by_cases hzero : maxBytes = 0
  · simp [hzero] at hok
  have hcap := Nat.pos_of_ne_zero hzero
  rw [if_neg hzero] at hok ⊢
  by_cases hover : s.handle.committedOffset ≤ maxBytes
  · rw [if_pos hover]
    exact h.idle_meets hcap fun hd => absurd hd.1 (Nat.not_lt.mpr hover)
  rw [if_neg hover] at hok ⊢
  by_cases hany : s.handle.items.any Item.releasable = true
  · have hdue : ReleaseDue s maxBytes := ⟨Nat.not_le.mp hover,hany⟩
    rw [if_neg (not_not.mpr hany)] at hok ⊢
    have hc := compactRelease_compacted fault wantReport s
      (s.handle.committedOffset-releaseTarget maxBytes)
    have hadv : Advances migrate s _ := (hc.advances (by rw [hok]; simp)).1
    refine h.release_meets hcap hdue (hadv.invariant h fun _ _ ha hstep => ha.advance hstep) ?_
      (compactRelease_ok hok)
    rw [hok] at hc
    generalize (compactRelease fault wantReport s
      (s.handle.committedOffset-releaseTarget maxBytes)).session = s' at hc
    generalize (compactRelease fault wantReport s
      (s.handle.committedOffset-releaseTarget maxBytes)).logOpen = o at hc
    cases hc with
    | unchanged hne => exact absurd rfl hne
    | published hrw => exact hrw
  · rw [if_pos hany]
    exact h.idle_meets hcap fun hd => hany hd.2

/-- Two learned texts of five bytes and one skipped, under a cap that one release meets. -/
def releaseSample : List (Faults×Op) :=
  [(.none,.append {sampleArgs 97 1 with payload := .bytes [1,2,3,4,5]}),
    (.none,.append {sampleArgs 98 2 with payload := .bytes [1,2,3,4,5]}),
    (.none,.append {sampleArgs 99 0 with payload := .bytes [1,2,3,4,5]})]

theorem release_meets_plan_sample :
    ∃ r : Session×List Status, runOps noMigration createdSession releaseSample = some r ∧
      (releasePayloads none true r.1 210).status = .ok ∧
      ReleaseDue r.1 210 ∧ ReleaseMeets noMigration r.1 210 (releasePayloads none true r.1 210) := by
  have hsome : (runOps noMigration createdSession releaseSample).isSome := by decide +kernel
  obtain ⟨r,hr⟩ := Option.isSome_iff_exists.mp hsome
  have hfacts : (runOps noMigration createdSession releaseSample).map (fun r =>
      decide ((releasePayloads none true r.1 210).status = .ok ∧
        210 < r.1.handle.committedOffset ∧ r.1.handle.items.any Item.releasable = true ∧
        ∀ st ∈ r.2, st ≠ .io)) = some true := by decide +kernel
  rw [hr] at hfacts
  obtain ⟨hok,hover,hany,hclean⟩ := of_decide_eq_true (Option.some.inj hfacts)
  exact ⟨r,hr,hok,⟨hover,hany⟩,release_meets_plan noMigration hr hclean none true 210 hok⟩

end Atperson.Ledger
