import Atperson.Snapshot.Save
import Atperson.Core.Observe

/-!
# Vocabulary and valence of a reloaded graph

A graph that is saved and loaded again has the tokens it had, in their places, and the valence
records and events it had, but for how their floats are read. The sections behind one another
in the image are walked one by one; only those of the nodes and of the valence matter here,
and all others leave both alone.
-/
namespace Atperson.Snapshot
open Wire ImageReader
open Atperson.Core
open Ledger (Status)

/-- The same record, but for the value. -/
def SameRecord (r s : ValenceRecord) : Prop := {s with valence := r.valence} = r

/-- The same event, but for the signal. -/
def SameEvent (e f : ValenceEvent) : Prop := {f with signal := e.signal} = e

/-- The same valence, but for the floats. -/
structure SameValence (g h : Graph) : Prop where
  records : List.Forall₂ SameRecord g.valenceRecords h.valenceRecords
  events : List.Forall₂ SameEvent g.valenceEvents h.valenceEvents
  evictions : h.valenceEventEvictions = g.valenceEventEvictions

/-- What an image of a graph can hold in its fields of four bytes. -/
structure Storable (g : Graph) : Prop where
  topology : (layoutBuild g.neuralArchitecture).isSome = true
  nodes : g.nodes.length < 2^32
  records : ∀ r ∈ g.valenceRecords, r.nodeIndex < 2^32
  events : ∀ e ∈ g.valenceEvents, e.nodeIndex < 2^32
  logged : g.valenceEvents.length < 2^64
  recorded : g.valenceRecords.length < 2^64

/-! ## Rows -/

theorem toNat_ofNat32 {n : ℕ} (h : n < 2^32) : (UInt32.ofNat n).toNat = n := by
  rw [UInt32.toNat_ofNat']
  exact Nat.mod_eq_of_lt h

theorem toNat_ofNat64 {n : ℕ} (h : n < 2^64) : (UInt64.ofNat n).toNat = n := by
  rw [UInt64.toNat_ofNat']
  exact Nat.mod_eq_of_lt h

theorem takes_fits (count : UInt64) (size : ℕ) : Takes (fits count size) [] fun _ => True :=
  takes_remaining.next fun _ _ => takes_check.mono fun _ _ => trivial

theorem takes_readValenceRecord (n : ℕ) {r : ValenceRecord} (hr : r.nodeIndex < 2^32)
    (previous : Option ValenceRecord) :
    Takes (readValenceRecord n previous) (putValenceRecord r) (SameRecord r) := by
  simp only [putValenceRecord,putU32,putF32,List.append_assoc]
  refine (takes_u32 _).bind fun node hnode => takes_check.next fun _ _ => ?_
  refine takes_check.next fun _ _ => (takes_f32 _).bind fun value _ => ?_
  refine takes_check.next fun _ _ => (takes_u64 _).bind fun count hcount => ?_
  refine takes_check.next fun _ _ => (takes_u64 _).bind fun positive hpositive => ?_
  refine (takes_u64 _).bind fun negative hnegative => (takes_u64 _).last fun last hlast => ?_
  have hindex : node.toNat = r.nodeIndex := by rw [hnode,toNat_ofNat32 hr]
  unfold SameRecord
  rw [hindex,hcount,hpositive,hnegative,hlast]

theorem takes_readValenceEvent (n : ℕ) {e : ValenceEvent} (he : e.nodeIndex < 2^32) :
    Takes (readValenceEvent n) (putValenceEvent e) (SameEvent e) := by
  have hkind : valenceKindOf? (UInt32.ofNat (wordOfKind e.kind)) = some e.kind := by
    cases e.kind <;> rfl
  simp only [putValenceEvent,putStringOpt,putU32,putF32,List.append_assoc]
  refine (takes_u32 _).bind fun node hnode => takes_check.next fun _ _ => ?_
  refine (takes_u32 _).bind fun word hword => takes_accept.next fun kind hkindOf => ?_
  refine (takes_f32 _).bind fun signal _ => takes_check.next fun _ _ => ?_
  refine (takes_u64 _).bind fun at_ hat => ?_
  refine (takes_stringOpt (by decide) _).last fun source hsource => ?_
  have hindex : node.toNat = e.nodeIndex := by rw [hnode,toNat_ofNat32 he]
  rw [hword,hkind] at hkindOf
  obtain rfl := Option.some.inj hkindOf
  unfold SameEvent
  rw [hindex,hat,hsource]

theorem takes_readCoordinate (withImportance : Bool) (c : Float32×Float32) :
    Takes (readCoordinate withImportance) (putCoordinate withImportance c) fun _ => True := by
  unfold putCoordinate putF32
  refine (takes_f32 _).bind fun _ _ => ?_
  cases withImportance with
  | true => exact (takes_f32 _).last fun _ _ => trivial
  | false => exact takes_pure trivial

theorem takes_readNode (withImportance : Bool) (dimension : ℕ) {n : Node} {row : Bytes}
    (h : putNode withImportance dimension n = some row) :
    Takes (readNode withImportance dimension) row fun m => m.token = n.token := by
  unfold putNode at h
  obtain ⟨token,htoken,hrow⟩ := Option.bind_eq_some_iff.mp h
  obtain rfl := Option.some.inj hrow
  unfold putString at htoken
  split at htoken
  · cases htoken
  · obtain rfl := Option.some.inj htoken
    have hcoordinates : Takes (many (readCoordinate withImportance) (coordinates dimension n).length)
        ((coordinates dimension n).flatMap (putCoordinate withImportance))
        fun as => List.Forall₂ (fun _ _ => True) (coordinates dimension n) as :=
      takes_many fun c _ => takes_readCoordinate withImportance c
    have hlength : (coordinates dimension n).length = dimension := by
      rw [coordinates,List.length_map,List.length_range]
    rw [hlength] at hcoordinates
    refine (takes_string (by decide) n.token).bind fun t ht => ?_
    refine (takes_u64 _).bind fun _ _ => (takes_f32 _).bind fun _ _ => ?_
    exact hcoordinates.last fun _ _ => ht

theorem map_token {ns ms : List Node} (h : List.Forall₂ (fun n m => m.token = n.token) ns ms) :
    ms.map Node.token = ns.map Node.token := by
  induction h with
  | nil => rfl
  | cons hab _ ih => exact congrArg₂ List.cons hab ih

/-! ## The sections of the nodes and of the valence -/

/-- Rows that can be encoded are those of a row function that cannot fail. -/
theorem mapM_flatten {α : Type} {row : α → Option Bytes} {rows : List α} {encoded : List Bytes}
    (h : rows.mapM row = some encoded) :
    encoded.flatten = rows.flatMap (fun a => (row a).getD []) ∧
      ∀ a ∈ rows, row a = some ((row a).getD []) := by
  induction rows generalizing encoded with
  | nil =>
      obtain rfl := Option.some.inj h
      exact ⟨rfl,nofun⟩
  | cons a rows ih =>
      rw [List.mapM_cons] at h
      obtain ⟨b,hb,hrest⟩ := Option.bind_eq_some_iff.mp h
      obtain ⟨bs,hbs,hsome⟩ := Option.bind_eq_some_iff.mp hrest
      obtain rfl := Option.some.inj hsome
      obtain ⟨hflat,hrows⟩ := ih hbs
      refine ⟨?_,List.forall_mem_cons.2 ⟨by rw [hb]; rfl,hrows⟩⟩
      rw [List.flatten_cons,List.flatMap_cons,hflat,hb]
      rfl

/-- A loading with the same topology, tokens and valence as another. -/
structure Framed (x y : Loading) : Prop where
  topology : y.graph.neuralArchitecture = x.graph.neuralArchitecture
  tokens : y.graph.tokens = x.graph.tokens
  records : y.graph.valenceRecords = x.graph.valenceRecords
  events : y.graph.valenceEvents = x.graph.valenceEvents
  evictions : y.graph.valenceEventEvictions = x.graph.valenceEventEvictions

section Sections
variable {g : Graph} {x : Loading}

theorem takes_decodeNodes {withImportance : Bool} {payload : Bytes} (hg : Storable g)
    (hx : x.graph.neuralArchitecture = g.neuralArchitecture)
    (h : encodeNodes withImportance g = some payload) :
    Takes (decodeNodes withImportance x) payload fun y =>
      y.graph.neuralArchitecture = x.graph.neuralArchitecture ∧
      y.graph.tokens = x.graph.tokens++g.tokens ∧
      y.graph.valenceRecords = x.graph.valenceRecords ∧
      y.graph.valenceEvents = x.graph.valenceEvents ∧
      y.graph.valenceEventEvictions = x.graph.valenceEventEvictions := by
  unfold encodeNodes putRows? at h
  obtain ⟨encoded,hencoded,rfl⟩ := Option.map_eq_some_iff.mp h
  obtain ⟨hflat,hrows⟩ := mapM_flatten hencoded
  rw [hflat]
  refine (takes_u64 _).bind fun count hcount => (takes_fits _ _).next fun _ _ => ?_
  have hn : count.toNat = g.nodes.length := by
    rw [hcount]
    exact toNat_ofNat64 (lt_trans hg.nodes (by decide))
  rw [hn,hx]
  refine (takes_many fun n hn => takes_readNode withImportance _ (hrows n hn)).last
    fun nodes hnodes => ⟨hx,?_,rfl,rfl,rfl⟩
  show (x.graph.nodes++nodes).map Node.token = x.graph.tokens++g.tokens
  rw [List.map_append,map_token hnodes]
  rfl

theorem takes_decodeValence (hg : Storable g) (hx : x.graph.valenceEvents = []) :
    Takes (decodeValence x) (encodeValence g) fun y =>
      y.graph.neuralArchitecture = x.graph.neuralArchitecture ∧
      y.graph.tokens = x.graph.tokens ∧ SameValence g y.graph := by
  simp only [encodeValence,putRows,putU64,List.append_assoc]
  refine (takes_u64 _).bind fun count hcount => (takes_fits _ _).next fun _ _ => ?_
  refine takes_check.next fun _ _ => ?_
  rw [hcount,toNat_ofNat64 hg.recorded]
  refine (takes_chain (fun r hr previous =>
    takes_readValenceRecord _ (hg.records r hr) previous) none).bind fun records hrecords => ?_
  refine (takes_u64 _).bind fun events hevents => takes_check.next fun _ _ => ?_
  refine (takes_u64 _).bind fun evictions hevictions => (takes_fits _ _).next fun _ _ => ?_
  have hlength : events.toNat = g.valenceEvents.length := by
    rw [hevents,toNat_ofNat64 hg.logged]
  rw [hlength]
  refine (takes_many fun e he => takes_readValenceEvent _ (hg.events e he)).last
    fun log hlog => ⟨rfl,rfl,hrecords,?_,hevictions⟩
  show List.Forall₂ SameEvent g.valenceEvents (if events = 0 then x.graph.valenceEvents else log)
  split
  · rename_i hzero
    rw [hzero] at hlength
    have hnone : g.valenceEvents = [] := List.length_eq_zero_iff.mp hlength.symm
    rw [hx,hnone]
    exact .nil
  · exact hlog

/-! ## The topology -/

theorem forall₂_eq_map {α β : Type} {f : α → β} {as : List α} {bs : List β}
    (h : List.Forall₂ (fun a b => b = f a) as bs) : bs = as.map f := by
  induction h with
  | nil => rfl
  | cons hab _ ih => exact congrArg₂ List.cons hab ih

/-- The fields of a topology that can be laid out fit four bytes each. -/
theorem accepted_bounds {a : Architecture} (h : (layoutBuild a).isSome = true) :
    a.embeddingDim < 2^32 ∧ a.inputDim < 2^32 ∧ a.outputDim < 2^32 ∧ a.hiddenLayerCount < 2^32 ∧
      ∀ w ∈ a.hiddenWidths.toList, w < 2^32 := by
  have haccepted : a.accepted = true := by
    by_contra hnot
    unfold layoutBuild at h
    rw [if_pos hnot] at h
    cases h
  simp only [Architecture.accepted,Bool.and_eq_true,decide_eq_true_eq,List.all_eq_true] at haccepted
  obtain ⟨⟨⟨⟨⟨⟨⟨⟨-,-⟩,hembedding⟩,-⟩,hcount⟩,houtput⟩,hinput⟩,hactive⟩,hrest⟩ := haccepted
  have hlimit : widthLimit = 16384 := rfl
  have hlayers : maxHiddenLayers = 4 := rfl
  refine ⟨by omega,by omega,by omega,by omega,fun w hw => ?_⟩
  rw [← List.take_append_drop a.hiddenLayerCount a.hiddenWidths.toList,List.mem_append] at hw
  rcases hw with hw | hw
  · have := (hactive w hw).2
    omega
  · have := hrest w hw
    omega

theorem takes_decodeArchitecture {a : Architecture} (h : (layoutBuild a).isSome = true) :
    Takes decodeArchitecture (putArchitecture a) (· = a) := by
  obtain ⟨hembedding,hinput,houtput,hcount,hwidths⟩ := accepted_bounds h
  simp only [putArchitecture,putU32,List.append_assoc]
  refine (takes_u32 _).bind fun version hversion => takes_check.next fun _ _ => ?_
  refine (takes_u32 _).bind fun embedding he => (takes_u32 _).bind fun input hi => ?_
  refine (takes_u32 _).bind fun output ho => (takes_u32 _).bind fun count hc => ?_
  have hrow : Takes (many u32 a.hiddenWidths.toList.length : Decoder (List UInt32))
      (a.hiddenWidths.toList.flatMap fun w => storeU32 (UInt32.ofNat w))
      fun vs => List.Forall₂ (fun w v => v = UInt32.ofNat w) a.hiddenWidths.toList vs :=
    takes_many fun w _ => takes_u32 (UInt32.ofNat w)
  rw [Vector.length_toList] at hrow
  refine takes_check.next fun _ _ => ?_
  rw [← List.append_nil (List.flatMap _ _)]
  refine hrow.bind fun widths hw => takes_check.next fun _ _ => takes_pure ?_
  have hlist := forall₂_eq_map hw
  have hvector : (.ofFn fun i : Fin maxHiddenLayers => (widths.getD i 0).toNat) =
      a.hiddenWidths := by
    ext i hi
    rw [Vector.getElem_ofFn,hlist,List.getD_eq_getElem _ _ (by simpa using hi),List.getElem_map,
      toNat_ofNat32 (hwidths _ (List.getElem_mem _))]
    exact Vector.getElem_toList _
  rw [he,hi,ho,hc,hversion,hvector,toNat_ofNat32 hembedding,toNat_ofNat32 hinput,
    toNat_ofNat32 houtput,toNat_ofNat32 hcount]

/-! ## The other sections -/

theorem framed_edges (x : Loading) : Within (decodeEdges x) (Framed x) :=
  within_u64.bind fun _ _ => (within_fits _ _).bind fun _ _ =>
    (within_many (within_readEdge _) _).bind fun _ _ => within_pure ⟨rfl,rfl,rfl,rfl,rfl⟩

theorem framed_reserve (needed : ℕ) (x : Loading) :
    (x.reserveLedgerEntries needed).graph = x.graph := by
  unfold Loading.reserveLedgerEntries
  split <;> rfl

theorem framed_ledger (x : Loading) : Within (decodeLedger x) (Framed x) := by
  refine within_u64.bind fun count _ => (within_fits _ _).bind fun _ _ => ?_
  refine (within_many within_readLedgerEntry _).bind fun entries _ => within_pure ?_
  have h := framed_reserve count.toNat x
  exact ⟨by rw [h],by rw [h],by rw [h],by rw [h],by rw [h]⟩

theorem framed_context (x : Loading) : Within (decodeContext x) (Framed x) :=
  within_u64.bind fun _ _ => within_check.bind fun _ _ => (within_fits _ _).bind fun _ _ =>
    (within_many within_readContext _).bind fun _ _ => within_pure ⟨rfl,rfl,rfl,rfl,rfl⟩

theorem framed_episodes (x : Loading) : Within (decodeEpisodes x) (Framed x) :=
  within_u64.bind fun _ _ => (within_fits _ _).bind fun _ _ => within_check.bind fun _ _ =>
    (within_many (within_readEpisode _) _).bind fun _ _ => within_pure ⟨rfl,rfl,rfl,rfl,rfl⟩

theorem framed_migrations (x : Loading) : Within (decodeMigrations x) (Framed x) :=
  within_check.bind fun _ _ => within_u64.bind fun _ _ => within_check.bind fun _ _ =>
    (within_chain within_readMigration _ none).bind fun _ _ => within_check.bind fun _ _ =>
      within_pure ⟨rfl,rfl,rfl,rfl,rfl⟩

theorem framed_network (x : Loading) : Within (decodeNetwork x) (Framed x) :=
  (within_decodeNetwork x).mono fun y hy => by
    obtain ⟨network,rfl⟩ := hy
    exact ⟨rfl,rfl,rfl,rfl,rfl⟩

theorem framed_networkV6 (x : Loading) : Within (decodeNetworkV6 x) (Framed x) :=
  within_u32.bind fun _ _ => within_check.bind fun _ _ =>
    (within_mapM within_readLayer _).bind fun _ _ => (within_mapM within_readLayer _).bind fun _ _ =>
      within_pure ⟨rfl,rfl,rfl,rfl,rfl⟩

theorem framed_rebuildGroups {allocs : Allocs} {y : Loading} {image : Bytes} {start stop : ℕ}
    (h : rebuildGroups allocs x image start = .ok (y,stop)) : Framed x y := by
  unfold rebuildGroups at h
  rcases hr : x.graph.index.rebuild allocs x.graph.episodes with ⟨index,_,_ | _⟩
  · rw [hr] at h
    cases h
  · rw [hr] at h
    obtain ⟨rfl,-⟩ := Prod.mk.inj (Except.ok.inj h)
    exact ⟨rfl,rfl,rfl,rfl,rfl⟩

end Sections

/-! ## The walk over a saved image -/

/-- How far the sections of a graph have come, once it was created: those that were seen are
read, and of the others there is nothing yet. -/
structure Arrived (g : Graph) (w : Walk) (x : Loading) : Prop where
  topology : x.graph.neuralArchitecture = g.neuralArchitecture
  tokens : x.graph.tokens = if w.has .nodes then g.tokens else []
  quiet : w.has .valence = false → x.graph.valenceEvents = []
  valence : w.has .valence = true → SameValence g x.graph

def Arriving (g : Graph) (w : Walk) : Prop := ∃ x, w.loading = some x ∧ Arrived g w x

/-- What the section with a tag holds, where that matters here. -/
def Encodes (g : Graph) (withImportance : Bool) (payload : Bytes) : Tag → Prop
  | .header => False
  | .arch => False
  | .nodes => encodeNodes withImportance g = some payload
  | .valence => payload = encodeValence g
  | _ => True

section Walking
variable {g : Graph} {w w' : Walk} {x y : Loading} {image : Bytes} {start stop : ℕ}
  {before after payload : Bytes}

theorem Tag.number_inj {t u : Tag} (h : t.number = u.number) : t = u := by
  cases t <;> cases u <;> first | rfl | cases h

theorem has_self {t : Tag} (h : w'.seen = t.number::w.seen) : w'.has t = true := by
  simp [Walk.has,h]

theorem has_other {t u : Tag} (h : w'.seen = t.number::w.seen) (hu : u ≠ t) :
    w'.has u = w.has u := by
  simp [Walk.has,h,mt Tag.number_inj hu]

/-- A section that changes neither tokens nor valence. -/
theorem Arrived.framed {t : Tag} (h : Arrived g w x) (hseen : w'.seen = t.number::w.seen)
    (hxy : Framed x y) (hnodes : t ≠ .nodes) (hvalence : t ≠ .valence) : Arrived g w' y := by
  refine ⟨hxy.topology.trans h.topology,?_,fun hv => ?_,fun hv => ?_⟩
  · rw [has_other hseen hnodes.symm,hxy.tokens,h.tokens]
  · rw [has_other hseen hvalence.symm] at hv
    rw [hxy.events,h.quiet hv]
  · rw [has_other hseen hvalence.symm] at hv
    have hold := h.valence hv
    exact ⟨hxy.records ▸ hold.records,hxy.events ▸ hold.events,hxy.evictions.trans hold.evictions⟩

theorem decode_ok {read : Loading → Decoder Loading}
    (h : w.decode read image start = .ok (w',stop)) :
    ∃ x y, w.loading = some x ∧ w' = {w with loading := some y} ∧
      read x image start = .ok (y,stop) := by
  obtain ⟨x,middle,haccept,hrest⟩ := bind_ok h
  obtain ⟨hx,rfl⟩ := accept_ok haccept
  obtain ⟨y,_,hread,hpure⟩ := bind_ok hrest
  obtain ⟨rfl,rfl⟩ := Prod.mk.inj (Except.ok.inj hpure)
  exact ⟨x,y,hx,rfl,hread⟩

/-- What a section comes to: the graph has arrived further, and its tag is noted. -/
structure Advanced (g : Graph) (w : Walk) (t : Tag) (w' : Walk) : Prop where
  arriving : Arriving g w'
  seen : w'.seen = t.number::w.seen

section Sections
variable {t : Tag} {d : Decoder Walk} {stop : ℕ} {withImportance : Bool}

/-- The walk once the tag of a section is noted. -/
def noted (w : Walk) (t : Tag) : Walk := {w with seen := t.number::w.seen}

theorem advanced_framed {read : Loading → Decoder Loading} (hw : Arriving g w)
    (hnodes : t ≠ .nodes) (hvalence : t ≠ .valence) (hread : ∀ x, Within (read x) (Framed x))
    (hstart : start ≤ image.length)
    (h : (noted w t).decode read image start = .ok (w',stop)) : Advanced g w t w' := by
  obtain ⟨x,hx,harrived⟩ := hw
  obtain ⟨x',y,hx',rfl,hr⟩ := decode_ok h
  obtain rfl : x = x' := Option.some.inj (hx.symm.trans hx')
  exact ⟨⟨y,rfl,harrived.framed rfl ((hread x).result hstart hr) hnodes hvalence⟩,rfl⟩

theorem advanced_nodes (hw : Arriving g w) (hg : Storable g) (hnew : w.has .nodes = false)
    (hpayload : encodeNodes withImportance g = some payload)
    (h : (noted w .nodes).decode (decodeNodes withImportance) (before++payload++after)
      before.length = .ok (w',stop)) : Advanced g w .nodes w' := by
  obtain ⟨x,hx,harrived⟩ := hw
  obtain ⟨x',y,hx',rfl,hr⟩ := decode_ok h
  obtain rfl : x = x' := Option.some.inj (hx.symm.trans hx')
  obtain ⟨htopology,htokens,hrecords,hevents,hevictions⟩ :=
    (takes_decodeNodes hg harrived.topology hpayload).result hr
  refine ⟨⟨y,rfl,htopology.trans harrived.topology,?_,fun hv => ?_,fun hv => ?_⟩,rfl⟩
  · rw [htokens,harrived.tokens,hnew,has_self (w := w) rfl]
    rfl
  · rw [has_other (t := .nodes) (w := w) rfl (by decide)] at hv
    rw [hevents,harrived.quiet hv]
  · rw [has_other (t := .nodes) (w := w) rfl (by decide)] at hv
    have hold := harrived.valence hv
    exact ⟨hrecords ▸ hold.records,hevents ▸ hold.events,hevictions.trans hold.evictions⟩

theorem advanced_valence (hw : Arriving g w) (hg : Storable g) (hnew : w.has .valence = false)
    (h : (noted w .valence).decode decodeValence (before++encodeValence g++after)
      before.length = .ok (w',stop)) : Advanced g w .valence w' := by
  obtain ⟨x,hx,harrived⟩ := hw
  obtain ⟨x',y,hx',rfl,hr⟩ := decode_ok h
  obtain rfl : x = x' := Option.some.inj (hx.symm.trans hx')
  obtain ⟨htopology,htokens,hvalence⟩ := (takes_decodeValence hg (harrived.quiet hnew)).result hr
  refine ⟨⟨y,rfl,htopology.trans harrived.topology,?_,fun hv => ?_,fun _ => hvalence⟩,rfl⟩
  · have hother : Walk.has {noted w .valence with loading := some y} .nodes = w.has .nodes :=
      has_other (t := .valence) rfl (by decide)
    rw [htokens,harrived.tokens,hother]
  · rw [has_self (t := .valence) (w := w) rfl] at hv
    cases hv

theorem advanced_schema (hw : Arriving g w)
    (h : (noted w .schema).decodeSchema image start = .ok (w',stop)) :
    Advanced g w .schema w' := by
  obtain ⟨x,hx,harrived⟩ := hw
  obtain ⟨schema,_,-,hrest⟩ := bind_ok h
  obtain ⟨_,_,-,hpure⟩ := bind_ok hrest
  obtain ⟨rfl,-⟩ := Prod.mk.inj (Except.ok.inj hpure)
  exact ⟨⟨x,hx,harrived.framed (t := .schema) rfl ⟨rfl,rfl,rfl,rfl,rfl⟩ (by decide) (by decide)⟩,
    rfl⟩

theorem advanced_shared (hw : Arriving g w) (hg : Storable g) (hnew : w.has t = false)
    (hpayload : Encodes g withImportance payload t)
    (hd : (noted w t).decodeShared t = some d)
    (h : d (before++payload++after) before.length = .ok (w',stop)) : Advanced g w t w' := by
  have hstart : before.length ≤ (before++payload++after).length := by
    simp only [List.length_append]
    omega
  cases t with
  | edges =>
      cases hd
      exact advanced_framed hw (by decide) (by decide) framed_edges hstart h
  | ledger =>
      cases hd
      exact advanced_framed hw (by decide) (by decide) framed_ledger hstart h
  | context =>
      cases hd
      obtain ⟨_,_,hcheck,hrest⟩ := bind_ok h
      obtain ⟨-,rfl⟩ := check_ok hcheck
      exact advanced_framed hw (by decide) (by decide) framed_context hstart hrest
  | episodes =>
      cases hd
      exact advanced_framed hw (by decide) (by decide) framed_episodes hstart h
  | valence =>
      cases hd
      obtain ⟨_,_,hcheck,hrest⟩ := bind_ok h
      obtain ⟨-,rfl⟩ := check_ok hcheck
      obtain rfl : payload = encodeValence g := hpayload
      exact advanced_valence hw hg hnew hrest
  | schema =>
      cases hd
      exact advanced_schema hw h
  | header => cases hd
  | network => cases hd
  | nodes => cases hd
  | arch => cases hd
  | migrations => cases hd

theorem advanced_v5 (hw : Arriving g w) (hg : Storable g) (hnew : w.has t = false)
    (hpayload : Encodes g false payload t) (hd : (noted w t).decodeV5 t = some d)
    (h : d (before++payload++after) before.length = .ok (w',stop)) : Advanced g w t w' := by
  cases t with
  | header => exact hpayload.elim
  | network =>
      cases hd
      refine advanced_framed hw (by decide) (by decide) framed_network ?_ h
      simp only [List.length_append]
      omega
  | nodes =>
      cases hd
      exact advanced_nodes hw hg hnew hpayload h
  | _ => exact advanced_shared hw hg hnew hpayload hd h

theorem advanced_explicit {requireMigrations : Bool} (hw : Arriving g w) (hg : Storable g)
    (hnew : w.has t = false) (hpayload : Encodes g true payload t)
    (hd : (noted w t).decodeExplicit requireMigrations t = some d)
    (h : d (before++payload++after) before.length = .ok (w',stop)) : Advanced g w t w' := by
  have hstart : before.length ≤ (before++payload++after).length := by
    simp only [List.length_append]
    omega
  cases t with
  | header => exact hpayload.elim
  | arch => exact hpayload.elim
  | migrations =>
      cases hd
      obtain ⟨_,_,hcheck,hrest⟩ := bind_ok h
      obtain ⟨-,rfl⟩ := check_ok hcheck
      exact advanced_framed hw (by decide) (by decide) framed_migrations hstart hrest
  | network =>
      cases hd
      exact advanced_framed hw (by decide) (by decide) framed_networkV6 hstart h
  | nodes =>
      cases hd
      exact advanced_nodes hw hg hnew hpayload h
  | _ => exact advanced_shared hw hg hnew hpayload hd h

end Sections

/-! ## A whole walk -/

/-- A section as the walk meets it. -/
def Part.row (p : Part) : UInt32×Bytes := (UInt32.ofNat p.tag.number,p.payload)

/-- The walk of a loader. -/
abbrev Walks (maxTag : ℕ) (switch : Walk → Tag → Option (Decoder Walk)) (w : Walk)
    (parts : List Part) (w' : Walk) : Prop :=
  Walked (Walk.note maxTag) (fun w word => (Tag.ofWord? word).bind (switch w)) w
    (parts.map Part.row) w'

section Runs
variable {maxTag : ℕ} {switch : Walk → Tag → Option (Decoder Walk)} {p : Part}
  {parts : List Part} {withImportance : Bool}

theorem ofWord_number (t : Tag) : Tag.ofWord? (UInt32.ofNat t.number) = some t := by
  cases t <;> rfl

theorem toNat_number (t : Tag) : (UInt32.ofNat t.number).toNat = t.number := by
  cases t <;> rfl

/-- A section with a tag the loader knows is read, and for the first time. -/
theorem walks_cons (hmax : p.tag.number ≤ maxTag)
    (hknown : ∀ w, (switch w p.tag).isSome = true) (h : Walks maxTag switch w (p::parts) w') :
    ∃ w₁ d before after stop, w.has p.tag = false ∧ switch (noted w p.tag) p.tag = some d ∧
      d (before++p.payload++after) before.length = .ok (w₁,stop) ∧
      Walks maxTag switch w₁ parts w' := by
  have hpositive : p.tag.number ≠ 0 := by cases p.tag <;> decide
  have hword : ∀ {w₁}, w.note maxTag (UInt32.ofNat p.tag.number) = some w₁ →
      w.has p.tag = false ∧ w₁ = noted w p.tag := by
    intro w₁ hnote
    have hcases := note_cases hnote
    rw [toNat_number] at hcases
    rcases hcases with ⟨-,hout⟩ | ⟨hnew,rfl⟩
    · omega
    · exact ⟨by simpa [Walk.has] using hnew,rfl⟩
  cases h with
  | skip hnote hskip hrest =>
      rename_i w₁
      rw [ofWord_number,Option.bind_some] at hskip
      have hsome := hknown w₁
      rw [hskip] at hsome
      cases hsome
  | read hnote hread before after hdecode hrest =>
      obtain ⟨hnew,rfl⟩ := hword hnote
      rw [ofWord_number,Option.bind_some] at hread
      exact ⟨_,_,before,after,_,hnew,hread,hdecode,hrest⟩

/-- Sections that a loader takes one by one bring a graph all they hold. -/
theorem walks_arriving
    (hstep : ∀ {w w' : Walk} {t : Tag} {d : Decoder Walk} {payload before after : Bytes} {stop : ℕ},
      Arriving g w → w.has t = false → Encodes g withImportance payload t →
      switch (noted w t) t = some d →
      d (before++payload++after) before.length = .ok (w',stop) → Advanced g w t w')
    (hparts : ∀ p ∈ parts, p.tag.number ≤ maxTag ∧ (∀ w, (switch w p.tag).isSome = true) ∧
      Encodes g withImportance p.payload p.tag)
    (hw : Arriving g w) (h : Walks maxTag switch w parts w') :
    Arriving g w' ∧ (∀ t, w.has t = true → w'.has t = true) ∧
      ∀ p ∈ parts, w'.has p.tag = true := by
  induction parts generalizing w with
  | nil =>
      cases h
      exact ⟨hw,fun _ => id,nofun⟩
  | cons p parts ih =>
      obtain ⟨⟨hmax,hknown,hencodes⟩,hrest⟩ := List.forall_mem_cons.1 hparts
      obtain ⟨w₁,d,before,after,stop,hnew,hd,hdecode,hwalk⟩ := walks_cons hmax hknown h
      have hadvanced := hstep hw hnew hencodes hd hdecode
      obtain ⟨harriving,hkept,hseen⟩ := ih hrest hadvanced.arriving hwalk
      refine ⟨harriving,fun t ht => hkept t ?_,List.forall_mem_cons.2 ⟨hkept _ ?_,hseen⟩⟩
      · by_cases htag : t = p.tag
        · rw [htag]
          exact has_self hadvanced.seen
        · rw [has_other hadvanced.seen htag]
          exact ht
      · exact has_self hadvanced.seen

/-! ## Opening the graph -/

/-- A graph that was just created has nothing but its topology. -/
theorem arrived_created {config : GraphConfig} {g' : Graph} (c : Counters)
    (h : createWithArchitecture config g.neuralArchitecture = some g')
    (hnodes : w.has .nodes = false) (hvalence : w.has .valence = false) :
    Arrived g w (.of (c.restore g')) := by
  obtain ⟨r,-,rfl⟩ := Option.map_eq_some_iff.mp h
  refine ⟨rfl,?_,fun _ => rfl,fun hv => ?_⟩
  · rw [hnodes]
    rfl
  · rw [hvalence] at hv
    cases hv

theorem create_ok {f : ReadFault Status} {c : Counters} {created : Option Graph}
    (h : w.create f c created image start = .ok (w',stop)) :
    ∃ g', created = some g' ∧ w' = {w with loading := some (.of (c.restore g'))} := by
  cases created with
  | none => cases h
  | some g' => exact ⟨g',rfl,(Prod.mk.inj (Except.ok.inj h)).1.symm⟩

theorem walks_openV5 {payload : Bytes} (hg : g.neuralArchitecture = .legacy)
    (h : Walks 10 Walk.decodeV5 .start (⟨.header,payload⟩::parts) w') :
    ∃ w, Arriving g w ∧ Walks 10 Walk.decodeV5 w parts w' := by
  obtain ⟨w,d,before,after,stop,-,hd,hdecode,hwalk⟩ :=
    walks_cons (by simp [Tag.number]) (fun _ => rfl) h
  obtain rfl := Option.some.inj hd
  obtain ⟨header,_,-,hcreate⟩ := bind_ok hdecode
  obtain ⟨g',hcreated,rfl⟩ := create_ok hcreate
  unfold createGraph at hcreated
  rw [← hg] at hcreated
  exact ⟨_,⟨_,rfl,arrived_created header.counters hcreated rfl rfl⟩,hwalk⟩

theorem walks_openExplicit {requireMigrations : Bool} {payload : Bytes} (hg : Storable g)
    (h : Walks 12 (Walk.decodeExplicit requireMigrations) .start
      (⟨.header,payload⟩::⟨.arch,encodeArch g⟩::parts) w') :
    ∃ w, Arriving g w ∧ Walks 12 (Walk.decodeExplicit requireMigrations) w parts w' := by
  obtain ⟨w,d,before,after,stop,-,hd,hdecode,hwalk⟩ :=
    walks_cons (by simp [Tag.number]) (fun _ => rfl) h
  obtain rfl := Option.some.inj hd
  obtain ⟨header,_,-,hpure⟩ := bind_ok hdecode
  obtain ⟨rfl,-⟩ := Prod.mk.inj (Except.ok.inj hpure)
  obtain ⟨w,d,before,after,stop,-,hd,hdecode,hwalk⟩ :=
    walks_cons (by simp [Tag.number]) (fun _ => rfl) hwalk
  obtain rfl := Option.some.inj hd
  obtain ⟨_,_,hcheck,hrest⟩ := bind_ok hdecode
  obtain ⟨-,rfl⟩ := check_ok hcheck
  obtain ⟨a,_,harchitecture,hcreate⟩ := bind_ok hrest
  obtain rfl := (takes_decodeArchitecture hg.topology).result harchitecture
  obtain ⟨g',hcreated,rfl⟩ := create_ok hcreate
  exact ⟨_,⟨_,rfl,arrived_created _ hcreated rfl rfl⟩,hwalk⟩

end Runs

/-! ## A saved image -/

/-- What a graph has of another that was saved and loaded. -/
structure Reloaded (g h : Graph) : Prop where
  topology : h.neuralArchitecture = g.neuralArchitecture
  tokens : h.tokens = g.tokens
  valence : SameValence g h

theorem rows_encode (parts : List Part) :
    parts.flatMap Part.encode = (parts.map Part.row).flatMap encodeSection := by
  rw [List.flatMap_map]
  rfl

/-- The image that is sealed, and what it is made of. -/
structure Sealed (digit : UInt8) (version : UInt32) (parts : List Part) (image : Bytes) : Prop where
  image : ∃ digest : UInt64, image =
    magicOf digit++storeU32 version++(parts.map Part.row).flatMap encodeSection++storeU64 digest
  short : ∀ p ∈ parts.map Part.row, p.2.length < 2^64

theorem sealImage_sealed {digit : UInt8} {version : UInt32} {parts : List Part} {image : Bytes}
    (h : sealImage digit version parts = some image) : Sealed digit version parts image := by
  unfold sealImage at h
  dsimp only at h
  split_ifs at h with hsize
  obtain rfl := Option.some.inj h
  rw [rows_encode] at hsize ⊢
  refine ⟨⟨_,rfl⟩,fun p hp => ?_⟩
  have hmem := List.sublist_flatten_of_mem (List.mem_map_of_mem (f := encodeSection) hp)
  have hle := hmem.length_le
  have hsection : p.2.length ≤ (encodeSection p).length := by
    simp only [encodeSection,List.length_append]
    omega
  have hcontent : ((parts.map Part.row).flatMap encodeSection).length ≤ bufferMax := by
    simp only [List.length_append] at hsize
    omega
  rw [← List.flatMap_def] at hle
  have hmax : bufferMax < 2^64 := by decide
  omega

theorem decodeImage_ok {r : Decoder Loading} (h : decodeImage r image = .ok y) :
    ∃ stop, r image 12 = .ok (y,stop) := by
  unfold decodeImage at h
  cases hr : r image 12 with
  | error f =>
      rw [hr] at h
      cases h
  | ok x =>
      rw [hr] at h
      exact ⟨x.2,congrArg Except.ok (Prod.ext (Except.ok.inj h) rfl)⟩

theorem framed_loadFinish {allocs : Allocs} {requiredMask : ℕ}
    (h : loadFinish allocs requiredMask w image start = .ok (y,stop)) :
    ∃ x, w.loading = some x ∧ Framed x y := by
  obtain ⟨x,_,haccept,hrest⟩ := bind_ok h
  refine ⟨x,(accept_ok haccept).1,?_⟩
  obtain ⟨_,_,-,hrest⟩ := bind_ok hrest
  split at hrest
  · cases hrest
  · obtain ⟨_,_,-,hrest⟩ := bind_ok hrest
    obtain ⟨_,_,-,hrebuild⟩ := bind_ok hrest
    exact framed_rebuildGroups hrebuild

/-- Every loader that takes a sealed image has walked its sections. -/
theorem loadSections_walks {maxTag requiredMask : ℕ}
    {switch : Walk → Tag → Option (Decoder Walk)} {allocs : Allocs} {digit : UInt8}
    {version : UInt32} {parts : List Part} (hsealed : Sealed digit version parts image)
    (h : loadSections maxTag requiredMask switch allocs image = .ok y) :
    ∃ w x, Walks maxTag switch .start parts w ∧ w.loading = some x ∧ Framed x y := by
  obtain ⟨⟨digest,rfl⟩,hshort⟩ := hsealed
  unfold loadSections at h
  split at h
  · cases h
  · obtain ⟨stop,hrun⟩ := decodeImage_ok h
    obtain ⟨w,middle,hwalk,hfinish⟩ := bind_ok hrun
    have hhead : (magicOf digit++storeU32 version).length = 12 := by
      simp [magicOf]
    have hwalked : Walks maxTag switch .start parts w :=
      walkSections_walked hshort (storeU64_length digest) (hhead ▸ hwalk)
    obtain ⟨x,hx,hframed⟩ := framed_loadFinish hfinish
    exact ⟨w,x,hwalked,hx,hframed⟩

/-- The sections behind the nodes are known to every loader. -/
theorem tail_known {tail : List Part} (h : tailParts g = some tail) (withImportance : Bool) :
    (∀ p ∈ tail, p.tag.number ≤ 10 ∧ (∀ w, (Walk.decodeV5 w p.tag).isSome = true) ∧
      (∀ requireMigrations w, (Walk.decodeExplicit requireMigrations w p.tag).isSome = true) ∧
      Encodes g withImportance p.payload p.tag) ∧ ∃ p ∈ tail, p.tag = .valence := by
  obtain ⟨ledger,-,h⟩ := Option.bind_eq_some_iff.mp h
  obtain ⟨episodes,-,h⟩ := Option.bind_eq_some_iff.mp h
  obtain rfl := Option.some.inj h
  refine ⟨?_,⟨.valence,encodeValence g⟩,by simp,rfl⟩
  simp [Tag.number,Walk.decodeV5,Walk.decodeExplicit,Walk.decodeShared,Encodes]

/-- A walk that has arrived, with the nodes and the valence among its sections. -/
theorem reloaded_of_arriving {x : Loading} (hw : Arriving g w) (hnodes : w.has .nodes = true)
    (hvalence : w.has .valence = true) (hx : w.loading = some x) (hxy : Framed x y) :
    Reloaded g y.graph := by
  obtain ⟨x',hx',harrived⟩ := hw
  obtain rfl : x' = x := Option.some.inj (hx'.symm.trans hx)
  have hold := harrived.valence hvalence
  refine ⟨hxy.topology.trans harrived.topology,?_,hxy.records ▸ hold.records,
    hxy.events ▸ hold.events,hxy.evictions.trans hold.evictions⟩
  rw [hxy.tokens,harrived.tokens,hnodes]
  rfl

theorem reloaded_v5 {allocs : Allocs} {parts : List Part} (hg : Storable g)
    (hlegacy : g.neuralArchitecture = .legacy) (hparts : partsV5 g = some parts)
    (hsealed : Sealed 5 5 parts image) (h : loadV5 allocs image = .ok y) :
    Reloaded g y.graph := by
  obtain ⟨nodes,hnodes,hparts⟩ := Option.bind_eq_some_iff.mp hparts
  obtain ⟨tail,htail,hparts⟩ := Option.bind_eq_some_iff.mp hparts
  obtain rfl := Option.some.inj hparts
  obtain ⟨w,x,hwalk,hx,hxy⟩ := loadSections_walks hsealed h
  obtain ⟨w₁,hw₁,hwalk⟩ := walks_openV5 hlegacy hwalk
  obtain ⟨hknown,p,hp,hvalence⟩ := tail_known htail false
  have hall : ∀ p ∈ ⟨.network,encodeNetwork g⟩::⟨.nodes,nodes⟩::tail, p.tag.number ≤ 10 ∧
      (∀ w, (Walk.decodeV5 w p.tag).isSome = true) ∧ Encodes g false p.payload p.tag := by
    intro p hp
    rcases List.mem_cons.mp hp with rfl | hp
    · exact ⟨by simp [Tag.number],fun _ => rfl,trivial⟩
    · rcases List.mem_cons.mp hp with rfl | hp
      · exact ⟨by simp [Tag.number],fun _ => rfl,hnodes⟩
      · exact ⟨(hknown p hp).1,(hknown p hp).2.1,(hknown p hp).2.2.2⟩
  obtain ⟨hw,-,hseen⟩ := walks_arriving (fun hw hnew => advanced_v5 hw hg hnew) hall hw₁ hwalk
  have hlast := hseen p (by simp [hp])
  rw [hvalence] at hlast
  exact reloaded_of_arriving hw (hseen ⟨.nodes,nodes⟩ (by simp)) hlast hx hxy

/-- The sections of versions 6 and 7 behind the topology. -/
theorem reloaded_explicit {requireMigrations : Bool} {allocs : Allocs} {digit : UInt8}
    {version : UInt32} {requiredMask : ℕ} {header nodes : Bytes} {between tail : List Part}
    (hg : Storable g) (hnodes : encodeNodes true g = some nodes) (htail : tailParts g = some tail)
    (hbetween : ∀ p ∈ between, p.tag = .migrations ∨ p.tag = .network)
    (hsealed : Sealed digit version
      (⟨.header,header⟩::⟨.arch,encodeArch g⟩::(between++⟨.nodes,nodes⟩::tail)) image)
    (h : loadSections 12 requiredMask (Walk.decodeExplicit requireMigrations) allocs image =
      .ok y) : Reloaded g y.graph := by
  obtain ⟨w,x,hwalk,hx,hxy⟩ := loadSections_walks hsealed h
  obtain ⟨w₁,hw₁,hwalk⟩ := walks_openExplicit hg hwalk
  obtain ⟨hknown,p,hp,hvalence⟩ := tail_known htail true
  have hall : ∀ p ∈ between++⟨.nodes,nodes⟩::tail, p.tag.number ≤ 12 ∧
      (∀ w, (Walk.decodeExplicit requireMigrations w p.tag).isSome = true) ∧
      Encodes g true p.payload p.tag := by
    intro p hp
    rcases List.mem_append.mp hp with hp | hp
    · rcases hbetween p hp with htag | htag <;> rw [htag] <;>
        exact ⟨by simp [Tag.number],fun _ => rfl,trivial⟩
    · rcases List.mem_cons.mp hp with rfl | hp
      · exact ⟨by simp [Tag.number],fun _ => rfl,hnodes⟩
      · have hp := hknown p hp
        exact ⟨hp.1.trans (by decide),hp.2.2.1 requireMigrations,hp.2.2.2⟩
  obtain ⟨hw,-,hseen⟩ := walks_arriving (fun hw hnew => advanced_explicit hw hg hnew) hall hw₁ hwalk
  have hlast := hseen p (by simp [hp])
  rw [hvalence] at hlast
  exact reloaded_of_arriving hw (hseen ⟨.nodes,nodes⟩ (by simp)) hlast hx hxy

/-- The loader of a sealed image is that of its digit. -/
theorem graphLoad_sealed {digit : UInt8} {version : UInt32} {parts : List Part}
    {load : Allocs → Bytes → Loaded} {allocs : Allocs} (hsealed : Sealed digit version parts image)
    (hloader : loaderOf (magicOf digit) = some (version,load))
    (h : graphLoad allocs image = .ok y) : load allocs image = .ok y := by
  obtain ⟨⟨digest,rfl⟩,-⟩ := hsealed
  unfold graphLoad at h
  split at h
  · cases h
  · have hmagic : (magicOf digit++storeU32 version++(parts.map Part.row).flatMap encodeSection++
        storeU64 digest).take 8 = magicOf digit := by
      simp only [List.append_assoc]
      exact List.take_left' rfl
    have hversion : (magicOf digit++storeU32 version++(parts.map Part.row).flatMap encodeSection++
        storeU64 digest).drop 8 = storeU32 version++((parts.map Part.row).flatMap encodeSection++
          storeU64 digest) := by
      simp only [List.append_assoc]
      exact List.drop_left' rfl
    rw [hmagic,hloader] at h
    simp only [hversion,loadU32_store,ne_eq,not_true,if_false] at h
    exact h

/-- A graph that is saved and loaded keeps its tokens and its valence. -/
theorem reloaded {allocs : Allocs} (hg : Storable g) (hsave : graphSave g = some image)
    (hload : graphLoad allocs image = .ok y) : Reloaded g y.graph := by
  unfold graphSave at hsave
  split_ifs at hsave with hmigrations hlegacy
  · obtain ⟨parts,hparts,hsealed⟩ := Option.bind_eq_some_iff.mp hsave
    obtain ⟨migrations,-,hparts⟩ := Option.bind_eq_some_iff.mp hparts
    obtain ⟨nodes,hnodes,hparts⟩ := Option.bind_eq_some_iff.mp hparts
    obtain ⟨tail,htail,hparts⟩ := Option.bind_eq_some_iff.mp hparts
    obtain rfl := Option.some.inj hparts
    have hsealed := sealImage_sealed hsealed
    have hbetween : ∀ p ∈ [Part.mk .migrations migrations,⟨.network,encodeNetworkV6 g⟩],
        p.tag = .migrations ∨ p.tag = .network := by simp
    exact reloaded_explicit hg hnodes htail hbetween hsealed (graphLoad_sealed hsealed rfl hload)
  · obtain ⟨parts,hparts,hsealed⟩ := Option.bind_eq_some_iff.mp hsave
    have hsealed := sealImage_sealed hsealed
    exact reloaded_v5 hg hlegacy hparts hsealed (graphLoad_sealed hsealed rfl hload)
  · obtain ⟨parts,hparts,hsealed⟩ := Option.bind_eq_some_iff.mp hsave
    obtain ⟨nodes,hnodes,hparts⟩ := Option.bind_eq_some_iff.mp hparts
    obtain ⟨tail,htail,hparts⟩ := Option.bind_eq_some_iff.mp hparts
    obtain rfl := Option.some.inj hparts
    have hsealed := sealImage_sealed hsealed
    have hbetween : ∀ p ∈ [Part.mk .network (encodeNetworkV6 g)],
        p.tag = .migrations ∨ p.tag = .network := by simp
    exact reloaded_explicit hg hnodes htail hbetween hsealed (graphLoad_sealed hsealed rfl hload)

end Walking

end Atperson.Snapshot
