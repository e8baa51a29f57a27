import Atperson.Snapshot.Reload

/-!
# The architecture probe

The probe seeks through the sections of a snapshot and reads nothing but their headers and the
descriptor. It reads within the file, and gives the architecture the loader would load, unless more
than its share of sections comes ahead of the descriptor.
-/
namespace Atperson.Snapshot
open Wire ImageReader
open Atperson.Core
open Ledger (Status)

/-! ## The probe -/

/-- What the probe did with a file: the stretches it read, each from an offset, and how it ended. -/
structure Probed where
  reads : List (ℕ×ℕ)
  result : Except Status Architecture

def Probed.failed (status : Status) : Probed := ⟨[],.error status⟩

/-- `fread` of so many bytes from where the file stands; a short one ends the probe. -/
def readFile (file : Bytes) (cursor count : ℕ) (next : Bytes → Probed) : Probed :=
  let p := if file.length < cursor+count then .failed .io else next ((file.drop cursor).take count)
  {p with reads := (cursor,count)::p.reads}

/-- The nine words of a descriptor. -/
def descriptor (payload : Bytes) : Architecture where
  version := loadU32 payload
  embeddingDim := (loadU32 (payload.drop 4)).toNat
  inputDim := (loadU32 (payload.drop 8)).toNat
  outputDim := (loadU32 (payload.drop 12)).toNat
  hiddenLayerCount := (loadU32 (payload.drop 16)).toNat
  hiddenWidths := .ofFn fun i => (loadU32 (payload.drop (20+4*i))).toNat

/-- The walk over the sections: `cursor` is where the file stands, `position` what the code keeps. -/
def probeSections (file : Bytes) : ℕ → ℕ → ℕ → Probed
  | 0, _, _ => .failed .format
  | iterations+1, cursor, position =>
      if sizeSub file.length position < 12 then .failed .format
      else readFile file cursor 12 fun framing =>
        let tag := loadU32 framing
        let length := (loadU64 (framing.drop 4)).toNat
        if sizeSub file.length (position+12) < length then .failed .format
        else if tag.toNat ≠ Tag.arch.number then
          probeSections file iterations (cursor+12+length) (position+12+length)
        else if length ≠ (5+maxHiddenLayers)*4 then .failed .format
        else readFile file (cursor+12) 36 fun payload =>
          if (layoutBuild (descriptor payload)).isSome then ⟨[],.ok (descriptor payload)⟩
          else .failed .format

/-- `atp_snapshot_neural_architecture`, on the bytes of the file. -/
def snapshotArchitecture (file : Bytes) : Probed :=
  if file.length < 12 then .failed .format
  else readFile file 0 8 fun magic => readFile file 8 4 fun versionBytes =>
    let version := loadU32 versionBytes
    if magic = magicOf 1 ∨ magic = magicOf 5 then
      if version ≠ (if magic = magicOf 1 then 4 else 5) ∨ file.length < 8+4+12+8 then .failed .format
      else ⟨[],.ok .legacy⟩
    else if magic = magicOf 7 ∨ magic = magicOf 6 then
      if version ≠ (if magic = magicOf 7 then 7 else 6) ∨ file.length < 8+4+12+8 then .failed .format
      else probeSections file 128 12 12
    else .failed .format

/-! ## What it reads -/

/-- So many reads at most, each of bytes the file has. -/
structure Probed.Reads (file : Bytes) (n : ℕ) (p : Probed) : Prop where
  few : p.reads.length ≤ n
  inside : ∀ r ∈ p.reads, r.1+r.2 ≤ file.length

section Reads
variable {file : Bytes}

theorem reads_none (n : ℕ) (result : Except Status Architecture) :
    Probed.Reads file n ⟨[],result⟩ := ⟨Nat.zero_le n,fun _ hr => (List.not_mem_nil hr).elim⟩

theorem reads_readFile {cursor count n : ℕ} {next : Bytes → Probed}
    (hroom : cursor+count ≤ file.length) (h : ∀ bs, (next bs).Reads file n) :
    (readFile file cursor count next).Reads file (n+1) := by
  unfold readFile
  rw [if_neg (Nat.not_lt.mpr hroom)]
  refine ⟨Nat.succ_le_succ (h _).few,?_⟩
  rintro _ hr
  rcases List.mem_cons.mp hr with rfl | hr
  · exact hroom
  · exact (h _).inside _ hr

/-- The walk never leaves the file, and its two places stay the same. -/
theorem reads_probeSections (iterations : ℕ) {position : ℕ} (h : position ≤ file.length) :
    (probeSections file iterations position position).Reads file (iterations+1) := by
  induction iterations generalizing position with
  | zero => exact reads_none _ _
  | succ iterations ih =>
      unfold probeSections
      rw [sizeSub_of_le h]
      split
      · exact reads_none _ _
      · rename_i hroom
        have hstop : position+12 ≤ file.length := by omega
        refine reads_readFile hstop fun framing => ?_
        simp only [sizeSub_of_le hstop]
        split
        · exact reads_none _ _
        · rename_i hlength
          split
          · exact ih (by omega)
          · split
            · exact reads_none _ _
            · rename_i hsize
              have hthirtysix : (5+maxHiddenLayers)*4 = 36 := rfl
              have hlast : (readFile file (position+12) 36 fun payload =>
                  if (layoutBuild (descriptor payload)).isSome then ⟨[],.ok (descriptor payload)⟩
                  else .failed .format).Reads file (0+1) := by
                refine reads_readFile (by omega) fun payload => ?_
                split
                · exact reads_none _ _
                · exact reads_none _ _
              exact ⟨hlast.few.trans (by omega),hlast.inside⟩

/-- The probe ends after a bounded number of reads, all of them within the file. -/
theorem probe_reads (file : Bytes) : (snapshotArchitecture file).Reads file 131 := by
  unfold snapshotArchitecture
  split
  · exact reads_none _ _
  · rename_i hsize
    refine reads_readFile (by omega) fun magic => reads_readFile (by omega) fun versionBytes => ?_
    refine iteInduction (fun _ => iteInduction (fun _ => reads_none _ _) fun _ => reads_none _ _)
      fun _ => iteInduction (fun _ => iteInduction (fun _ => reads_none _ _) fun _ => ?_)
        fun _ => reads_none _ _
    exact reads_probeSections 128 (by omega)

end Reads

/-! ## What the loader reads at a place -/

section Places
variable {σ ε : Type} {image : Bytes} {start stop : ℕ}

theorem take_ok {count : ℕ} {bs : Bytes}
    (h : (take count : ImageReader ε Bytes) image start = .ok (bs,stop)) :
    start+count ≤ image.length ∧ stop = start+count ∧ bs = (image.drop start).take count := by
  unfold take at h
  split_ifs at h with _ hroom
  obtain ⟨rfl,rfl⟩ := Prod.mk.inj (Except.ok.inj h)
  exact ⟨Nat.le_of_not_lt hroom,rfl,rfl⟩

theorem word_take {bs : Bytes} {k : ℕ} (h : 4 ≤ k) : loadU32 (bs.take k) = loadU32 bs := by
  rw [loadU32,List.take_take,Nat.min_eq_left h,loadU32]

theorem u32_ok {v : UInt32} (h : (u32 : ImageReader ε UInt32) image start = .ok (v,stop)) :
    stop = start+4 ∧ v = loadU32 (image.drop start) := by
  obtain ⟨bs,middle,htake,hpure⟩ := bind_ok h
  obtain ⟨-,rfl,rfl⟩ := take_ok htake
  obtain ⟨rfl,rfl⟩ := Prod.mk.inj (Except.ok.inj hpure)
  exact ⟨rfl,word_take le_rfl⟩

theorem many_u32_ok {n : ℕ} {vs : List UInt32}
    (h : (many u32 n : ImageReader ε (List UInt32)) image start = .ok (vs,stop)) :
    stop = start+4*n ∧ ∀ i < n, vs.getD i 0 = loadU32 (image.drop (start+4*i)) := by
  induction n generalizing start vs with
  | zero =>
      obtain ⟨rfl,rfl⟩ := Prod.mk.inj (Except.ok.inj h)
      exact ⟨rfl,fun i hi => (Nat.not_lt_zero i hi).elim⟩
  | succ n ih =>
      obtain ⟨v,middle,hv,hrest⟩ := bind_ok h
      obtain ⟨rest,last,hmany,hpure⟩ := bind_ok hrest
      obtain ⟨rfl,rfl⟩ := Prod.mk.inj (Except.ok.inj hpure)
      obtain ⟨rfl,rfl⟩ := u32_ok hv
      obtain ⟨hstop,hplaces⟩ := ih hmany
      refine ⟨by omega,fun i hi => ?_⟩
      cases i with
      | zero => rfl
      | succ i =>
          rw [List.getD_cons_succ,hplaces i (by omega)]
          exact congrArg (fun p => loadU32 (image.drop p)) (by omega)

/-- A section that was handled: where it stands, and what became of it. -/
theorem oneSection_ok {note : σ → UInt32 → Option σ} {handle : σ → UInt32 → Option (ImageReader ε σ)}
    {s s' : σ} (h : oneSection note handle s image start = .ok (s',stop)) :
    start+12 ≤ image.length ∧ stop = start+12+(loadU64 (image.drop (start+4))).toNat ∧
      stop ≤ image.length ∧ ∃ s₁, note s (loadU32 (image.drop start)) = some s₁ ∧
      (handle s₁ (loadU32 (image.drop start)) = none ∧ s' = s₁ ∨
        ∃ decode, handle s₁ (loadU32 (image.drop start)) = some decode ∧
          decode image (start+12) = .ok (s',stop)) := by
  unfold oneSection at h
  obtain ⟨⟨tag,length⟩,middle,hheader,hrest⟩ := bind_ok h
  obtain ⟨payloadAt,_,hposition,hrest⟩ := bind_ok hrest
  obtain ⟨rfl,rfl⟩ := Prod.mk.inj (Except.ok.inj hposition)
  obtain ⟨s₁,_,haccept,hpayload⟩ := bind_ok hrest
  obtain ⟨hnote,rfl⟩ := accept_ok haccept
  unfold sectionHeader at hheader
  obtain ⟨header,_,htake,hrest⟩ := bind_ok hheader
  obtain ⟨hroom,rfl,rfl⟩ := take_ok htake
  obtain ⟨left,_,hleft,hrest⟩ := bind_ok hrest
  obtain ⟨rfl,rfl⟩ := Prod.mk.inj (Except.ok.inj hleft)
  obtain ⟨_,_,hcheck,hpure⟩ := bind_ok hrest
  obtain ⟨hlength,rfl⟩ := check_ok hcheck
  obtain ⟨hpair,rfl⟩ := Prod.mk.inj (Except.ok.inj hpure)
  obtain ⟨rfl,rfl⟩ := Prod.mk.inj hpair
  have htag : loadU32 ((image.drop start).take 12) = loadU32 (image.drop start) :=
    word_take (by decide)
  have hsize : loadU64 (((image.drop start).take 12).drop 4) = loadU64 (image.drop (start+4)) := by
    rw [List.drop_take,List.drop_drop,loadU64,List.take_take,loadU64]
    rfl
  rw [htag] at hnote hpayload
  rw [hsize] at hlength hpayload
  rw [decide_eq_true_eq,sizeSub_of_le hroom] at hlength
  obtain ⟨rfl,hcase⟩ := payload_cases hpayload
  exact ⟨hroom,rfl,by omega,s₁,hnote,hcase⟩

/-- A topology that was decoded is that of its words. -/
theorem decodeArchitecture_ok {a : Architecture}
    (h : decodeArchitecture image start = .ok (a,stop)) :
    stop = start+36 ∧ a = descriptor (image.drop start) ∧ (layoutBuild a).isSome = true := by
  unfold decodeArchitecture at h
  obtain ⟨version,_,hversion,h⟩ := bind_ok h
  obtain ⟨rfl,rfl⟩ := u32_ok hversion
  obtain ⟨_,_,hcheck,h⟩ := bind_ok h
  obtain ⟨-,rfl⟩ := check_ok hcheck
  obtain ⟨embedding,_,hembedding,h⟩ := bind_ok h
  obtain ⟨rfl,rfl⟩ := u32_ok hembedding
  obtain ⟨input,_,hinput,h⟩ := bind_ok h
  obtain ⟨rfl,rfl⟩ := u32_ok hinput
  obtain ⟨output,_,houtput,h⟩ := bind_ok h
  obtain ⟨rfl,rfl⟩ := u32_ok houtput
  obtain ⟨count,_,hcount,h⟩ := bind_ok h
  obtain ⟨rfl,rfl⟩ := u32_ok hcount
  obtain ⟨_,_,hcheck,h⟩ := bind_ok h
  obtain ⟨-,rfl⟩ := check_ok hcheck
  obtain ⟨widths,_,hwidths,h⟩ := bind_ok h
  obtain ⟨rfl,hplaces⟩ := many_u32_ok hwidths
  obtain ⟨_,_,hcheck,h⟩ := bind_ok h
  obtain ⟨hlayout,rfl⟩ := check_ok hcheck
  obtain ⟨rfl,rfl⟩ := Prod.mk.inj (Except.ok.inj h)
  have hsame : (⟨loadU32 (image.drop start),(loadU32 (image.drop (start+4))).toNat,
      (loadU32 (image.drop (start+4+4))).toNat,(loadU32 (image.drop (start+4+4+4+4))).toNat,
      .ofFn fun i : Fin maxHiddenLayers => (widths.getD i 0).toNat,
      (loadU32 (image.drop (start+4+4+4))).toNat⟩ : Architecture) = descriptor (image.drop start) := by
    unfold descriptor
    simp only [List.drop_drop]
    congr 1
    refine congrArg Vector.ofFn (funext fun i => ?_)
    rw [hplaces i i.isLt]
    exact congrArg (fun p => (loadU32 (image.drop p)).toNat) (by omega)
  exact ⟨rfl,hsame,hlayout⟩

end Places

/-! ## The way to the descriptor -/

/-- The tag and the length of the section at a place. -/
def tagAt (image : Bytes) (place : ℕ) : ℕ := (loadU32 (image.drop place)).toNat

def lengthAt (image : Bytes) (place : ℕ) : ℕ := (loadU64 (image.drop (place+4))).toNat

/-- From a place it is so many sections to a descriptor, which is of this architecture. -/
inductive Leads (image : Bytes) : ℕ → ℕ → Architecture → Prop
  | here {place : ℕ} : tagAt image place = Tag.arch.number → lengthAt image place = 36 →
      place+12+36 ≤ image.length → (layoutBuild (descriptor (image.drop (place+12)))).isSome = true →
      Leads image place 0 (descriptor (image.drop (place+12)))
  | past {place n : ℕ} {a : Architecture} : tagAt image place ≠ Tag.arch.number →
      place+12+lengthAt image place ≤ image.length →
      Leads image (place+12+lengthAt image place) n a → Leads image place (n+1) a

/-- How many sections stand ahead of the first descriptor. -/
def sectionsAhead (image : Bytes) : ℕ → ℕ → ℕ
  | 0, _ => 0
  | fuel+1, place =>
      if tagAt image place = Tag.arch.number then 0
      else sectionsAhead image fuel (place+12+lengthAt image place)+1

namespace Leads
variable {image : Bytes} {place n : ℕ} {a : Architecture}

theorem short (h : Leads image place n a) : place+12*n < image.length := by
  induction h with
  | here _ _ hroom _ => omega
  | past _ _ _ ih => omega

theorem ahead (h : Leads image place n a) {fuel : ℕ} (hfuel : n < fuel) :
    sectionsAhead image fuel place = n := by
  induction h generalizing fuel with
  | here htag _ _ _ =>
      cases fuel with
      | zero => exact absurd hfuel (Nat.not_lt_zero _)
      | succ fuel => rw [sectionsAhead,if_pos htag]
  | past htag _ _ ih =>
      cases fuel with
      | zero => exact absurd hfuel (Nat.not_lt_zero _)
      | succ fuel => rw [sectionsAhead,if_neg htag,ih (by omega)]

theorem descriptor_take (bs : Bytes) : descriptor (bs.take 36) = descriptor bs := by
  have hword : ∀ k ≤ 32, loadU32 ((bs.take 36).drop k) = loadU32 (bs.drop k) := fun k hk => by
    rw [List.drop_take]
    exact word_take (by omega)
  unfold descriptor
  rw [word_take (by decide),hword 4 (by decide),hword 8 (by decide),hword 12 (by decide),
    hword 16 (by decide)]
  congr 1
  refine congrArg Vector.ofFn (funext fun i => ?_)
  have hlayers : maxHiddenLayers = 4 := rfl
  rw [hword (20+4*i) (by omega)]

/-- What the probe takes from the framing of a section. -/
theorem framing (image : Bytes) (place : ℕ) :
    (loadU32 ((image.drop place).take 12)).toNat = tagAt image place ∧
      (loadU64 (((image.drop place).take 12).drop 4)).toNat = lengthAt image place := by
  refine ⟨by rw [word_take (by decide),tagAt],?_⟩
  rw [List.drop_take,List.drop_drop,lengthAt,loadU64,List.take_take,loadU64]
  rfl

/-- The probe finds the descriptor among the first sections it has iterations for. -/
theorem probes (h : Leads image place n a) (iterations : ℕ) :
    (probeSections image iterations place place).result =
      if n < iterations then .ok a else .error .format := by
  induction h generalizing iterations with
  | @here place htag hlength hroom hlayout =>
      cases iterations with
      | zero => rfl
      | succ iterations =>
          rw [if_pos (Nat.succ_pos _)]
          unfold probeSections
          rw [sizeSub_of_le (by omega),if_neg (by omega)]
          unfold readFile
          rw [if_neg (by omega)]
          simp only [(framing image place).1,(framing image place).2,hlength]
          rw [sizeSub_of_le (by omega),if_neg (by omega),if_neg (not_not.mpr htag),
            if_neg (not_not.mpr (by rfl)),if_neg (by omega),descriptor_take,if_pos hlayout]
  | @past place n a htag hroom hrest ih =>
      cases iterations with
      | zero => rfl
      | succ iterations =>
          unfold probeSections
          rw [sizeSub_of_le (by omega),if_neg (by omega)]
          unfold readFile
          rw [if_neg (by omega)]
          simp only [(framing image place).1,(framing image place).2]
          rw [sizeSub_of_le (by omega),if_neg (by omega),if_pos htag,ih iterations]
          simp only [Nat.succ_lt_succ_iff]

end Leads

/-! ## The architecture of what is loaded -/

/-- Everything that is being loaded has this architecture. -/
def Shaped (a : Architecture) (w : Walk) : Prop := ∀ x ∈ w.loading, x.graph.neuralArchitecture = a

/-- There is a graph, and of this architecture. -/
def Created (a : Architecture) (w : Walk) : Prop := w.loading.isSome = true ∧ Shaped a w

section Shapes
variable {a : Architecture} {w w' : Walk} {t : Tag} {d : Decoder Walk} {image : Bytes}
  {start stop : ℕ}

theorem shape_nodes (withImportance : Bool) (x : Loading) : Within (decodeNodes withImportance x)
    fun y => y.graph.neuralArchitecture = x.graph.neuralArchitecture :=
  within_u64.bind fun _ _ => (within_fits _ _).bind fun _ _ =>
    (within_many (within_readNode _ _) _).bind fun _ _ => within_pure rfl

theorem shape_valence (x : Loading) : Within (decodeValence x)
    fun y => y.graph.neuralArchitecture = x.graph.neuralArchitecture := by
  refine within_u64.bind fun _ _ => (within_fits _ _).bind fun _ _ => within_check.bind fun _ _ => ?_
  refine (within_chain (R := fun a b => a.nodeIndex < b.nodeIndex)
    (fun previous => within_readValenceRecord _ previous) _ none).bind fun _ _ => ?_
  refine within_u64.bind fun _ _ => within_check.bind fun _ _ => within_u64.bind fun _ _ => ?_
  exact (within_fits _ _).bind fun _ _ => (within_many (within_readValenceEvent _) _).bind fun _ _ =>
    within_pure rfl

theorem shape_framed {read : Loading → Decoder Loading} (h : ∀ x, Within (read x) (Framed x))
    (x : Loading) : Within (read x) fun y => y.graph.neuralArchitecture = x.graph.neuralArchitecture :=
  (h x).mono fun _ hxy => hxy.topology

theorem created_decode (h : Shaped a w) {read : Loading → Decoder Loading}
    (hread : ∀ x, Within (read x) fun y => y.graph.neuralArchitecture = x.graph.neuralArchitecture) :
    Within (w.decode read) (Created a) := by
  refine within_accept.bind fun x hx => (hread x).bind fun y hy => within_pure ⟨rfl,fun z hz => ?_⟩
  cases hz
  exact hy.trans (h x hx)

/-- The sections all loaders share leave the architecture, and a graph where there was one. -/
theorem shaped_shared (h : Shaped a w) (hd : w.decodeShared t = some d) :
    Within d fun w' => Shaped a w' ∧ (w.loading.isSome = true → w'.loading.isSome = true) := by
  have hcreated : ∀ w', Created a w' →
      Shaped a w' ∧ (w.loading.isSome = true → w'.loading.isSome = true) :=
    fun w' hw' => ⟨hw'.2,fun _ => hw'.1⟩
  cases t with
  | edges =>
      cases hd
      exact (created_decode h (shape_framed framed_edges)).mono hcreated
  | ledger =>
      cases hd
      exact (created_decode h (shape_framed framed_ledger)).mono hcreated
  | context =>
      cases hd
      exact within_check.bind fun _ _ => (created_decode h (shape_framed framed_context)).mono hcreated
  | episodes =>
      cases hd
      exact (created_decode h (shape_framed framed_episodes)).mono hcreated
  | valence =>
      cases hd
      exact within_check.bind fun _ _ => (created_decode h shape_valence).mono hcreated
  | schema =>
      cases hd
      exact within_u32.bind fun _ _ => within_check.bind fun _ _ => within_pure ⟨h,id⟩
  | header => cases hd
  | network => cases hd
  | nodes => cases hd
  | arch => cases hd
  | migrations => cases hd

theorem architecture_created {config : GraphConfig} {g : Graph}
    (h : createWithArchitecture config a = some g) (c : Counters) :
    (c.restore g).neuralArchitecture = a := by
  obtain ⟨r,-,rfl⟩ := Option.map_eq_some_iff.mp h
  rfl

theorem decodeV5_shared (w : Walk) (t : Tag) : t = .header ∨ t = .network ∨ t = .nodes ∨
    w.decodeV5 t = w.decodeShared t := by
  cases t with
  | header => exact .inl rfl
  | network => exact .inr (.inl rfl)
  | nodes => exact .inr (.inr (.inl rfl))
  | _ => exact .inr (.inr (.inr rfl))

theorem decodeExplicit_shared (requireMigrations : Bool) (w : Walk) (t : Tag) : t = .header ∨
    t = .arch ∨ t = .migrations ∨ t = .network ∨ t = .nodes ∨
      w.decodeExplicit requireMigrations t = w.decodeShared t := by
  cases t with
  | header => exact .inl rfl
  | arch => exact .inr (.inl rfl)
  | migrations => exact .inr (.inr (.inl rfl))
  | network => exact .inr (.inr (.inr (.inl rfl)))
  | nodes => exact .inr (.inr (.inr (.inr (.inl rfl))))
  | _ => exact .inr (.inr (.inr (.inr (.inr rfl))))

theorem shaped_v5 (h : Shaped .legacy w) (hd : w.decodeV5 t = some d) :
    Within d (Shaped .legacy) := by
  rcases decodeV5_shared w t with rfl | rfl | rfl | hshared
  · cases hd
    refine within_decodeHeader.bind fun header _ => ?_
    cases hg : createGraph header.config with
    | none => exact within_refused trivial
    | some g =>
        refine within_pure fun y hy => ?_
        cases hy
        unfold createGraph at hg
        exact architecture_created hg header.counters
  · cases hd
    exact (created_decode h (shape_framed framed_network)).mono fun _ hw' => hw'.2
  · cases hd
    exact (created_decode h (shape_nodes false)).mono fun _ hw' => hw'.2
  · exact (shaped_shared h (hshared ▸ hd)).mono fun _ hw' => hw'.1

/-- Once there is a graph it keeps its architecture. -/
theorem created_explicit {requireMigrations : Bool} (h : Created a w)
    (hd : w.decodeExplicit requireMigrations t = some d) : Within d (Created a) := by
  rcases decodeExplicit_shared requireMigrations w t with rfl | rfl | rfl | rfl | rfl | hshared
  · cases hd
    exact within_decodeHeaderV6.bind fun _ _ => within_pure h
  · cases hd
    refine within_check.bind fun _ hcheck => ?_
    rw [Bool.and_eq_true,Option.isNone_iff_eq_none] at hcheck
    have hsome := h.1
    rw [hcheck.2] at hsome
    cases hsome
  · cases hd
    exact within_check.bind fun _ _ => created_decode h.2 (shape_framed framed_migrations)
  · cases hd
    exact created_decode h.2 (shape_framed framed_networkV6)
  · cases hd
    exact created_decode h.2 (shape_nodes true)
  · exact (shaped_shared h.2 (hshared ▸ hd)).mono fun _ hw' => ⟨hw'.2 h.1,hw'.1⟩

/-- Where there is no graph yet, only a descriptor makes one. -/
theorem unopened_explicit {requireMigrations : Bool} (h : w.loading = none) (harch : t ≠ .arch)
    (hd : w.decodeExplicit requireMigrations t = some d) (hrun : d image start = .ok (w',stop)) :
    w'.loading = none := by
  have hdecode : ∀ {read start}, w.decode read image start ≠ .ok (w',stop) := fun hok => by
    obtain ⟨x,_,hx,-,-⟩ := decode_ok hok
    rw [h] at hx
    cases hx
  cases t with
  | header =>
      cases hd
      obtain ⟨_,_,-,hpure⟩ := bind_ok hrun
      obtain ⟨rfl,-⟩ := Prod.mk.inj (Except.ok.inj hpure)
      exact h
  | schema =>
      cases hd
      obtain ⟨_,_,-,hrest⟩ := bind_ok hrun
      obtain ⟨_,_,-,hpure⟩ := bind_ok hrest
      obtain ⟨rfl,-⟩ := Prod.mk.inj (Except.ok.inj hpure)
      exact h
  | migrations =>
      cases hd
      obtain ⟨_,_,-,hrest⟩ := bind_ok hrun
      exact (hdecode hrest).elim
  | context =>
      cases hd
      obtain ⟨_,_,-,hrest⟩ := bind_ok hrun
      exact (hdecode hrest).elim
  | valence =>
      cases hd
      obtain ⟨_,_,-,hrest⟩ := bind_ok hrun
      exact (hdecode hrest).elim
  | arch => exact absurd rfl harch
  | network =>
      cases hd
      exact (hdecode hrun).elim
  | nodes =>
      cases hd
      exact (hdecode hrun).elim
  | edges =>
      cases hd
      exact (hdecode hrun).elim
  | ledger =>
      cases hd
      exact (hdecode hrun).elim
  | episodes =>
      cases hd
      exact (hdecode hrun).elim

theorem loading_noted {maxTag : ℕ} {word : UInt32} (h : w.note maxTag word = some w') :
    w'.loading = w.loading := by
  rcases note_cases h with ⟨rfl,-⟩ | ⟨-,rfl⟩
  · rfl
  · rfl

theorem Created.noted (h : Created a w) {maxTag : ℕ} {word : UInt32}
    (hnote : w.note maxTag word = some w') : Created a w' := by
  unfold Created Shaped
  rw [loading_noted hnote]
  exact h

theorem Shaped.noted (h : Shaped a w) {maxTag : ℕ} {word : UInt32}
    (hnote : w.note maxTag word = some w') : Shaped a w' := by
  unfold Shaped
  rw [loading_noted hnote]
  exact h

theorem reads_explicit (requireMigrations : Bool) (s : Walk) (word : UInt32) (s' : Walk)
    (decode : Decoder Walk) (hs : Created a s) (hnote : s.note 12 word = some s')
    (hread : (Tag.ofWord? word).bind (s'.decodeExplicit requireMigrations) = some decode) :
    Within decode (Created a) := by
  obtain ⟨t,-,hd⟩ := Option.bind_eq_some_iff.mp hread
  exact created_explicit (hs.noted hnote) hd

theorem reads_v5 (s : Walk) (word : UInt32) (s' : Walk) (decode : Decoder Walk)
    (hs : Shaped .legacy s) (hnote : s.note 10 word = some s')
    (hread : (Tag.ofWord? word).bind s'.decodeV5 = some decode) : Within decode (Shaped .legacy) := by
  obtain ⟨t,-,hd⟩ := Option.bind_eq_some_iff.mp hread
  exact shaped_v5 (hs.noted hnote) hd

theorem ofWord_arch {word : UInt32} : Tag.ofWord? word = some .arch ↔ word.toNat = Tag.arch.number := by
  constructor
  · intro h
    have hfound := List.find?_some h
    rw [decide_eq_true_eq] at hfound
    exact hfound.symm
  · intro h
    unfold Tag.ofWord?
    rw [h]
    rfl

/-- A walk that ends with a graph has come to its descriptor, from where there was none. -/
theorem walk_leads {requireMigrations : Bool} {fuel : ℕ} {x : Loading}
    (hstart : start ≤ image.length) (hfuel : image.length < start+fuel) (hnone : w.loading = none)
    (h : walkSections (Walk.note 12)
      (fun w word => (Tag.ofWord? word).bind (w.decodeExplicit requireMigrations)) 8 fuel w image
        start = .ok (w',stop)) (hx : w'.loading = some x) :
    ∃ n, Leads image start n x.graph.neuralArchitecture := by
  induction fuel generalizing w start with
  | zero => cases h
  | succ fuel ih =>
      have hround : (if sizeSub image.length start ≤ 8 then pure w
          else oneSection (Walk.note 12) (fun w word =>
            (Tag.ofWord? word).bind (w.decodeExplicit requireMigrations)) w >>=
              walkSections (Walk.note 12) (fun w word =>
                (Tag.ofWord? word).bind (w.decodeExplicit requireMigrations)) 8 fuel :
          ImageReader Status Walk) image start = .ok (w',stop) := h
      split at hround
      · obtain ⟨rfl,-⟩ := Prod.mk.inj (Except.ok.inj hround)
        rw [hnone] at hx
        cases hx
      · obtain ⟨w₁,middle,hsection,hrest⟩ := bind_ok hround
        obtain ⟨hroom,hmiddle,hend,w₀,hnote,hcase⟩ := oneSection_ok hsection
        have hnone₀ : w₀.loading = none := (loading_noted hnote).trans hnone
        by_cases harch : tagAt image start = Tag.arch.number
        · have htag := ofWord_arch.mpr harch
          rcases hcase with ⟨hskip,-⟩ | ⟨decode,hdecode,hrun⟩
          · rw [htag] at hskip
            cases hskip
          · rw [htag] at hdecode
            cases hdecode
            obtain ⟨_,_,hcheck,hrun⟩ := bind_ok hrun
            obtain ⟨-,rfl⟩ := check_ok hcheck
            obtain ⟨a,_,harchitecture,hcreate⟩ := bind_ok hrun
            obtain ⟨rfl,rfl,hlayout⟩ := decodeArchitecture_ok harchitecture
            obtain ⟨g,hcreated,hw₁⟩ := create_ok hcreate
            rw [hcreated] at hcreate
            obtain ⟨-,hstop⟩ := Prod.mk.inj (Except.ok.inj hcreate)
            have hstart₁ : Created (descriptor (image.drop (start+12))) w₁ := by
              rw [hw₁]
              refine ⟨rfl,fun y hy => ?_⟩
              cases hy
              exact architecture_created hcreated w₀.pending.counters
            have hlands := walkSections_lands
              (fun s tag s' hs hnote _ => hs.noted hnote)
              (reads_explicit requireMigrations) 8 fuel hstart₁ hend (by omega)
            rw [hrest] at hlands
            have hlength : lengthAt image start = 36 := by
              rw [lengthAt]
              omega
            rw [hlands.2.2.2 x hx]
            exact ⟨0,.here harch hlength (by omega) hlayout⟩
        · have hother : ∀ t, Tag.ofWord? (loadU32 (image.drop start)) = some t → t ≠ .arch :=
            fun t ht hsame => harch (ofWord_arch.mp (hsame ▸ ht))
          have hnone₁ : w₁.loading = none := by
            rcases hcase with ⟨-,rfl⟩ | ⟨decode,hdecode,hrun⟩
            · exact hnone₀
            · obtain ⟨t,ht,hd⟩ := Option.bind_eq_some_iff.mp hdecode
              exact unopened_explicit hnone₀ (hother t ht) hd hrun
          obtain ⟨n,hn⟩ := ih hend (by omega) hnone₁ hrest
          rw [hmiddle] at hn hend
          exact ⟨n+1,.past harch hend hn⟩

end Shapes

/-! ## Agreement -/

section Agreement
variable {allocs : Allocs} {image : Bytes} {x : Loading}

theorem loadExplicit_leads {requireMigrations : Bool} {requiredMask : ℕ} (hsize : 12 ≤ image.length)
    (h : loadSections 12 requiredMask (Walk.decodeExplicit requireMigrations) allocs image = .ok x) :
    ∃ n, Leads image 12 n x.graph.neuralArchitecture := by
  unfold loadSections at h
  split at h
  · cases h
  · obtain ⟨_,hrun⟩ := decodeImage_ok h
    obtain ⟨w,_,hwalk,hfinish⟩ := bind_ok hrun
    obtain ⟨y,hy,hframed⟩ := framed_loadFinish hfinish
    rw [hframed.topology]
    exact walk_leads hsize (by omega) rfl hwalk hy

theorem loadV5_legacy (hsize : 12 ≤ image.length) (h : loadV5 allocs image = .ok x) :
    x.graph.neuralArchitecture = .legacy := by
  unfold loadV5 loadSections at h
  split at h
  · cases h
  · obtain ⟨_,hrun⟩ := decodeImage_ok h
    obtain ⟨w,_,hwalk,hfinish⟩ := bind_ok hrun
    obtain ⟨y,hy,hframed⟩ := framed_loadFinish hfinish
    have hstart : Shaped .legacy .start := fun y hy => (by cases hy)
    have hwithin := within_sections
      (fun s tag s' hs hnote _ => hs.noted hnote)
      reads_v5 8 hstart
    rw [hframed.topology]
    exact hwithin.result hsize hwalk y hy

theorem shape_rebuildGroups (y : Loading) : Within (rebuildGroups allocs y)
    fun z => z.graph.neuralArchitecture = y.graph.neuralArchitecture := by
  unfold rebuildGroups
  split
  · exact within_pure rfl
  · exact within_refused trivial

theorem shape_familiarity (y : Loading) : Within (decodeFamiliarity y)
    fun z => z.graph.neuralArchitecture = y.graph.neuralArchitecture :=
  within_u32.bind fun _ _ => within_check.bind fun _ _ => (within_many within_f32 _).bind fun _ _ =>
    within_pure rfl

theorem decodeV4_legacy : Within (decodeV4 allocs) fun y => y.graph.neuralArchitecture = .legacy := by
  refine within_u32.bind fun _ _ => within_check.bind fun _ _ => within_u32.bind fun _ _ => ?_
  refine within_check.bind fun _ _ => within_readRates.bind fun config _ => ?_
  cases hg : createGraph config with
  | none => exact within_refused trivial
  | some g =>
      refine within_readCounters.bind fun counters _ => within_u64.bind fun _ _ => ?_
      refine within_u64.bind fun _ _ => (within_fits _ _).bind fun _ _ => ?_
      refine (within_fits _ _).bind fun _ _ => (framed_network _).bind fun y hy => ?_
      unfold createGraph at hg
      have hlegacy : y.graph.neuralArchitecture = .legacy :=
        hy.topology.trans (architecture_created hg counters)
      refine (within_many (within_readNodeV4 _) _).bind fun nodes _ => ?_
      refine (within_many (within_readEdge _) _).bind fun edges _ => ?_
      refine (framed_ledger _).bind fun y₁ hy₁ => (framed_episodes _).bind fun y₂ hy₂ => ?_
      refine (shape_familiarity _).bind fun y₃ hy₃ => ?_
      refine within_position.bind fun _ _ => within_size.bind fun _ _ => ?_
      refine within_check.bind fun _ _ => (shape_rebuildGroups _).mono fun z hz => ?_
      exact hz.trans (hy₃.trans (hy₂.topology.trans (hy₁.topology.trans hlegacy)))

/-- How many sections stand ahead of the descriptor, in the versions that have one. -/
def ahead (image : Bytes) : ℕ :=
  if image.take 8 = magicOf 7 ∨ image.take 8 = magicOf 6 then sectionsAhead image image.length 12
  else 0

theorem result_readFile {cursor count : ℕ} {next : Bytes → Probed}
    (h : cursor+count ≤ image.length) : (readFile image cursor count next).result =
      (next ((image.drop cursor).take count)).result := by
  unfold readFile
  rw [if_neg (Nat.not_lt.mpr h)]

/-- What the probe comes to once it has the magic and the version. -/
theorem snapshotArchitecture_result (hsize : 8+4+12+8 ≤ image.length) :
    (snapshotArchitecture image).result =
      if image.take 8 = magicOf 1 ∨ image.take 8 = magicOf 5 then
        if loadU32 (image.drop 8) ≠ (if image.take 8 = magicOf 1 then 4 else 5) then .error .format
        else .ok .legacy
      else if image.take 8 = magicOf 7 ∨ image.take 8 = magicOf 6 then
        if loadU32 (image.drop 8) ≠ (if image.take 8 = magicOf 7 then 7 else 6) then .error .format
        else (probeSections image 128 12 12).result
      else .error .format := by
  have hlong : ¬image.length < 8+4+12+8 := Nat.not_lt.mpr hsize
  have hversion : loadU32 ((image.drop 8).take 4) = loadU32 (image.drop 8) := word_take le_rfl
  unfold snapshotArchitecture
  rw [if_neg (by omega),result_readFile (by omega),result_readFile (by omega),List.drop_zero]
  simp only [hversion,hlong,or_false,apply_ite Probed.result]
  rfl

/-- Where the loader takes a file, the probe gives the architecture of what is loaded, if it comes
to the descriptor among its sections. -/
theorem probe_agrees (h : graphLoad allocs image = .ok x) : (snapshotArchitecture image).result =
    if ahead image < 128 then .ok x.graph.neuralArchitecture else .error .format := by
  unfold graphLoad at h
  split at h
  · cases h
  rename_i hshort
  have hsize : 8+4+12+8 ≤ image.length := Nat.le_of_not_lt hshort
  have hlead : ∀ n, Leads image 12 n x.graph.neuralArchitecture →
      (probeSections image 128 12 12).result =
        if sectionsAhead image image.length 12 < 128 then .ok x.graph.neuralArchitecture
        else .error .format := fun n hn => by
    rw [hn.ahead (by have := hn.short; omega),hn.probes]
  obtain ⟨h71,h75,h61,h65,h67,h51,h57,h56,h17,h16⟩ : magicOf 7 ≠ magicOf 1 ∧ magicOf 7 ≠ magicOf 5 ∧
      magicOf 6 ≠ magicOf 1 ∧ magicOf 6 ≠ magicOf 5 ∧ magicOf 6 ≠ magicOf 7 ∧ magicOf 5 ≠ magicOf 1 ∧
      magicOf 5 ≠ magicOf 7 ∧ magicOf 5 ≠ magicOf 6 ∧ magicOf 1 ≠ magicOf 7 ∧ magicOf 1 ≠ magicOf 6 := by
    decide
  rw [snapshotArchitecture_result hsize]
  unfold ahead
  unfold loaderOf at h
  generalize image.take 8 = magic at h ⊢
  split_ifs at h with h7 h6 h5 h1
  · subst h7
    simp only at h
    split at h
    · cases h
    · rename_i hversion
      obtain ⟨n,hn⟩ := loadExplicit_leads (by omega) h
      simp only [h71,h75,or_self,if_false,true_or,if_true,hversion]
      exact hlead n hn
  · subst h6
    simp only at h
    split at h
    · cases h
    · rename_i hversion
      obtain ⟨n,hn⟩ := loadExplicit_leads (by omega) h
      simp only [h61,h65,h67,or_self,if_false,or_true,if_true,hversion]
      exact hlead n hn
  · subst h5
    simp only at h
    split at h
    · cases h
    · rename_i hversion
      simp only [h51,h57,h56,or_self,if_false,or_true,if_true,hversion,loadV5_legacy (by omega) h]
      rfl
  · subst h1
    simp only at h
    split at h
    · cases h
    · rename_i hversion
      obtain ⟨_,hrun⟩ := decodeImage_ok h
      simp only [h17,h16,or_self,if_false,true_or,if_true,hversion,
        decodeV4_legacy.result (by omega) hrun]
      rfl

end Agreement

/-- The probe reads a bounded number of stretches of any file, all within it, and agrees with the
loader on every file that has its descriptor among the first 128 sections. -/
theorem architecture_probe (file : Bytes) : (snapshotArchitecture file).Reads file 131 ∧
    ∀ allocs x, graphLoad allocs file = .ok x → (snapshotArchitecture file).result =
      if ahead file < 128 then .ok x.graph.neuralArchitecture else .error .format :=
  ⟨probe_reads file,fun _ _ h => probe_agrees h⟩

/-! ## Samples -/

namespace Sample

/-- One hidden layer of two units. -/
def narrowest : Architecture := ⟨1,1,2,1,#v[2,0,0,0],1⟩

/-- A snapshot of an empty graph, with so many sections of an unknown tag at its head. -/
def padded (count : ℕ) : Option Bytes := do
  let g ← createWithArchitecture .default narrowest
  let parts ← partsV6 g
  let content := magicOf 6++storeU32 6++
    (List.replicate count (encodeSection (99,[]))).flatten++parts.flatMap Part.encode
  return content++storeU64 (fnv1a64 content)

/-- Sections of a tag that is none of a descriptor all come ahead of it. -/
theorem ahead_padding {tag : UInt32} (htag : tag.toNat ≠ Tag.arch.number) (before after : Bytes)
    {count fuel : ℕ} (hfuel : count ≤ fuel) : count ≤ sectionsAhead
      (before++(List.replicate count (encodeSection (tag,[]))).flatten++after) fuel before.length := by
  induction count generalizing before fuel with
  | zero => exact Nat.zero_le _
  | succ count ih =>
      cases fuel with
      | zero => exact absurd hfuel (Nat.not_succ_le_zero _)
      | succ fuel =>
          have hsection : encodeSection (tag,[]) = storeU32 tag++storeU64 0 := List.append_nil _
          have himage : before++(List.replicate (count+1) (encodeSection (tag,[]))).flatten++after =
              before++(storeU32 tag++(storeU64 0++
                ((List.replicate count (encodeSection (tag,[]))).flatten++after))) := by
            rw [List.replicate_succ,List.flatten_cons,hsection]
            simp only [List.append_assoc]
          have hplace : tagAt (before++(storeU32 tag++(storeU64 0++
              ((List.replicate count (encodeSection (tag,[]))).flatten++after)))) before.length =
                tag.toNat := by
            rw [tagAt,List.drop_left,loadU32_store]
          have hlength : lengthAt (before++(storeU32 tag++(storeU64 0++
              ((List.replicate count (encodeSection (tag,[]))).flatten++after)))) before.length = 0 := by
            rw [lengthAt,← List.drop_drop,List.drop_left,List.drop_left' (storeU32_length tag),
              loadU64_store]
            rfl
          have hnext : before.length+12+0 = (before++(storeU32 tag++storeU64 0)).length := by
            simp
          rw [himage,sectionsAhead,hplace,if_neg htag,hlength,hnext,← List.append_assoc (storeU32 tag),
            ← List.append_assoc before,← List.append_assoc (before++_)]
          exact Nat.succ_le_succ (ih _ (Nat.le_of_succ_le_succ hfuel))

theorem padded_ahead {count : ℕ} {file : Bytes} (h : padded count = some file) :
    count ≤ ahead file := by
  unfold padded at h
  obtain ⟨g,-,h⟩ := Option.bind_eq_some_iff.mp h
  obtain ⟨parts,-,h⟩ := Option.bind_eq_some_iff.mp h
  obtain rfl := Option.some.inj h
  generalize storeU64 _ = digest
  generalize parts.flatMap Part.encode = sections
  have hmagic : (magicOf 6++storeU32 6++(List.replicate count (encodeSection (99,[]))).flatten++
      sections++digest).take 8 = magicOf 6 := by
    simp only [List.append_assoc]
    exact List.take_left' rfl
  rw [ahead,hmagic,if_pos (.inr rfl),List.append_assoc _ sections digest]
  refine ahead_padding (by decide) (magicOf 6++storeU32 6) (sections++digest) ?_
  simp [encodeSection]
  omega

/-- The snapshot as it is saved is probed as it is loaded. -/
theorem padded_agrees : ∃ file x, graphLoad [] file = .ok x ∧
    (snapshotArchitecture file).result = .ok x.graph.neuralArchitecture := by
  have hloads : (padded 0).map (fun file => ((graphLoad [] file).isOk,decide (ahead file < 128))) =
      some (true,true) := by decide +kernel
  obtain ⟨file,-,hfile⟩ := Option.map_eq_some_iff.mp hloads
  obtain ⟨hok,hahead⟩ := Prod.mk.inj hfile
  cases hload : graphLoad [] file with
  | error f =>
      rw [hload] at hok
      cases hok
  | ok x =>
      refine ⟨file,x,hload,((architecture_probe file).2 [] x hload).trans ?_⟩
      rw [if_pos (of_decide_eq_true hahead)]

/-- Behind 128 unknown sections the probe misses the descriptor that the loader finds. -/
theorem padded_refused : ∃ file x, graphLoad [] file = .ok x ∧
    (snapshotArchitecture file).result = .error .format := by
  have hloads : (padded 128).map (fun file => (graphLoad [] file).isOk) = some true := by
    decide +kernel
  obtain ⟨file,hpadded,hok⟩ := Option.map_eq_some_iff.mp hloads
  cases hload : graphLoad [] file with
  | error f =>
      rw [hload] at hok
      cases hok
  | ok x =>
      refine ⟨file,x,hload,(probe_agrees hload).trans ?_⟩
      rw [if_neg (Nat.not_lt.mpr (padded_ahead hpadded))]

end Sample

end Atperson.Snapshot
