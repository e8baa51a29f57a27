import Atperson.Ledger.Numbered
import Atperson.Replicate.Working
import Atperson.Runs.Guarded

/-!
# A host that publishes

The ledger, the journal and the thought store of a host, between whose writes passes run,
and the repository that these write to. A pass runs to its end between two writes.
-/
namespace Atperson.Replicate
open Wire Journal Thought Ledger Runs

structure Host where
  ledger : Session
  journal : JournalContents
  thoughts : List Thought
  cursorFile : Option (Json Double)
  records : Records

/-- A new state directory. -/
def Host.start : Host := ⟨createdSession,{},[],none,fun _ => none⟩

def Host.items (h : Host) : List Item := h.ledger.handle.items

/-- What one pass meets: the errors of its two loaders, the answers of its writer and the end
of the process. -/
structure Pass where
  journal : Option String := none
  thoughts : Option String := none
  writer : ℕ → WriterAnswer
  diesBeforeSave : Bool := false

def Pass.Works (pass : Pass) : Prop :=
  pass.journal = none ∧ pass.thoughts = none ∧ (∀ i, pass.writer i = .written) ∧
    pass.diesBeforeSave = false

def loaded {α : Type} (a : α) : Option String → Except String α
  | none => .ok a
  | some message => .error message

def Host.input (config : ReplicateConfig) (h : Host) (pass : Pass) : DrainInput where
  items := h.items
  journal := loaded h.journal pass.journal
  thoughts := loaded (loadThoughts h.thoughts) pass.thoughts
  config := config
  writer := pass.writer
  diesBeforeSave := pass.diesBeforeSave

inductive Write where
  | append (fault : Option CommitFault) (args : AppendArgs)
  | commit (fault : Option CommitFault) (id : UInt64) (learned : Bool)
  | withdraw (fault : Option CommitFault) (id : UInt64)
  | action (entry : JournalAction)
  | valence (entry : JournalValence)
  | intent (entry : JournalIntent)
  | thought (entry : Thought)

inductive Event where
  | write (w : Write)
  | drain (pass : Pass)

/-- The outcome of an observation that the ledger holds uncommitted; a committed one is not
processed again. -/
def commitEntry (fault : Option CommitFault) (s : Session) (id : UInt64) (learned : Bool) :
    Session :=
  match entryById s.handle.items id with
  | none => s
  | some it =>
      if it.outcome.isCommitted then s
      else (setOutcome fault s id (if learned then Outcome.learned else .skipped).toByte).1

def Host.write (h : Host) : Write → Host
  | .append fault args => { h with ledger := (Ledger.append fault h.ledger args).1 }
  | .commit fault id learned => { h with ledger := commitEntry fault h.ledger id learned }
  | .withdraw fault id => { h with ledger := (Ledger.withdraw fault h.ledger id).1 }
  | .action entry => { h with journal.actions := h.journal.actions++[entry] }
  | .valence entry => { h with journal.valence := h.journal.valence++[entry] }
  | .intent entry => { h with journal.intents := h.journal.intents++[entry] }
  | .thought entry => { h with thoughts := writeThought h.thoughts entry }

section Step
variable (path : String) (config : ReplicateConfig)

def Host.drain (h : Host) (pass : Pass) : Host :=
  let result := replicateDrain path h.cursorFile h.records (h.input config pass)
  { h with cursorFile := result.cursorFile, records := result.records }

def Host.step (h : Host) : Event → Host
  | .write w => h.write w
  | .drain pass => h.drain path config pass

/-- Passes alone, with nothing written between them. -/
def Host.drains (h : Host) (passes : List Pass) : Host :=
  runFrom (Host.step path config) h (passes.map .drain)

end Step

def Host.lines (h : Host) : Kind → List Line := linesOf h.journal (loadThoughts h.thoughts)

/-! ## Changes of the ledger -/

/-- Entries stay and new ones come behind them; an outcome that is decided stays decided and
a withdrawn entry stays withdrawn. -/
def Grows (items items' : List Item) : Prop :=
  ∀ (n : ℕ) (it : Item), items[n]? = some it → ∃ o, items'[n]? = some (it.withOutcome o) ∧
    (it.outcome ≠ .pending → o ≠ .pending) ∧ (it.outcome = .withdrawn → o = .withdrawn)

theorem Grows.refl (items : List Item) : Grows items items :=
  fun _ it hit => ⟨it.outcome,hit,id,id⟩

theorem Grows.append (items more : List Item) : Grows items (items++more) := by
  intro n it hit
  have hlt := (List.getElem?_eq_some_iff.mp hit).choose
  exact ⟨it.outcome,by rw [List.getElem?_append_left hlt]; exact hit,id,id⟩

theorem Grows.setOutcomeAt {items : List Item} {m : ℕ} {o : Outcome} (ho : o ≠ .pending)
    (hw : ∀ it, items[m]? = some it → it.outcome = .withdrawn → o = .withdrawn) :
    Grows items (setOutcomeAt m o items) := by
  intro n it hit
  rw [getElem?_setOutcomeAt]
  split
  · rename_i heq
    rw [hit]
    exact ⟨o,rfl,fun _ => ho,hw it (heq ▸ hit)⟩
  · exact ⟨it.outcome,hit,id,id⟩

section Ledger
variable {s : Session}

theorem append_grows (fault : Option CommitFault) (args : AppendArgs) :
    Grows s.handle.items (Ledger.append fault s args).1.handle.items := by
  rcases append_cases fault s args with ⟨reply,-,he⟩ | ⟨v,ok,-,-,hc,-⟩
  · rw [he]
    exact .refl _
  · rw [hc.items]
    cases ok
    · exact .refl _
    · exact .append _ _

/-- An outcome that is not withdrawn is only set on an entry that is not withdrawn. -/
theorem setOutcome_grows (fault : Option CommitFault) {id : UInt64} {o : Outcome}
    (ho : o ≠ .pending)
    (hw : ∀ it, s.handle.items[id.toNat-1]? = some it → it.outcome = .withdrawn →
      o = .withdrawn) :
    Grows s.handle.items (Ledger.setOutcome fault s id o.toByte).1.handle.items := by
  rcases setOutcome_cases fault s id o.toByte with ⟨status,-,he⟩ | ⟨o',it,ok,-,hch,hc,-⟩
  · rw [he]
    exact .refl _
  · obtain rfl : o = o' := Option.some.inj ((Outcome.ofByte?_toByte o).symm.trans hch.valid)
    rw [hc.items]
    cases ok
    · exact .refl _
    · exact .setOutcomeAt ho hw

theorem append_length_le (fault : Option CommitFault) (args : AppendArgs) :
    (Ledger.append fault s args).1.handle.items.length ≤ s.handle.items.length+1 := by
  rcases append_cases fault s args with ⟨reply,-,he⟩ | ⟨v,ok,-,-,hc,-⟩
  · rw [he]
    exact Nat.le_succ _
  · rw [hc.items]
    cases ok <;> simp

theorem setOutcome_length (fault : Option CommitFault) (id : UInt64) (byte : UInt8) :
    (Ledger.setOutcome fault s id byte).1.handle.items.length = s.handle.items.length := by
  rcases setOutcome_cases fault s id byte with ⟨status,-,he⟩ | ⟨o,it,ok,-,-,hc,-⟩
  · rw [he]
  · rw [hc.items]
    cases ok
    · rfl
    · exact setOutcomeAt_length _ _ _

theorem Grows.length_le {items items' : List Item} (h : Grows items items') :
    items.length ≤ items'.length := by
  by_contra hlt
  obtain ⟨it,hit⟩ : ∃ it, items[items'.length]? = some it :=
    ⟨_,List.getElem?_eq_getElem (by omega)⟩
  obtain ⟨o,ho,-⟩ := h _ it hit
  exact absurd (List.getElem?_eq_some_iff.mp ho).choose (lt_irrefl _)

theorem entryById_getElem? {items : List Item} {id : UInt64} {it : Item}
    (h : entryById items id = some it) : items[id.toNat-1]? = some it := by
  rw [entryById] at h
  split at h
  · cases h
  · exact h

theorem commitEntry_grows (fault : Option CommitFault) (id : UInt64) (learned : Bool) :
    Grows s.handle.items (commitEntry fault s id learned).handle.items := by
  rw [commitEntry]
  split
  · exact .refl _
  · rename_i it hit
    split
    · exact .refl _
    · rename_i hopen
      refine setOutcome_grows fault (by cases learned <;> decide) fun x hx hw => ?_
      obtain rfl := Option.some.inj (hx.symm.trans (entryById_getElem? hit))
      rw [hw] at hopen
      exact absurd rfl hopen

theorem commitEntry_length (fault : Option CommitFault) (id : UInt64) (learned : Bool) :
    (commitEntry fault s id learned).handle.items.length = s.handle.items.length := by
  rw [commitEntry]
  split
  · rfl
  · split
    · rfl
    · exact setOutcome_length _ _ _

theorem commitEntry_numbered (hs : Numbered s) (fault : Option CommitFault) (id : UInt64)
    (learned : Bool) : Numbered (commitEntry fault s id learned) := by
  rw [commitEntry]
  split
  · exact hs
  · split
    · exact hs
    · exact hs.setOutcome _ _ _

end Ledger

/-! ## Hosts that are ready for a pass -/

/-- The ids stay exact in the cursor file and the vectors stay below the largest index. -/
def Host.Room (h : Host) : Write → Prop
  | .append _ _ => h.items.length+1 < 2^53
  | .action _ => h.journal.actions.length+2 < 2^64
  | .valence _ => h.journal.valence.length+2 < 2^64
  | .intent _ => h.journal.intents.length+2 < 2^64
  | .thought _ => h.thoughts.length+2 < 2^64
  | _ => True

structure Ready (path : String) (h : Host) (cursor : ReplicateCursor) : Prop where
  numbered : Numbered h.ledger
  few : h.items.length < 2^53
  fits : ∀ kind, (h.lines kind).length+1 < 2^64
  kinds : ∀ t ∈ h.thoughts, thoughtKindIsValid t.kind = true
  loads : loadReplicateCursor h.cursorFile path = .ok cursor
  first : 1 ≤ cursor.nextObservationId.toNat
  last : cursor.nextObservationId.toNat ≤ h.items.length+1

section Ready
variable {path : String} {config : ReplicateConfig} {h : Host} {cursor : ReplicateCursor}

theorem ready_start : Ready path .start {} where
  numbered := ⟨by simp [IdsMatch,Host.start,createdSession],by decide⟩
  few := by decide
  fits := fun kind => by cases kind <;> decide
  kinds := fun t ht => absurd ht List.not_mem_nil
  loads := rfl
  first := le_rfl
  last := le_rfl

/-- A loader that fails takes its lines away, nothing else. -/
theorem input_lines (config : ReplicateConfig) (h : Host) (pass : Pass) (kind : Kind) :
    (h.input config pass).lines kind = h.lines kind ∨ (h.input config pass).lines kind = [] := by
  simp only [DrainInput.lines,Host.lines,Host.input]
  cases pass.journal <;> cases pass.thoughts <;> cases kind <;>
    first | exact .inl rfl | exact .inr rfl

theorem Ready.input_fits (hr : Ready path h cursor) (config : ReplicateConfig) (pass : Pass) :
    (h.input config pass).Fits where
  ids := hr.numbered.ids
  items := by
    have := hr.few
    show h.items.length+2 < 2^64
    omega
  lines kind := by
    rcases input_lines config h pass kind with heq | heq <;> rw [heq]
    · exact hr.fits kind
    · decide

theorem intentDocument_ok (intent : JournalIntent) : ∃ json, intentDocument intent = .ok json := by
  rw [intentDocument,serialiseIntentRecord,intentStateFromName_name]
  exact ⟨_,rfl⟩

theorem lines_documented (hkinds : ∀ t ∈ h.thoughts, thoughtKindIsValid t.kind = true)
    (kind : Kind) : ∀ line ∈ h.lines kind, ∃ json, line.2 = .ok json := by
  intro line hline
  cases kind with
  | actions =>
      obtain ⟨_,_,rfl⟩ := List.mem_mapIdx.mp hline
      exact ⟨_,rfl⟩
  | valence =>
      obtain ⟨_,_,rfl⟩ := List.mem_mapIdx.mp hline
      exact ⟨_,rfl⟩
  | thoughts =>
      obtain ⟨i,hi,rfl⟩ := List.mem_mapIdx.mp hline
      have hvalid := hkinds _ ((List.mem_insertionSort _).mp (List.getElem_mem hi))
      simp only [thoughtDocument,serialiseThoughtRecord]
      rw [if_neg (by rw [hvalid]; decide)]
      exact ⟨_,rfl⟩
  | intents =>
      obtain ⟨_,_,rfl⟩ := List.mem_mapIdx.mp hline
      exact intentDocument_ok _

theorem Ready.documented (hr : Ready path h cursor) (config : ReplicateConfig) (pass : Pass) :
    (h.input config pass).Documented := by
  intro kind
  rcases input_lines config h pass kind with heq | heq <;> rw [heq]
  · exact lines_documented hr.kinds kind
  · exact fun line hline => absurd hline List.not_mem_nil

theorem Ready.reloads (hr : Ready path h cursor) {c : ReplicateCursor}
    (hlow : cursor.nextObservationId.toNat ≤ c.nextObservationId.toNat)
    (hhigh : c.nextObservationId.toNat ≤ h.items.length+1) :
    loadReplicateCursor (some (saveReplicateCursor c)) path = .ok c.stored := by
  have hfirst := hr.first
  have hfew := hr.few
  exact load_saveReplicateCursor path (by omega) (by omega)

/-- A pass leaves the host ready, at the cursor that was there or the one its acts came to. -/
theorem Ready.drained (hr : Ready path h cursor) (config : ReplicateConfig) (pass : Pass) :
    ∃ c cursor', Acts (h.input config pass) ⟨cursor,h.records⟩
        ⟨c,(h.drain path config pass).records⟩ ∧
      Ready path (h.drain path config pass) cursor' ∧
      (cursor' = cursor ∨ pass.diesBeforeSave = false ∧ cursor' = c.stored ∧
        (∀ n it, Rechecked (h.input config pass) cursor.nextObservationId n it →
          (h.drain path config pass).records (observationKey it.entry.id) =
            some (entryDocument it)) ∧
        ((h.input config pass).overtakes cursor.nextObservationId = false →
          ∀ m x, h.items[m]? = some x → cursor.nextObservationId.toNat ≤ m+1 →
            m+1 < c.nextObservationId.toNat → x.outcome ≠ .pending)) := by
  obtain ⟨c,hacts,hfile⟩ := replicateDrain_result h.records
    (hr.input_fits config pass) hr.loads hr.first hr.last
  rcases hfile with hsame | ⟨hlives,hsaved,hputs,horder⟩
  · refine ⟨c,cursor,hacts,⟨hr.numbered,hr.few,hr.fits,hr.kinds,?_,hr.first,hr.last⟩,.inl rfl⟩
    show loadReplicateCursor (replicateDrain path h.cursorFile h.records _).cursorFile path = _
    rw [hsame]
    exact hr.loads
  · have hbounds := Acts.next_bounds (hr.input_fits config pass) hacts hr.last
    refine ⟨c,c.stored,hacts,⟨hr.numbered,hr.few,hr.fits,hr.kinds,?_,
      hr.first.trans hbounds.1,hbounds.2⟩,.inr ⟨hlives,rfl,hputs,horder⟩⟩
    show loadReplicateCursor (replicateDrain path h.cursorFile h.records _).cursorFile path = _
    rw [hsaved]
    exact hr.reloads hbounds.1 hbounds.2

theorem Pass.Works.input {pass : Pass} (h : pass.Works) (config : ReplicateConfig)
    (host : Host) :
    (host.input config pass).Works := by
  obtain ⟨hjournal,hthoughts,hwrites,hlives⟩ := h
  refine ⟨hwrites,hlives,⟨host.journal,?_⟩,⟨loadThoughts host.thoughts,?_⟩⟩
  · simp only [Host.input,hjournal,loaded]
  · simp only [Host.input,hthoughts,loaded]

/-- A pass without failures leaves the host ready at the cursor its acts came to, and leaves
less to publish. -/
theorem Ready.worked (hr : Ready path h cursor) (hmax : 1 ≤ config.maxRecordsPerDrain)
    {pass : Pass} (hworks : pass.Works) :
    ∃ c, Acts (h.input config pass) ⟨cursor,h.records⟩
        ⟨c,(h.drain path config pass).records⟩ ∧
      Ready path (h.drain path config pass) c.stored ∧
      ((h.input config pass).left c = 0 ∨
        (h.input config pass).left c < (h.input config pass).left cursor) ∧
      (observationsLeft h.items c.nextObservationId = 0 ∨
        observationsLeft h.items c.nextObservationId <
          observationsLeft h.items cursor.nextObservationId) ∧
      ∀ n it, Rechecked (h.input config pass) cursor.nextObservationId n it →
        (h.drain path config pass).records (observationKey it.entry.id) =
          some (entryDocument it) := by
  obtain ⟨c,hsaved,hacts,hleft,hobservations,hputs⟩ := replicateDrain_works h.records
    (hworks.input config h) (hr.documented config pass) (hr.input_fits config pass) hmax hr.loads
    hr.first hr.last
  have hbounds := Acts.next_bounds (hr.input_fits config pass) hacts hr.last
  refine ⟨c,hacts,⟨hr.numbered,hr.few,hr.fits,hr.kinds,?_,hr.first.trans hbounds.1,hbounds.2⟩,
    hleft,hobservations,hputs⟩
  show loadReplicateCursor (replicateDrain path h.cursorFile h.records _).cursorFile path = _
  rw [hsaved]
  exact hr.reloads hbounds.1 hbounds.2

/-- A write leaves the host ready, at the same cursor. -/
theorem Ready.wrote (hr : Ready path h cursor) {w : Write} (hroom : h.Room w) :
    Ready path (h.write w) cursor ∧ Grows h.items (h.write w).items := by
  have hledger {s : Session} (hn : Numbered s) (hg : Grows h.items s.handle.items)
      (hlen : s.handle.items.length < 2^53) :
      Ready path { h with ledger := s } cursor ∧ Grows h.items s.handle.items :=
    ⟨⟨hn,hlen,hr.fits,hr.kinds,hr.loads,hr.first,hr.last.trans (Nat.succ_le_succ hg.length_le)⟩,hg⟩
  have hwritten {h' : Host} (hl : h'.ledger = h.ledger) (hc : h'.cursorFile = h.cursorFile)
      (hfits : ∀ kind, (h'.lines kind).length+1 < 2^64)
      (hkinds : ∀ t ∈ h'.thoughts, thoughtKindIsValid t.kind = true) :
      Ready path h' cursor ∧ Grows h.items h'.items := by
    have hitems : h'.items = h.items := by rw [Host.items,hl]; rfl
    refine ⟨⟨by rw [hl]; exact hr.numbered,by rw [hitems]; exact hr.few,hfits,hkinds,
      by rw [hc]; exact hr.loads,hr.first,by rw [hitems]; exact hr.last⟩,?_⟩
    rw [hitems]
    exact .refl _
  cases w with
  | append fault args =>
      have hlen := append_length_le (s := h.ledger) fault args
      exact hledger (hr.numbered.append _ _) (append_grows _ _) (hlen.trans_lt hroom)
  | commit fault id learned =>
      refine hledger (commitEntry_numbered hr.numbered _ _ _) (commitEntry_grows _ _ _) ?_
      rw [commitEntry_length]
      exact hr.few
  | withdraw fault id =>
      refine hledger (hr.numbered.setOutcome _ _ _)
        (setOutcome_grows fault (by decide) fun _ _ _ => rfl) ?_
      rw [Ledger.withdraw,setOutcome_length]
      exact hr.few
  | action entry =>
      refine hwritten rfl rfl (fun kind => ?_) hr.kinds
      have hroom' : h.journal.actions.length+2 < 2^64 := hroom
      cases kind with
      | actions =>
          simp only [Host.lines,linesOf,Host.write,List.length_mapIdx,List.length_append,
            List.length_singleton]
          omega
      | valence => exact hr.fits .valence
      | thoughts => exact hr.fits .thoughts
      | intents => exact hr.fits .intents
  | valence entry =>
      refine hwritten rfl rfl (fun kind => ?_) hr.kinds
      have hroom' : h.journal.valence.length+2 < 2^64 := hroom
      cases kind with
      | actions => exact hr.fits .actions
      | valence =>
          simp only [Host.lines,linesOf,Host.write,List.length_mapIdx,List.length_append,
            List.length_singleton]
          omega
      | thoughts => exact hr.fits .thoughts
      | intents => exact hr.fits .intents
  | intent entry =>
      refine hwritten rfl rfl (fun kind => ?_) hr.kinds
      have hroom' : h.journal.intents.length+2 < 2^64 := hroom
      cases kind with
      | actions => exact hr.fits .actions
      | valence => exact hr.fits .valence
      | thoughts => exact hr.fits .thoughts
      | intents =>
          simp only [Host.lines,linesOf,Host.write,List.length_mapIdx,List.length_append,
            List.length_singleton]
          omega
  | thought entry =>
      have hroom' : h.thoughts.length+2 < 2^64 := hroom
      refine hwritten rfl rfl (fun kind => ?_) ?_
      · cases kind with
        | actions => exact hr.fits .actions
        | valence => exact hr.fits .valence
        | thoughts =>
            have hlen := writeThought_length_le h.thoughts entry
            simp only [Host.lines,linesOf,Host.write,List.length_mapIdx,loadThoughts,
              List.length_insertionSort]
            omega
        | intents => exact hr.fits .intents
      · exact writeThought_kinds hr.kinds entry

theorem write_records (h : Host) (w : Write) : (h.write w).records = h.records := by
  cases w <;> rfl

end Ready

end Atperson.Replicate
