import Atperson.Core.Backdrop
import Atperson.Core.Ceilings

/-!
# What a replay leaves alone

However many entries a replay passes, it moves no more of the backdrop than the mirror and,
with each migration it applies, the topology and its history.
-/
namespace Atperson.Core
open Wire
open Ledger (Status Item LedgerEntry ConversationContext)

/-- A replay adds to the migration history, leaves configuration and valence alone, and the
topology where no migration is applied. -/
structure Retains (done : List Migration) (g g' : Graph) : Prop where
  config : g'.config = g.config
  events : g'.valenceEvents = g.valenceEvents
  migrations : g'.neuralMigrations = g.neuralMigrations++done
  topology : done = [] → g'.neuralArchitecture = g.neuralArchitecture

section Retains
variable {U : Utf8proc} {env : UInt64 → IndexEnv} {items : List Item} {g g' g'' : Graph}

theorem Retains.refl (g : Graph) : Retains [] g g := ⟨rfl,rfl,(List.append_nil _).symm,fun _ => rfl⟩

theorem Retains.trans {done done' : List Migration} (h : Retains done g g')
    (h' : Retains done' g' g'') : Retains (done++done') g g'' :=
  ⟨h'.config.trans h.config,h'.events.trans h.events,
    by rw [h'.migrations,h.migrations,List.append_assoc],fun hd => by
      obtain ⟨hd,hd'⟩ := List.append_eq_nil_iff.mp hd
      exact (h'.topology hd').trans (h.topology hd)⟩

theorem Retains.of_backdrop (h : g'.backdrop = g.backdrop) : Retains [] g g' where
  config := congrArg Backdrop.config h
  events := congrArg Backdrop.valenceEvents h
  migrations := (congrArg Backdrop.neuralMigrations h).trans (List.append_nil _).symm
  topology := fun _ => congrArg Backdrop.neuralArchitecture h

theorem retains_addLedgerEntry {e : LedgerEntry} {context : ConversationContext}
    (h : g.addLedgerEntry e context = (g',.ok)) : Retains [] g g' := by
  have hb := backdrop_addLedgerEntry h
  exact ⟨congrArg Backdrop.config hb,congrArg Backdrop.valenceEvents hb,
    (congrArg Backdrop.neuralMigrations hb).trans (List.append_nil _).symm,
    fun _ => congrArg Backdrop.neuralArchitecture hb⟩

theorem retains_mirror {e : LedgerEntry} {context : ConversationContext} {what : Replayed}
    (h : mirror g e context = (g',.ok what)) : Retains [] g g' := by
  unfold mirror at h
  split at h
  · rename_i hm
    cases h
    exact retains_addLedgerEntry hm
  · cases h

theorem retains_relearn {e : LedgerEntry} {context : ConversationContext} {payload : Bytes}
    {what : Replayed} (h : relearn U env g e context payload = (g',.ok what)) :
    Retains [] g g' := by
  have hb := backdrop_observeWithMemory U (env e.id) g (textOf payload)
    (provenanceOf e)
  unfold relearn at h
  split at h
  · rename_i ho
    rw [ho] at hb
    split at h
    · rename_i hm
      cases h
      exact (Retains.of_backdrop hb).trans (retains_addLedgerEntry hm)
    · cases h
  · cases h

theorem retains_replayEntry {e : LedgerEntry} {context : ConversationContext} {what : Replayed}
    (h : replayEntry U env items g e context = (g',.ok what)) : Retains [] g g' := by
  unfold replayEntry at h
  split at h
  · simp only at h
    split at h
    · cases h
      exact .refl g
    · split at h
      · cases h
      · split at h
        · cases h
        · exact retains_relearn h
  · exact retains_mirror h
  · cases h
    exact .refl g
  · cases h
    exact .refl g
  · cases h
    exact .refl g

theorem retains_expandNeural {m : Migration} (h : g.expandNeural m = (g',.ok)) :
    Retains [m] g g' := by
  unfold Graph.expandNeural at h
  split at h
  · cases h
  · split at h
    · cases h
    · cases h
      exact ⟨rfl,rfl,rfl,by simp⟩

theorem retains_applyReplayMigrations {boundary : UInt64} {report : ReplayReport}
    {ms : List Migration} {s : ReplayState}
    (h : applyReplayMigrations boundary g report ms = (s,.ok)) :
    ∃ done, ms = done++s.pending ∧ Retains done g s.graph := by
  induction ms generalizing g report with
  | nil =>
      cases h
      exact ⟨[],rfl,.refl g⟩
  | cons m rest ih =>
      unfold applyReplayMigrations at h
      split at h
      · split at h
        · rename_i hexp
          obtain ⟨done,rfl,hret⟩ := ih h
          exact ⟨m::done,rfl,(retains_expandNeural hexp).trans hret⟩
        · rename_i hne _
          cases h
          exact absurd rfl hne
      · cases h
        exact ⟨[],rfl,.refl g⟩

theorem retains_replayStep {s s' : ReplayState} {e : LedgerEntry}
    (h : replayStep U env items s e = (s',.ok)) :
    ∃ done, s.pending = done++s'.pending ∧ Retains done s.graph s'.graph := by
  unfold replayStep at h
  split at h
  · cases h
  · split at h
    · cases h
    · split at h
      · split at h
        · rename_i hentry
          obtain ⟨done,hp,hret⟩ := retains_applyReplayMigrations h
          exact ⟨done,hp,(retains_replayEntry hentry).trans hret⟩
        · rename_i status hentry
          have hstatus : status = .ok := congrArg Prod.snd h
          exact absurd hstatus (replayEntry_error hentry)
      · cases h

theorem retains_replayFrom {s s' : ReplayState} {entries : List LedgerEntry}
    (h : replayFrom U env items s entries = (s',.ok)) : Retains s.pending s.graph s'.graph := by
  induction entries generalizing s with
  | nil =>
      unfold replayFrom at h
      split at h
      · rename_i hp
        cases h
        rw [hp]
        exact .refl _
      · cases h
  | cons e rest ih =>
      unfold replayFrom at h
      split at h
      · rename_i hstep
        obtain ⟨done,hp,hret⟩ := retains_replayStep hstep
        rw [hp]
        exact hret.trans (ih h)
      · rename_i hne _
        cases h
        exact absurd rfl hne

theorem retains_replayLedger {ms : List Migration} {report : ReplayReport}
    (h : replayLedger U env items g ms = (g',report,.ok)) : Retains ms g g' := by
  unfold replayLedger at h
  split at h
  · split at h
    · rename_i s hmig
      obtain ⟨done,hp,hret⟩ := retains_applyReplayMigrations hmig
      rcases hfrom : replayFrom U env items s (items.map Item.entry) with ⟨s',status⟩
      simp only [hfrom] at h
      cases h
      rw [hp]
      exact hret.trans (retains_replayFrom hfrom)
    · cases h
      rename_i hne _
      exact absurd rfl hne
  · cases h
    rename_i hne _
    exact absurd rfl hne

end Retains

end Atperson.Core
