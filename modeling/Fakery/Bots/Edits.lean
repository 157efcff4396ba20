import Fakery.Bots.Bodies
import Fakery.Bots.Lifecycle

/-! Changes of a row by one transaction, flush by flush: with nothing beside it, what it writes is
what one flush at its end would have written. -/
namespace Fakery.Bots
open Fakery.Core

variable {loaded now run run' : BotRun} {m moment : ℕ} {target : BotStatus}

theorem changed_self {α : Type} [DecidableEq α] (loaded now : α) :
    changed loaded now loaded = now := by
  unfold changed
  split_ifs with h
  · exact h.symm
  · rfl

/-- The columns that no UPDATE writes. -/
structure SameName (run run' : BotRun) : Prop where
  id : run'.id = run.id
  meetingUrl : run'.meetingUrl = run.meetingUrl
  meetingKey : run'.meetingKey = run.meetingKey
  idempotencyKey : run'.idempotencyKey = run.idempotencyKey
  displayName : run'.displayName = run.displayName
  createdAt : run'.createdAt = run.createdAt

/-- An UPDATE of the row that was loaded. -/
theorem store_loaded (h : SameName loaded now) (moment : ℕ) :
    BotRun.store loaded now moment loaded = now.touched moment := by
  simp only [BotRun.store, changed_self, ← h.id, ← h.meetingUrl, ← h.meetingKey,
    ← h.idempotencyKey, ← h.displayName, ← h.createdAt]
  rfl

/-- What a transaction assigns to the attributes of a run. -/
structure Edit (g : BotRun → BotRun) : Prop where
  name : ∀ run, SameName run (g run)
  touched : ∀ m run, g (run.touched m) = (g run).touched m

theorem SameName.refl (run : BotRun) : SameName run run := ⟨rfl, rfl, rfl, rfl, rfl, rfl⟩

theorem edit_id : Edit id := ⟨SameName.refl, fun _ _ => rfl⟩

theorem edit_cancelling : Edit BotRun.cancelling :=
  ⟨fun _ => ⟨rfl, rfl, rfl, rfl, rfl, rfl⟩, fun _ _ => rfl⟩

theorem edit_orphaned : Edit BotRun.orphaned :=
  ⟨fun _ => ⟨rfl, rfl, rfl, rfl, rfl, rfl⟩, fun _ _ => rfl⟩

theorem edit_failing (code : String) : Edit (BotRun.failing code) :=
  ⟨fun _ => ⟨rfl, rfl, rfl, rfl, rfl, rfl⟩, fun _ _ => rfl⟩

theorem edit_advanced (target : BotStatus) (now : ℕ) : Edit (BotRun.advanced target now) :=
  ⟨fun _ => ⟨rfl, rfl, rfl, rfl, rfl, rfl⟩, fun _ _ => rfl⟩

theorem edit_checkpointed (uri : Storage.Uri) : Edit (BotRun.checkpointed uri) :=
  ⟨fun _ => ⟨rfl, rfl, rfl, rfl, rfl, rfl⟩, fun _ _ => rfl⟩

theorem edit_recorded (artifact : RecordingArtifact) : Edit (BotRun.recorded artifact) :=
  ⟨fun _ => ⟨rfl, rfl, rfl, rfl, rfl, rfl⟩, fun _ _ => rfl⟩

theorem edit_recovered : Edit BotRun.recovered :=
  ⟨fun _ => ⟨rfl, rfl, rfl, rfl, rfl, rfl⟩, fun _ _ => rfl⟩

theorem edit_withArtifactStatus (artifact : Artifact) (status : String) (error : Option String) :
    Edit (BotRun.withArtifactStatus artifact status error) := by
  cases artifact with
  | transcription => exact ⟨fun _ => ⟨rfl, rfl, rfl, rfl, rfl, rfl⟩, fun _ _ => rfl⟩
  | notes => exact ⟨fun _ => ⟨rfl, rfl, rfl, rfl, rfl, rfl⟩, fun _ _ => rfl⟩

theorem edit_assign (c : Completion) : Edit c.assign := by
  constructor
  · intro run
    unfold Completion.assign
    constructor <;> split <;> split_ifs <;> rfl
  · intro m run
    unfold Completion.assign BotRun.touched
    split <;> split_ifs <;> rfl

theorem edit_withDuration : Edit BotRun.withDuration := by
  constructor
  · intro run
    unfold BotRun.withDuration
    constructor <;> split <;> rfl
  · intro m run
    unfold BotRun.withDuration BotRun.touched
    dsimp only
    split <;> rfl

theorem flushed_self (run : BotRun) (m : ℕ) : BotRun.flushed run m run = run := if_pos rfl

/-- A flush after a flush writes what one flush would have written, if the later change does not
take the earlier one back. -/
theorem flushed_flushed {g : BotRun → BotRun} (hg : Edit g) (hback : g now = run → now = run)
    (m moment : ℕ) : ∃ last,
      BotRun.flushed (BotRun.flushed run m now) moment (g (BotRun.flushed run m now)) =
        BotRun.flushed run last (g now) := by
  by_cases hnow : now = run
  · subst hnow
    rw [flushed_self]
    exact ⟨moment, rfl⟩
  · have hnew : g now ≠ run := fun h => hnow (hback h)
    have hz : BotRun.flushed run m now = now.touched m := if_neg hnow
    rw [hz, hg.touched]
    by_cases hsame : (g now).touched m = now.touched m
    · refine ⟨m, ?_⟩
      rw [BotRun.flushed, if_pos hsame, BotRun.flushed, if_neg hnew, hsame]
    · refine ⟨moment, ?_⟩
      rw [BotRun.flushed, if_neg hsame, BotRun.flushed, if_neg hnew]
      rfl

end Fakery.Bots
