import Fakery.Bots.Edits
import Mathlib.Data.List.Nodup

/-! The shape of the table of runs, which every transaction keeps. -/
namespace Fakery.Bots
open Fakery.Core

/-- The table has a row for each of its identifiers, under this identifier. -/
structure Tabled (s : Runs) : Prop where
  nodup : s.ids.Nodup
  mem : ∀ b, b ∈ s.ids ↔ (s.rows b).isSome = true
  id : ∀ b run, s.rows b = some run → run.id = b
  fresh : ∀ b, s.rows b = none → s.history b = []

variable {clock : ℕ → ℕ} {s s' : Runs} {b now moment : ℕ} {run run' : BotRun}
  {target : BotStatus} {f : ℕ → BotRun → Except TwinError BotRun}

theorem tabled_empty : Tabled {} := by
  constructor
  · exact List.nodup_nil
  · intro b
    simp
  · intro b run h
    cases h
  · exact fun _ _ => rfl

theorem tabled_tick (h : Tabled s) : Tabled s.tick := ⟨h.nodup, h.mem, h.id, h.fresh⟩

theorem tabled_put {before : BotRun} (h : Tabled s) (hrow : (s.rows b).isSome = true)
    (hid : run.id = b) : Tabled (s.put b before run) := by
  refine ⟨h.nodup, fun c => ?_, fun c mid hmid => ?_, fun c hc => ?_⟩
  · by_cases hb : c = b
    · subst hb
      exact ⟨fun _ => by simp [Runs.put], fun _ => (h.mem c).mpr hrow⟩
    · simp only [Runs.put, Function.update_of_ne hb]
      exact h.mem c
  · by_cases hb : c = b
    · subst hb
      simp only [Runs.put, Function.update_self] at hmid
      exact Option.some.inj hmid ▸ hid
    · simp only [Runs.put, Function.update_of_ne hb] at hmid
      exact h.id c mid hmid
  · have hb : c ≠ b := by
      rintro rfl
      simp [Runs.put] at hc
    simp only [Runs.put, Function.update_of_ne hb] at hc ⊢
    exact h.fresh c hc

theorem tabled_insert (h : Tabled s) (hnew : s.rows run.id = none) : Tabled (s.insert run) := by
  have hmem : run.id ∉ s.ids := by
    rw [h.mem, hnew]
    exact Bool.false_ne_true
  refine ⟨?_, fun c => ?_, fun c mid hmid => ?_, fun c hc => ?_⟩
  · exact List.nodup_append.mpr ⟨h.nodup, List.nodup_singleton _, by
      rintro b hb c hc rfl
      exact hmem (List.mem_singleton.mp hc ▸ hb)⟩
  · by_cases hb : c = run.id
    · subst hb
      simp [Runs.insert]
    · simp only [Runs.insert, Function.update_of_ne hb, List.mem_append, List.mem_singleton, hb,
        or_false]
      exact h.mem c
  · by_cases hb : c = run.id
    · subst hb
      simp only [Runs.insert, Function.update_self] at hmid
      rw [← Option.some.inj hmid]
    · simp only [Runs.insert, Function.update_of_ne hb] at hmid
      exact h.id c mid hmid
  · have hb : c ≠ run.id := by
      rintro rfl
      simp [Runs.insert] at hc
    simp only [Runs.insert, Function.update_of_ne hb] at hc ⊢
    exact h.fresh c hc

/-- A change of a row that leaves its identifier. -/
def Naming (f : ℕ → BotRun → Except TwinError BotRun) : Prop :=
  ∀ ⦃now run run'⦄, f now run = .ok run' → run'.id = run.id

theorem naming_edit {g : BotRun → BotRun} (hg : Edit g) : Naming fun _ run => .ok (g run) := by
  intro now run run' h
  cases h
  exact (hg.name run).id

/-- An edit, and an advance after it. -/
theorem naming_advance {g : BotRun → BotRun} (hg : Edit g) (target : BotStatus) :
    Naming fun now run => (g run).advance target now := by
  intro now run run' h
  rcases BotRun.advance_ok h with ⟨rfl, -⟩ | ⟨rfl, -⟩ <;> exact (hg.name run).id

theorem naming_persisted (artifact : Option RecordingArtifact) :
    Naming fun now run => run.persisted artifact now := by
  cases artifact with
  | none => exact naming_advance edit_id .processing
  | some artifact => exact naming_advance (edit_recorded artifact) .processing

theorem naming_complete (c : Completion) : Naming fun now run => run.complete c now := by
  intro now run run' h
  simp only [BotRun.complete] at h
  cases hadv : (c.assign run).advance .completed now with
  | error e =>
    rw [hadv] at h
    cases h
  | ok mid =>
    rw [hadv] at h
    cases h
    exact ((edit_withDuration.name mid).id).trans (naming_advance (edit_assign c) .completed hadv)

theorem naming_cancel : Naming fun now run => run.cancel now := by
  intro now run run' h
  simp only [BotRun.cancel] at h
  split_ifs at h
  · cases h
    rfl
  · exact naming_advance edit_cancelling .failed h

theorem naming_failRun (code : String) : Naming fun now run => run.failRun code now := by
  intro now run run' h
  simp only [BotRun.failRun] at h
  split_ifs at h
  · cases h
    rfl
  · exact naming_advance (edit_failing code) .failed h

theorem tabled_change (h : Tabled s) (hf : Naming f) (hc : s.change clock b f = .ok s') :
    Tabled s' := by
  unfold Runs.change at hc
  cases hrow : s.rows b with
  | none =>
    rw [hrow] at hc
    cases hc
  | some run =>
    rw [hrow] at hc
    cases hrun : f (s.now clock) run with
    | error e =>
      simp only [hrun] at hc
      cases hc
    | ok run' =>
      simp only [hrun] at hc
      cases Except.ok.inj hc
      have hid := BotRun.flushed_column (g := BotRun.id) (fun _ _ => rfl) run
        (s.tick.now clock) run'
      refine tabled_tick (tabled_put (tabled_tick h) ?_ ((hid.trans (hf hrun)).trans
        (h.id b run hrow)))
      exact Option.isSome_iff_exists.mpr ⟨run, hrow⟩

theorem tabled_create {id : ℕ} {meetingUrl meetingKey : String}
    {displayName idempotencyKey : Option String} (h : Tabled s)
    (hc : s.create clock id meetingUrl meetingKey displayName idempotencyKey = .ok s') :
    Tabled s' := by
  unfold Runs.create at hc
  dsimp only at hc
  split at hc
  · split_ifs at hc
    cases Except.ok.inj hc
    exact h
  · split at hc
    · cases hc
    · split_ifs at hc with hrefused
      cases Except.ok.inj hc
      simp only [Bool.or_eq_true, not_or, Option.not_isSome_iff_eq_none] at hrefused
      exact tabled_insert (tabled_tick (tabled_tick h)) hrefused.1

theorem tabled_sweepEach {staleAfter : ℕ} {heartbeat : ℕ → Bool} (h : Tabled s)
    (runs : List BotRun)
    (hc : s.sweepEach clock staleAfter moment heartbeat runs = .ok s') : Tabled s' := by
  induction runs generalizing s with
  | nil =>
    cases Except.ok.inj hc
    exact h
  | cons run runs ih =>
    simp only [Runs.sweepEach] at hc
    split_ifs at hc
    · exact ih h hc
    · cases hone : s.change clock run.id fun now run => run.orphaned.advance .failed now with
      | error e =>
        rw [hone] at hc
        cases hc
      | ok s₁ =>
        rw [hone] at hc
        exact ih (tabled_change h (naming_advance edit_orphaned .failed) hone) hc
    · exact ih h hc

/-- One transaction keeps the shape. -/
theorem tabled_commit {x : Transaction} (h : Tabled s) (hc : s.commit clock x = .ok s') :
    Tabled s' := by
  cases x with
  | createOrGet => exact tabled_create h hc
  | advance b target => exact tabled_change h (naming_advance edit_id target) hc
  | setCheckpointManifest b uri => exact tabled_change h (naming_edit (edit_checkpointed uri)) hc
  | setArtifactStatus b artifact status error =>
    exact tabled_change h (naming_edit (edit_withArtifactStatus artifact status error)) hc
  | persistRecording b artifact => exact tabled_change h (naming_persisted artifact) hc
  | complete b c => exact tabled_change h (naming_complete c) hc
  | cancel b => exact tabled_change h naming_cancel hc
  | storeRecovered b artifact =>
    have hnaming : Naming fun _ run => .ok (run.recorded artifact).recovered := by
      intro now run run' h
      cases h
      rfl
    exact tabled_change h hnaming hc
  | failRun b code => exact tabled_change h (naming_failRun code) hc
  | sweepOrphans staleAfter heartbeat => exact tabled_sweepEach (tabled_tick h) _ hc

end Fakery.Bots
