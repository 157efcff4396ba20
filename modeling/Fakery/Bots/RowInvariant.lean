import Fakery.Bots.Lifecycle
import Mathlib.Order.Monotone.Defs

/-! Every row of the table keeps its lifecycle over all sequences of calls. -/
namespace Fakery.Bots
open Fakery.Core Fakery.Storage BotStatus

namespace Runs

variable {clock : ℕ → ℕ} {s s' : Runs} {b : ℕ} {run : BotRun} {x : Transaction} {e : TwinError}
  {f : ℕ → BotRun → Except TwinError BotRun}

def Inv (clock : ℕ → ℕ) (s : Runs) : Prop :=
  ∀ b run, s.rows b = some run → Kept (s.now clock) (s.history b) run

theorem now_tick (hclock : Monotone clock) (s : Runs) : s.now clock ≤ s.tick.now clock :=
  hclock (Nat.le_succ s.readings)

theorem inv_tick (hclock : Monotone clock) (h : Inv clock s) : Inv clock s.tick :=
  fun b run hrun => (h b run hrun).mono (now_tick hclock s)

theorem kept_flushed {now : ℕ} {history : List BotStatus} {before run' : BotRun} (run : BotRun)
    (moment : ℕ)
    (h : Kept now (Db.seen (some before) (some run') history) run') :
    Kept now (Db.seen (some before) (some (BotRun.flushed run moment run')) history)
      (BotRun.flushed run moment run') := by
  rcases BotRun.flushed_cases run moment run' with hflushed | hflushed
  · rw [hflushed]
    exact h
  · rw [hflushed]
    have hseen : Db.seen (some before) (some (run'.touched moment)) history =
        Db.seen (some before) (some run') history := rfl
    rw [hseen]
    have hmarked : Marked run'.status (run'.touched moment) :=
      ⟨h.marked.failed, h.marked.completed, h.marked.unmarked⟩
    exact h.same ⟨rfl, rfl, rfl⟩ hmarked

theorem inv_change (hclock : Monotone clock) (h : Inv clock s) (hf : Keeping f)
    (hc : s.change clock b f = .ok s') : Inv clock s' := by
  unfold change at hc
  cases hrow : s.rows b with
  | none =>
    rw [hrow] at hc
    cases hc
  | some run =>
    rw [hrow] at hc
    cases hrun : f (s.now clock) run with
    | error e =>
      simp only [hrun] at hc
      cases hc
    | ok run' =>
      simp only [hrun] at hc
      cases Except.ok.inj hc
      have hkept := kept_flushed run (s.tick.now clock)
        (hf (h b run hrow) hrun)
      refine inv_tick hclock fun b' run₁ hrun₁ => ?_
      by_cases hb : b' = b
      · subst hb
        simp only [put, Function.update_self] at hrun₁ ⊢
        cases Option.some.inj hrun₁
        exact hkept.mono (now_tick hclock s)
      · simp only [put, Function.update_of_ne hb] at hrun₁ ⊢
        exact (h b' run₁ hrun₁).mono (now_tick hclock s)

theorem kept_queued {now : ℕ} (hq : run.status = queued) (hl : run.leftAt = none)
    (hj : run.joinedAt = none) (he : run.errorCode = none) (hr : run.stopReason = none) :
    Kept now [run.status] run := by
  constructor
  · constructor
    · simp [hl, hq, terminal]
    · simp [hj, hq]
    · simp [hj]
    · simp [hq]
    · simp [hq]
  · simp [he, hr]
  · simp [hj]

theorem inv_insert (h : Inv clock s) (hkept : Kept (s.now clock) [run.status] run) :
    Inv clock (s.insert run) := by
  intro b' run' hrun
  by_cases hb : b' = run.id
  · subst hb
    simp only [insert, Function.update_self] at hrun ⊢
    cases Option.some.inj hrun
    exact hkept
  · simp only [insert, Function.update_of_ne hb] at hrun ⊢
    exact h b' run' hrun

theorem inv_create (hclock : Monotone clock) {id : ℕ} {meetingUrl meetingKey : String}
    {displayName idempotencyKey : Option String} (h : Inv clock s)
    (hc : s.create clock id meetingUrl meetingKey displayName idempotencyKey = .ok s') :
    Inv clock s' := by
  unfold create at hc
  dsimp only at hc
  split at hc
  · split_ifs at hc
    cases Except.ok.inj hc
    exact h
  · split at hc
    · cases hc
    · split_ifs at hc
      cases Except.ok.inj hc
      exact inv_insert (inv_tick hclock (inv_tick hclock h)) (kept_queued rfl rfl rfl rfl rfl)

theorem inv_sweepEach (hclock : Monotone clock) {staleAfter moment : ℕ} {heartbeat : ℕ → Bool}
    (h : Inv clock s) (runs : List BotRun)
    (hc : sweepEach clock staleAfter moment heartbeat s runs = .ok s') : Inv clock s' := by
  induction runs generalizing s with
  | nil =>
    cases Except.ok.inj hc
    exact h
  | cons run runs ih =>
    simp only [sweepEach] at hc
    split_ifs at hc
    · exact ih h hc
    · cases hone : s.change clock run.id fun now run => run.orphaned.advance .failed now with
      | error e =>
        rw [hone] at hc
        cases hc
      | ok s₁ =>
        rw [hone] at hc
        exact ih (inv_change hclock h keeping_orphaned hone) hc
    · exact ih h hc

/-- One transaction keeps every row. -/
theorem inv_commit (hclock : Monotone clock) (h : Inv clock s) (hc : s.commit clock x = .ok s') :
    Inv clock s' := by
  cases x with
  | createOrGet => exact inv_create hclock h hc
  | advance b target attending =>
    refine inv_change hclock h (keeping_advance ?_) hc
    simp only [attendStatuses, List.mem_cons, List.not_mem_nil, or_false] at attending
    rcases attending with rfl | rfl | rfl <;> rfl
  | setCheckpointManifest b uri =>
    have hkeeping : Keeping fun _ run => .ok (run.checkpointed uri) :=
      keeping_same (fun _ => ⟨rfl, rfl, rfl⟩) (fun _ => rfl) fun _ => rfl
    exact inv_change hclock h hkeeping hc
  | setArtifactStatus b artifact status error =>
    have hkeeping : Keeping fun _ run => .ok (run.withArtifactStatus artifact status error) := by
      cases artifact <;>
        exact keeping_same (fun _ => ⟨rfl, rfl, rfl⟩) (fun _ => rfl) fun _ => rfl
    exact inv_change hclock h hkeeping hc
  | persistRecording b artifact => exact inv_change hclock h (keeping_persisted artifact) hc
  | complete b c => exact inv_change hclock h (keeping_complete c) hc
  | cancel b => exact inv_change hclock h keeping_cancel hc
  | storeRecovered b artifact =>
    have hkeeping : Keeping fun _ run => .ok (run.recorded artifact).recovered :=
      keeping_same (fun _ => ⟨rfl, rfl, rfl⟩) (fun _ => rfl) fun _ => rfl
    exact inv_change hclock h hkeeping hc
  | failRun b code => exact inv_change hclock h (keeping_failRun code) hc
  | sweepOrphans staleAfter heartbeat => exact inv_sweepEach hclock (inv_tick hclock h) _ hc

theorem inv_perform (hclock : Monotone clock) (h : Inv clock s) (xs : List Transaction) :
    Inv clock (s.perform clock xs).1 := by
  induction xs generalizing s with
  | nil => exact h
  | cons x xs ih =>
    simp only [perform]
    split
    · rename_i s' hc
      exact ih (inv_commit hclock h hc)
    · exact h

theorem inv_run (hclock : Monotone clock) (h : Inv clock s) (calls : List ServiceCall) :
    Inv clock (s.run clock calls) := by
  induction calls generalizing s with
  | nil => exact h
  | cons call calls ih => exact ih (inv_perform hclock h _)

/-- No row keeps the last transaction of `fail_run` from failing it. -/
theorem failRun_ok (code : String) (now : ℕ) (run : BotRun) :
    ∃ run', run.failRun code now = .ok run' := by
  unfold BotRun.failRun
  split_ifs with ht
  · exact ⟨run, rfl⟩
  · cases hadv : (run.failing code).advance .failed now with
    | ok run' => exact ⟨run', rfl⟩
    | error e =>
      have hnot := BotRun.advance_error hadv
      have hstatus : (run.failing code).status = run.status := rfl
      rw [hstatus] at hnot
      cases hs : run.status <;> simp_all [canTransition, allowed, terminal]

theorem change_ok (hrow : s.rows b = some run)
    (hf : ∃ run', f (s.now clock) run = .ok run') : ∃ s', s.change clock b f = .ok s' := by
  obtain ⟨run', hrun⟩ := hf
  unfold change
  simp only [hrow, hrun]
  exact ⟨_, rfl⟩

/-- The row is still there after a change. -/
theorem rows_change (hc : s.change clock b f = .ok s') : ∃ run', s'.rows b = some run' := by
  unfold change at hc
  cases hrow : s.rows b with
  | none =>
    rw [hrow] at hc
    cases hc
  | some run =>
    rw [hrow] at hc
    cases hrun : f (s.now clock) run with
    | error e =>
      simp only [hrun] at hc
      cases hc
    | ok run' =>
      simp only [hrun] at hc
      cases Except.ok.inj hc
      exact ⟨_, Function.update_self ..⟩

/-- A call that raises leaves every row as it was. -/
theorem perform_error {call : ServiceCall}
    (h : s.perform clock call.transactions = (s', some e)) : s' = s := by
  cases call with
  | transaction x =>
    simp only [ServiceCall.transactions, perform] at h
    split at h
    · cases h
    · exact (Prod.mk.inj h).1.symm
  | failRun b code restored =>
    simp only [ServiceCall.transactions, perform] at h
    split at h
    · rename_i s₁ hstored
      have hchange : s.change clock b (fun _ run => .ok (run.recorded restored).recovered) =
          .ok s₁ := hstored
      obtain ⟨run, hrow⟩ := rows_change hchange
      obtain ⟨s₂, hfailed⟩ := change_ok hrow (failRun_ok code (s₁.now clock) run)
      have hok : s₁.commit clock (.failRun b code) = .ok s₂ := hfailed
      rw [hok] at h
      cases h
    · exact (Prod.mk.inj h).1.symm

end Runs

/-- In every state that calls of the service reach, under a clock that does not go back. -/
theorem rows_keep_lifecycle (clock : ℕ → ℕ) (hclock : Monotone clock) (calls : List ServiceCall) :
    (∀ b run, (Runs.run clock {} calls).rows b = some run →
      Lifecycle ((Runs.run clock {} calls).history b) run) ∧
    ∀ (call : ServiceCall) s' e,
      (Runs.run clock {} calls).perform clock call.transactions = (s', some e) →
      s' = Runs.run clock {} calls := by
  have hinit : Runs.Inv clock {} := by
    intro b run hrun
    cases hrun
  have hinv := Runs.inv_run hclock hinit calls
  exact ⟨fun b run hrun => (hinv b run hrun).toLifecycle, fun call s' e h => Runs.perform_error h⟩

section runs

/-- A run that is cancelled while it is attended, and calls that come too late. -/
def cancelledMeeting : List ServiceCall :=
  [.transaction (.createOrGet 0 "https://meet.google.com/abc-defg-hij"
      "meet.google.com/abc-defg-hij" none none),
    .transaction (.advance 0 joining (by decide)), .transaction (.advance 0 joined (by decide)),
    .transaction (.cancel 0), .transaction (.persistRecording 0 none),
    .transaction (.complete 0 { cancelled := true })]

theorem rows_keep_lifecycle_cancelled :
    ((Runs.run id {} cancelledMeeting).rows 0).map BotRun.status = some failed ∧
      (∀ b run, (Runs.run id {} cancelledMeeting).rows b = some run →
        Lifecycle ((Runs.run id {} cancelledMeeting).history b) run) :=
  ⟨by decide +kernel, (rows_keep_lifecycle id monotone_id cancelledMeeting).1⟩

end runs

end Fakery.Bots
