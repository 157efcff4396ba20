import Fakery.Runtime.Attend

/-! What the transactions of `attend` and `fail_run` make of the row of the run. -/
namespace Fakery.Runtime
open Fakery.Bots

/-- The status stays, or takes one step that is allowed. -/
structure Moves (run run' : BotRun) : Prop where
  id : run'.id = run.id
  status : run'.status = run.status ∨ canTransition run.status run'.status = true
  dispatch : run'.dispatchStatus = run.dispatchStatus

/-- How the run ended, the same in both rows. -/
structure SameOutcome (run run' : BotRun) : Prop where
  status : run'.status = run.status
  errorCode : run'.errorCode = run.errorCode
  stopReason : run'.stopReason = run.stopReason

variable {run run' : BotRun} {target : BotStatus} {now moment : ℕ} {tx : Tx}

theorem Moves.queued (h : Moves run run') (hq : run'.status = .queued) : run.status = .queued := by
  rcases h.status with hs | hs
  · rw [← hs]
    exact hq
  · rw [hq, not_canTransition_queued] at hs
    cases hs

theorem Moves.status_eq (h : Moves run run') (ht : run.status.terminal = true) :
    run'.status = run.status := by
  rcases h.status with hs | hs
  · exact hs
  · rw [not_canTransition_of_terminal _ ht] at hs
    cases hs

theorem moves_advance (h : run.advance target now = .ok run') : Moves run run' := by
  rcases BotRun.advance_ok h with ⟨rfl, -, -⟩ | ⟨rfl, hc⟩
  · exact ⟨rfl, Or.inl rfl, rfl⟩
  · exact ⟨rfl, Or.inr hc, rfl⟩

theorem moves_cancel (h : run.cancel now = .ok run') : Moves run run' := by
  unfold BotRun.cancel at h
  split_ifs at h with ht
  · cases Except.ok.inj h
    exact ⟨rfl, Or.inl rfl, rfl⟩
  · have hm : Moves run.cancelling run' := moves_advance h
    exact ⟨hm.id, hm.status, hm.dispatch⟩

theorem moves_failRun {code : String} (h : run.failRun code now = .ok run') : Moves run run' := by
  unfold BotRun.failRun at h
  split_ifs at h with ht
  · cases Except.ok.inj h
    exact ⟨rfl, Or.inl rfl, rfl⟩
  · have hm : Moves (run.failing code) run' := moves_advance h
    exact ⟨hm.id, hm.status, hm.dispatch⟩

theorem moves_persisted {artifact : Option RecordingArtifact}
    (h : run.persisted artifact now = .ok run') : Moves run run' := by
  cases artifact with
  | none => exact moves_advance h
  | some artifact =>
    have hm : Moves (run.recorded artifact) run' := moves_advance h
    exact ⟨hm.id, hm.status, hm.dispatch⟩

theorem assign_status (c : Completion) (run : BotRun) : (c.assign run).id = run.id ∧
    (c.assign run).status = run.status ∧ (c.assign run).dispatchStatus = run.dispatchStatus := by
  unfold Completion.assign
  split
  · split_ifs <;> exact ⟨rfl, rfl, rfl⟩
  · split_ifs <;> exact ⟨rfl, rfl, rfl⟩

theorem moves_complete {c : Completion} (h : run.complete c now = .ok run') : Moves run run' := by
  unfold BotRun.complete at h
  cases ha : (c.assign run).advance .completed now with
  | error e =>
    rw [ha] at h
    cases h
  | ok mid =>
    rw [ha] at h
    have hrun' : run' = mid.withDuration := (Except.ok.inj h).symm
    have hm : Moves (c.assign run) mid := moves_advance ha
    have hw : mid.withDuration.id = mid.id ∧ mid.withDuration.status = mid.status ∧
        mid.withDuration.dispatchStatus = mid.dispatchStatus := by
      unfold BotRun.withDuration
      split
      · exact ⟨rfl, rfl, rfl⟩
      · exact ⟨rfl, rfl, rfl⟩
    obtain ⟨hid, hstatus, hdispatch⟩ := assign_status c run
    constructor
    · rw [hrun', hw.1, hm.id, hid]
    · rw [hrun', hw.2.1, ← hstatus]
      exact hm.status
    · rw [hrun', hw.2.2, hm.dispatch, hdispatch]

theorem moves_apply (h : tx.apply now run = .ok run') : Moves run run' := by
  cases tx with
  | advance target => exact moves_advance h
  | setCheckpointManifest uri =>
    cases Except.ok.inj h
    exact ⟨rfl, Or.inl rfl, rfl⟩
  | setArtifactStatus artifact status error =>
    cases Except.ok.inj h
    cases artifact <;> exact ⟨rfl, Or.inl rfl, rfl⟩
  | persistRecording artifact => exact moves_persisted h
  | complete c => exact moves_complete h
  | storeRecovered artifact =>
    cases Except.ok.inj h
    exact ⟨rfl, Or.inl rfl, rfl⟩
  | failRun code => exact moves_failRun h

theorem Moves.flushed (h : Moves run run') : Moves run (BotRun.flushed run moment run') := by
  rcases BotRun.flushed_cases run moment run' with hflushed | hflushed
  · rw [hflushed]
    exact h
  · rw [hflushed]
    exact ⟨h.id, h.status, h.dispatch⟩

/-- Only a queued run is made joining. -/
theorem queued_of_joins (hj : tx.joins = true) (h : tx.apply now run = .ok run') :
    run.status = .queued ∧ run'.status = .joining := by
  match tx with
  | .advance .joining =>
    have ha : run.advance .joining now = .ok run' := h
    rcases BotRun.advance_ok ha with ⟨-, -, hterminal⟩ | ⟨rfl, hc⟩
    · cases hterminal
    · exact ⟨eq_queued_of_canTransition_joining hc, rfl⟩

theorem flushed_status : (BotRun.flushed run moment run').status = run'.status :=
  BotRun.flushed_column (fun _ _ => rfl) run moment run'

/-- `fail_run` leaves a run that is over as it ended. -/
theorem sameOutcome_settles (hs : tx.settles = true) (ht : run.status.terminal = true)
    (h : tx.apply now run = .ok run') : SameOutcome run run' := by
  cases tx with
  | storeRecovered artifact =>
    cases Except.ok.inj h
    exact ⟨rfl, rfl, rfl⟩
  | failRun code =>
    have hf : run.failRun code now = .ok run' := h
    unfold BotRun.failRun at hf
    rw [if_pos ht] at hf
    cases Except.ok.inj hf
    exact ⟨rfl, rfl, rfl⟩
  | _ => cases hs

theorem SameOutcome.refl (run : BotRun) : SameOutcome run run := ⟨rfl, rfl, rfl⟩

theorem SameOutcome.trans {run'' : BotRun} (h : SameOutcome run run')
    (h' : SameOutcome run' run'') : SameOutcome run run'' :=
  ⟨h'.status.trans h.status, h'.errorCode.trans h.errorCode, h'.stopReason.trans h.stopReason⟩

/-- A flush keeps the outcome that is written. -/
theorem sameOutcome_flushed (loaded : BotRun) (moment : ℕ) (run : BotRun) :
    SameOutcome run (BotRun.flushed loaded moment run) := by
  rcases BotRun.flushed_cases loaded moment run with h | h
  · rw [h]
    exact SameOutcome.refl run
  · rw [h]
    exact ⟨rfl, rfl, rfl⟩

theorem SameOutcome.flushed (h : SameOutcome run run') :
    SameOutcome run (BotRun.flushed run moment run') :=
  h.trans (sameOutcome_flushed run moment run')

theorem status_of_advance (h : run.advance target now = .ok run') : run'.status = target := by
  rcases BotRun.advance_ok h with ⟨rfl, hs, -⟩ | ⟨rfl, -⟩
  · exact hs
  · rfl

theorem terminal_of_failRun {code : String} (h : run.failRun code now = .ok run') :
    run'.status.terminal = true := by
  unfold BotRun.failRun at h
  split_ifs at h with ht
  · cases Except.ok.inj h
    exact ht
  · rw [status_of_advance h]
    rfl

theorem completed_of_complete {c : Completion} (h : run.complete c now = .ok run') :
    run'.status = .completed := by
  unfold BotRun.complete at h
  cases ha : (c.assign run).advance .completed now with
  | error e =>
    rw [ha] at h
    cases h
  | ok mid =>
    rw [ha] at h
    cases Except.ok.inj h
    have hduration : mid.withDuration.status = mid.status := by
      unfold BotRun.withDuration
      split <;> rfl
    rw [hduration, status_of_advance ha]

theorem advance_of_terminal (ht : run.status.terminal = true)
    (h : run.advance target now = .ok run') : run' = run ∧ run.status = target := by
  rcases BotRun.advance_ok h with ⟨heq, hs, -⟩ | ⟨-, hc⟩
  · exact ⟨heq, hs⟩
  · rw [not_canTransition_of_terminal _ ht] at hc
    cases hc

/-- A run that is over stays as it ended, unless a completed one is completed again. -/
theorem sameOutcome_apply (ht : run.status.terminal = true)
    (hc : tx.completes = true → run.status ≠ .completed) (h : tx.apply now run = .ok run') :
    SameOutcome run run' := by
  cases tx with
  | advance target =>
    obtain ⟨rfl, -⟩ := advance_of_terminal ht h
    exact SameOutcome.refl _
  | setCheckpointManifest uri =>
    cases Except.ok.inj h
    exact ⟨rfl, rfl, rfl⟩
  | setArtifactStatus artifact status error =>
    cases Except.ok.inj h
    cases artifact <;> exact ⟨rfl, rfl, rfl⟩
  | persistRecording artifact =>
    have hprocessing : run.status = .processing := by
      cases artifact with
      | none => exact (advance_of_terminal ht h).2
      | some artifact =>
        have hadvance : (run.recorded artifact).advance .processing now = .ok run' := h
        have hterminal : (run.recorded artifact).status.terminal = true := ht
        exact (advance_of_terminal hterminal hadvance).2
    rw [hprocessing] at ht
    cases ht
  | complete c =>
    have hassign := (assign_status c run).2.1
    have hrun : run.complete c now = .ok run' := h
    unfold BotRun.complete at hrun
    cases ha : (c.assign run).advance .completed now with
    | error e =>
      rw [ha] at hrun
      cases hrun
    | ok mid =>
      have hterminal : (c.assign run).status.terminal = true := by rw [hassign, ht]
      have hcompleted := (advance_of_terminal hterminal ha).2
      exact absurd (hassign.symm.trans hcompleted) (hc rfl)
  | storeRecovered artifact => exact sameOutcome_settles rfl ht h
  | failRun code => exact sameOutcome_settles rfl ht h

theorem completed_of_advance (hne : target ≠ .completed) (h : run.advance target now = .ok run')
    (hs : run'.status = .completed) : run.status = .completed := by
  rcases BotRun.advance_ok h with ⟨rfl, -⟩ | ⟨rfl, -⟩
  · exact hs
  · exact absurd hs hne

/-- No other transaction completes a run. -/
theorem completed_of_apply (hc : tx.completes = false) (h : tx.apply now run = .ok run')
    (hs : run'.status = .completed) : run.status = .completed := by
  cases tx with
  | advance target =>
    refine completed_of_advance (fun htarget => ?_) h hs
    subst htarget
    cases hc
  | setCheckpointManifest uri =>
    cases Except.ok.inj h
    exact hs
  | setArtifactStatus artifact status error =>
    cases Except.ok.inj h
    cases artifact <;> exact hs
  | persistRecording artifact =>
    cases artifact with
    | none =>
      have hadvance : run.advance .processing now = .ok run' := h
      exact completed_of_advance (by decide) hadvance hs
    | some artifact =>
      have hadvance : (run.recorded artifact).advance .processing now = .ok run' := h
      have hcompleted : (run.recorded artifact).status = .completed :=
        completed_of_advance (by decide) hadvance hs
      exact hcompleted
  | complete c => cases hc
  | storeRecovered artifact =>
    cases Except.ok.inj h
    exact hs
  | failRun code =>
    have hfail : run.failRun code now = .ok run' := h
    unfold BotRun.failRun at hfail
    split_ifs at hfail with ht
    · cases Except.ok.inj hfail
      exact hs
    · have hcompleted : (run.failing code).status = .completed :=
        completed_of_advance (by decide) hfail hs
      exact hcompleted

end Fakery.Runtime
