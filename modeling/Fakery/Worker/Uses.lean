import Fakery.Worker.Calls

/-! The calls that the programs of the cluster make. -/
namespace Fakery.Worker
open Fakery.Bots Fakery.Concurrent Fakery.Runtime

variable {S : Settings} {b : ℕ} {i : Call} {P : Call → Prop}

theorem uses_call (h : P i) : (perform i).run.Uses P := ⟨h, fun _ => trivial⟩

theorem uses_fail (h : ∀ i, i.settles = true → P (.attend b i)) (code : String) :
    (failRun (call b) S.hasBlob code).run.Uses P := uses_failRun (fun i hs => uses_call (h i hs)) code

section looks

variable (h : ∀ i, i.Looks → P i)
include h

theorem uses_looks (hi : i.Looks) : (perform i).run.Uses P := uses_call (h i hi)

theorem uses_stopped (worker : ℕ) : (stopped worker b).run.Uses P := by
  refine Task.uses_bind (uses_looks (i := .shutdown worker) h trivial) fun r => ?_
  cases r with
  | true => trivial
  | false => exact uses_looks (i := .isCancelled b false) h trivial

theorem uses_pace (worker n : ℕ) : (pace worker b n).run.Uses P := by
  induction n with
  | zero => trivial
  | succ n ih =>
    refine Task.uses_bind (uses_stopped h worker) fun r => ?_
    cases r with
    | true => trivial
    | false => exact Task.uses_bind (uses_looks (i := .sleep) h trivial) fun _ => ih

theorem uses_releaseLease :
    (if S.signed then (perform .releaseLease).rescue fun _ => pure () else pure () :
      Act Unit).run.Uses P := by
  split
  · exact Task.uses_rescue (uses_looks (i := .releaseLease) h trivial) fun _ => trivial
  · trivial

end looks

theorem uses_profileBusy (h : P .acquireLease) : (profileBusy S).run.Uses P := by
  unfold profileBusy
  split
  · refine ⟨h, fun r => ?_⟩
    cases r with
    | ok _ => trivial
    | error _ => trivial
  · trivial

theorem uses_relayEach (bots : List ℕ) (results : List (ℕ × Bool)) :
    (relayEach results bots).run.Uses Call.Unnoted := by
  induction bots generalizing results with
  | nil => exact uses_call (i := .storeDispatch results) trivial
  | cons b bs ih =>
    refine Task.uses_bind (Task.uses_rescue ?_ fun _ => trivial) fun ok => ih _
    exact Task.uses_bind (uses_call (i := .xadd b) trivial) fun _ => trivial

theorem uses_relayQueued : relayQueued.run.Uses Call.Unnoted :=
  Task.uses_bind (uses_call (i := .selectPending) trivial) fun bots => uses_relayEach bots []

theorem uses_orphans (hget : ∀ b, P (.getBeat b)) (hreap : ∀ found, P (.reap found))
    (moment staleAfter : ℕ) (runs found : List BotRun) :
    (orphans moment staleAfter found runs).run.Uses P := by
  induction runs generalizing found with
  | nil => exact uses_call (hreap found)
  | cons run runs ih =>
    refine Task.uses_bind (uses_call (hget run.id)) fun r => ?_
    cases r with
    | true => exact ih found
    | false =>
      simp only [Bool.false_eq_true, if_false]
      split
      · exact ih _
      · exact ih found

theorem uses_sweepOrphans (h : ∀ i, i.Looks → P i) (hreap : ∀ found, P (.reap found))
    (staleAfter : ℕ) : (sweepOrphans staleAfter).run.Uses P := by
  refine Task.uses_bind (uses_looks (i := .utcnow) h trivial) fun moment => ?_
  refine Task.uses_bind (uses_looks (i := .selectStale _) h trivial) fun runs => ?_
  exact uses_orphans (fun b => h (.getBeat b) trivial) hreap moment staleAfter runs []

theorem uses_cancelBot : (cancelBot b).run.Uses Call.Unnoted := by
  refine Task.uses_bind (uses_call (i := .attend b .getRun) rfl) fun run => ?_
  split
  · exact uses_call (i := .cancel b) trivial
  · split
    · trivial
    · exact uses_call (i := .requestCancel b) trivial

end Fakery.Worker
