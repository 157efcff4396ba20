import Fakery.Jobs.Runtimes
import Fakery.Polling.Deadline

/-! The wait for a job, with the clock of the supervisor and the server that removes finished jobs
after a while. -/
namespace Fakery.Jobs.Timed
open Fakery.Polling

def JOB_POLL_S : ℚ := 10

/-- What the call for the status of a job comes to. -/
inductive Status where
  | read (status : JobStatus)
  | unknown
  | raised
deriving DecidableEq

/-- How the wait ends within its time. -/
inductive Ending where
  | told (result : Worker.JobResult)
  | raised
deriving DecidableEq

def statusLook (_ : Unit) : Status → Except Ending Unit
  | .unknown => .error (.told .missing)
  | .raised => .error .raised
  | .read status =>
    if status.succeeded ≠ 0 then .error (.told .completed)
    else if status.failed ≠ 0 then .error (.told .failed)
    else .ok ()

/-- `.expired` is the result `timeout`. -/
def waitTerminal (timeoutS : ℕ) (start : ℚ) (clock : ℕ → ℚ) (seen : ℕ → Status) (fuel : ℕ) :
    Option (ℕ × Polling.Outcome Ending) :=
  poll statusLook (start + timeoutS) clock seen fuel 0 ()

/-- When a job has ended, and whether well, and when the server has removed it, which is
`ttlSecondsAfterFinished` later at the earliest. -/
structure Lifecycle where
  finished : Option (ℚ × Bool) := none
  removed : Option ℚ := none
  kept : ∀ r ∈ removed, ∃ f ok, finished = some (f, ok) ∧ f + JOB_TTL_S ≤ r

def statusOf (ok : Bool) : JobStatus := if ok then ⟨1, 0⟩ else ⟨0, 1⟩

def resultOf (ok : Bool) : Worker.JobResult := if ok then .completed else .failed

/-- The job as a call finds it at a time. -/
def Lifecycle.at (job : Lifecycle) (t : ℚ) : Status :=
  if job.removed.any (· ≤ t) then .unknown
  else match job.finished with
    | some (f, ok) => if f ≤ t then .read (statusOf ok) else .read ⟨0, 0⟩
    | none => .read ⟨0, 0⟩

section waiting

variable {job : Lifecycle} {t : ℚ} {deadline : ℚ} {clock readAt : ℕ → ℚ} {seen : ℕ → Status} {k : ℕ}

def Running (job : Lifecycle) (t : ℚ) : Prop := ∀ f ok, job.finished = some (f, ok) → t < f

/-- A job that runs is found until long after it has ended. -/
theorem Running.found (h : Running job t) {t' : ℚ} (ht : t' ≤ t + JOB_TTL_S) :
    job.at t' ≠ .unknown := by
  have hkept : ¬job.removed.any (· ≤ t') := by
    rw [Option.any_eq_true]
    rintro ⟨r, hr, hle⟩
    obtain ⟨f, ok, hf, hrem⟩ := job.kept r hr
    have hrun := h f ok hf
    have hle := of_decide_eq_true hle
    linarith
  rw [Lifecycle.at, if_neg hkept]
  split
  · split_ifs <;> exact nofun
  · exact nofun

/-- What a call that finds the job tells of it. -/
theorem at_cases (h : job.at t ≠ .unknown) :
    (Running job t ∧ job.at t = .read ⟨0, 0⟩) ∨
      ∃ f ok, job.finished = some (f, ok) ∧ f ≤ t ∧ job.at t = .read (statusOf ok) := by
  have hkept : ¬job.removed.any (· ≤ t) := fun hgone => h (by rw [Lifecycle.at, if_pos hgone])
  rw [Lifecycle.at, if_neg hkept]
  cases hf : job.finished with
  | none => exact Or.inl ⟨fun f ok hsome => (by rw [hf] at hsome; cases hsome), rfl⟩
  | some finished =>
    obtain ⟨f, ok⟩ := finished
    by_cases hle : f ≤ t
    · exact Or.inr ⟨f, ok, rfl, hle, if_pos hle⟩
    · refine Or.inl ⟨fun f' ok' hsome => ?_, if_neg hle⟩
      obtain ⟨rfl, rfl⟩ := Prod.mk.inj (Option.some.inj (hf.symm.trans hsome))
      exact lt_of_not_ge hle

/-- The wait is over. -/
def jobOver (deadline : ℚ) (clock : ℕ → ℚ) (seen : ℕ → Status) (k : ℕ) : Prop :=
  deadline ≤ clock k ∨ seen k ≠ .read ⟨0, 0⟩

def jobEnding (deadline : ℚ) (clock : ℕ → ℚ) (seen : ℕ → Status) (k : ℕ) :
    Polling.Outcome Ending :=
  if deadline ≤ clock k then .expired
  else match statusLook () (seen k) with
    | .error ending => .decided ending
    | .ok _ => .expired

theorem statusLook_goes (h : ¬jobOver deadline clock seen k) : statusLook () (seen k) = .ok () := by
  rw [jobOver, not_or, not_not] at h
  rw [h.2]
  rfl

theorem poll_jobEnding (h : jobOver deadline clock seen k)
    (hread : ∀ status, seen k = .read status → status.succeeded = 0 → status.failed = 0 →
      status = ⟨0, 0⟩) (fuel : ℕ) :
    poll statusLook deadline clock seen (fuel + 1) k () =
      some (k, jobEnding deadline clock seen k) := by
  by_cases hlate : deadline ≤ clock k
  · rw [poll_expires hlate, jobEnding, if_pos hlate]
  · rw [jobEnding, if_neg hlate]
    cases hlook : statusLook () (seen k) with
    | error ending => exact poll_decides (lt_of_not_ge hlate) hlook
    | ok _ =>
      have hseen := h.resolve_left hlate
      cases hs : seen k with
      | unknown =>
        rw [hs] at hlook
        cases hlook
      | raised =>
        rw [hs] at hlook
        cases hlook
      | read status =>
        rw [hs, statusLook] at hlook
        split_ifs at hlook with hsucceeded hfailed
        rw [not_not] at hsucceeded hfailed
        exact absurd (hs.trans (congrArg _ (hread status hs hsucceeded hfailed))) hseen

/-- A supervisor that finds its job at the first look, and looks again before a finished job is
removed, is never told that the job is missing: within a look for every ten seconds the wait ends
with the time over and the job running at every look before, with a call that raised, or with what
became of the job. -/
theorem wait_terminal (job : Lifecycle) (timeoutS : ℕ) (start : ℚ) (clock readAt : ℕ → ℚ)
    (seen : ℕ → Status) (hstart : start ≤ clock 0)
    (hclock : ∀ i, clock i ≤ readAt i ∧ readAt i + JOB_POLL_S ≤ clock (i + 1))
    (hagain : ∀ i, readAt (i + 1) ≤ readAt i + JOB_TTL_S) (hfirst : job.at (readAt 0) ≠ .unknown)
    (hseen : ∀ i, seen i = .raised ∨ seen i = job.at (readAt i)) :
    ∃ k ≤ ⌈(timeoutS / JOB_POLL_S : ℚ)⌉₊, ∃ ending,
      (∀ fuel, k < fuel → waitTerminal timeoutS start clock seen fuel = some (k, ending)) ∧
      (∀ i < k, clock i < start + timeoutS ∧ Running job (readAt i)) ∧
      (start + timeoutS ≤ clock k ∧ ending = .expired ∨ clock k < start + timeoutS ∧
        (seen k = .raised ∧ ending = .decided .raised ∨ ∃ f ok, job.finished = some (f, ok) ∧
          f ≤ readAt k ∧ ending = .decided (.told (resultOf ok)))) := by
  have hperiod : (0 : ℚ) < JOB_POLL_S := by norm_num [JOB_POLL_S]
  have hsteps : ∀ i, clock i + JOB_POLL_S ≤ clock (i + 1) := fun i => by
    have hi := hclock i
    linarith
  have hidle : ∀ i status, seen i = .read status → status.succeeded = 0 → status.failed = 0 →
      status = ⟨0, 0⟩ := by
    rintro i ⟨succeeded, failed⟩ - rfl rfl
    rfl
  have hdeadline : start + timeoutS ≤ clock 0 + timeoutS := by linarith
  obtain ⟨k, hk, hover, hbefore, hrun⟩ := poll_first (fun _ => ()) hperiod hsteps hdeadline
    (fun i (h : start + timeoutS ≤ clock i) => Or.inl h : ∀ i, _ → jobOver _ clock seen i)
    (fun i h => statusLook_goes h) (fun i h fuel => poll_jobEnding h (hidle i) fuel)
  have hnot : ∀ i < k, clock i < start + timeoutS ∧ seen i = .read ⟨0, 0⟩ := by
    intro i hi
    have hgoes : ¬jobOver (start + timeoutS) clock seen i := hbefore i hi
    rw [jobOver, not_or, not_not] at hgoes
    exact ⟨lt_of_not_ge hgoes.1, hgoes.2⟩
  have hrunning : ∀ i < k, Running job (readAt i) := by
    intro i hi
    have hi' := (hnot i hi).2
    rcases hseen i with hraised | hat
    · cases hraised.symm.trans hi'
    · have hfound : job.at (readAt i) = .read ⟨0, 0⟩ := hat.symm.trans hi'
      rcases at_cases (by rw [hfound]; exact nofun) with ⟨h, -⟩ | ⟨f, ok, -, -, hdone⟩
      · exact h
      · have hsame := hdone.symm.trans hfound
        cases ok <;> cases hsame
  -- At the look that ends the wait the job is still there.
  have hthere : job.at (readAt k) ≠ .unknown := by
    cases k with
    | zero => exact hfirst
    | succ i => exact (hrunning i (Nat.lt_succ_self i)).found (hagain i)
  refine ⟨k, hk, _, hrun, fun i hi => ⟨(hnot i hi).1, hrunning i hi⟩, ?_⟩
  by_cases hlate : start + timeoutS ≤ clock k
  · exact Or.inl ⟨hlate, if_pos hlate⟩
  · refine Or.inr ⟨lt_of_not_ge hlate, ?_⟩
    rw [jobEnding, if_neg hlate]
    rcases hseen k with hraised | hat
    · exact Or.inl ⟨hraised, by rw [hraised]; rfl⟩
    · rcases at_cases hthere with ⟨-, hidleat⟩ | ⟨f, ok, hf, hle, hdone⟩
      · exact absurd (hat.trans hidleat) (hover.resolve_left hlate)
      · refine Or.inr ⟨f, ok, hf, hle, ?_⟩
        rw [hat, hdone]
        cases ok <;> rfl

/-- A job that fails after a quarter of a minute, and its server removes it in time. -/
def shortLived : Lifecycle where
  finished := some (15, false)
  removed := some 315
  kept r hr := ⟨15, false, rfl, by
    obtain rfl := Option.some.inj hr
    norm_num [JOB_TTL_S]⟩

theorem wait_terminal_shortLived : ∃ k ≤ ⌈((60 : ℕ) / JOB_POLL_S : ℚ)⌉₊, ∃ ending,
    (∀ fuel, k < fuel → waitTerminal 60 0 (fun i => 10 * i)
      (fun i => shortLived.at (10 * i)) fuel = some (k, ending)) ∧
    ending ≠ .decided (.told .missing) := by
  obtain ⟨k, hk, ending, hrun, -, hend⟩ := wait_terminal shortLived 60 0 (fun i => 10 * i)
    (fun i => 10 * i) (fun i => shortLived.at (10 * i)) (by norm_num)
    (fun i => ⟨le_refl _, by push_cast [JOB_POLL_S]; linarith⟩)
    (fun i => by push_cast [JOB_TTL_S]; linarith)
    (by
      norm_num [Lifecycle.at, shortLived]
      exact nofun) (fun i => Or.inr rfl)
  refine ⟨k, hk, ending, hrun, ?_⟩
  rcases hend with ⟨-, rfl⟩ | ⟨-, ⟨-, rfl⟩ | ⟨f, ok, -, -, rfl⟩⟩
  · exact nofun
  · exact nofun
  · cases ok <;> exact nofun

end waiting

end Fakery.Jobs.Timed
