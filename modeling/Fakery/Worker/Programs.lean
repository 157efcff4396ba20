import Fakery.Worker.Cluster

/-! The programs of the API, the workers and the pods, and the machine that interleaves them. -/
namespace Fakery.Worker
open Fakery.Bots Fakery.Concurrent Fakery.Runtime

def call (b : ℕ) (i : Runtime.Call) : Act (Runtime.Reply i) := perform (.attend b i)

/-- What the clock and the meeting decide about one execution: how often the pacing, the wait for
capacity and the wait for the end of the run go round, and how the meeting goes. -/
structure Plan where
  pacing : ℕ := 0
  attempts : ℕ := 0
  polls : ℕ := 0
  meeting : Meeting := {}

def errorCode : Option String → String
  | some code => if code = "" then "internal" else code
  | none => "internal"

def resolveJobOutcome (jobResult : JobResult) (dbTerminal : Bool) : Option String :=
  if dbTerminal then none
  else if jobResult = .timeout then some "job-timeout"
  else some "job-failed"

theorem resolveJobOutcome_some (jobResult : JobResult) :
    ∃ code, resolveJobOutcome jobResult false = some code := by
  unfold resolveJobOutcome
  by_cases htimeout : jobResult = .timeout <;> simp [htimeout]

section supervision

variable {ι : Type} {ρ : ι → Type} (call : (i : Runtime.Call) → Task ι ρ Raised (Runtime.Reply i))
  (sleep deleteJob : Task ι ρ Raised Unit) (hasBlob : Bool) (polls : ℕ)

/-- A job that is missing may have ended just now. -/
def dbTerminalAfter (result : JobResult) : Task ι ρ Raised Bool :=
  if result = .missing then waitForDbTerminal call sleep polls else dbTerminal call

/-- What `JobRuntime.spawn` makes of the result of its job. -/
def settleJob (result : JobResult) : Task ι ρ Raised Unit :=
  if result = .timeout then do
    deleteJob.rescue fun _ => pure ()
    if ← waitForDbTerminal call sleep polls then pure ()
    else failRun call hasBlob "job-timeout"
  else do
    let terminal ← dbTerminalAfter call sleep polls result
    match resolveJobOutcome result terminal with
    | none => pure ()
    | some code => failRun call hasBlob code

variable {call sleep deleteJob hasBlob polls} {P : ι → Prop}

theorem uses_settleJob (hfail : ∀ i, i.settles = true → (call i).run.Uses P)
    (hsleep : sleep.run.Uses P) (hdelete : deleteJob.run.Uses P) (result : JobResult) :
    (settleJob call sleep deleteJob hasBlob polls result).run.Uses P := by
  have hlook : (call .getRun).run.Uses P := hfail .getRun rfl
  unfold settleJob
  split
  · refine Task.uses_bind (Task.uses_rescue hdelete fun _ => trivial) fun _ => ?_
    refine Task.uses_bind (uses_waitForDbTerminal hlook hsleep _) fun terminal => ?_
    cases terminal with
    | true => trivial
    | false => exact uses_failRun hfail _
  · have hafter : (dbTerminalAfter call sleep polls result).run.Uses P := by
      unfold dbTerminalAfter
      split
      · exact uses_waitForDbTerminal hlook hsleep _
      · exact uses_dbTerminal hlook
    refine Task.uses_bind hafter fun terminal => ?_
    split
    · trivial
    · exact uses_failRun hfail _

end supervision

section execution

variable (S : Settings) (worker b : ℕ) (p : Plan)

def spawnAttend : Act Unit :=
  (attend (call b) S.hasBlob p.meeting).ensuring (perform (.attended b))

def supervise : Act JobResult := do
  if ← perform (.getJob b) then pure () else perform (.createJob b)
  perform (.waitTerminal b)

/-- `JobRuntime.spawn`. -/
def spawnJob : Act Unit := do
  let result ← (supervise b).ensuring ((perform .closeJobs).rescue fun _ => pure ())
  settleJob (call b) (perform .sleep) (perform (.deleteJob b)) S.hasBlob p.polls result

def spawn : Act Unit :=
  match S.botRuntime with
  | .process => do
    let _ ← call b .getRun
    perform (.prepareLaunch b)
    spawnAttend S b p
  | .job => spawnJob S b p

def reserveCapacity (owner : ℕ) : ℕ → Act Bool
  | 0 => perform (.tryReserve b owner)
  | n + 1 => do
    if ← perform (.tryReserve b owner) then pure true
    else do
      perform .sleep
      reserveCapacity owner n

/-- Whether the profile is shared and another run has its lease. -/
def profileBusy : Act Bool :=
  if S.signed then (fun acquired => !acquired) <$> perform .acquireLease else pure false

/-- `execute_run` between the reservation and its release. -/
def attempt : Act Unit := do
  if ← profileBusy S then failRun (call b) S.hasBlob "profile-busy"
  else do
    perform .launchRuntime
    (spawn S b p).ensuring
      (if S.signed then (perform .releaseLease).rescue fun _ => pure () else pure ())

def executeRun : Act Unit := do
  if ← perform (.isCancelled b true) then failRun (call b) S.hasBlob "cancelled"
  else do
    let run ← call b .getRun
    if run.status ≠ .queued then pure ()
    else do
      let runOwner ← perform .uuid4
      if ← reserveCapacity b runOwner p.attempts then
        (attempt S b p).ensuring (perform (.releaseCapacity b))
      else if ← perform (.hasOtherReservation b runOwner) then pure ()
      else failRun (call b) S.hasBlob "at-capacity"

/-- `SHUTDOWN_EVENT.is_set() or await is_cancelled(redis, bot_id)`. -/
def stopped : Act Bool := do
  if ← perform (.shutdown worker) then pure true else perform (.isCancelled b false)

/-- Whether the run goes on after the pacing. -/
def pace : ℕ → Act Bool
  | 0 => pure true
  | n + 1 => do
    if ← stopped worker b then pure false
    else do
      perform .sleep
      pace n

def claimed : Act Unit := do
  if ← stopped worker b then pure ()
  else if ← pace worker b p.pacing then executeRun S b p
  else pure ()

def runClaim (entry : ℕ) : Act Unit :=
  ((claimed S worker b p).rescue fun code => do
    perform .handling
    failRun (call b) S.hasBlob (errorCode code)).ensuring (perform (.ack entry))

/-- The main function of a pod. -/
def botRun (errorCode : Option String → String) : Act Unit :=
  ((do
    perform (.prepareLaunch b)
    let _ ← call b .getRun
    spawnAttend S b p).rescue fun code =>
      (failRun (call b) S.hasBlob (errorCode code)).rescue fun _ => pure ()).ensuring
    (perform (.podEnded b))

end execution

section daemons

/-- Each pending run is added to the stream; what became of it is stored in the end. -/
def relayEach (results : List (ℕ × Bool)) : List ℕ → Act Unit
  | [] => perform (.storeDispatch results)
  | b :: bs => do
    let ok ← (do perform (.xadd b); pure true : Act Bool).rescue fun _ => pure false
    relayEach (results ++ [(b, ok)]) bs

def relayQueued : Act Unit := do
  let bots ← perform .selectPending
  relayEach [] bots

def sweepCapacity : Act Unit := do
  let moment ← perform .utcnow
  perform (.sweepCapacity moment)

def orphans (moment staleAfter : ℕ) (found : List BotRun) : List BotRun → Act Unit
  | [] => perform (.reap found)
  | run :: runs => do
    if ← perform (.getBeat run.id) then orphans moment staleAfter found runs
    else if isOrphan run.status run.updatedAt false moment staleAfter then
      orphans moment staleAfter (found ++ [run]) runs
    else orphans moment staleAfter found runs

def sweepOrphans (staleAfter : ℕ) : Act Unit := do
  let moment ← perform .utcnow
  let runs ← perform (.selectStale (moment - staleAfter))
  orphans moment staleAfter [] runs

/-- `DELETE /v1/bots/{id}`. -/
def cancelBot (b : ℕ) : Act Unit := do
  let run ← call b .getRun
  if run.status = .queued then perform (.cancel b)
  else if run.status.terminal then pure ()
  else perform (.requestCancel b)

end daemons

inductive Role where
  | runClaim (worker entry b : ℕ) (p : Plan)
  | botRun (b : ℕ) (p : Plan) (errorCode : Option String → String)
  | relayQueued
  | sweepCapacity
  | sweepOrphans (staleAfter : ℕ)
  | cancelBot (b : ℕ)

def Role.act (S : Settings) : Role → Act Unit
  | runClaim worker entry b p => Worker.runClaim S worker b p entry
  | botRun b p errorCode => Worker.botRun S b p errorCode
  | relayQueued => Worker.relayQueued
  | sweepCapacity => Worker.sweepCapacity
  | sweepOrphans staleAfter => Worker.sweepOrphans staleAfter
  | cancelBot b => Worker.cancelBot b

def begin (t : ℕ) : Role → Cluster → Option Cluster
  | .runClaim worker entry b _, s => s.claim t worker entry b
  | .botRun b _ _, s => s.startPod t b
  | _, s => some s

def cluster (S : Settings) : Machine Call Answer Role Cluster Outcome World where
  prog k := (k.act S).run >>= fun _ => .done ()
  begin := begin
  exec := exec S
  kill := Cluster.kill
  env := World.step

end Fakery.Worker
