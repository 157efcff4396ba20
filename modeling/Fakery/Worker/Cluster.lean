import Fakery.Bots.Lifecycle
import Fakery.Capacity.Ledger
import Fakery.Concurrent.RelyGuarantee
import Fakery.Runtime.Attend
import Mathlib.Data.List.Sort

/-! What the API, the workers and the pods of jobs share: the rows of the runs, the capacity ledger,
the stream and the keys of Redis, the jobs. Every transaction is one step. -/
namespace Fakery.Worker
open Fakery.Bots Fakery.Capacity Fakery.Concurrent Fakery.Runtime

def ORPHAN_IDLE_MS : ℕ := 300000

def DISPATCH_RELAY_BATCH : ℕ := 50

inductive BotRuntime where
  | process | job
deriving DecidableEq

structure Settings where
  tenant : ℕ := 0
  maxConcurrentRuns : ℕ
  botRuntime : BotRuntime
  /-- Whether there is a signed profile; guests have a directory for each run. -/
  signed : Bool := false
  hasBlob : Bool := true

inductive JobResult where
  | completed | failed | missing | timeout
deriving DecidableEq

/-- A job runs one pod: `waiting` until the pod starts, `finished` until the job is deleted. -/
inductive JobStatus where
  | waiting
  | running (pod : ℕ)
  | finished
deriving DecidableEq

/-- What the status of a job can be read as. -/
def JobResult.possible (job : Option JobStatus) : JobResult → Bool
  | completed | failed => job = some .finished
  | missing => job = none
  | timeout => true

/-- `isCancelled` is told whether it decides about `fail_run`. `attended`, `handling` and
`podEnded` mark the end of `attend`, the entry of the `except` clause of `run_claim` and the end of
a pod. -/
inductive Call where
  | attend (b : ℕ) (i : Runtime.Call)
  | attended (b : ℕ)
  | handling
  | podEnded (b : ℕ)
  | uuid4
  | utcnow
  | shutdown (worker : ℕ)
  | sleep
  | isCancelled (b : ℕ) (deciding : Bool)
  | ack (entry : ℕ)
  | tryReserve (b owner : ℕ)
  | hasOtherReservation (b owner : ℕ)
  | releaseCapacity (b : ℕ)
  | acquireLease
  | releaseLease
  | launchRuntime
  | prepareLaunch (b : ℕ)
  | getJob (b : ℕ)
  | createJob (b : ℕ)
  | waitTerminal (b : ℕ)
  | deleteJob (b : ℕ)
  | closeJobs
  | sweepCapacity (moment : ℕ)
  | selectStale (cutoff : ℕ)
  | getBeat (b : ℕ)
  | reap (loaded : List BotRun)
  | selectPending
  | xadd (b : ℕ)
  | storeDispatch (results : List (ℕ × Bool))
  | cancel (b : ℕ)
  | requestCancel (b : ℕ)

abbrev Reply : Call → Type
  | .attend _ i => Runtime.Reply i
  | .uuid4 | .utcnow => ℕ
  | .shutdown _ | .isCancelled _ _ | .tryReserve _ _ | .hasOtherReservation _ _ | .acquireLease
  | .getJob _ | .getBeat _ => Bool
  | .waitTerminal _ => JobResult
  | .selectStale _ => List BotRun
  | .selectPending => List ℕ
  | _ => Unit

abbrev Answer (i : Call) : Type := Except Raised (Reply i)

abbrev Act := Task Call Answer Raised

def perform (i : Call) : Act (Reply i) := ExceptT.mk (Prog.ask i)

/-- Whether the call can raise; a cancellation is delivered by such a call too. -/
def Call.raises : Call → Bool
  | .attended _ | .handling | .podEnded _ | .uuid4 | .utcnow | .shutdown _
  | .attend _ .createHeartbeat | .attend _ .cancelHeartbeat => false
  | _ => true

/-- An entry of the stream, and when it was last delivered. -/
structure Entry where
  id : ℕ
  bot : ℕ
  deliveredAt : Option ℕ := none
  acked : Bool := false

/-- A `run_claim` task. -/
structure Claim where
  thread : ℕ
  worker : ℕ
  entry : ℕ
  bot : ℕ
deriving DecidableEq

/-- Beside the tables and the keys: `raising` is what the next call of a thread raises and whether it
has its effect before, `loops` are the heartbeat tasks, `inside` the executions between their
reservation and its release, `attends` the attends that have committed the joining transition and
have not ended, `pods` the pods that run, `failing` the threads that are to call `fail_run`, `handling`
those in the `except` clause of `run_claim` among them, `leaving` those that another reservation has
turned away, `joinedBy` the thread that has made a run joining. -/
structure Cluster where
  ids : List ℕ := []
  runs : ℕ → Option BotRun := fun _ => none
  ledger : Ledger := {}
  now : ℕ := 0
  entries : List Entry := []
  cancelKey : ℕ → Bool := fun _ => false
  beatKey : ℕ → Bool := fun _ => false
  directory : ℕ → Bool := fun _ => false
  job : ℕ → Option JobStatus := fun _ => none
  sigterm : ℕ → Bool := fun _ => false
  raising : ℕ → Option (Raised × Bool) := fun _ => none
  claims : List Claim := []
  loops : List (ℕ × ℕ) := []
  inside : List (ℕ × ℕ) := []
  attends : List (ℕ × ℕ) := []
  pods : List (ℕ × ℕ) := []
  failing : List ℕ := []
  handling : List ℕ := []
  leaving : List ℕ := []
  joinedBy : ℕ → Option ℕ := fun _ => none

def drop (t : ℕ) (xs : List (ℕ × ℕ)) : List (ℕ × ℕ) := xs.filter fun x => x.1 ≠ t

namespace Cluster

variable (s : Cluster)

def setRun (b : ℕ) (run : BotRun) : Cluster :=
  { s with runs := Function.update s.runs b (some run) }

def status (b : ℕ) : Option BotStatus := (s.runs b).map BotRun.status

def queued (b : ℕ) : Bool := s.status b = some .queued

def terminal (b : ℕ) : Bool := (s.status b).any BotStatus.terminal

def reserved (b : ℕ) : Bool := (s.ledger.find b).isSome

/-- A job of `b` may still start its pod, or a pod is running. -/
def Pending (b : ℕ) : Prop := s.job b = some .waiting ∨ ∃ x ∈ s.pods, x.2 = b

instance (b : ℕ) : Decidable (s.Pending b) :=
  inferInstanceAs (Decidable (s.job b = some .waiting ∨ ∃ x ∈ s.pods, x.2 = b))

def join (t b : ℕ) : Cluster :=
  { s with
    joinedBy := Function.update s.joinedBy b (some t)
    attends := (t, b) :: s.attends }

def podGone (t b : ℕ) : Cluster :=
  { s with
    pods := drop t s.pods
    job := if s.job b = some (.running t) then Function.update s.job b (some .finished)
      else s.job }

/-- The stale rows of a sweep, written back. -/
def reap (now : ℕ) (s : Cluster) : List BotRun → Cluster
  | [] => s
  | loaded :: rest =>
    match s.runs loaded.id, loaded.orphaned.advance .failed now with
    | some row, .ok run => reap now (s.setRun loaded.id (BotRun.store loaded run now row)) rest
    | _, _ => reap now s rest

def dispatched (ok : Bool) (now : ℕ) (error : String) (run : BotRun) : BotRun :=
  if ok then { run with
    dispatchAttempts := run.dispatchAttempts + 1
    dispatchStatus := "enqueued"
    dispatchEnqueuedAt := some now
    updatedAt := now }
  else { run with
    dispatchAttempts := run.dispatchAttempts + 1
    dispatchLastError := some error
    updatedAt := now }

def storeDispatch (now : ℕ) (error : String) (s : Cluster) : List (ℕ × Bool) → Cluster
  | [] => s
  | (b, ok) :: rest =>
    match s.runs b with
    | some run => storeDispatch now error (s.setRun b (dispatched ok now error run)) rest
    | none => storeDispatch now error s rest

def selectRuns (p : BotRun → Bool) : List BotRun :=
  s.ids.filterMap fun b => (s.runs b).filter p

end Cluster

/-- The order in which the relay takes pending runs. -/
def Earlier (x y : BotRun) : Prop := x.createdAt < y.createdAt ∨ x.createdAt = y.createdAt ∧ x.id ≤ y.id

instance (x y : BotRun) : Decidable (Earlier x y) :=
  inferInstanceAs (Decidable (x.createdAt < y.createdAt ∨ x.createdAt = y.createdAt ∧ x.id ≤ y.id))

/-- What the environment decides about a call: the clock of the process, the name of an error, the
answer of a call that nothing here decides, and the rows that other transactions keep locked. -/
structure Outcome where
  now : ℕ := 0
  error : String := "ConnectionError"
  flag : Bool := true
  stopReason : Option String := none
  restored : Option RecordingArtifact := none
  result : JobResult := .timeout
  locked : List ℕ := []

/-- The calls of `attend` and `fail_run`. A transaction that raises is rolled back. -/
def attendEffect (S : Settings) (t b : ℕ) : (i : Runtime.Call) → Outcome → Cluster →
    Cluster × Except Raised (Runtime.Reply i)
  | .transaction tx, c, s =>
    match s.runs b with
    | none => (s, .error (.exception none))
    | some run =>
      match tx.apply c.now run with
      | .error _ => (s, .error (.exception none))
      | .ok run' =>
        let s' := s.setRun b (BotRun.flushed run c.now run')
        (if tx.joins then s'.join t b else s', .ok ())
  | .getRun, _, s =>
    match s.runs b with
    | none => (s, .error (.exception none))
    | some run => (s, .ok run)
  | .createHeartbeat, _, s => ({ s with loops := (t, b) :: s.loops }, .ok ())
  | .cancelHeartbeat, _, s => ({ s with loops := drop t s.loops }, .ok ())
  | .clearBeat, _, s => ({ s with beatKey := Function.update s.beatKey b false }, .ok ())
  | .persistProfile, _, s =>
    (if S.signed then s else { s with directory := Function.update s.directory b false }, .ok ())
  | .waitAdmitted, c, s => (s, .ok c.flag)
  | .waitMeetingEnded, c, s => (s, .ok c.flag)
  | .requestedStopReason, c, s => (s, .ok c.stopReason)
  | .restorePrefix, c, s => (s, .ok c.restored)
  | .restoreProfile, _, s => (s, .ok ())
  | .openBrowser, _, s => (s, .ok ())
  | .closeBrowser, _, s => (s, .ok ())
  | .joinMeeting, _, s => (s, .ok ())
  | .pause, _, s => (s, .ok ())
  | .leaveMeeting, _, s => (s, .ok ())

/-- What a call does when it comes to have its effect; `none` is an answer that cannot be. -/
def effect (S : Settings) (t : ℕ) : (i : Call) → Outcome → Cluster → Option (Cluster × Answer i)
  | .attend b i, c, s => some (attendEffect S t b i c s)
  | .attended _, _, s => some ({ s with attends := drop t s.attends }, .ok ())
  | .handling, _, s =>
    some ({ s with handling := t :: s.handling, failing := t :: s.failing }, .ok ())
  | .podEnded b, _, s => some (s.podGone t b, .ok ())
  | .uuid4, _, s => some (s, .ok t)
  | .utcnow, c, s => some (s, .ok c.now)
  | .shutdown worker, _, s => some (s, .ok (s.sigterm worker))
  | .isCancelled b _, _, s => some (s, .ok (s.cancelKey b))
  | .ack entry, _, s =>
    some ({ s with entries := s.entries.map fun e =>
      if e.id = entry then { e with acked := true } else e }, .ok ())
  | .tryReserve b owner, c, s =>
    let r := s.ledger.tryReserve S.tenant S.maxConcurrentRuns b owner c.now
    some ({ s with ledger := r.1 }, .ok r.2)
  | .hasOtherReservation b owner, _, s => some (s, .ok (s.ledger.hasOther b owner))
  | .releaseCapacity b, c, s => some ({ s with ledger := s.ledger.release b c.now }, .ok ())
  | .acquireLease, c, s => some (s, .ok c.flag)
  | .prepareLaunch b, _, s =>
    some (if S.signed then s else { s with directory := Function.update s.directory b true }, .ok ())
  | .getJob b, _, s => some (s, .ok (s.job b).isSome)
  | .createJob b, _, s =>
    match s.job b with
    | some _ => some (s, .error (.exception none))
    | none => some ({ s with job := Function.update s.job b (some .waiting) }, .ok ())
  | .waitTerminal b, c, s =>
    if c.result.possible (s.job b) then some (s, .ok c.result) else none
  | .deleteJob b, _, s =>
    match s.job b with
    | none => some (s, .error (.exception none))
    | some _ => some ({ s with job := Function.update s.job b none }, .ok ())
  | .sweepCapacity moment, _, s =>
    some ({ s with ledger := s.ledger.sweep s.status moment }, .ok ())
  | .selectStale cutoff, _, s =>
    some (s, .ok (s.selectRuns fun run => run.status ∈ liveStatuses && run.updatedAt < cutoff))
  | .getBeat b, _, s => some (s, .ok (s.beatKey b))
  | .reap loaded, c, s => some (s.reap c.now loaded, .ok ())
  | .selectPending, c, s =>
    some (s, .ok ((((s.selectRuns fun run => run.status = .queued && run.dispatchStatus = "pending" &&
      run.id ∉ c.locked).insertionSort Earlier).take DISPATCH_RELAY_BATCH).map BotRun.id))
  | .xadd b, _, s =>
    some ({ s with entries := { id := s.entries.length, bot := b } :: s.entries }, .ok ())
  | .storeDispatch results, c, s => some (s.storeDispatch c.now c.error results, .ok ())
  | .cancel b, c, s =>
    match s.runs b with
    | none => some (s, .error (.exception none))
    | some run =>
      match run.cancel c.now with
      | .error _ => some (s, .error (.exception none))
      | .ok run' => some (s.setRun b (BotRun.flushed run c.now run'), .ok ())
  | .requestCancel b, _, s =>
    some ({ s with cancelKey := Function.update s.cancelKey b true }, .ok ())
  | .sleep, _, s => some (s, .ok ())
  | .releaseLease, _, s => some (s, .ok ())
  | .launchRuntime, _, s => some (s, .ok ())
  | .closeJobs, _, s => some (s, .ok ())

/-- What is noted of an answer. A claim ends with its acknowledgement. -/
def note (t : ℕ) : (i : Call) → Answer i → Cluster → Cluster
  | .tryReserve b _, .ok true, s => { s with inside := (t, b) :: s.inside }
  | .hasOtherReservation _ _, .ok true, s => { s with leaving := t :: s.leaving }
  | .hasOtherReservation _ _, .ok false, s => { s with failing := t :: s.failing }
  | .acquireLease, .ok false, s => { s with failing := t :: s.failing }
  | .isCancelled _ true, .ok true, s => { s with failing := t :: s.failing }
  | .releaseCapacity _, _, s => { s with inside := drop t s.inside }
  | .ack _, _, s => { s with claims := s.claims.filter fun c => c.thread ≠ t }
  | _, _, s => s

def settle (t : ℕ) (i : Call) (x : Cluster × Answer i) : Cluster × Answer i := (note t i x.2 x.1, x.2)

def exec (S : Settings) (t : ℕ) (i : Call) (c : Outcome) (s : Cluster) :
    Option (Cluster × Answer i) :=
  match (s.raising t).filter fun _ => i.raises with
  | none => (effect S t i c s).map (settle t i)
  | some (e, reached) => (effect S t i c s).map fun x =>
      settle t i ({ if reached then x.1 else s with
        raising := Function.update s.raising t none }, .error e)

/-- What no transaction but the ones above does to a row. -/
structure Overwrites (old new : BotRun) : Prop where
  id : new.id = old.id
  queued : new.status = .queued → old.status = .queued
  terminal : old.status.terminal = true → new.status.terminal = true
  dispatch : new.dispatchStatus = old.dispatchStatus

instance (old new : BotRun) : Decidable (Overwrites old new) :=
  decidable_of_iff (new.id = old.id ∧ (new.status = .queued → old.status = .queued) ∧
      (old.status.terminal = true → new.status.terminal = true) ∧
      new.dispatchStatus = old.dispatchStatus)
    ⟨fun h => ⟨h.1, h.2.1, h.2.2.1, h.2.2.2⟩, fun h => ⟨h.id, h.queued, h.terminal, h.dispatch⟩⟩

/-- `create` is what `create_or_get` inserts, `write` any other transaction on a row, and a job ends
without its pod or is removed after it. -/
inductive World where
  | create (run : BotRun)
  | write (b : ℕ) (run : BotRun)
  | sigterm (worker : ℕ)
  | raise (t : ℕ) (e : Raised) (reached : Bool)
  | elapse (d : ℕ)
  | beat (t b : ℕ)
  | expireBeat (b : ℕ)
  | expireCancel (b : ℕ)
  | endJob (b : ℕ)
  | removeJob (b : ℕ)

/-- A task is cancelled by the shutdown of its worker only. -/
def mayRaise (s : Cluster) (t : ℕ) : Raised → Bool
  | .exception _ => true
  | .cancelled => s.claims.any fun c => c.thread = t && s.sigterm c.worker

def World.step : World → Cluster → Option Cluster
  | create run, s =>
    if run.status = .queued ∧ run.dispatchStatus = "pending" ∧ (s.runs run.id).isNone ∧
        (s.ids.any fun b => Db.clashes run (s.runs b)) = false then
      some { s.setRun run.id run with ids := s.ids ++ [run.id] }
    else none
  | write b run, s =>
    match s.runs b with
    | none => none
    | some old => if Overwrites old run then some (s.setRun b run) else none
  | sigterm worker, s => some { s with sigterm := Function.update s.sigterm worker true }
  | raise t e reached, s =>
    if mayRaise s t e then
      some { s with raising := Function.update s.raising t (some (e, reached)) }
    else none
  | elapse d, s => some { s with now := s.now + d }
  | beat t b, s =>
    if s.loops.any fun x => x.1 = t && x.2 = b then
      some { s with beatKey := Function.update s.beatKey b true }
    else none
  | expireBeat b, s => some { s with beatKey := Function.update s.beatKey b false }
  | expireCancel b, s => some { s with cancelKey := Function.update s.cancelKey b false }
  | endJob b, s =>
    if s.job b = some .waiting then
      some { s with job := Function.update s.job b (some .finished) }
    else none
  | removeJob b, s =>
    if s.job b = some .finished then some { s with job := Function.update s.job b none } else none

/-- An entry is delivered if it is new or has been idle for long enough. -/
def Entry.deliverable (now : ℕ) (e : Entry) : Bool :=
  !e.acked && e.deliveredAt.all fun d => ORPHAN_IDLE_MS ≤ now - d

def Cluster.claim (s : Cluster) (t worker entry b : ℕ) : Option Cluster :=
  if s.entries.any fun e => e.id = entry && e.bot = b && e.deliverable s.now then
    some { s with
      entries := s.entries.map fun e =>
        if e.id = entry then { e with deliveredAt := some s.now } else e
      claims := ⟨t, worker, entry, b⟩ :: s.claims }
  else none

def Cluster.startPod (s : Cluster) (t b : ℕ) : Option Cluster :=
  if s.job b = some .waiting then
    some { s with
      job := Function.update s.job b (some (.running t))
      pods := (t, b) :: s.pods }
  else none

def Cluster.kill (t : ℕ) (s : Cluster) : Cluster :=
  { s with
    claims := s.claims.filter fun c => c.thread ≠ t
    loops := drop t s.loops
    inside := drop t s.inside
    attends := drop t s.attends
    pods := drop t s.pods
    job := fun b => if s.job b = some (.running t) then some .finished else s.job b }

end Fakery.Worker
