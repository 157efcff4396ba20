import Fakery.Jobs.Names
import Fakery.Worker.Programs

/-! Spawns of bots as jobs, against the jobs of a cluster that are told apart by their names. Other
tools may apply jobs of their own, and any job may be removed. -/
namespace Fakery.Jobs
open Fakery.Bots Fakery.Concurrent Fakery.Meetings Fakery.Runtime

def JOB_TTL_S : ℕ := 300

def JOB_BACKOFF_LIMIT : ℕ := 0

def JOB_STARTUP_GRACE_S : ℕ := 600

def JOB_GRACE_PERIOD_S : ℕ := 120

def JOB_XVFB_COMMAND : List String :=
  ["dumb-init", "--", "xvfb-run", "-a", "python", "-m", "twin.bot_run"]

def SECONDS_PER_MINUTE : ℕ := 60

structure Settings where
  podNamespace : String := "fakery"
  botImage : String := "fakery:dev"
  meetingMaxMinutes : ℕ := 45
  hasBlob : Bool := true
deriving DecidableEq

section manifests

structure Container where
  name : String
  image : String
  imagePullPolicy : String
  command : List Text
  envFrom : List String
  requests : List (String × String)
  limits : List (String × String)
deriving DecidableEq

/-- `metadata` and then `spec`, the labels and the containers of its pod last. -/
structure Manifest where
  apiVersion : String
  kind : String
  name : Text
  inNamespace : String
  labels : List (String × Text)
  backoffLimit : ℕ
  ttlSecondsAfterFinished : ℕ
  activeDeadlineSeconds : ℕ
  podLabels : List (String × Text)
  restartPolicy : String
  terminationGracePeriodSeconds : ℕ
  containers : List Container
deriving DecidableEq

/-- The bot that a job is labelled with. -/
def Manifest.bot (m : Manifest) : Option Text := m.labels.lookup "twin.bot/id"

def buildBotJob (botId : Text) (image inNamespace : String) (meetingMaxMinutes : ℕ) : Manifest :=
  let labels := [("app.kubernetes.io/name", "botrun".toList),
    ("app.kubernetes.io/component", "bot".toList), ("twin.bot/id", botId)]
  { apiVersion := "batch/v1"
    kind := "Job"
    name := botJobName botId
    inNamespace := inNamespace
    labels := labels
    backoffLimit := JOB_BACKOFF_LIMIT
    ttlSecondsAfterFinished := JOB_TTL_S
    activeDeadlineSeconds := meetingMaxMinutes * SECONDS_PER_MINUTE + JOB_STARTUP_GRACE_S
    podLabels := labels
    restartPolicy := "Never"
    terminationGracePeriodSeconds := JOB_GRACE_PERIOD_S
    containers := [{
      name := "bot"
      image := image
      imagePullPolicy := "IfNotPresent"
      command := JOB_XVFB_COMMAND.map String.toList ++ [botId]
      envFrom := ["twin-secrets"]
      requests := [("memory", "2Gi"), ("cpu", "500m")]
      limits := [("memory", "3Gi"), ("cpu", "2")] }] }

end manifests

/-- What the server reports of the pods of a job. -/
structure JobStatus where
  succeeded : ℕ := 0
  failed : ℕ := 0
deriving DecidableEq

structure Job where
  manifest : Manifest
  status : JobStatus := {}
deriving DecidableEq

/-- `adopted` is the log entry of a job that was found. `attend` stands for the calls of
`fail_run`. -/
inductive Call where
  | getJob (inNamespace : String) (name : Text)
  | createJob (inNamespace : String) (manifest : Manifest)
  | adopted (botId : BotId) (existing : Manifest)
  | readJobStatus (inNamespace : String) (name : Text)
  | deleteJob (inNamespace : String) (name : Text)
  | closeJobs
  | sleep
  | attend (i : Runtime.Call)

abbrev Reply : Call → Type
  | .getJob _ _ => Option Manifest
  | .readJobStatus _ _ => Option JobStatus
  | .attend i => Runtime.Reply i
  | _ => Unit

abbrev Answer (i : Call) : Type := Except Raised (Reply i)

abbrev Act := Task Call Answer Raised

def perform (i : Call) : Act (Reply i) := ExceptT.mk (Prog.ask i)

def call (i : Runtime.Call) : Act (Runtime.Reply i) := perform (.attend i)

def Call.raises : Call → Bool
  | adopted _ _ => false
  | _ => true

/-- How often the waits for the job and for the row go round. -/
structure Plan where
  jobPolls : ℕ := 0
  rowPolls : ℕ := 0

section spawn

/-- A job that the server does not know is missing. -/
def waitTerminal (inNamespace : String) (name : Text) : ℕ → Act Worker.JobResult
  | 0 => pure .timeout
  | n + 1 => do
    match ← perform (.readJobStatus inNamespace name) with
    | none => pure .missing
    | some status =>
      if status.succeeded ≠ 0 then pure .completed
      else if status.failed ≠ 0 then pure .failed
      else do
        perform .sleep
        waitTerminal inNamespace name n

variable (S : Settings) (botId : BotId) (p : Plan)

def createOrAdopt : Act Unit := do
  match ← perform (.getJob S.podNamespace (botJobName botId.text)) with
  | none =>
    perform (.createJob S.podNamespace
      (buildBotJob botId.text S.botImage S.podNamespace S.meetingMaxMinutes))
  | some existing => perform (.adopted botId existing)

def supervise : Act Worker.JobResult := do
  createOrAdopt S botId
  waitTerminal S.podNamespace (botJobName botId.text) p.jobPolls

def spawn : Act Unit := do
  let result ← (supervise S botId p).ensuring ((perform .closeJobs).rescue fun _ => pure ())
  Worker.settleJob call (perform .sleep)
    (perform (.deleteJob S.podNamespace (botJobName botId.text))) S.hasBlob p.rowPolls result

end spawn

section server

/-- The ids in the table of bots, the jobs by namespace and name, and the jobs that spawns have
adopted. -/
structure Scene where
  bots : List BotId := []
  jobs : String × Text → Option Job := fun _ => none
  adopted : List (BotId × Manifest) := []

/-- What the call raises and whether it has its effect before, and the answer of a call of
`fail_run`. -/
structure Outcome where
  raised : Option (Raised × Bool) := none
  answer : (i : Runtime.Call) → Except Raised (Runtime.Reply i) := fun _ => .error (.exception none)

def Scene.put (s : Scene) (key : String × Text) (job : Option Job) : Scene :=
  { s with jobs := Function.update s.jobs key job }

@[simp] theorem Scene.put_self (s : Scene) (key : String × Text) (job : Option Job) :
    (s.put key job).jobs key = job := by
  simp only [Scene.put, Function.update_self]

theorem Scene.put_of_ne (s : Scene) {key key' : String × Text} (job : Option Job)
    (h : key' ≠ key) : (s.put key job).jobs key' = s.jobs key' := by
  simp only [Scene.put, Function.update_of_ne h]

/-- A name that is taken is a conflict, and a job that is gone is not deleted again. -/
def effect : (i : Call) → Outcome → Scene → Scene × Answer i
  | .getJob inNamespace name, _, s => (s, .ok ((s.jobs (inNamespace, name)).map Job.manifest))
  | .createJob inNamespace manifest, _, s =>
    match s.jobs (inNamespace, manifest.name) with
    | some _ => (s, .error (.exception none))
    | none => (s.put (inNamespace, manifest.name) (some { manifest := manifest }), .ok ())
  | .adopted botId existing, _, s => ({ s with adopted := (botId, existing) :: s.adopted }, .ok ())
  | .readJobStatus inNamespace name, _, s => (s, .ok ((s.jobs (inNamespace, name)).map Job.status))
  | .deleteJob inNamespace name, _, s =>
    match s.jobs (inNamespace, name) with
    | none => (s, .error (.exception none))
    | some _ => (s.put (inNamespace, name) none, .ok ())
  | .closeJobs, _, s => (s, .ok ())
  | .sleep, _, s => (s, .ok ())
  | .attend i, c, s => (s, c.answer i)

def exec (i : Call) (c : Outcome) (s : Scene) : Option (Scene × Answer i) :=
  match c.raised.filter fun _ => i.raises with
  | none => some (effect i c s)
  | some (e, reached) => some (if reached then (effect i c s).1 else s, .error e)

/-- A job of another tool, whatever its name, is not labelled with a bot. -/
inductive World where
  | createOrGet (uuid4 : BitVec 128)
  | apply (inNamespace : String) (manifest : Manifest)
  | report (key : String × Text) (status : JobStatus)
  | remove (key : String × Text)

def World.step : World → Scene → Option Scene
  | createOrGet uuid4, s =>
    if mint uuid4 ∈ s.bots then none else some { s with bots := mint uuid4 :: s.bots }
  | apply inNamespace manifest, s =>
    if manifest.bot = none ∧ s.jobs (inNamespace, manifest.name) = none then
      some (s.put (inNamespace, manifest.name) (some { manifest := manifest }))
    else none
  | report key status, s =>
    (s.jobs key).map fun job => s.put key (some { job with status := status })
  | remove key, s => some (s.put key none)

/-- A worker spawns the runs that it finds in the table. -/
structure Spawn where
  settings : Settings
  botId : BotId
  plan : Plan

def jobRuntime : Machine Call Answer Spawn Scene Outcome World where
  prog k := (spawn k.settings k.botId k.plan).run >>= fun _ => .done ()
  begin _ k s := if k.botId ∈ s.bots then some s else none
  exec _ := exec
  kill _ := id
  env := World.step

end server

end Fakery.Jobs
