import Fakery.Bots.Database

/-! The service operations, written as the statements they issue, and the machine that
interleaves any number of them. A statement that needs a lock held by another transaction
waits; a transaction can be cut off between any two statements and is then rolled back. -/
namespace Fakery.Bots
open Fakery.Concurrent Fakery.Core Fakery.Storage

abbrev Txn := Task Stmt Answer TwinError

def issue (i : Stmt) : Prog Stmt Answer (Answer i) := Prog.ask i

def perform (i : Stmt) : Txn (Answer i) := Task.perform i

def notFound (b : ℕ) : TwinError := makeError "not-found" s!"bot {b} does not exist"

/-- The session flushes what it has pending before it runs the SELECT. -/
def getForUpdate (b : ℕ) : Txn (Option BotRun) := do
  perform (.flush b)
  perform (.selectForUpdate b)

def storeEach (payload : Payload) (now : ℕ) : List WebhookSubscription → Txn Unit
  | [] => pure ()
  | w :: ws => do
    let previous ← perform (.lastDelivery w.id payload.botId)
    let id ← perform .uuid4
    perform (.addDelivery
      { id := id, subscriptionId := w.id, eventId := payload.eventId
        sequence := (previous.map WebhookDelivery.sequence).getD 0 + 1
        url := w.url, payload := payload, nextTryAt := now, createdAt := now })
    storeEach payload now ws

def storeInSession (payload : Payload) : Txn Unit := do
  let subscriptions ← perform .lockSubscriptions
  let now ← perform .utcnow
  storeEach payload now subscriptions

def statusChanged (b : ℕ) (status : BotStatus) : Txn Unit := do
  let eventId ← perform .uuid4
  storeInSession (.statusChanged b status eventId)

def get (b : ℕ) : Txn BotRun := do
  match ← perform (.get b) with
  | some run => pure run
  | none => throw (notFound b)

/-- What `advance` does to the attributes of the run. -/
def BotRun.advanced (target : BotStatus) (now : ℕ) (run : BotRun) : BotRun :=
  { run with
    status := target
    joinedAt := if target = .joined && run.joinedAt.isNone then some now else run.joinedAt
    leftAt := if target.terminal then some now else run.leftAt
    stopReason := if target = .failed && run.stopReason.isNone then some "failure"
      else run.stopReason }

def advance (b : ℕ) (target : BotStatus) : Txn BotRun := do
  match ← getForUpdate b with
  | none => throw (notFound b)
  | some run =>
    if run.status.terminal then
      if run.status = target then pure run
      else throw (makeError "conflict" s!"terminal bot {b} cannot transition")
    else
      match requireTransition run.status target with
      | .error e => throw e
      | .ok _ => do
        let now ← perform .utcnow
        perform (.assign b (BotRun.advanced target now))
        perform (.flush b)
        statusChanged b target
        pure (run.advanced target now)

def cancel (b : ℕ) : Txn BotRun := do
  let run ← get b
  if run.status.terminal then pure run
  else do
    perform (.assign b fun run =>
      { run with errorCode := some "cancelled", stopReason := some "cancelled" })
    advance b .failed

def createOrGet (meetingUrl meetingKey : String) (displayName idempotencyKey : Option String) :
    Txn (BotRun × Bool) := do
  let existing ← (if idempotencyKey.any (· ≠ "") then
      perform (.getByIdempotency (idempotencyKey.getD ""))
    else pure none : Txn (Option BotRun))
  match existing with
  | some run =>
    if run.meetingKey = meetingKey then pure (run, false)
    else throw (makeError "conflict" "Idempotency-Key was already used for another meeting")
  | none =>
    match ← perform (.findActiveMeeting meetingKey) with
    | some _ => throw (makeError "conflict" "an active bot already exists for this meeting")
    | none => do
      let id ← perform .uuid4
      let createdAt ← perform .utcnow
      let updatedAt ← perform .utcnow
      let run : BotRun :=
        { id := id, meetingUrl := meetingUrl, meetingKey := meetingKey
          idempotencyKey := idempotencyKey, displayName := displayName, status := .queued
          createdAt := createdAt, updatedAt := updatedAt }
      if ← perform (.insertRun run) then do
        statusChanged id .queued
        pure (run, true)
      else throw (makeError "conflict" "an active bot already exists for this meeting")

def ingestSegment (b : ℕ) (segment : Segment) : Txn TranscriptSegment := do
  match ← perform (.findSegment b segment) with
  | some found => pure found
  | none => do
    let id ← perform .uuid4
    let createdAt ← perform .utcnow
    let stored : TranscriptSegment :=
      { id := id, botRunId := b, speaker := segment.speaker, text := segment.text
        startMs := segment.startMs, endMs := segment.endMs, createdAt := createdAt }
    perform (.insertSegment stored)
    let eventId ← perform .uuid4
    storeInSession (.transcriptSegment stored eventId)
    pure stored

def storeNotes (b : ℕ) (notes : MeetingNotes) : Txn MeetingNote := do
  let createdAt ← perform .utcnow
  let note : MeetingNote := { notes with botRunId := b, createdAt := createdAt }
  if ← perform (.insertNote note) then do
    let eventId ← perform .uuid4
    storeInSession (.notesCompleted b eventId)
    pure note
  else throw (makeError "internal" "duplicate key value violates unique constraint")

/-- What `store_recording` does to the attributes of the run. -/
def BotRun.recorded (artifact : RecordingArtifact) (run : BotRun) : BotRun :=
  { run with
    recordingUri := artifact.uri
    recordingSha256 := some artifact.sha256
    recordingBytes := some artifact.size
    recordingStatus := artifact.status
    recordingPartial := artifact.partialRecording
    recordingExpiresAt := some artifact.expiresAt
    checkpointManifestUri := artifact.checkpointManifestUri }

def storeRecording (b : ℕ) (artifact : RecordingArtifact) : Txn BotRun := do
  let run ← get b
  perform (.assign b (BotRun.recorded artifact))
  perform (.flush b)
  pure (run.recorded artifact)

/-- What `set_checkpoint_manifest` does to the attributes of the run. -/
def BotRun.checkpointed (manifestUri : Uri) (run : BotRun) : BotRun :=
  { run with checkpointManifestUri := some manifestUri, finalizationStatus := "checkpointed" }

def setCheckpointManifest (b : ℕ) (manifestUri : Uri) : Txn Unit := do
  let _ ← get b
  perform (.assign b (BotRun.checkpointed manifestUri))
  perform (.flush b)

inductive Artifact where
  | transcription | notes
deriving DecidableEq

def setArtifactStatus (b : ℕ) (artifact : Artifact) (status : String) (error : Option String) :
    Txn Unit := do
  let _ ← get b
  perform (.assign b fun run => match artifact with
    | .transcription => { run with transcriptionStatus := status, transcriptionError := error }
    | .notes => { run with notesStatus := status, notesError := error })
  perform (.flush b)

/-- The transaction of `_persist_recording`; an empty recording stores nothing. -/
def persistRecording (b : ℕ) (artifact : Option RecordingArtifact) : Txn Unit := do
  match artifact with
  | some artifact => do
    let _ ← storeRecording b artifact
    let _ ← advance b .processing
  | none => do
    let _ ← advance b .processing

/-- The arguments of `_complete`; `recording` holds checksum, size, expiry and stored URI of a
recording that is not empty. -/
structure Completion where
  recording : Option (String × ℕ × ℕ × Option Uri) := none
  cancelled : Bool
  checkpointUri : Option Uri := none
  checkpointFailed : Bool := false
  stopReason : Option String := none

def Completion.assign (c : Completion) (run : BotRun) : BotRun :=
  let run := match c.recording with
    | some (sha256, size, expiresAt, uri) =>
      { run with
        recordingSha256 := some sha256
        recordingBytes := some size
        recordingExpiresAt := some expiresAt
        recordingStatus := if c.checkpointFailed then "degraded"
          else if c.cancelled then "partial" else "ready"
        recordingPartial := c.cancelled || c.checkpointFailed
        recordingUri := if uri.isSome then uri else run.recordingUri }
    | none => if run.recordingStatus = "pending" then { run with recordingStatus := "no-audio" }
      else run
  let run := if c.checkpointUri.isSome then { run with checkpointManifestUri := c.checkpointUri }
    else run
  let run := { run with
    finalizationStatus := if c.checkpointFailed then "provider-failed" else "ready" }
  if c.cancelled then
    { run with errorCode := some "cancelled", stopReason := some (c.stopReason.getD "cancelled") }
  else run

/-- Set once both ends of the attendance are known. -/
def BotRun.withDuration (run : BotRun) : BotRun :=
  match run.joinedAt, run.leftAt with
  | some joined, some left => { run with recordingDurationMs := some ((left - joined) * 1000) }
  | _, _ => run

def complete (b : ℕ) (c : Completion) : Txn Unit := do
  let _ ← get b
  perform (.assign b c.assign)
  let _ ← advance b .completed
  perform (.assign b BotRun.withDuration)
  perform (.flush b)

def stopReasonOf (code : String) : String :=
  if code = "cancelled" then "cancelled" else if code = "shutdown" then "shutdown" else "failure"

def BotRun.recovered (run : BotRun) : BotRun := { run with finalizationStatus := "recovered" }

/-- The second transaction of `_recover_checkpoint`. -/
def storeRecovered (b : ℕ) (artifact : RecordingArtifact) : Txn Unit := do
  let _ ← storeRecording b artifact
  perform (.assign b BotRun.recovered)
  perform (.flush b)

def BotRun.failing (code : String) (run : BotRun) : BotRun :=
  { run with errorCode := some code, stopReason := some (stopReasonOf code) }

/-- The last transaction of `fail_run`. -/
def failRun (b : ℕ) (code : String) : Txn Unit := do
  let run ← get b
  if run.status.terminal then pure ()
  else do
    perform (.assign b (BotRun.failing code))
    let _ ← advance b .failed

def isOrphan (status : BotStatus) (updatedAt : ℕ) (heartbeat : Bool) (now staleAfter : ℕ) : Bool :=
  if status ∉ liveStatuses || heartbeat then false else now - updatedAt > staleAfter

def BotRun.orphaned (run : BotRun) : BotRun :=
  { run with errorCode := some "orphaned", stopReason := some "failure" }

def sweepEach (moment staleAfter : ℕ) : List BotRun → Txn ℕ
  | [] => pure 0
  | run :: runs => do
    if ← perform (.heartbeat run.id) then sweepEach moment staleAfter runs
    else if isOrphan run.status run.updatedAt false moment staleAfter then do
      perform (.assign run.id BotRun.orphaned)
      let _ ← advance run.id .failed
      let reaped ← sweepEach moment staleAfter runs
      pure (reaped + 1)
    else sweepEach moment staleAfter runs

def sweepOrphans (staleAfter : ℕ) : Txn ℕ := do
  let moment ← perform .utcnow
  let runs ← perform (.selectStale (moment - staleAfter))
  sweepEach moment staleAfter runs

/-- Leaving the scope commits, and an error that leaves it rolls back. -/
def sessionScope {α : Type} (body : Txn α) : Prog Stmt Answer (Except TwinError α) := do
  match ← body.run with
  | .ok a => do
    issue .commit
    pure (.ok a)
  | .error e => do
    issue .rollback
    pure (.error e)

/-- `attend` up to and including the call of `CloakBrowser.open`: nothing after it opens a
browser, and the transactions that follow are operations of their own here. -/
def attend (b : ℕ) : Prog Stmt Answer Unit := do
  match ← sessionScope (advance b .joining) with
  | .ok _ => issue (.openBrowser b)
  | .error _ => pure ()

inductive Op where
  | create (meetingUrl meetingKey : String) (displayName idempotencyKey : Option String)
  | cancel (b : ℕ)
  | advance (b : ℕ) (target : BotStatus)
  | ingestSegment (b : ℕ) (segment : Segment)
  | storeNotes (b : ℕ) (notes : MeetingNotes)
  | setCheckpointManifest (b : ℕ) (manifestUri : Uri)
  | setArtifactStatus (b : ℕ) (artifact : Artifact) (status : String) (error : Option String)
  | persistRecording (b : ℕ) (artifact : Option RecordingArtifact)
  | complete (b : ℕ) (completion : Completion)
  | storeRecovered (b : ℕ) (artifact : RecordingArtifact)
  | failRun (b : ℕ) (code : String)
  | sweepOrphans (staleAfter : ℕ)
  | attend (b : ℕ)

def transaction {α : Type} (body : Txn α) : Prog Stmt Answer Unit := do
  let _ ← sessionScope body

def Op.prog : Op → Prog Stmt Answer Unit
  | create meetingUrl meetingKey displayName idempotencyKey =>
    transaction (createOrGet meetingUrl meetingKey displayName idempotencyKey)
  | cancel b => transaction (Bots.cancel b)
  | advance b target => transaction (Bots.advance b target)
  | ingestSegment b segment => transaction (Bots.ingestSegment b segment)
  | storeNotes b notes => transaction (Bots.storeNotes b notes)
  | setCheckpointManifest b uri => transaction (Bots.setCheckpointManifest b uri)
  | setArtifactStatus b artifact status error =>
    transaction (Bots.setArtifactStatus b artifact status error)
  | persistRecording b artifact => transaction (Bots.persistRecording b artifact)
  | complete b completion => transaction (Bots.complete b completion)
  | storeRecovered b artifact => transaction (Bots.storeRecovered b artifact)
  | failRun b code => transaction (Bots.failRun b code)
  | sweepOrphans staleAfter => transaction (Bots.sweepOrphans staleAfter)
  | attend b => Bots.attend b

inductive World where
  | subscribe (w : WebhookSubscription)
  | unsubscribe (id : ℕ)
  | beat (b : ℕ)
  | beatLost (b : ℕ)
deriving DecidableEq

/-- A subscription row cannot be deleted while a transaction holds it. -/
def World.step : World → Db → Option Db
  | subscribe w, s =>
    if w.id ∈ s.subscriptions.map WebhookSubscription.id then none
    else some { s with subscriptions := s.subscriptions ++ [w] }
  | unsubscribe id, s =>
    if s.subscriptionLock id = none then
      some { s with subscriptions := s.subscriptions.filter fun w => w.id ≠ id }
    else none
  | beat b, s => some { s with heartbeat := Function.update s.heartbeat b true }
  | beatLost b, s => some { s with heartbeat := Function.update s.heartbeat b false }

def service : Machine Stmt Answer Op Db ℕ World where
  prog := Op.prog
  begin t _ s := some (s.setSession t {})
  exec := exec
  kill t s := s.rollback t
  env := World.step

def calls (t n : ℕ) : List (Event Op ℕ World) := List.replicate n (.step t 0)

/-- The first `n` statements of a transaction with nothing in between. -/
def whole (t : ℕ) (k : Op) (n : ℕ) : List (Event Op ℕ World) := .start t k :: calls t n

end Fakery.Bots
