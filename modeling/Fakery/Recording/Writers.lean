import Fakery.Bots.Atomic
import Fakery.Concurrent.RelyGuarantee
import Fakery.Storage.Checkpoints

/-! The operations that store the recording of one bot and the machine that interleaves them. A
call of the object store and a transaction are one step each. -/
namespace Fakery.Recording
open Fakery.Bots Fakery.Concurrent Fakery.Core Fakery.Storage

/-- What the operations share: the bot, the object store and the settings. -/
structure Context where
  bot : ℕ
  bucket : String
  sha256 : Bytes → String
  hasBlob : Bool := true
  retentionDays : ℕ

inductive Tx where
  | persistRecording (artifact : Option RecordingArtifact)
  | storeRecovered (artifact : RecordingArtifact)
  | finalize (uri : Uri) (sha256 : String) (size retentionDays : ℕ)
  | setCheckpointManifest (uri : Uri)
  | failRun (code : String)
  | sweepOrphans (staleAfter : ℕ)

def Tx.apply (heartbeat : Bool) (now : ℕ) (run : BotRun) : Tx → Except TwinError BotRun
  | persistRecording artifact => run.persisted artifact now
  | storeRecovered artifact => .ok (run.recorded artifact).recovered
  | finalize uri sha256 size retentionDays => .ok (run.finalized uri sha256 size retentionDays now)
  | setCheckpointManifest uri => .ok (run.checkpointed uri)
  | failRun code => run.failRun code now
  | sweepOrphans staleAfter => run.swept heartbeat staleAfter now

inductive Call where
  | utcnow
  | put (key : Key) (object : Object)
  | get (key : Key)
  | readRun
  | transaction (tx : Tx)

abbrev Answer : Call → Type
  | .utcnow => ℕ
  | .put _ _ => Except Unit Uri
  | .get _ => Except Unit Object
  | .readRun => BotRun
  | .transaction _ => Except TwinError Unit

abbrev Prg := Prog Call Answer

def ask (i : Call) : Prg (Answer i) := Prog.ask i

def blob : BlobStore Prg where
  put key object := ExceptT.mk (ask (.put key object))
  get key := ExceptT.mk (ask (.get key))

section operations

variable (C : Context)

/-- The upload of `_persist_recording`: the URI, and whether the recording is degraded. -/
def upload (recording : Bytes) (checkpointFailed : Bool) : Prg (Option Uri × Bool) :=
  if recording = [] then pure (none, checkpointFailed)
  else if C.hasBlob then do
    match ← (blob.put (.recording C.bot) (.bytes recording)).run with
    | .ok uri => pure (some uri, checkpointFailed)
    | .error _ => pure (none, true)
  else pure (none, true)

def persistRecording (recording : Bytes) (checkpointUri : Option Uri)
    (checkpointFailed cancelled : Bool) : Prg (Except TwinError Unit) := do
  let (uri, checkpointFailed) ← upload C recording checkpointFailed
  if recording = [] then ask (.transaction (.persistRecording none))
  else do
    let now ← ask .utcnow
    ask (.transaction (.persistRecording (some
      { uri := uri
        sha256 := C.sha256 recording
        size := recording.length
        status := if checkpointFailed then "degraded" else if cancelled then "partial" else "ready"
        partialRecording := cancelled || checkpointFailed
        expiresAt := now + C.retentionDays * 86400
        checkpointManifestUri := checkpointUri })))

/-- What a manifest restores, stored as the recording. Nothing is stored when there is nothing to
restore, and an error ends the attempt. -/
def restoreRecording (manifestUri : Uri) : Prg (Option (Uri × Bytes × String)) := do
  match ← (restorePrefix blob C.sha256 manifestUri).run with
  | .error _ => pure none
  | .ok (recording, _, checksum) =>
    if recording = [] then pure none
    else do
      match ← (blob.put (.recording C.bot) (.bytes recording)).run with
      | .error _ => pure none
      | .ok uri => pure (some (uri, recording, checksum))

def recoverCheckpoint : Prg (Except TwinError Unit) := do
  if C.hasBlob then do
    let run ← ask .readRun
    match run.checkpointManifestUri with
    | none => pure (.ok ())
    | some manifestUri =>
      if run.status ∉ [.joined, .recording, .processing] then pure (.ok ())
      else do
        match ← restoreRecording C manifestUri with
        | none => pure (.ok ())
        | some (uri, recording, checksum) => do
          let now ← ask .utcnow
          ask (.transaction (.storeRecovered
            { uri := some uri
              sha256 := checksum
              size := recording.length
              status := "partial"
              partialRecording := true
              expiresAt := now + C.retentionDays * 86400
              checkpointManifestUri := some manifestUri }))
  else pure (.ok ())

def failRun (code : String) : Prg (Except TwinError Unit) := do
  match ← recoverCheckpoint C with
  | .error e => pure (.error e)
  | .ok _ => ask (.transaction (.failRun code))

/-- The part of `recover_once` that deals with this bot. -/
def recoverOnce : Prg (Except TwinError Unit) := do
  let run ← ask .readRun
  match run.checkpointManifestUri with
  | none => pure (.ok ())
  | some manifestUri =>
    if run.status ≠ .failed ∨ run.recordingUri.isSome then pure (.ok ())
    else do
      match ← restoreRecording C manifestUri with
      | none => pure (.ok ())
      | some (uri, recording, checksum) =>
        ask (.transaction (.finalize uri checksum recording.length C.retentionDays))

/-- The checkpoints of one recorder, one after another. -/
def checkpoints (w : CheckpointWriter) : List Bytes → Prg Unit
  | [] => pure ()
  | data :: rest => do
    let (appended, w) ← w.append blob C.sha256 data
    match appended with
    | .ok (some manifestUri) => do
      let _ ← ask (.transaction (.setCheckpointManifest manifestUri))
      checkpoints w rest
    | _ => checkpoints w rest

end operations

inductive Op where
  | persistRecording (recording : Bytes) (checkpointUri : Option Uri)
      (checkpointFailed cancelled : Bool)
  | failRun (code : String)
  | recoverOnce
  | checkpoints (blocks : List Bytes)
  | sweepOrphans (staleAfter : ℕ)

def Op.prog (C : Context) : Op → Prg Unit
  | persistRecording recording checkpointUri checkpointFailed cancelled => do
    let _ ← Recording.persistRecording C recording checkpointUri checkpointFailed cancelled
  | failRun code => do let _ ← Recording.failRun C code
  | recoverOnce => do let _ ← Recording.recoverOnce C
  | checkpoints blocks => Recording.checkpoints C { botId := C.bot } blocks
  | sweepOrphans staleAfter => do let _ ← ask (.transaction (.sweepOrphans staleAfter))

/-- `lastPut` is the operation that was the last to store the recording and what it stored, and
`unsettled` are the operations between such a put and the transaction that follows. A transaction
aborts while the database is `down`. -/
structure Store where
  objects : Objects
  run : BotRun
  down : Bool := false
  lastPut : Option (ℕ × Bytes) := none
  unsettled : ℕ → Bool := fun _ => false

namespace Store

variable (s : Store)

def setRun (run : BotRun) : Store := { s with run := run }

def settle (t : ℕ) : Store := { s with unsettled := Function.update s.unsettled t false }

def store (t : ℕ) (key : Key) (object : Object) : Store :=
  match key, object with
  | .recording _, .bytes data =>
    { s with
      objects := Function.update s.objects key (some object)
      lastPut := some (t, data)
      unsettled := Function.update s.unsettled t true }
  | _, _ => { s with objects := Function.update s.objects key (some object) }

end Store

/-- The outcome of a call: whether a call of the object store raises, the clock, and whether there
is a heartbeat. -/
structure Outcome where
  raises : Bool := false
  now : ℕ := 0
  heartbeat : Bool := false

def exec (C : Context) (t : ℕ) : (i : Call) → Outcome → Store → Option (Store × Answer i)
  | .utcnow, c, s => some (s, c.now)
  | .put key object, c, s =>
    if c.raises then some (s, .error ()) else some (s.store t key object, .ok ⟨C.bucket, key⟩)
  | .get key, c, s =>
    match s.objects key with
    | some object => some (s, if c.raises then .error () else .ok object)
    | none => some (s, .error ())
  | .readRun, _, s => some (s, s.run)
  | .transaction tx, c, s =>
    if s.down then some (s.settle t, .error (makeError "internal" "connection lost"))
    else match tx.apply c.heartbeat c.now s.run with
      | .ok run => some ((s.setRun (BotRun.flushed s.run c.now run)).settle t, .ok ())
      | .error e => some (s.settle t, .error e)

/-- The database goes down or comes back. -/
structure World where
  down : Bool

def writers (C : Context) : Machine Call Answer Op Store Outcome World where
  prog := Op.prog C
  begin _ _ s := some s
  exec := exec C
  kill t s := s.settle t
  env e s := some { s with down := e.down }

section api

variable {m : Type → Type} [Monad m]

/-- `GET /v1/bots/{id}/recording`. -/
def getBotRecording (blob : BlobStore m) (sha256 : Bytes → String) (run : BotRun) (now : ℕ) :
    ExceptT TwinError m Bytes := do
  match run.recordingUri with
  | none => throw (makeError "not-found" s!"recording for {run.id} does not exist")
  | some uri =>
    if run.recordingExpiresAt.any (· ≤ now) then
      throw (makeError "not-found" s!"recording for {run.id} has expired")
    else do
      match ← ExceptT.lift (blob.get uri.key).run with
      | .error _ => throw (makeError "upstream-unavailable" "recording storage is unavailable")
      | .ok (.json _) =>
        throw (makeError "upstream-unavailable" "recording checksum verification failed")
      | .ok (.bytes data) =>
        if run.recordingSha256.any fun sha => sha ≠ "" && sha256 data ≠ sha then
          throw (makeError "upstream-unavailable" "recording checksum verification failed")
        else pure data

end api

end Fakery.Recording
