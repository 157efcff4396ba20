import Fakery.Bots.Atomic
import Fakery.Notes.Summarizer
import Fakery.Sequential.Fallible
import Fakery.Transcription.Coverage
import Fakery.Transcription.Speakers

/-! `attend` from the end of the meeting on: the transcript of the batch is merged into the live one,
the recording is stored, notes are made, and the run is completed. -/
namespace Fakery.Attend
open Fakery.Bots Fakery.Core Fakery.Notes Fakery.Sequential Fakery.Storage Fakery.Transcription

inductive Raised where
  | twin (e : TwinError)
  | named (name : String)

/-- The stream of the transcriber ends with a count, with an exception, or not before the drain
timeout. -/
inductive LiveEnd where
  | returned (finals : ℕ)
  | raised
  | drainTimeout

/-- `segments` are the final segments that the live stream hands over, and `closeRaises` says
whether `audio.aclose()` raises after it. `batch` is `none` for an exception or a timeout. -/
structure Transcriber where
  segments : List Segment
  liveEnd : LiveEnd
  closeRaises : Bool := false
  batch : Option (List Segment)

/-- `recorder` holds the bytes that `recorder.stop()` returns, and is `none` where no audio is
recorded. `summarizer n` is the outcome of its `n`-th call, and `draw n` the `n`-th reading of the
clock or fresh identifier. `cancelKey` is `none` without Redis, and `some none` for a read that
raises. `restored` is what a checkpoint gives. -/
structure Environment where
  bot : ℕ
  bucket : String
  sha256 : Bytes → String
  hasBlob : Bool := true
  uploadRaises : Bool := false
  retentionDays : ℕ
  sttDiarize : Bool := true
  recorder : Option Bytes
  transcriber : Option Transcriber
  summarizer : Option (ℕ → Option MeetingNotes)
  cancelled : Bool := false
  checkpointUri : Option Uri := none
  checkpointFailed : Bool := false
  restored : Option RecordingArtifact := none
  leaveRaises : Bool := false
  shutdown : Bool := false
  cancelKey : Option (Option Bool) := some (some false)
  draw : ℕ → ℕ

/-- The row of the run, its transcript rows and its notes, and the objects in the store. -/
structure Meeting where
  run : BotRun
  segments : List TranscriptSegment := []
  notes : Option MeetingNote := none
  objects : Objects := fun _ => none
  drawn : ℕ := 0
  summarized : ℕ := 0

namespace Meeting

variable (s : Meeting)

def setRun (run : BotRun) : Meeting := { s with run := run }

def setSegments (segments : List TranscriptSegment) : Meeting := { s with segments := segments }

def store (key : Key) (object : Object) : Meeting :=
  { s with objects := Function.update s.objects key (some object) }

end Meeting

abbrev Act := Fallible Meeting Raised

structure LiveTranscriptionResult where
  finals : ℕ := 0
  error : Option String := none

variable (C : Environment)

namespace Environment

def recording : Bytes := C.recorder.getD []

/-- Only a recorder hands chunks to the transcriber. -/
def activeTranscriber : Option Transcriber := if C.recorder.isSome then C.transcriber else none

end Environment

def draw : Act ℕ := do
  let n ← Fallible.read Meeting.drawn
  Fallible.update fun s => { s with drawn := s.drawn + 1 }
  pure (C.draw n)

/-- The end of a transaction on the row of the run. -/
def leaveScope (moment : ℕ) (run : BotRun) : Except TwinError BotRun → Act Unit
  | .ok run' => Fallible.update fun s => s.setRun (BotRun.flushed run moment run')
  | .error e => Fallible.raise (.twin e)

def transaction (f : ℕ → BotRun → Except TwinError BotRun) : Act Unit := do
  let now ← draw C
  let moment ← draw C
  let run ← Fallible.read Meeting.run
  leaveScope moment run (f now run)

def setArtifactStatus (artifact : Artifact) (status : String) (error : Option String) : Act Unit :=
  transaction C fun _ run => .ok (run.withArtifactStatus artifact status error)

section transcript

def scalarOneOrNone : List TranscriptSegment → Act (Option TranscriptSegment)
  | [] => pure none
  | [row] => pure (some row)
  | _ => Fallible.raise (.named "MultipleResultsFound")

def findSegment (segment : Segment) : Act (Option TranscriptSegment) := do
  let rows ← Fallible.read fun s => s.segments.filter (Db.sameSegment C.bot segment)
  scalarOneOrNone rows

def ingestSegment (segment : Segment) : Act Unit := do
  match ← findSegment C segment with
  | some _ => pure ()
  | none => do
    let id ← draw C
    let createdAt ← draw C
    Fallible.update fun s => s.setSegments (s.segments ++
      [{ id := id, botRunId := C.bot, speaker := segment.speaker, text := segment.text
         startMs := segment.startMs, endMs := segment.endMs, createdAt := createdAt }])

/-- The task that transcribes during the meeting, and what is awaited of it. -/
def transcribeLive (t : Transcriber) : Act LiveTranscriptionResult := do
  Fallible.forEach (ingestSegment C) t.segments
  let result ← (match t.liveEnd with
    | .returned finals => pure { finals := finals }
    | .raised => do
      setArtifactStatus C .transcription "provider-failed" (some "live-failed")
      pure { error := some "live-failed" }
    | .drainTimeout => pure { error := some "live-drain-timeout" } : Act LiveTranscriptionResult)
  if t.closeRaises then Fallible.raise (.named "aclose") else pure result

def awaitTranscript : Act LiveTranscriptionResult :=
  match C.activeTranscriber with
  | none => pure {}
  | some t => transcribeLive C t

def toSegment (row : TranscriptSegment) : Segment where
  text := row.text
  startMs := row.startMs
  endMs := row.endMs
  speaker := row.speaker

def transcript : Act (List TranscriptSegment) :=
  Fallible.read fun s => s.segments.insertionSort fun a b => a.startMs ≤ b.startMs

def annotateSegments (segments : List Segment) : Act Unit :=
  match confidentSplit segments with
  | none => Fallible.raise (.named "ZeroDivisionError")
  | some false => pure ()
  | some true =>
    Fallible.update fun s => s.setSegments (annotateSpeakers C.bot s.segments segments).1

/-- The segments of the batch that are ingested, and the list that is annotated. -/
def mergeBatch (live : LiveTranscriptionResult) (batch : List Segment) : Act Unit := do
  let uncovered ← (if live.finals ≠ 0 ∧ batch ≠ [] then do
      let current ← transcript
      pure (uncoveredBatchSegments (current.map toSegment) batch)
    else pure batch : Act (List Segment))
  Fallible.forEach (ingestSegment C) uncovered
  setArtifactStatus C .transcription "ready" live.error
  if live.finals ≠ 0 ∧ C.sttDiarize then annotateSegments C batch else pure ()

def finalizeTranscript (live : LiveTranscriptionResult) : Act Unit :=
  match C.activeTranscriber with
  | some t =>
    if C.recording = [] then pure ()
    else match t.batch with
      | none => setArtifactStatus C .transcription "provider-failed" (some "batch-failed")
      | some batch =>
        if live.finals = 0 ∧ batch = [] then
          setArtifactStatus C .transcription "silence" live.error
        else mergeBatch C live batch
  | none =>
    if C.recording ≠ [] ∧ C.transcriber.isNone then
      setArtifactStatus C .transcription "disabled" none
    else pure ()

/-- The end of `_attend_and_record`. -/
def finalizeMeeting : Act Unit := do
  let live ← awaitTranscript C
  finalizeTranscript C live

end transcript

section completion

/-- The upload: the URI, and whether the recording is degraded. -/
def upload : Act (Option Uri × Bool) :=
  if C.recording = [] then pure (none, C.checkpointFailed)
  else if C.hasBlob ∧ ¬C.uploadRaises then do
    Fallible.update fun s => s.store (.recording C.bot) (.bytes C.recording)
    pure (some ⟨C.bucket, .recording C.bot⟩, C.checkpointFailed)
  else pure (none, true)

def persistRecording : Act Unit := do
  let (uri, checkpointFailed) ← upload C
  let now ← draw C
  let artifact : RecordingArtifact :=
    { uri := uri
      sha256 := C.sha256 C.recording
      size := C.recording.length
      status := if checkpointFailed then "degraded" else if C.cancelled then "partial" else "ready"
      partialRecording := C.cancelled || checkpointFailed
      expiresAt := now + C.retentionDays * 86400
      checkpointManifestUri := C.checkpointUri }
  transaction C fun now run =>
    run.persisted (if C.recording = [] then none else some artifact) now

def leaveMeeting : Act Unit :=
  if C.leaveRaises then Fallible.raise (.named "leave_meeting") else pure ()

/-- What the summarizer answers; `none` is an exception or a timeout. -/
def answer : Option MeetingNotes → Act MeetingNotes
  | some notes => pure notes
  | none => Fallible.raise (.named "summarize")

def callSummarizer (summarizer : ℕ → Option MeetingNotes) (_batch : List Segment) :
    Act MeetingNotes := do
  let n ← Fallible.read Meeting.summarized
  Fallible.update fun s => { s with summarized := s.summarized + 1 }
  answer (summarizer n)

def SUMMARY_ATTEMPTS : ℕ := 3

def attemptSummary (summarizer : ℕ → Option MeetingNotes) (segments : List Segment) :
    ℕ → Act (Option MeetingNotes)
  | 0 => pure none
  | attempts + 1 =>
    Fallible.except (do
      let notes ← summarizeSegments (callSummarizer summarizer) segments
      pure (some notes))
    fun _ => attemptSummary summarizer segments attempts

def storeNotes (notes : MeetingNotes) : Act Unit := do
  let createdAt ← draw C
  Fallible.update fun s =>
    { s with notes := some { notes with botRunId := C.bot, createdAt := createdAt } }

def summarize : Act Unit :=
  match C.summarizer with
  | none => setArtifactStatus C .notes "disabled" none
  | some summarizer => do
    let rows ← transcript
    if rows = [] then setArtifactStatus C .notes "silence" none
    else do
      match ← attemptSummary summarizer (rows.map toSegment) SUMMARY_ATTEMPTS with
      | none => setArtifactStatus C .notes "provider-failed" (some "exhausted")
      | some notes => do
        storeNotes C notes
        setArtifactStatus C .notes "ready" none

def requestedStopReason : Act (Option String) :=
  if C.shutdown then pure (some "shutdown")
  else match C.cancelKey with
    | none => pure none
    | some none => Fallible.raise (.named "is_cancelled")
    | some (some isCancelled) => pure (if isCancelled then some "cancelled" else none)

def complete (stopReason : Option String) : Act Unit :=
  transaction C fun now run =>
    run.complete { cancelled := C.cancelled || stopReason.isSome, stopReason := stopReason } now

def recoverCheckpoint : Act Unit := do
  let run ← Fallible.read Meeting.run
  if C.hasBlob ∧ run.checkpointManifestUri.isSome ∧ run.status ∈ [.joined, .recording, .processing]
  then match C.restored with
    | none => pure ()
    | some artifact => transaction C fun _ run => .ok (run.recorded artifact).recovered
  else pure ()

def failRun (code : String) : Act Unit := do
  recoverCheckpoint C
  transaction C fun now run => run.failRun code now

/-- `attend` after `_attend_and_record` has returned. -/
def completeMeeting : Act Unit := do
  persistRecording C
  leaveMeeting C
  summarize C
  let stopReason ← requestedStopReason C
  complete C stopReason

/-- A run that was cancelled before it was admitted has nothing to store. -/
def attendFromEnd : Act Unit := do
  finalizeMeeting C
  let run ← Fallible.read Meeting.run
  if C.cancelled ∧ run.status ∉ [.joined, .recording] then do
    let stopReason ← requestedStopReason C
    failRun C (stopReason.getD "cancelled")
  else completeMeeting C

end completion

end Fakery.Attend
