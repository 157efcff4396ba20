import Fakery.Bots.State
import Fakery.Storage.Blob
import Mathlib.Data.Int.Notation

/-! The tables that service transactions read and write. Identifiers, times and event
identifiers are numbers; a column that may be NULL is an option. -/
namespace Fakery.Bots
open Fakery.Storage

structure BotRun where
  id : ℕ
  meetingUrl : String
  meetingKey : String
  idempotencyKey : Option String
  displayName : Option String
  status : BotStatus
  errorCode : Option String := none
  stopReason : Option String := none
  createdAt : ℕ
  updatedAt : ℕ
  joinedAt : Option ℕ := none
  leftAt : Option ℕ := none
  recordingUri : Option Uri := none
  recordingSha256 : Option String := none
  recordingStatus : String := "pending"
  recordingBytes : Option ℕ := none
  recordingDurationMs : Option ℕ := none
  recordingExpiresAt : Option ℕ := none
  recordingPartial : Bool := false
  checkpointManifestUri : Option Uri := none
  finalizationStatus : String := "pending"
  transcriptionStatus : String := "pending"
  transcriptionError : Option String := none
  notesStatus : String := "pending"
  notesError : Option String := none
  dispatchStatus : String := "pending"
  dispatchAttempts : ℕ := 0
  dispatchEnqueuedAt : Option ℕ := none
  dispatchLastError : Option String := none
deriving DecidableEq

/-- An attribute is written back only if it differs from the value it was loaded with. -/
def changed {α : Type} [DecidableEq α] (loaded now stored : α) : α :=
  if now = loaded then stored else now

/-- The UPDATE that a flush emits for an object loaded as `loaded` that now reads `now`. -/
def BotRun.store (loaded now : BotRun) (moment : ℕ) (row : BotRun) : BotRun where
  id := row.id
  meetingUrl := row.meetingUrl
  meetingKey := row.meetingKey
  idempotencyKey := row.idempotencyKey
  displayName := row.displayName
  status := changed loaded.status now.status row.status
  errorCode := changed loaded.errorCode now.errorCode row.errorCode
  stopReason := changed loaded.stopReason now.stopReason row.stopReason
  createdAt := row.createdAt
  updatedAt := moment
  joinedAt := changed loaded.joinedAt now.joinedAt row.joinedAt
  leftAt := changed loaded.leftAt now.leftAt row.leftAt
  recordingUri := changed loaded.recordingUri now.recordingUri row.recordingUri
  recordingSha256 := changed loaded.recordingSha256 now.recordingSha256 row.recordingSha256
  recordingStatus := changed loaded.recordingStatus now.recordingStatus row.recordingStatus
  recordingBytes := changed loaded.recordingBytes now.recordingBytes row.recordingBytes
  recordingDurationMs :=
    changed loaded.recordingDurationMs now.recordingDurationMs row.recordingDurationMs
  recordingExpiresAt :=
    changed loaded.recordingExpiresAt now.recordingExpiresAt row.recordingExpiresAt
  recordingPartial := changed loaded.recordingPartial now.recordingPartial row.recordingPartial
  checkpointManifestUri :=
    changed loaded.checkpointManifestUri now.checkpointManifestUri row.checkpointManifestUri
  finalizationStatus :=
    changed loaded.finalizationStatus now.finalizationStatus row.finalizationStatus
  transcriptionStatus :=
    changed loaded.transcriptionStatus now.transcriptionStatus row.transcriptionStatus
  transcriptionError :=
    changed loaded.transcriptionError now.transcriptionError row.transcriptionError
  notesStatus := changed loaded.notesStatus now.notesStatus row.notesStatus
  notesError := changed loaded.notesError now.notesError row.notesError
  dispatchStatus := changed loaded.dispatchStatus now.dispatchStatus row.dispatchStatus
  dispatchAttempts := changed loaded.dispatchAttempts now.dispatchAttempts row.dispatchAttempts
  dispatchEnqueuedAt :=
    changed loaded.dispatchEnqueuedAt now.dispatchEnqueuedAt row.dispatchEnqueuedAt
  dispatchLastError := changed loaded.dispatchLastError now.dispatchLastError row.dispatchLastError

/-- `updated_at` is set by every UPDATE. -/
def BotRun.touched (moment : ℕ) (run : BotRun) : BotRun := { run with updatedAt := moment }

structure RecordingArtifact where
  uri : Option Uri
  sha256 : String
  size : ℕ
  status : String
  partialRecording : Bool
  expiresAt : ℕ
  checkpointManifestUri : Option Uri
deriving DecidableEq

/-- A segment as the transcriber hands it over. -/
structure Segment where
  text : String
  startMs : ℤ
  endMs : ℤ
  speaker : Option String
deriving DecidableEq

structure TranscriptSegment where
  id : ℕ
  botRunId : ℕ
  speaker : Option String
  text : String
  startMs : ℤ
  endMs : ℤ
  createdAt : ℕ
deriving DecidableEq

structure ActionItem where
  text : String
  owner : Option String
  due : Option String
deriving DecidableEq

structure MeetingNotes where
  summary : String
  keyPoints : List String
  actionItems : List ActionItem
deriving DecidableEq

structure MeetingNote extends MeetingNotes where
  botRunId : ℕ
  createdAt : ℕ
deriving DecidableEq

inductive Payload where
  | statusChanged (botId : ℕ) (status : BotStatus) (eventId : ℕ)
  | transcriptSegment (segment : TranscriptSegment) (eventId : ℕ)
  | notesCompleted (botId : ℕ) (eventId : ℕ)
deriving DecidableEq

namespace Payload

def botId : Payload → ℕ
  | statusChanged b _ _ => b
  | transcriptSegment segment _ => segment.botRunId
  | notesCompleted b _ => b

def eventId : Payload → ℕ
  | statusChanged _ _ e => e
  | transcriptSegment _ e => e
  | notesCompleted _ e => e

def toStatus : Payload → Option (ℕ × BotStatus)
  | statusChanged b status _ => some (b, status)
  | _ => none

def toSegment : Payload → Option TranscriptSegment
  | transcriptSegment segment _ => some segment
  | _ => none

def isNotesOf (b : ℕ) : Payload → Bool
  | notesCompleted b' _ => b' = b
  | _ => false

end Payload

structure WebhookSubscription where
  id : ℕ
  url : String
deriving DecidableEq

inductive DeliveryStatus where
  | pending | retry | dead | sent | skipped
deriving DecidableEq

structure WebhookDelivery where
  id : ℕ
  subscriptionId : ℕ
  eventId : ℕ
  sequence : ℕ
  url : String
  payload : Payload
  status : DeliveryStatus := .pending
  attempts : ℕ := 0
  nextTryAt : ℕ
  createdAt : ℕ
  lastError : Option String := none
  lastStatusCode : Option ℕ := none
  deadAt : Option ℕ := none
  sentAt : Option ℕ := none
  leaseToken : Option ℕ := none
  leaseExpiresAt : Option ℕ := none
deriving DecidableEq

end Fakery.Bots
