import Fakery.Bots.Lifecycle
import Fakery.Meetings.Urls

/-! A request for a bot, from its body and its header to the row that it inserts, on a database
with bounded columns. The events of a run are left out. -/
namespace Fakery.Requests
open Fakery.Bots Fakery.Core Fakery.Meetings

section columns

/-- Whether a statement can send a text. -/
def sendable (text : String) : Bool := '\x00' ∉ text.toList

def fitsColumn (size : ℕ) (text : String) : Bool := text.length ≤ size && sendable text

/-- The text columns of a bounded length, with their lengths. Identifiers and URIs are not texts
in a `BotRun`, and the former have 36 characters. -/
def textColumns (run : BotRun) : List (ℕ × Option String) :=
  [(512, some run.meetingUrl), (256, some run.meetingKey), (128, run.idempotencyKey),
   (128, run.displayName), (32, some run.status.value), (64, run.errorCode),
   (32, run.stopReason), (64, run.recordingSha256), (32, some run.recordingStatus),
   (32, some run.finalizationStatus), (32, some run.transcriptionStatus),
   (64, run.transcriptionError), (32, some run.notesStatus), (64, run.notesError),
   (16, some run.dispatchStatus)]

def fits (run : BotRun) : Bool :=
  (textColumns run).all fun column => column.2.all (fitsColumn column.1)

end columns

/-- `database` is an error of the database that is not an IntegrityError. -/
inductive CreateError where
  | url (e : UrlError)
  | problem (e : TwinError)
  | database
deriving DecidableEq

structure CreateBotRequest where
  meetingUrl : Text
  displayName : Option String

section service

variable (admits : Text → Bool) (clock : ℕ → ℕ) (s : Runs)

def getByIdempotency (key : String) : Except CreateError (Option BotRun) :=
  if sendable key then .ok (s.select fun run => run.idempotencyKey = some key).head?
  else .error .database

def findActiveMeeting (meetingKey : String) : Except CreateError (Option BotRun) :=
  if sendable meetingKey then
    .ok (s.select fun run => run.meetingKey = meetingKey && Db.active run.status).head?
  else .error .database

/-- The columns are checked before the unique indexes. -/
def add (run : BotRun) : Except CreateError Runs :=
  if !fits run then .error .database
  else if (s.rows run.id).isSome || s.ids.any fun b => Db.clashes run (s.rows b) then
    .error (.problem (makeError "conflict" "an active bot already exists for this meeting"))
  else .ok (s.insert run)

/-- The key of a run, which an old row may not have. -/
def existingKey (run : BotRun) : Except CreateError String :=
  if run.meetingKey = "" then
    match normalizeMeetingUrl admits run.meetingUrl.toList with
    | .ok r => .ok (String.ofList r.2)
    | .error e => .error (.url e)
  else .ok run.meetingKey

def queuedRun (id : ℕ) (meeting : Text × Text) (displayName idempotencyKey : Option String) :
    BotRun :=
  { id := id, meetingUrl := String.ofList meeting.1, meetingKey := String.ofList meeting.2
    idempotencyKey := idempotencyKey, displayName := displayName, status := .queued
    createdAt := s.now clock, updatedAt := s.tick.now clock }

/-- An empty key is not looked up. -/
def replayed (idempotencyKey : Option String) : Except CreateError (Option BotRun) :=
  match idempotencyKey with
  | none => .ok none
  | some key => if key = "" then .ok none else getByIdempotency s key

def createOrGet (id : ℕ) (meetingUrl : Text) (displayName idempotencyKey : Option String) :
    Except CreateError ((BotRun × Bool) × Runs) :=
  match normalizeMeetingUrl admits meetingUrl with
  | .error e => .error (.url e)
  | .ok meeting => do
    match ← replayed s idempotencyKey with
    | some existing =>
      let key ← existingKey admits existing
      if key ≠ String.ofList meeting.2 then
        .error (.problem
          (makeError "conflict" "Idempotency-Key was already used for another meeting"))
      else .ok ((existing, false), s)
    | none =>
      match ← findActiveMeeting s (String.ofList meeting.2) with
      | some _ =>
        .error (.problem (makeError "conflict" "an active bot already exists for this meeting"))
      | none =>
        let run := queuedRun clock s id meeting displayName idempotencyKey
        let s' ← add s.tick.tick run
        .ok ((run, true), s')

/-- `httpUrl` stands for the validation of a URL, which gives its text or says what is wrong. -/
def createBot (httpUrl : Text → Except String Text) (id : ℕ) (body : CreateBotRequest)
    (idempotencyKey : Option String) : Except CreateError ((BotRun × Bool) × Runs) :=
  match httpUrl body.meetingUrl with
  | .error message =>
    .error (.problem (makeError "validation-failed" ("body.meeting_url: " ++ message)))
  | .ok url => createOrGet admits clock s id url body.displayName idempotencyKey

end service

section runs

/-- A call of the service. A `fail_run` may restore a checkpoint before. -/
inductive Call where
  | createOrGet (id : ℕ) (meetingUrl : Text) (displayName idempotencyKey : Option String)
  | cancel (b : ℕ)
  | advance (b : ℕ) (target : BotStatus)
  | failRun (b : ℕ) (code : String) (restored : Option RecordingArtifact)

variable (admits : Text → Bool) (clock : ℕ → ℕ)

/-- A call that raises leaves what it has committed. -/
def step (s : Runs) : Call → Runs
  | .createOrGet id meetingUrl displayName idempotencyKey =>
    match createOrGet admits clock s id meetingUrl displayName idempotencyKey with
    | .ok (_, s') => s'
    | .error _ => s
  | .cancel b => (s.perform clock [.cancel b]).1
  | .advance b target =>
    match s.change clock b fun now run => run.advance target now with
    | .ok s' => s'
    | .error _ => s
  | .failRun b code restored =>
    (s.perform clock (restored.toList.map (.storeRecovered b) ++ [.failRun b code])).1

def Reachable (s : Runs) : Prop := ∃ calls : List Call, s = calls.foldl (step admits clock) {}

end runs

end Fakery.Requests
