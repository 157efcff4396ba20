import Fakery.Bots.Atomic
import Fakery.Concurrent.Prog

/-! `attend` and `fail_run` as programs over whatever carries out their calls. A transaction on the
row of the run is one call. -/
namespace Fakery.Runtime
open Fakery.Bots Fakery.Concurrent Fakery.Core Fakery.Storage

inductive Tx where
  | advance (target : BotStatus)
  | setCheckpointManifest (uri : Uri)
  | setArtifactStatus (artifact : Artifact) (status : String) (error : Option String)
  | persistRecording (artifact : Option RecordingArtifact)
  | complete (completion : Completion)
  | storeRecovered (artifact : RecordingArtifact)
  | failRun (code : String)

def Tx.apply (now : ℕ) (run : BotRun) : Tx → Except TwinError BotRun
  | advance target => run.advance target now
  | setCheckpointManifest uri => .ok (run.checkpointed uri)
  | setArtifactStatus artifact status error => .ok (run.withArtifactStatus artifact status error)
  | persistRecording artifact => run.persisted artifact now
  | complete c => run.complete c now
  | storeRecovered artifact => .ok (run.recorded artifact).recovered
  | failRun code => run.failRun code now

/-- `waitAdmitted` answers whether the bot was let in, `waitMeetingEnded` whether the meeting was
left on a request to stop. -/
inductive Call where
  | restoreProfile | persistProfile
  | transaction (tx : Tx)
  | getRun
  | createHeartbeat | cancelHeartbeat | clearBeat
  | openBrowser | closeBrowser
  | joinMeeting | waitAdmitted | pause | waitMeetingEnded | leaveMeeting
  | requestedStopReason
  | restorePrefix

abbrev Reply : Call → Type
  | .getRun => BotRun
  | .waitAdmitted | .waitMeetingEnded => Bool
  | .requestedStopReason => Option String
  | .restorePrefix => Option RecordingArtifact
  | _ => Unit

/-- An exception comes with its `code`, if it has one. -/
abbrev Raised := Task.Raised (Option String)

/-- The transaction that makes a run joining. -/
def Tx.joins : Tx → Bool
  | advance .joining => true
  | _ => false

def Call.joins : Call → Bool
  | transaction tx => tx.joins
  | _ => false

/-- The calls between the joining transition and the `finally` of `attend`. -/
def Call.attending : Call → Bool
  | restoreProfile | persistProfile | cancelHeartbeat | clearBeat => false
  | i => !i.joins

/-- The transactions that can make a run completed. -/
def Tx.completes : Tx → Bool
  | advance .completed | complete _ => true
  | _ => false

def Call.completes : Call → Bool
  | transaction tx => tx.completes
  | _ => false

/-- The calls that neither make a run joining nor complete it. -/
def Call.ongoing (i : Call) : Bool := !i.joins && !i.completes

/-- The transactions of `fail_run`. -/
def Tx.settles : Tx → Bool
  | storeRecovered _ | failRun _ => true
  | _ => false

/-- The calls of `fail_run`. -/
def Call.settles : Call → Bool
  | getRun | restorePrefix => true
  | transaction tx => tx.settles
  | _ => false

/-- What goes on while the meeting is recorded or summed up. The recorder catches what a checkpoint
raises. -/
inductive Activity where
  | pause
  | checkpoint (uri : Uri)
  | artifactStatus (artifact : Artifact) (status : String) (error : Option String)

/-- How a meeting goes, as far as the run is concerned. -/
structure Meeting where
  recorded : List Activity := []
  transcribed : List Activity := []
  artifact : Option RecordingArtifact := none
  summarized : List Activity := []

section programs

variable {ι : Type} {ρ : ι → Type} (call : (i : Call) → Task ι ρ Raised (Reply i))

def Activity.act : Activity → Task ι ρ Raised Unit
  | pause => call .pause
  | checkpoint uri => (call (.transaction (.setCheckpointManifest uri))).rescue fun _ => pure ()
  | artifactStatus artifact status error =>
    call (.transaction (.setArtifactStatus artifact status error))

def activities : List Activity → Task ι ρ Raised Unit
  | [] => pure ()
  | x :: xs => do
    x.act call
    activities xs

variable (hasBlob : Bool) (m : Meeting)

def recoverCheckpoint : Task ι ρ Raised Unit := do
  if hasBlob then do
    let run ← call .getRun
    if run.checkpointManifestUri.isNone ∨ run.status ∉ [.joined, .recording, .processing] then
      pure ()
    else do
      match ← (call .restorePrefix).rescue fun _ => pure none with
      | none => pure ()
      | some artifact => call (.transaction (.storeRecovered artifact))
  else pure ()

def failRun (code : String) : Task ι ρ Raised Unit := do
  recoverCheckpoint call hasBlob
  call (.transaction (.failRun code))

/-- Whether the run was cancelled before it ended. -/
def attendAndRecord : Task ι ρ Raised Bool := do
  call .joinMeeting
  if ← call .waitAdmitted then do
    call (.transaction (.advance .joined))
    call (.transaction (.advance .recording))
    activities call m.recorded
    let cancelled ← call .waitMeetingEnded
    activities call m.transcribed
    pure cancelled
  else pure true

def finish (cancelled : Bool) : Task ι ρ Raised Unit := do
  call (.transaction (.persistRecording m.artifact))
  call .leaveMeeting
  activities call m.summarized
  let stopReason ← call .requestedStopReason
  call (.transaction (.complete
    { cancelled := cancelled || stopReason.isSome, stopReason := stopReason }))

def attendMeeting : Task ι ρ Raised Unit := do
  let cancelled ← attendAndRecord call m
  if cancelled then do
    let run ← call .getRun
    if run.status ∉ [.joined, .recording] then do
      let stopReason ← call .requestedStopReason
      failRun call hasBlob (stopReason.getD "cancelled")
    else finish call m cancelled
  else finish call m cancelled

/-- What `attend` does once the run is joining. -/
def afterJoining : Task ι ρ Raised Unit := do
  call .createHeartbeat
  (call .openBrowser).rescue fun code => do
    call .closeBrowser
    throw (.exception code)
  (attendMeeting call hasBlob m).ensuring (call .closeBrowser)

/-- The `finally` of `attend`. The heartbeat ends before the profile is stored. -/
def cleanUp : Task ι ρ Raised Unit := do
  call .cancelHeartbeat
  (call .clearBeat).rescue fun _ => pure ()
  call .persistProfile

def attend : Task ι ρ Raised Unit := do
  call .restoreProfile
  Task.ensuring
    (do
      call (.transaction (.advance .joining))
      afterJoining call hasBlob m)
    (cleanUp call)

def dbTerminal : Task ι ρ Raised Bool := do
  let run ← call .getRun
  pure run.status.terminal

/-- `sleep` is what goes on between two looks at the row. -/
def waitForDbTerminal (sleep : Task ι ρ Raised Unit) : ℕ → Task ι ρ Raised Bool
  | 0 => dbTerminal call
  | n + 1 => do
    if ← dbTerminal call then pure true
    else do
      sleep
      waitForDbTerminal sleep n

end programs

section uses

variable {ι : Type} {ρ : ι → Type} {call : (i : Call) → Task ι ρ Raised (Reply i)} {P : ι → Prop}
  {hasBlob : Bool} {m : Meeting}

section failRun

variable (h : ∀ i, i.settles = true → (call i).run.Uses P)
include h

theorem uses_recoverCheckpoint : (recoverCheckpoint call hasBlob).run.Uses P := by
  cases hasBlob with
  | false => trivial
  | true =>
    refine Task.uses_bind (h .getRun rfl) fun run => ?_
    split
    · trivial
    · refine Task.uses_bind (Task.uses_rescue (h .restorePrefix rfl) fun _ => trivial) fun r => ?_
      cases r with
      | none => trivial
      | some artifact => exact h (.transaction (.storeRecovered artifact)) rfl

theorem uses_failRun (code : String) : (failRun call hasBlob code).run.Uses P :=
  Task.uses_bind (uses_recoverCheckpoint h) fun _ => h (.transaction (.failRun code)) rfl

end failRun

theorem joins_of_settles {i : Call} (h : i.settles = true) : i.joins = false := by
  match i with
  | .getRun | .restorePrefix => rfl
  | .transaction (.storeRecovered _) | .transaction (.failRun _) => rfl

theorem attending_of_settles {i : Call} (h : i.settles = true) : i.attending = true := by
  match i with
  | .getRun | .restorePrefix => rfl
  | .transaction (.storeRecovered _) | .transaction (.failRun _) => rfl

theorem joins_of_attending {i : Call} (h : i.attending = true) : i.joins = false := by
  cases hj : i.joins with
  | false => rfl
  | true =>
    match i with
    | .transaction (.advance .joining) => cases h

theorem joins_of_ongoing {i : Call} (h : i.ongoing = true) : i.joins = false := by
  unfold Call.ongoing at h
  simp only [Bool.and_eq_true, Bool.not_eq_true'] at h
  exact h.1

theorem completes_of_ongoing {i : Call} (h : i.ongoing = true) : i.completes = false := by
  unfold Call.ongoing at h
  simp only [Bool.and_eq_true, Bool.not_eq_true'] at h
  exact h.2

theorem ongoing_of_settles {i : Call} (h : i.settles = true) : i.ongoing = true := by
  match i with
  | .getRun | .restorePrefix => rfl
  | .transaction (.storeRecovered _) | .transaction (.failRun _) => rfl

section looks

variable {sleep : Task ι ρ Raised Unit} (h : (call .getRun).run.Uses P)
include h

theorem uses_dbTerminal : (dbTerminal call).run.Uses P := Task.uses_bind h fun _ => trivial

theorem uses_waitForDbTerminal (hsleep : sleep.run.Uses P) (n : ℕ) :
    (waitForDbTerminal call sleep n).run.Uses P := by
  induction n with
  | zero => exact uses_dbTerminal h
  | succ n ih =>
    refine Task.uses_bind (uses_dbTerminal h) fun terminal => ?_
    cases terminal with
    | true => trivial
    | false => exact Task.uses_bind hsleep fun _ => ih

end looks

section meeting

variable (h : ∀ i, i.attending = true ∧ i.ongoing = true → (call i).run.Uses P)
include h

theorem uses_activities (xs : List Activity) : (activities call xs).run.Uses P := by
  induction xs with
  | nil => trivial
  | cons x xs ih =>
    refine Task.uses_bind ?_ fun _ => ih
    cases x with
    | pause => exact h .pause ⟨rfl, rfl⟩
    | checkpoint uri => exact Task.uses_rescue (h _ ⟨rfl, rfl⟩) fun _ => trivial
    | artifactStatus artifact status error => exact h _ ⟨rfl, rfl⟩

theorem uses_attendAndRecord : (attendAndRecord call m).run.Uses P := by
  refine Task.uses_bind (h .joinMeeting ⟨rfl, rfl⟩) fun _ => ?_
  refine Task.uses_bind (h .waitAdmitted ⟨rfl, rfl⟩) fun admitted => ?_
  cases admitted with
  | false => trivial
  | true =>
    refine Task.uses_bind (h (.transaction (.advance .joined)) ⟨rfl, rfl⟩) fun _ => ?_
    refine Task.uses_bind (h (.transaction (.advance .recording)) ⟨rfl, rfl⟩) fun _ => ?_
    refine Task.uses_bind (uses_activities h _) fun _ => ?_
    refine Task.uses_bind (h .waitMeetingEnded ⟨rfl, rfl⟩) fun _ => ?_
    exact Task.uses_bind (uses_activities h _) fun _ => trivial

end meeting

section attendance

variable (h : ∀ i, i.attending = true → (call i).run.Uses P)
include h

theorem uses_finish (cancelled : Bool) : (finish call m cancelled).run.Uses P := by
  refine Task.uses_bind (h (.transaction (.persistRecording _)) rfl) fun _ => ?_
  refine Task.uses_bind (h .leaveMeeting rfl) fun _ => ?_
  refine Task.uses_bind (uses_activities (fun i hi => h i hi.1) _) fun _ => ?_
  exact Task.uses_bind (h .requestedStopReason rfl) fun _ => h (.transaction (.complete _)) rfl

theorem uses_attendMeeting : (attendMeeting call hasBlob m).run.Uses P := by
  refine Task.uses_bind (uses_attendAndRecord fun i hi => h i hi.1) fun cancelled => ?_
  cases cancelled with
  | false => exact uses_finish h false
  | true =>
    refine Task.uses_bind (h .getRun rfl) fun run => ?_
    split
    · refine Task.uses_bind (h .requestedStopReason rfl) fun _ => uses_failRun (fun i hs => ?_) _
      exact h i (attending_of_settles hs)
    · exact uses_finish h true

theorem uses_afterJoining : (afterJoining call hasBlob m).run.Uses P := by
  refine Task.uses_bind (h .createHeartbeat rfl) fun _ => ?_
  refine Task.uses_bind (Task.uses_rescue (h .openBrowser rfl) fun _ => ?_) fun _ => ?_
  · exact Task.uses_bind (h .closeBrowser rfl) fun _ => trivial
  · exact Task.uses_ensuring (uses_attendMeeting h) (h .closeBrowser rfl)

end attendance

variable (h : ∀ i, i.joins = false → (call i).run.Uses P)
include h

theorem uses_cleanUp : (cleanUp call).run.Uses P := by
  refine Task.uses_bind (h .cancelHeartbeat rfl) fun _ => ?_
  refine Task.uses_bind (Task.uses_rescue (h .clearBeat rfl) fun _ => trivial) fun _ => ?_
  exact h .persistProfile rfl

theorem uses_attend (hjoin : (call (.transaction (.advance .joining))).run.Uses P) :
    (attend call hasBlob m).run.Uses P := by
  refine Task.uses_bind (h .restoreProfile rfl) fun _ => Task.uses_ensuring ?_ (uses_cleanUp h)
  exact Task.uses_bind hjoin fun _ => uses_afterJoining fun i hi => h i (joins_of_attending hi)

end uses

end Fakery.Runtime
