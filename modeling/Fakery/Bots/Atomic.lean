import Fakery.Bots.Service

/-! Transactions on the row of one run, each taken as one atomic step. It gives the new row, or an
error that leaves the row as it was. -/
namespace Fakery.Bots.BotRun
open Fakery.Core Fakery.Storage

/-- A flush writes an object that was changed, and `updated_at` with it. -/
def flushed (loaded : BotRun) (moment : ℕ) (run : BotRun) : BotRun :=
  if run = loaded then loaded else run.touched moment

def advance (target : BotStatus) (now : ℕ) (run : BotRun) : Except TwinError BotRun :=
  if run.status.terminal then
    if run.status = target then .ok run
    else .error (makeError "conflict" s!"terminal bot {run.id} cannot transition")
  else (requireTransition run.status target).map fun _ => run.advanced target now

def persisted (artifact : Option RecordingArtifact) (now : ℕ) (run : BotRun) :
    Except TwinError BotRun :=
  match artifact with
  | some artifact => (run.recorded artifact).advance .processing now
  | none => run.advance .processing now

def failRun (code : String) (now : ℕ) (run : BotRun) : Except TwinError BotRun :=
  if run.status.terminal then .ok run else (run.failing code).advance .failed now

/-- The transaction of `sweep_orphans`, as far as this run goes. -/
def swept (heartbeat : Bool) (staleAfter moment : ℕ) (run : BotRun) : Except TwinError BotRun :=
  if run.status ∈ liveStatuses ∧ run.updatedAt < moment - staleAfter ∧ heartbeat = false ∧
      isOrphan run.status run.updatedAt false moment staleAfter then
    run.orphaned.advance .failed moment
  else .ok run

/-- The transaction of the finalizer. -/
def finalized (uri : Uri) (sha256 : String) (size retentionDays now : ℕ) (run : BotRun) : BotRun :=
  if run.recordingUri.isSome ∨ run.status ≠ .failed then run
  else { run with
    recordingUri := some uri
    recordingSha256 := some sha256
    recordingBytes := some size
    recordingExpiresAt := some (now + retentionDays * 86400)
    recordingStatus := "partial"
    recordingPartial := true
    finalizationStatus := "recovered" }

def cancelling (run : BotRun) : BotRun :=
  { run with errorCode := some "cancelled", stopReason := some "cancelled" }

def cancel (now : ℕ) (run : BotRun) : Except TwinError BotRun :=
  if run.status.terminal then .ok run else run.cancelling.advance .failed now

def withArtifactStatus (artifact : Artifact) (status : String) (error : Option String)
    (run : BotRun) : BotRun :=
  match artifact with
  | .transcription => { run with transcriptionStatus := status, transcriptionError := error }
  | .notes => { run with notesStatus := status, notesError := error }

def complete (c : Completion) (now : ℕ) (run : BotRun) : Except TwinError BotRun :=
  ((c.assign run).advance .completed now).map withDuration

/-- The transaction of `mark_expired`. -/
def markExpired (key : Key) (run : BotRun) : BotRun :=
  match key with
  | .recording _ => { run with
      recordingStatus := "expired"
      finalizationStatus := "expired"
      recordingUri := none }
  | .manifest _ => { run with checkpointManifestUri := none }
  | .chunk _ _ => run

/-- The recording of a run as a client gets it: where it is and its checksum. -/
def SameRecording (run run' : BotRun) : Prop :=
  run'.recordingUri = run.recordingUri ∧ run'.recordingSha256 = run.recordingSha256

variable {run run' : BotRun} {target : BotStatus} {now : ℕ}

theorem advance_ok (h : run.advance target now = .ok run') :
    run' = run ∧ run.status = target ∧ target.terminal = true ∨
      run' = run.advanced target now ∧ canTransition run.status target = true := by
  unfold advance at h
  split_ifs at h with ht hs
  · exact Or.inl ⟨(Except.ok.inj h).symm, hs, hs ▸ ht⟩
  · unfold requireTransition at h
    split_ifs at h with hc
    · exact Or.inr ⟨(Except.ok.inj h).symm, hc⟩
    · cases h

theorem advance_error {e : TwinError} (h : run.advance target now = .error e) :
    canTransition run.status target = false := by
  unfold advance at h
  split_ifs at h with ht hs
  · exact not_canTransition_of_terminal target ht
  · unfold requireTransition at h
    split_ifs at h with hc
    · cases h
    · exact (Bool.not_eq_true _).mp hc

theorem sameRecording_advance (h : run.advance target now = .ok run') : SameRecording run run' := by
  rcases advance_ok h with ⟨rfl, -⟩ | ⟨rfl, -⟩
  · exact ⟨rfl, rfl⟩
  · exact ⟨rfl, rfl⟩

theorem sameRecording_failRun {code : String} (h : run.failRun code now = .ok run') :
    SameRecording run run' := by
  unfold failRun at h
  split_ifs at h with ht
  · cases Except.ok.inj h
    exact ⟨rfl, rfl⟩
  · have hs : SameRecording (run.failing code) run' := sameRecording_advance h
    exact hs

theorem sameRecording_swept {heartbeat : Bool} {staleAfter moment : ℕ}
    (h : run.swept heartbeat staleAfter moment = .ok run') : SameRecording run run' := by
  unfold swept at h
  split_ifs at h with hs
  · have hs : SameRecording run.orphaned run' := sameRecording_advance h
    exact hs
  · cases Except.ok.inj h
    exact ⟨rfl, rfl⟩

theorem flushed_cases (loaded : BotRun) (moment : ℕ) (run : BotRun) :
    flushed loaded moment run = run ∨ flushed loaded moment run = run.touched moment := by
  unfold flushed
  split_ifs with h
  · exact Or.inl h.symm
  · exact Or.inr rfl

/-- A flush keeps every column but the time of the update. -/
theorem flushed_column {γ : Type} {g : BotRun → γ}
    (hg : ∀ run moment, g (touched moment run) = g run) (loaded : BotRun) (moment : ℕ)
    (run : BotRun) : g (flushed loaded moment run) = g run := by
  rcases flushed_cases loaded moment run with h | h
  · rw [h]
  · rw [h, hg]

theorem sameRecording_flushed (loaded : BotRun) (moment : ℕ) (run : BotRun) :
    SameRecording run (flushed loaded moment run) := by
  have huri := flushed_column (g := recordingUri) (fun _ _ => rfl) loaded moment run
  have hsha := flushed_column (g := recordingSha256) (fun _ _ => rfl) loaded moment run
  exact ⟨huri, hsha⟩

end Fakery.Bots.BotRun
