import Fakery.Bots.Atomic
import Fakery.Queue.Batch
import Fakery.Storage.Checkpoints
import Mathlib.Data.List.Sort

/-! The passes of the finalizer over all runs, with no other writer. -/
namespace Fakery.Recording
open Fakery.Bots Fakery.Queue Fakery.Storage

def BATCH_SIZE : ℕ := 20

/-- The finalizer's settings and its object store, whose calls have the same outcome each time:
what a read answers, and which puts raise. -/
structure Finalizer where
  bucket : String
  sha256 : Bytes → String
  retentionDays : ℕ
  reads : Objects
  refuses : Key → Object → Bool

/-- The identifier is the primary key. -/
structure Runs where
  rows : List BotRun
  key : (rows.map BotRun.id).Nodup

def isCandidate (run : BotRun) : Bool :=
  run.status = .failed && run.checkpointManifestUri.isSome && run.recordingUri.isNone

/-- `ORDER BY updated_at, id` -/
def OrdersBefore (a b : BotRun) : Prop :=
  a.updatedAt < b.updatedAt ∨ a.updatedAt = b.updatedAt ∧ a.id ≤ b.id

instance : DecidableRel OrdersBefore := fun _ _ => inferInstanceAs (Decidable (_ ∨ _))

/-- All candidates in the order of the query. -/
def waiting (rows : List BotRun) : List BotRun :=
  (rows.filter isCandidate).insertionSort OrdersBefore

def candidates (rows : List BotRun) : List (ℕ × Uri) :=
  ((waiting rows).take BATCH_SIZE).filterMap fun run =>
    run.checkpointManifestUri.map fun uri => (run.id, uri)

namespace Finalizer

variable (F : Finalizer)

def blob : BlobStore Id where
  put key object := if F.refuses key object then throw () else pure ⟨F.bucket, key⟩
  get := (intact F.reads).get

/-- Nothing comes of an error or of an empty recording. -/
def restoreRecording (bot : ℕ) (manifestUri : Uri) : Option (Uri × Bytes × String) :=
  match (restorePrefix F.blob F.sha256 manifestUri).run with
  | .error _ => none
  | .ok (recording, _, checksum) =>
    if recording = [] then none
    else match (F.blob.put (.recording bot) (.bytes recording)).run with
      | .error _ => none
      | .ok uri => some (uri, recording, checksum)

/-- The transaction on the row with the given identifier; `clock` is the time at which it is
stored. -/
def store (clock : ℕ → ℕ) (bot : ℕ) (uri : Uri) (recording : Bytes) (checksum : String)
    (rows : List BotRun) : List BotRun :=
  rows.map fun run =>
    if run.id = bot then BotRun.flushed run (clock bot)
      (run.finalized uri checksum recording.length F.retentionDays (clock bot))
    else run

def recoverEach (clock : ℕ → ℕ) : List (ℕ × Uri) → List BotRun → List BotRun × ℕ
  | [], rows => (rows, 0)
  | (bot, manifestUri) :: rest, rows =>
    match F.restoreRecording bot manifestUri with
    | none => recoverEach clock rest rows
    | some (uri, recording, checksum) =>
      let (rows', recovered) := recoverEach clock rest (F.store clock bot uri recording checksum rows)
      (rows', recovered + rows.countP fun run =>
        run.id = bot && run.recordingUri.isNone && run.status = .failed)

/-- The rows afterwards, and how many were recovered. -/
def recoverOnce (clock : ℕ → ℕ) (rows : List BotRun) : List BotRun × ℕ :=
  F.recoverEach clock (candidates rows) rows

/-- One pass after another, each with its own clock. -/
def recoverAll (clocks : List (ℕ → ℕ)) (rows : List BotRun) : List BotRun :=
  clocks.foldl (fun rows clock => (F.recoverOnce clock rows).1) rows

/-- What a pass that deals with the run stores in its row. -/
def recovery (run : BotRun) : Option (Uri × Bytes × String) :=
  run.checkpointManifestUri.bind (F.restoreRecording run.id)

def isRecoverable (run : BotRun) : Bool := (F.recovery run).isSome

/-- Every candidate whose manifest restores to a recording that can be stored has it in the end. -/
def AllRecovered (before after : List BotRun) : Prop :=
  ∀ run ∈ before, isCandidate run = true → ∀ manifestUri ∈ run.checkpointManifestUri,
    ∀ recording damaged checksum,
      restored F.sha256 F.reads manifestUri = .ok (recording, damaged, checksum) →
      recording ≠ [] → F.refuses (.recording run.id) (.bytes recording) = false →
        ∃ run' ∈ after, run'.id = run.id ∧
          run'.recordingUri = some ⟨F.bucket, .recording run.id⟩ ∧
          run'.recordingSha256 = some (F.sha256 recording) ∧
          run'.recordingBytes = some recording.length

/-- Less than a batch of candidates that cannot be recovered come before each one that can. -/
def Unblocked (rows : List BotRun) : Prop :=
  ∀ run ∈ rows, isCandidate run = true → F.isRecoverable run = true →
    (rows.filter isCandidate).countP (fun other =>
      !OrdersBefore run other && !F.isRecoverable other) < BATCH_SIZE

variable {F} {run run' : BotRun} {rows batch : List BotRun} {clock : ℕ → ℕ}
  {clocks : List (ℕ → ℕ)}

section recovery

theorem restoreChunks_blob (cs : List CheckpointChunk) (start : Bytes) :
    restoreChunks F.blob F.sha256 cs start = restoreChunks (intact F.reads) F.sha256 cs start := by
  induction cs generalizing start with
  | nil => rfl
  | cons c cs ih =>
    have hget : F.blob.get = (intact F.reads).get := rfl
    simp only [restoreChunks, hget, ih]

theorem restorePrefix_blob (manifestUri : Uri) :
    (restorePrefix F.blob F.sha256 manifestUri).run =
      restored F.sha256 F.reads manifestUri := by
  have hget : F.blob.get = (intact F.reads).get := rfl
  simp only [restored, restorePrefix, restoreChunks_blob, hget]

theorem restoreRecording_eq_some {bot : ℕ} {manifestUri uri : Uri} {recording : Bytes}
    {checksum : String} :
    F.restoreRecording bot manifestUri = some (uri, recording, checksum) ↔
      (∃ damaged, restored F.sha256 F.reads manifestUri = .ok (recording, damaged, checksum)) ∧
        recording ≠ [] ∧ F.refuses (.recording bot) (.bytes recording) = false ∧
        uri = ⟨F.bucket, .recording bot⟩ := by
  rw [restoreRecording, restorePrefix_blob]
  cases restored F.sha256 F.reads manifestUri with
  | error e => simp
  | ok answer =>
    obtain ⟨data, damaged, sum⟩ := answer
    by_cases hempty : data = []
    · simp only [hempty, if_true]
      constructor
      · nofun
      · rintro ⟨⟨_, he⟩, hne, -⟩
        cases he
        exact absurd rfl hne
    · simp only [hempty, if_false]
      cases hr : F.refuses (.recording bot) (.bytes data) with
      | true =>
        simp only [blob, hr, if_true]
        constructor
        · nofun
        · rintro ⟨⟨_, he⟩, -, hf, -⟩
          cases he
          cases hr.symm.trans hf
      | false =>
        simp only [blob, hr, Bool.false_eq_true, if_false]
        constructor
        · intro h
          cases h
          exact ⟨⟨damaged, rfl⟩, hempty, hr, rfl⟩
        · rintro ⟨⟨_, he⟩, -, -, rfl⟩
          cases he
          rfl

end recovery

section rows

/-- The row once a pass has dealt with the run. -/
def settled (F : Finalizer) (clock : ℕ → ℕ) (run : BotRun) : BotRun :=
  match F.recovery run with
  | none => run
  | some (uri, recording, checksum) => BotRun.flushed run (clock run.id)
      (run.finalized uri checksum recording.length F.retentionDays (clock run.id))

theorem settled_eq_self (h : F.isRecoverable run = false) : F.settled clock run = run := by
  rw [isRecoverable, Option.isSome_eq_false_iff, Option.isNone_iff_eq_none] at h
  rw [settled, h]

theorem isCandidate_iff : isCandidate run = true ↔ run.status = .failed ∧
    run.checkpointManifestUri.isSome = true ∧ run.recordingUri = none := by
  simp [isCandidate, and_assoc]

variable (clock) in
/-- The columns that the transaction of a candidate sets. -/
theorem settled_columns {uri : Uri} {recording : Bytes} {checksum : String}
    (hrun : isCandidate run = true) (h : F.recovery run = some (uri, recording, checksum)) :
    (F.settled clock run).id = run.id ∧ (F.settled clock run).recordingUri = some uri ∧
      (F.settled clock run).recordingSha256 = some checksum ∧
      (F.settled clock run).recordingBytes = some recording.length := by
  obtain ⟨hstatus, -, huri⟩ := isCandidate_iff.mp hrun
  have hopen : ¬(run.recordingUri.isSome = true ∨ run.status ≠ .failed) := by
    simp [huri, hstatus]
  simp only [settled, h, BotRun.finalized, if_neg hopen, BotRun.flushed]
  split_ifs with hsame
  · have hnone := congrArg BotRun.recordingUri hsame
    rw [huri] at hnone
    cases hnone
  · exact ⟨rfl, rfl, rfl, rfl⟩

theorem settled_id : (F.settled clock run).id = run.id := by
  unfold settled BotRun.flushed BotRun.finalized
  split
  · rfl
  · split_ifs <;> rfl

variable (clock) in
theorem not_isCandidate_settled (hrun : isCandidate run = true)
    (h : F.isRecoverable run = true) : isCandidate (F.settled clock run) = false := by
  obtain ⟨⟨uri, recording, checksum⟩, hrec⟩ := Option.isSome_iff_exists.mp h
  obtain ⟨-, huri, -⟩ := settled_columns clock hrun hrec
  simp [isCandidate, huri]

end rows

end Finalizer

end Fakery.Recording
