import Fakery.Recording.Settled

/-! When no operation is under way, a recording that the row names is stored under its checksum,
and a client gets it. -/
namespace Fakery.Recording
open Fakery.Bots Fakery.Concurrent Fakery.Core Fakery.Storage

variable {C : Context} {t : ℕ} {k : Op} {s : Store} {data : Bytes} {α β : Type}

theorem keeps_get (key : Key) : (settling C).Keeps t k (Calm t) (ask (.get key)) := fun _ hs =>
  wp_same (fun _ _ _ _ he => exec_get he) fun _ hr _ => hs.rely hr

theorem keeps_restoreChunks (chunks : List CheckpointChunk) (restored : Bytes) :
    (settling C).Keeps t k (Calm t) (restoreChunks blob C.sha256 chunks restored).run := by
  induction chunks generalizing restored with
  | nil => exact fun s hs => hs
  | cons c cs ih =>
    refine Protocol.Keeps.task_bind ?_ fun object => ?_
    · exact keeps_get c.key
    · cases object with
      | json manifest => exact fun s hs => hs
      | bytes data =>
        by_cases h : C.sha256 data ≠ c.sha256
        · simp only [if_pos h]
          exact fun s hs => hs
        · simp only [if_neg h]
          exact ih _

/-- What is restored comes with its own checksum. -/
theorem wp_restorePrefix (manifestUri : Uri) (h : Calm t s) :
    (settling C).wp t k (restorePrefix blob C.sha256 manifestUri).run (fun r s =>
      Calm t s ∧ ∀ x, r = .ok x → x.2.2 = C.sha256 x.1) s := by
  refine Protocol.wp_task_bind.mpr (Protocol.wp_mono (keeps_get manifestUri.key s h) ?_)
  intro r s₁ h₁
  cases r with
  | error e => exact ⟨h₁, nofun⟩
  | ok object =>
    cases object with
    | bytes data => exact ⟨h₁, nofun⟩
    | json manifest =>
      refine Protocol.wp_task_bind.mpr
        (Protocol.wp_mono (keeps_restoreChunks manifest.chunks [] s₁ h₁) ?_)
      intro r s₂ h₂
      cases r with
      | error e => exact ⟨h₂, nofun⟩
      | ok x =>
        refine ⟨h₂, fun y hy => ?_⟩
        cases Except.ok.inj hy
        rfl

/-- After `restoreRecording` either a put is to be settled or nothing is. -/
theorem wp_restoreRecording (manifestUri : Uri) (h : Calm t s) :
    (settling C).wp t k (restoreRecording C manifestUri) (fun r s => match r with
      | none => Calm t s
      | some (uri, recording, checksum) => uri = ⟨C.bucket, .recording C.bot⟩ ∧
          checksum = C.sha256 recording ∧ HasPut t recording s) s := by
  refine wp_bind.mpr (Protocol.wp_mono (wp_restorePrefix manifestUri h) fun r s₁ h₁ => ?_)
  obtain ⟨h₁, hsum⟩ := h₁
  cases r with
  | error e => exact h₁
  | ok x =>
    obtain ⟨recording, damaged, checksum⟩ := x
    by_cases hr : recording = []
    · simp only [if_pos hr]
      exact h₁
    · simp only [if_neg hr]
      refine wp_bind.mpr (Protocol.wp_mono (wp_put_recording recording h₁) ?_)
      intro r s₂ h₂
      cases r with
      | error e => exact h₂.2 e rfl
      | ok uri =>
        obtain ⟨huri, hput⟩ := h₂.1 uri rfl
        exact ⟨huri, hsum _ rfl, hput⟩

/-- The clock is read between a put and its transaction. -/
theorem wp_utcnow_puts {tx : ℕ → Tx} (htx : ∀ now, (tx now).Puts C data) (h : HasPut t data s) :
    (settling C).wp t k (do
      let now ← ask .utcnow
      ask (.transaction (tx now))) (fun _ => Calm t) s := by
  refine wp_bind.mpr (wp_same (fun _ _ _ _ he => exec_utcnow he) fun s₁ hr now => ?_)
  exact wp_puts (htx now) (h.rely hr)

theorem keeps_recoverCheckpoint : (settling C).Keeps t k (Calm t) (recoverCheckpoint C) := by
  intro s h
  unfold recoverCheckpoint
  by_cases hb : C.hasBlob = true
  · rw [if_pos hb]
    refine wp_bind.mpr (wp_same (fun _ _ _ _ he => exec_readRun he) fun s₁ hr run => ?_)
    have h₁ := h.rely hr
    cases hm : run.checkpointManifestUri with
    | none => exact h₁
    | some manifestUri =>
      by_cases hs : run.status ∉ [.joined, .recording, .processing]
      · simp only [if_pos hs]
        exact h₁
      · simp only [if_neg hs]
        refine wp_bind.mpr (Protocol.wp_mono (wp_restoreRecording manifestUri h₁) fun r s₂ h₂ => ?_)
        cases r with
        | none => exact h₂
        | some x =>
          obtain ⟨uri, recording, checksum⟩ := x
          obtain ⟨rfl, rfl, hput⟩ := h₂
          exact wp_utcnow_puts (fun now => ⟨rfl, rfl⟩) hput
  · rw [if_neg hb]
    exact h

theorem keeps_failRun (code : String) : (settling C).Keeps t k (Calm t) (failRun C code) := by
  refine Protocol.Keeps.bind keeps_recoverCheckpoint fun r => ?_
  cases r with
  | error e => exact fun s h => h
  | ok _ => exact fun s h => wp_plain trivial h

theorem keeps_recoverOnce : (settling C).Keeps t k (Calm t) (recoverOnce C) := by
  intro s h
  refine wp_bind.mpr (wp_same (fun _ _ _ _ he => exec_readRun he) fun s₁ hr run => ?_)
  have h₁ := h.rely hr
  cases hm : run.checkpointManifestUri with
  | none => exact h₁
  | some manifestUri =>
    by_cases hs : run.status ≠ .failed ∨ run.recordingUri.isSome
    · simp only [if_pos hs]
      exact h₁
    · simp only [if_neg hs]
      refine wp_bind.mpr (Protocol.wp_mono (wp_restoreRecording manifestUri h₁) fun r s₂ h₂ => ?_)
      cases r with
      | none => exact h₂
      | some x =>
        obtain ⟨uri, recording, checksum⟩ := x
        obtain ⟨rfl, rfl, hput⟩ := h₂
        have htx : (Tx.finalize ⟨C.bucket, .recording C.bot⟩ (C.sha256 recording) recording.length
            C.retentionDays).Puts C recording := ⟨rfl, rfl⟩
        exact wp_puts htx hput

/-- After `upload` either a put is to be settled or there is no URI. -/
theorem wp_upload (failed : Bool) (h : Calm t s) :
    (settling C).wp t k (upload C data failed) (fun r s =>
      r.1 = none ∧ Calm t s ∨
        r.1 = some ⟨C.bucket, .recording C.bot⟩ ∧ data ≠ [] ∧ HasPut t data s) s := by
  unfold upload
  by_cases hd : data = []
  · rw [if_pos hd]
    exact Or.inl ⟨rfl, h⟩
  · rw [if_neg hd]
    by_cases hb : C.hasBlob = true
    · rw [if_pos hb]
      refine wp_bind.mpr (Protocol.wp_mono (wp_put_recording data h) fun r s₁ h₁ => ?_)
      cases r with
      | error e => exact Or.inl ⟨rfl, h₁.2 e rfl⟩
      | ok uri =>
        obtain ⟨rfl, hput⟩ := h₁.1 uri rfl
        exact Or.inr ⟨rfl, hd, hput⟩
    · rw [if_neg hb]
      exact Or.inl ⟨rfl, h⟩

theorem keeps_persistRecording (checkpointUri : Option Uri) (failed cancelled : Bool) :
    (settling C).Keeps t k (Calm t) (persistRecording C data checkpointUri failed cancelled) := by
  intro s h
  refine wp_bind.mpr (Protocol.wp_mono (wp_upload failed h) fun r s₁ h₁ => ?_)
  obtain ⟨uri, failed⟩ := r
  by_cases hd : data = []
  · simp only [if_pos hd]
    rcases h₁ with ⟨-, h₁⟩ | ⟨-, hne, -⟩
    · exact wp_plain trivial h₁
    · exact absurd hd hne
  · simp only [if_neg hd]
    rcases h₁ with ⟨rfl, h₁⟩ | ⟨rfl, -, hput⟩
    · refine wp_bind.mpr (wp_same (fun _ _ _ _ he => exec_utcnow he) fun s₂ hr now => ?_)
      have h₂ := h₁.rely hr
      refine wp_plain ?_ h₂
      rfl
    · exact wp_utcnow_puts (fun now => ⟨rfl, rfl⟩) hput

theorem keeps_append (w : CheckpointWriter) (data : Bytes) :
    (settling C).Keeps t k (Calm t) (w.append blob C.sha256 data) := by
  intro s h
  unfold CheckpointWriter.append
  by_cases hd : data = []
  · rw [if_pos hd]
    exact h
  · rw [if_neg hd]
    refine wp_bind.mpr (Protocol.wp_mono (wp_put_checkpoint nofun h) fun r s₁ h₁ => ?_)
    cases r with
    | error e => exact h₁
    | ok uri =>
      refine wp_bind.mpr (Protocol.wp_mono (wp_put_checkpoint nofun h₁) fun r s₂ h₂ => ?_)
      cases r with
      | error e => exact h₂
      | ok uri => exact h₂

theorem keeps_checkpoints (blocks : List Bytes) (w : CheckpointWriter) :
    (settling C).Keeps t k (Calm t) (checkpoints C w blocks) := by
  induction blocks generalizing w with
  | nil => exact fun s h => h
  | cons data rest ih =>
    refine Protocol.Keeps.bind (keeps_append w data) fun r => ?_
    obtain ⟨appended, w'⟩ := r
    cases appended with
    | error e => exact ih w'
    | ok manifestUri =>
      cases manifestUri with
      | none => exact ih w'
      | some uri => exact Protocol.Keeps.bind (fun s h => wp_plain trivial h) fun _ => ih w'

theorem keeps_op (op : Op) : (settling C).Keeps t k (Calm t) (op.prog C) := by
  cases op with
  | persistRecording recording checkpointUri failed cancelled =>
    exact Protocol.Keeps.bind (keeps_persistRecording checkpointUri failed cancelled)
      fun _ s h => h
  | failRun code => exact Protocol.Keeps.bind (keeps_failRun code) fun _ s h => h
  | recoverOnce => exact Protocol.Keeps.bind keeps_recoverOnce fun _ s h => h
  | checkpoints blocks => exact keeps_checkpoints blocks _
  | sweepOrphans staleAfter => exact Protocol.Keeps.bind (fun s h => wp_plain trivial h) fun _ s h => h

theorem sound (C : Context) : (settling C).Sound where
  idle hr h := hr.unsettled.trans h
  final hr h := hr.unsettled.trans h
  start hi hidle _ hb := by
    cases Option.some.inj hb
    exact ⟨allowed_refl hi, keeps_op _ _ hidle⟩
  kill {t s} hi hc := by
    have hinv : Inv C (s.settle t) := inv_settle hi fun put hput ht hu => by
      have hs := hc put hput hu
      rw [if_pos ht] at hs
      exact hs.resolve_left nofun
    exact ⟨⟨hinv, fun u hu => rely_settle s.run hu, trivial⟩, calm_settle⟩
  env hi _ he := by
    cases Option.some.inj he
    exact ⟨⟨hi.uri, hi.object, hi.served⟩, fun _ => ⟨rfl, fun _ h _ => h, id⟩⟩

/-- A recording that the row names is stored under its checksum, and a client gets it until it
expires. -/
def Served (sha256 : Bytes → String) (s : Store) : Prop :=
  ∀ uri, s.run.recordingUri = some uri → ∃ data,
    s.objects uri.key = some (.bytes data) ∧ s.run.recordingSha256 = some (sha256 data) ∧
    ∀ now, (∀ expiry ∈ s.run.recordingExpiresAt, now < expiry) →
      (getBotRecording (intact s.objects) sha256 s.run now).run = .ok data

theorem getBotRecording_ok {objects : Objects} {sha256 : Bytes → String} {run : BotRun} {uri : Uri}
    {now : ℕ} (huri : run.recordingUri = some uri) (hobj : objects uri.key = some (.bytes data))
    (hsha : run.recordingSha256 = some (sha256 data))
    (hnow : ∀ expiry ∈ run.recordingExpiresAt, now < expiry) :
    (getBotRecording (intact objects) sha256 run now).run = .ok data := by
  have hexp : run.recordingExpiresAt.any (· ≤ now) = false := by
    cases he : run.recordingExpiresAt with
    | none => rfl
    | some expiry =>
      have hlt := hnow expiry he
      simp only [Option.any_some, decide_eq_false_iff_not]
      omega
  have hget : (intact objects).get uri.key = pure (.bytes data) := by
    simp only [intact, hobj]
  simp [getBotRecording, huri, hexp, hget, hsha]
  rfl

theorem Inv.served_of_calm {s : Store} (hi : Inv C s) (h : ∀ t, s.unsettled t = false) :
    Served C.sha256 s := by
  intro uri huri
  obtain ⟨put, hput, hs⟩ := hi.served uri huri
  have hsha : s.run.recordingSha256 = some (C.sha256 put.2) :=
    hs.resolve_left fun hu => by cases hu.symm.trans (h put.1)
  have hobj : s.objects uri.key = some (.bytes put.2) := by
    rw [hi.uri uri huri]
    exact hi.object put hput
  exact ⟨put.2, hobj, hsha, fun now hnow => getBotRecording_ok huri hobj hsha hnow⟩

/-- A run that has no recording yet, whatever is in the object store. -/
def unrecorded (C : Context) (run : BotRun) (objects : Objects) : (writers C).State :=
  (writers C).init { run := run, objects := objects }

theorem recording_served {run : BotRun} {objects : Objects} {es : List (Event Op Outcome World)}
    {σ : (writers C).State} (h : run.recordingUri = none)
    (hr : (writers C).run (unrecorded C run objects) es = some σ)
    (hc : (settles C).Meets (unrecorded C run objects) es) (hq : (writers C).Quiescent σ) :
    Served C.sha256 σ.shared := by
  have hinit : Inv C { run := run, objects := objects } :=
    ⟨fun _ hu => (by cases h.symm.trans hu), nofun, fun _ hu => (by cases h.symm.trans hu)⟩
  have hs := (sound C).run (Protocol.holds_init hinit fun _ => rfl) hc hr
  exact hs.inv.served_of_calm fun t => hs.final (t := t) hq fun _ => id

/-- A stand-in for the digest that tells the recording and its start apart. -/
def sized (data : Bytes) : String := if data.length = 1 then "start" else "whole"

def example0 : Context where
  bot := 7
  bucket := "twin"
  sha256 := sized
  retentionDays := 1

/-- A run that is recording and has checkpointed its first block. -/
def recordingRun : BotRun :=
  { id := 7, meetingUrl := "https://meet.google.com/abc-defg-hij", meetingKey := "abc-defg-hij"
    idempotencyKey := none, displayName := none, status := .recording, createdAt := 0
    updatedAt := 0, checkpointManifestUri := some ⟨"twin", .manifest 7⟩ }

def checkpointed : Objects
  | .chunk 7 0 => some (.bytes [1])
  | .manifest 7 => some (.json { botId := 7, chunks := describe sized "twin" 7 0 [[1]] })
  | _ => none

def calls (t n : ℕ) : List (Event Op Outcome World) := List.replicate n (.step t { now := 1000 })

def whole (t : ℕ) (k : Op) (n : ℕ) : List (Event Op Outcome World) := .start t k :: calls t n

/-- The whole recording is stored, and then the run fails. -/
def persistedFirst : List (Event Op Outcome World) :=
  whole 0 (.persistRecording [1, 2] (some ⟨"twin", .manifest 7⟩) false false) 3 ++
  whole 1 (.failRun "internal") 7 ++
  whole 2 .recoverOnce 1

/-- The sweeper fails the run, the finalizer stores the checkpoint, and the process that was still
recording stores the whole recording before its transaction is refused. -/
def sweptWhileRecording : List (Event Op Outcome World) :=
  whole 0 (.sweepOrphans 300) 1 ++ whole 1 .recoverOnce 5 ++
  whole 2 (.persistRecording [1, 2] (some ⟨"twin", .manifest 7⟩) false false) 3

/-- What is stored in the end, what the row says, and whether every operation has ended. -/
def outcome (es : List (Event Op Outcome World)) :
    Option (Option Object × Option Uri × Option String × Bool) :=
  ((writers example0).run (unrecorded example0 recordingRun checkpointed) es).map fun σ =>
    (σ.shared.objects (.recording 7), σ.shared.run.recordingUri, σ.shared.run.recordingSha256,
      (es.filterMap Machine.started).all σ.ended)

theorem quiescent_of_outcome {es : List (Event Op Outcome World)} {o : Option Object}
    {uri : Option Uri} {sha : Option String} (h : outcome es = some (o, uri, sha, true)) :
    ∃ σ, (writers example0).run (unrecorded example0 recordingRun checkpointed) es = some σ ∧
      (writers example0).Quiescent σ ∧ σ.shared.objects (.recording 7) = o ∧
      σ.shared.run.recordingUri = uri ∧ σ.shared.run.recordingSha256 = sha := by
  obtain ⟨σ, hr, he⟩ := Option.map_eq_some_iff.mp h
  simp only [Prod.mk.injEq, List.all_eq_true] at he
  obtain ⟨ho, hu, hs, hended⟩ := he
  exact ⟨σ, hr, Machine.quiescent_of_ended hr hended, ho, hu, hs⟩

theorem recording_served_persistedFirst : ∃ σ,
    (writers example0).run (unrecorded example0 recordingRun checkpointed) persistedFirst = some σ ∧
      σ.shared.objects (.recording 7) = some (.bytes [1]) ∧ Served sized σ.shared := by
  have ho : outcome persistedFirst =
      some (some (.bytes [1]), some ⟨"twin", .recording 7⟩, some "start", true) := by
    decide +kernel
  obtain ⟨σ, hr, hq, hobj, -⟩ := quiescent_of_outcome ho
  exact ⟨σ, hr, hobj, recording_served rfl hr (by decide +kernel) hq⟩

/-- Nothing else is asked of the runs here. -/
theorem not_recording_served : ¬∀ es σ, (writers example0).run
    (unrecorded example0 recordingRun checkpointed) es = some σ → (writers example0).Quiescent σ →
      Served sized σ.shared := by
  intro h
  have ho : outcome sweptWhileRecording =
      some (some (.bytes [1, 2]), some ⟨"twin", .recording 7⟩, some "start", true) := by
    decide +kernel
  obtain ⟨σ, hr, hq, hobj, huri, hsha⟩ := quiescent_of_outcome ho
  obtain ⟨data, hdata, hsum, -⟩ := h sweptWhileRecording σ hr hq _ huri
  cases Option.some.inj (hobj.symm.trans hdata)
  have hsame : "start" = sized [1, 2] := Option.some.inj (hsha.symm.trans hsum)
  exact absurd hsame (by decide)

end Fakery.Recording
