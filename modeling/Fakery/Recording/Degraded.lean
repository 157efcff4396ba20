import Fakery.Concurrent.Alone
import Fakery.Recording.Served

/-! What the recovery of a failing run does to a recording that is stored already. -/
namespace Fakery.Recording
open Fakery.Bots Fakery.Concurrent Fakery.Core Fakery.Storage

section conditions

variable (C : Context) (raises : Call → Bool)

/-- Whether a call of the object store raises depends on the call; the clock is free. -/
def Steady (i : Call) (c : Outcome) : Prop := c.raises = raises i

/-- The objects that can be read. -/
def readable (objects : Objects) : Objects :=
  fun key => if raises (.get key) then none else objects key

/-- What a recovery would store as the recording. -/
def recoverable (objects : Objects) (manifestUri : Uri) : Option Bytes :=
  match restored C.sha256 (readable raises objects) manifestUri with
  | .error _ => none
  | .ok (recording, _, _) =>
    if recording = [] ∨ raises (.put (.recording C.bot) (.bytes recording)) = true then none
    else some recording

/-- The columns that describe the recording. -/
def columns (run : BotRun) : Option Uri × Option String × Option ℕ × String × Bool :=
  (run.recordingUri, run.recordingSha256, run.recordingBytes, run.recordingStatus,
    run.recordingPartial)

/-- The recording and its columns are as they were. -/
structure Kept (s s' : Store) : Prop where
  object : s'.objects (.recording C.bot) = s.objects (.recording C.bot)
  columns : columns s'.run = columns s.run

/-- There is nothing to recover, or it is what is stored already. -/
def Harmless (s : Store) : Prop :=
  C.hasBlob = true → s.run.status ∈ [.joined, .recording, .processing] →
    ∀ manifestUri ∈ s.run.checkpointManifestUri,
      ∀ recording ∈ recoverable C raises s.objects manifestUri,
        s.objects (.recording C.bot) = some (.bytes recording) ∧
          (s.down = false → columns s.run = (some ⟨C.bucket, .recording C.bot⟩,
            some (C.sha256 recording), some recording.length, "partial", true))

end conditions

variable {C : Context} {raises : Call → Bool} {t : ℕ} {s s' s'' : Store}

theorem Kept.refl (s : Store) : Kept C s s := ⟨rfl, rfl⟩

theorem Kept.trans_iff (h : Kept C s' s'') : Kept C s s'' ↔ Kept C s s' := by
  constructor
  · intro hk
    exact ⟨h.object.symm.trans hk.object, h.columns.symm.trans hk.columns⟩
  · intro hk
    exact ⟨h.object.trans hk.object, h.columns.trans hk.columns⟩

section reading

/-- Reading from the objects that can be read. -/
theorem alone_get {key : Key} {r : Except Unit Object}
    (h : (writers C).Alone t (Steady raises) (blob.get key).run s s' r) :
    s' = s ∧ r = match readable raises s.objects key with
      | some object => .ok object
      | none => .error () := by
  obtain ⟨c, hc, he⟩ := Machine.alone_ask.mp h
  have hraises : c.raises = raises (.get key) := hc
  simp only [writers, exec, hraises] at he
  rw [readable]
  cases hk : raises (.get key) <;> cases ho : s.objects key <;>
    simp only [ho, hk, if_true, Bool.false_eq_true, if_false, Option.some.injEq,
      Prod.mk.injEq] at he ⊢ <;>
    exact ⟨he.1.symm, he.2.symm⟩

theorem alone_restoreChunks {cs : List CheckpointChunk} {start : Bytes}
    {r : Except Unit (Bytes × Bool)}
    (h : (writers C).Alone t (Steady raises) (restoreChunks blob C.sha256 cs start).run s s' r) :
    s' = s ∧ r = (restoreChunks (intact (readable raises s.objects)) C.sha256 cs start).run := by
  induction cs generalizing start with
  | nil => exact Machine.alone_done.mp h
  | cons c cs ih =>
    simp only [restoreChunks, ExceptT.run_bind] at h
    obtain ⟨s₁, a, hget, hrest⟩ := Machine.alone_bind.mp h
    obtain ⟨rfl, rfl⟩ := alone_get hget
    rw [restoreChunks_cons]
    cases ho : readable raises s₁.objects c.key with
    | none =>
      rw [ho] at hrest
      exact Machine.alone_done.mp hrest
    | some object =>
      rw [ho] at hrest
      cases object with
      | json manifest => exact Machine.alone_done.mp hrest
      | bytes data =>
        simp only at hrest ⊢
        split_ifs at hrest ⊢ with hsha
        · exact Machine.alone_done.mp hrest
        · exact ih hrest

theorem alone_restorePrefix {manifestUri : Uri} {r : Except Unit (Bytes × Bool × String)}
    (h : (writers C).Alone t (Steady raises) (restorePrefix blob C.sha256 manifestUri).run s s' r) :
    s' = s ∧ r = restored C.sha256 (readable raises s.objects) manifestUri := by
  simp only [restorePrefix, ExceptT.run_bind] at h
  obtain ⟨s₁, a, hget, hrest⟩ := Machine.alone_bind.mp h
  obtain ⟨rfl, rfl⟩ := alone_get hget
  rw [restored_eq]
  cases ho : readable raises s₁.objects manifestUri.key with
  | none =>
    rw [ho] at hrest
    exact Machine.alone_done.mp hrest
  | some object =>
    rw [ho] at hrest
    cases object with
    | bytes data => exact Machine.alone_done.mp hrest
    | json manifest =>
      simp only [ExceptT.run_bind] at hrest ⊢
      obtain ⟨s₂, b, hchunks, hend⟩ := Machine.alone_bind.mp hrest
      obtain ⟨rfl, rfl⟩ := alone_restoreChunks hchunks
      cases hrun : (restoreChunks (intact (readable raises s₂.objects)) C.sha256
          manifest.chunks []).run with
      | error e =>
        rw [hrun] at hend
        exact Machine.alone_done.mp hend
      | ok answer =>
        rw [hrun] at hend
        exact Machine.alone_done.mp hend

/-- Where there is something to recover, it becomes the recording. -/
theorem alone_restoreRecording {manifestUri : Uri} {r : Option (Uri × Bytes × String)}
    (h : (writers C).Alone t (Steady raises) (restoreRecording C manifestUri) s s' r) :
    recoverable C raises s.objects manifestUri = none ∧ s' = s ∧ r = none ∨
      ∃ recording, recoverable C raises s.objects manifestUri = some recording ∧
        s' = s.store t (.recording C.bot) (.bytes recording) ∧
        r = some (⟨C.bucket, .recording C.bot⟩, recording, C.sha256 recording) := by
  obtain ⟨s₁, a, hread, hrest⟩ := Machine.alone_bind.mp h
  obtain ⟨rfl, ha⟩ := alone_restorePrefix hread
  rw [recoverable, ← ha]
  cases a with
  | error e =>
    obtain ⟨rfl, rfl⟩ := Machine.alone_done.mp hrest
    exact Or.inl ⟨rfl, rfl, rfl⟩
  | ok answer =>
    obtain ⟨recording, damaged, checksum⟩ := answer
    by_cases hempty : recording = []
    · simp only [hempty, if_true] at hrest
      obtain ⟨rfl, rfl⟩ := Machine.alone_done.mp hrest
      simp [hempty]
    · simp only [hempty, if_false] at hrest
      obtain ⟨s₂, b, hput, hend⟩ := Machine.alone_bind.mp hrest
      obtain ⟨c, hc, he⟩ := Machine.alone_ask.mp hput
      have hraises : c.raises = raises (.put (.recording C.bot) (.bytes recording)) := hc
      cases hk : raises (.put (.recording C.bot) (.bytes recording)) with
      | true =>
        simp only [writers, exec, hraises, hk, if_true, Option.some.injEq, Prod.mk.injEq] at he
        obtain ⟨rfl, rfl⟩ := he
        obtain ⟨rfl, rfl⟩ := Machine.alone_done.mp hend
        simp [hk]
      | false =>
        simp only [writers, exec, hraises, hk, Bool.false_eq_true, if_false, Option.some.injEq,
          Prod.mk.injEq] at he
        obtain ⟨rfl, rfl⟩ := he
        obtain ⟨rfl, rfl⟩ := Machine.alone_done.mp hend
        have hsum := restored_checksum ha.symm
        simp [hempty, hk, hsum]

end reading

section rows

variable {run run' : BotRun} {now : ℕ} {code : String}

theorem columns_advance {target : BotStatus} (h : run.advance target now = .ok run') :
    columns run' = columns run := by
  rcases BotRun.advance_ok h with ⟨rfl, -⟩ | ⟨rfl, -⟩ <;> rfl

theorem columns_failRun (h : run.failRun code now = .ok run') : columns run' = columns run := by
  unfold BotRun.failRun at h
  split_ifs at h with ht
  · cases Except.ok.inj h
    rfl
  · have hs : columns run' = columns (run.failing code) := columns_advance h
    exact hs

theorem columns_flushed (loaded : BotRun) (moment : ℕ) (run : BotRun) :
    columns (BotRun.flushed loaded moment run) = columns run :=
  BotRun.flushed_column (fun _ _ => rfl) loaded moment run

end rows

theorem alone_tx_failRun {code : String} {r : Except TwinError Unit}
    (h : (writers C).Alone t (Steady raises) (ask (.transaction (.failRun code))) s s' r) :
    Kept C s s' := by
  obtain ⟨c, -, he⟩ := Machine.alone_ask.mp h
  simp only [writers, exec, Tx.apply] at he
  split_ifs at he with hdown
  · cases he
    exact ⟨rfl, rfl⟩
  · cases hrun : s.run.failRun code c.now with
    | error e =>
      simp only [hrun] at he
      cases he
      exact ⟨rfl, rfl⟩
    | ok run =>
      simp only [hrun] at he
      cases he
      exact ⟨rfl, (columns_flushed ..).trans (columns_failRun hrun)⟩

theorem alone_tx_storeRecovered {artifact : RecordingArtifact} {r : Except TwinError Unit}
    (h : (writers C).Alone t (Steady raises) (ask (.transaction (.storeRecovered artifact)))
      s s' r) :
    s'.objects = s.objects ∧
      (s.down = true → columns s'.run = columns s.run) ∧
      (s.down = false → columns s'.run = (artifact.uri, some artifact.sha256,
        some artifact.size, artifact.status, artifact.partialRecording)) := by
  obtain ⟨c, -, he⟩ := Machine.alone_ask.mp h
  simp only [writers, exec, Tx.apply] at he
  split_ifs at he with hdown
  · cases he
    exact ⟨rfl, fun _ => rfl, fun hf => absurd hdown (by simp [hf])⟩
  · cases he
    exact ⟨rfl, fun ht => absurd ht hdown, fun _ => columns_flushed ..⟩

/-- The recovery keeps what is stored exactly if it is harmless. -/
theorem recoverCheckpoint_kept_iff {r : Except TwinError Unit}
    (h : (writers C).Alone t (Steady raises) (recoverCheckpoint C) s s' r) :
    Kept C s s' ↔ Harmless C raises s := by
  unfold recoverCheckpoint at h
  split_ifs at h with hblob
  · obtain ⟨s₁, run, hread, h⟩ := Machine.alone_bind.mp h
    obtain ⟨c, -, he⟩ := Machine.alone_ask.mp hread
    cases he
    cases hm : s.run.checkpointManifestUri with
    | none =>
      simp only [hm] at h
      obtain ⟨rfl, -⟩ := Machine.alone_done.mp h
      exact iff_of_true (.refl s') (by simp [Harmless, hm])
    | some manifestUri =>
      simp only [hm] at h
      split_ifs at h with hstatus
      · obtain ⟨s₂, restored, hrestore, h⟩ := Machine.alone_bind.mp h
        rcases alone_restoreRecording hrestore with ⟨hnone, rfl, rfl⟩ | ⟨recording, hsome, rfl, rfl⟩
        · obtain ⟨rfl, -⟩ := Machine.alone_done.mp h
          exact iff_of_true (.refl s') (by simp [Harmless, hm, hnone])
        · obtain ⟨s₃, now, htime, h⟩ := Machine.alone_bind.mp h
          obtain ⟨c, -, he⟩ := Machine.alone_ask.mp htime
          cases he
          obtain ⟨hobjects, hdown, hup⟩ := alone_tx_storeRecovered h
          have hobject : s'.objects (.recording C.bot) = some (.bytes recording) := by
            rw [hobjects]
            exact Function.update_self ..
          constructor
          · intro hkept
            simp only [Harmless, hm, hsome, Option.mem_some_iff, forall_eq']
            exact fun _ _ => ⟨hkept.object.symm.trans hobject,
              fun hd => hkept.columns.symm.trans (hup hd)⟩
          · intro hharm
            obtain ⟨hsame, hcolumns⟩ := hharm hblob hstatus manifestUri hm recording hsome
            refine ⟨hobject.trans hsame.symm, ?_⟩
            cases hd : s.down with
            | true => exact hdown hd
            | false => exact (hup hd).trans (hcolumns hd).symm
      · obtain ⟨rfl, -⟩ := Machine.alone_done.mp h
        exact iff_of_true (.refl s') (fun _ hs => absurd hs hstatus)
  · obtain ⟨rfl, -⟩ := Machine.alone_done.mp h
    exact iff_of_true (.refl s') (fun hb => absurd hb hblob)

variable (C raises) in
/-- A failing run keeps a recording that is stored, exactly if its recovery is harmless. -/
theorem failRun_kept_iff {code : String} {r : Except TwinError Unit}
    (h : (writers C).Alone t (Steady raises) (failRun C code) s s' r) :
    Kept C s s' ↔ Harmless C raises s := by
  obtain ⟨s₁, recovered, hrecover, h⟩ := Machine.alone_bind.mp h
  rw [← recoverCheckpoint_kept_iff hrecover]
  cases recovered with
  | error e =>
    obtain ⟨rfl, -⟩ := Machine.alone_done.mp h
    rfl
  | ok recovered => exact (alone_tx_failRun h).trans_iff

def queuedRun : BotRun :=
  { id := 7, meetingUrl := "https://meet.google.com/abc-defg-hij", meetingKey := "abc-defg-hij"
    idempotencyKey := none, displayName := none, status := .queued, createdAt := 0
    updatedAt := 0 }

/-- A queued run gets into its meeting, is checkpointed once and has its recording stored. -/
def uploaded : Option Store := do
  let joining ← (queuedRun.advance .joining 1).toOption
  let joined ← (joining.advance .joined 2).toOption
  let recording ← (joined.advance .recording 3).toOption
  let σ ← (writers example0).run (unrecorded example0 recording fun _ => none)
    (whole 0 (.checkpoints [[1]]) 3 ++
      whole 1 (.persistRecording [1, 2] (some ⟨"twin", .manifest 7⟩) false false) 3)
  pure σ.shared

/-- Then its summary fails. -/
def failedLater : Option (Store × Store × Except TwinError Unit) := do
  let s ← uploaded
  let (s', r) ← (writers example0).alone 2 (fun _ => {}) (failRun example0 "internal") s
  pure (s, s', r)

theorem failedLater_isSome : (failedLater.any fun (s, s', _) =>
    s.run.recordingUri = some ⟨"twin", .recording 7⟩ ∧
      s.objects (.recording 7) = some (.bytes [1, 2]) ∧ s.run.recordingStatus = "ready" ∧
      s'.objects (.recording 7) = some (.bytes [1]) ∧ s'.run.recordingStatus = "partial") = true := by
  decide +kernel

theorem failedLater_alone {s s' : Store} {r : Except TwinError Unit}
    (h : failedLater = some (s, s', r)) : uploaded = some s ∧
      (writers example0).Alone 2 (Steady fun _ => false) (failRun example0 "internal") s s' r := by
  simp only [failedLater, bind, Option.bind_eq_some_iff] at h
  obtain ⟨s₁, hs, ⟨s₂, r'⟩, hrun, h⟩ := h
  cases h
  have hsteady : ∀ i, Steady (fun _ => false) i {} := fun _ => rfl
  exact ⟨hs, .of_alone hsteady hrun⟩

theorem failRun_kept_iff_failedLater : ∃ s s', uploaded = some s ∧
    (Kept example0 s s' ↔ Harmless example0 (fun _ => false) s) := by
  obtain ⟨⟨s, s', r⟩, h, -⟩ := (Option.any_eq_true _ _).mp failedLater_isSome
  obtain ⟨hs, hrun⟩ := failedLater_alone h
  exact ⟨s, s', hs, failRun_kept_iff example0 (fun _ => false) hrun⟩

/-- The whole recording is replaced by its first checkpoint. -/
theorem not_failRun_kept : ∃ s s' r, uploaded = some s ∧
    s.run.recordingUri = some ⟨"twin", .recording 7⟩ ∧
    (writers example0).Alone 2 (Steady fun _ => false) (failRun example0 "internal") s s' r ∧
    ¬Kept example0 s s' := by
  obtain ⟨⟨s, s', r⟩, h, hany⟩ := (Option.any_eq_true _ _).mp failedLater_isSome
  obtain ⟨hs, hrun⟩ := failedLater_alone h
  obtain ⟨huri, hwhole, -, hstart, -⟩ := of_decide_eq_true hany
  refine ⟨s, s', r, hs, huri, hrun, fun hkept => ?_⟩
  have hsame := (hstart.symm.trans hkept.object).trans hwhole
  exact absurd hsame (by decide)

end Fakery.Recording
