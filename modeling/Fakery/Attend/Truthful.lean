import Fakery.Attend.Survival

/-! What the statuses of a completed run say about its artifacts, and what has become of these. -/
namespace Fakery.Attend
open Fakery.Bots Fakery.Core Fakery.Notes Fakery.Sequential Fakery.Storage Fakery.Transcription

variable {C : Environment} {s s' : Meeting} {γ : Type} {g : BotRun → γ}

/-- There is no transcript without a transcriber at work. -/
def disableTranscription (C : Environment) : Act Unit :=
  if C.activeTranscriber.isNone then setArtifactStatus C .transcription "disabled" none else pure ()

/-- `attend` of a bot that is let in. `manifests` are the checkpoints that are committed. -/
def attendAdmitted (C : Environment) (manifests : List Uri) : Act Unit := do
  transaction C fun now run => run.advance .joining now
  transaction C fun now run => run.advance .joined now
  transaction C fun now run => run.advance .recording now
  disableTranscription C
  Fallible.forEach (fun uri => transaction C fun _ run => .ok (run.checkpointed uri)) manifests
  attendFromEnd C

/-- A row as `create_or_get` has left it. -/
structure Created (run : BotRun) : Prop where
  status : run.status = .queued
  recording : run.recordingStatus = "pending"
  transcription : run.transcriptionStatus = "pending"
  notes : run.notesStatus = "pending"
  finalization : run.finalizationStatus = "pending"

/-- The recording is in the store, and the row says where. -/
structure Uploaded (C : Environment) (s : Meeting) : Prop where
  object : s.objects (.recording C.bot) = some (.bytes C.recording)
  uri : s.run.recordingUri = some ⟨C.bucket, .recording C.bot⟩

structure Truthful (C : Environment) (s : Meeting) : Prop where
  settled : ∀ status ∈ [s.run.recordingStatus, s.run.transcriptionStatus, s.run.notesStatus,
    s.run.finalizationStatus], status ∉ ["pending", "checkpointed"]
  silence : s.run.transcriptionStatus = "silence" → s.segments = []
  ready : s.run.finalizationStatus = "ready" →
    C.recording = [] ∨ Uploaded C s ∧ C.checkpointFailed = false

/-- Nothing that comes after the meeting raises. -/
structure Completes (C : Environment) : Prop where
  finalizes : Finalizes C
  leave : C.leaveRaises = false
  readable : C.shutdown = true ∨ C.cancelKey ≠ some none

/-- A transcriber at work on an empty recording raises, and one that counts no finals, on a recording
whose batch is empty, has handed no segment over. -/
structure Transcribes (C : Environment) : Prop where
  empty : ∀ t, C.activeTranscriber = some t → C.recording = [] → t.liveEnd = .raised
  silent : ∀ t, C.activeTranscriber = some t → C.recording ≠ [] → t.batch = some [] →
    t.liveEnd.result.finals = 0 → t.segments = []

/-- The recording is uploaded, and no flush of a checkpoint has failed. -/
def Stores (C : Environment) : Prop :=
  C.recording = [] ∨ Uploads C ∧ C.checkpointFailed = false

section frames

/-- A column of the row stays as it is. -/
def SameColumn (g : BotRun → γ) (s s' : Meeting) : Prop := g s'.run = g s.run

theorem SameColumn.trans {s'' : Meeting} (h : SameColumn g s s') (h' : SameColumn g s' s'') :
    SameColumn g s s'' :=
  Eq.trans h' h

/-- So does the transcript. -/
def Keeps (g : BotRun → γ) (s s' : Meeting) : Prop :=
  SameColumn g s s' ∧ s'.segments = s.segments

theorem Keeps.refl (g : BotRun → γ) (s : Meeting) : Keeps g s s := ⟨rfl, rfl⟩

theorem Keeps.trans {s'' : Meeting} (h : Keeps g s s') (h' : Keeps g s' s'') : Keeps g s s'' :=
  ⟨h.1.trans h'.1, h'.2.trans h.2⟩

/-- A column that the time of an update is no part of. -/
def Untimed (g : BotRun → γ) : Prop := ∀ run moment, g (BotRun.touched moment run) = g run

theorem Untimed.flushed (hg : Untimed g) (loaded : BotRun) (moment : ℕ) (run : BotRun) :
    g (BotRun.flushed loaded moment run) = g run :=
  BotRun.flushed_column hg loaded moment run

theorem transaction_column {f : ℕ → BotRun → Except TwinError BotRun} {run' : BotRun}
    (hg : Untimed g) (h : f (C.draw s.drawn) s.run = .ok run') :
    g (transaction C f s).2.run = g run' := by
  rw [transaction_ok h]
  exact hg.flushed _ _ _

theorem keeps_transaction {f : ℕ → BotRun → Except TwinError BotRun} (hg : Untimed g)
    (hf : ∀ now run run', f now run = .ok run' → g run' = g run) :
    Fallible.Leaves (Keeps g) (transaction C f) := by
  intro s
  cases h : f (C.draw s.drawn) s.run with
  | ok run' =>
    rw [transaction_ok h]
    exact ⟨(hg.flushed _ _ _).trans (hf _ _ _ h), rfl⟩
  | error e =>
    rw [transaction_error h]
    exact ⟨rfl, rfl⟩

/-- A column that a transition of the run is no part of. -/
theorem column_advance {run run' : BotRun} {target : BotStatus} {now : ℕ}
    (hg : ∀ run : BotRun, g (run.advanced target now) = g run)
    (h : run.advance target now = .ok run') : g run' = g run := by
  rcases BotRun.advance_ok h with ⟨rfl, -⟩ | ⟨rfl, -⟩
  · rfl
  · exact hg run

end frames

section transcription

theorem setArtifactStatus_transcription (status : String) (error : Option String) (s : Meeting) :
    ∃ s', setArtifactStatus C .transcription status error s = (.ok (), s') ∧
      s'.run.transcriptionStatus = status ∧ s'.segments = s.segments := by
  have hg : Untimed fun run => run.transcriptionStatus := fun _ _ => rfl
  exact ⟨_, transaction_ok rfl, hg.flushed _ _ _, rfl⟩

/-- The live task leaves a status of its own only where its stream has raised. -/
theorem transcribeLive_transcription (h : Distinct C s) (t : Transcriber)
    (hclose : t.closeRaises = false) : ∃ s', transcribeLive C t s = (.ok t.liveEnd.result, s') ∧
      s'.run.status = s.run.status ∧ Distinct C s' ∧
      (t.liveEnd = .raised ∧ s'.run.transcriptionStatus = "provider-failed" ∨
        t.liveEnd ≠ .raised ∧ s'.run.transcriptionStatus = s.run.transcriptionStatus) ∧
      (s.segments = [] → (s'.segments = [] ↔ t.segments = [])) := by
  obtain ⟨s₁, hfirst, hs₁⟩ := forEach_ingest h t.segments
  have hrun : s₁.run = s.run := by rw [hs₁.same]
  have hempty : s.segments = [] → (s₁.segments = [] ↔ t.segments = []) := by
    intro hnone
    constructor
    · intro hs
      rw [List.eq_nil_iff_forall_not_mem]
      intro segment hsegment
      obtain ⟨row, hrow, -⟩ := hs₁.present segment hsegment
      rw [hs] at hrow
      cases hrow
    · intro ht
      obtain ⟨rows, hrows, hadded⟩ := hs₁.added
      rw [hrows, hnone, List.nil_append, List.eq_nil_iff_forall_not_mem]
      intro row hrow
      obtain ⟨segment, hsegment, -⟩ := hadded row hrow
      rw [ht] at hsegment
      cases hsegment
  obtain ⟨s', hquiet, hdistinct, hlive⟩ := transcribeLive_eq h t
  rw [hclose, if_neg Bool.false_ne_true] at hlive
  refine ⟨s', hlive, hquiet.status, hdistinct, ?_⟩
  unfold transcribeLive at hlive
  rw [Fallible.bind_ok hfirst, hclose] at hlive
  cases hend : t.liveEnd with
  | returned finals =>
    rw [hend] at hlive
    cases hlive
    exact ⟨Or.inr ⟨nofun, congrArg _ hrun⟩, hempty⟩
  | raised =>
    obtain ⟨s₂, hset, hstatus, hsegments⟩ :=
      setArtifactStatus_transcription (C := C) "provider-failed" (some "live-failed") s₁
    rw [hend] at hlive
    have hbind := Fallible.bind_ok (f := fun _ => (pure { error := some "live-failed" } :
      Act LiveTranscriptionResult)) hset
    have hs' : s' = s₂ := (congrArg Prod.snd ((Fallible.bind_ok hbind).symm.trans hlive)).symm
    subst hs'
    refine ⟨Or.inl ⟨rfl, hstatus⟩, ?_⟩
    rw [hsegments]
    exact hempty
  | drainTimeout =>
    rw [hend] at hlive
    cases hlive
    exact ⟨Or.inr ⟨nofun, congrArg _ hrun⟩, hempty⟩

/-- A batch that is merged makes the transcript ready. -/
theorem mergeBatch_transcription (h : Distinct C s) (live : LiveTranscriptionResult)
    (batch : List Segment) : (mergeBatch C live batch s).2.run.transcriptionStatus = "ready" := by
  obtain ⟨s₁, hingest, hs₁⟩ := forEach_ingest h (merged live batch s)
  obtain ⟨s₂, hset, hstatus, -⟩ :=
    setArtifactStatus_transcription (C := C) "ready" live.error s₁
  have hannotate : ∀ segments, (annotateSegments C segments s₂).2.run = s₂.run := by
    intro segments
    unfold annotateSegments
    cases confidentSplit segments with
    | none => rfl
    | some confident => cases confident <;> rfl
  have huncovered : (if live.finals ≠ 0 ∧ batch ≠ [] then do
      let current ← transcript
      pure (uncoveredBatchSegments (current.map toSegment) batch)
    else pure batch : Act (List Segment)) s = (.ok (merged live batch s), s) := by
    unfold merged
    split_ifs <;> rfl
  unfold mergeBatch
  rw [Fallible.bind_ok huncovered, Fallible.bind_ok hingest, Fallible.bind_ok hset]
  split_ifs
  · rw [hannotate]
    exact hstatus
  · exact hstatus

/-- What a transcript says of itself when all is over. -/
def Spoken (s : Meeting) : Prop :=
  s.run.transcriptionStatus ∉ ["pending", "checkpointed"] ∧
    (s.run.transcriptionStatus = "silence" → s.segments = [])

theorem spoken_of_status (status : String) (h : s.run.transcriptionStatus = status)
    (hstatus : status ∉ ["pending", "checkpointed", "silence"]) : Spoken s := by
  simp only [List.mem_cons, List.not_mem_nil, or_false, not_or] at hstatus
  unfold Spoken
  rw [h]
  refine ⟨?_, fun hsilence => absurd hsilence hstatus.2.2⟩
  simp [hstatus.1, hstatus.2.1]

/-- The batch of a recording that is not empty. -/
theorem finalizeTranscript_spoken {live : LiveTranscriptionResult} (h : Distinct C s)
    (t : Transcriber) (ht : C.activeTranscriber = some t) (hrecording : C.recording ≠ []) :
    Spoken (finalizeTranscript C live s).2 ↔
      (t.batch = some [] → live.finals = 0 → s.segments = []) := by
  unfold finalizeTranscript
  rw [ht]
  dsimp only
  rw [if_neg hrecording]
  cases hbatch : t.batch with
  | none =>
    obtain ⟨s', hset, hstatus, -⟩ :=
      setArtifactStatus_transcription (C := C) "provider-failed" (some "batch-failed") s
    dsimp only
    rw [hset]
    constructor
    · intro _ hsome
      cases hsome
    · intro _
      exact spoken_of_status _ hstatus (by decide)
  | some batch =>
    dsimp only
    split_ifs with hsilence
    · obtain ⟨s', hset, hstatus, hsegments⟩ :=
        setArtifactStatus_transcription (C := C) "silence" live.error s
      rw [hset]
      constructor
      · intro hspoken _ _
        exact hsegments.symm.trans (hspoken.2 hstatus)
      · intro hempty
        refine ⟨?_, fun _ => ?_⟩
        · rw [hstatus]
          decide
        · rw [hsegments]
          exact hempty (congrArg some hsilence.2) hsilence.1
    · constructor
      · intro _ hempty hfinals
        exact absurd ⟨hfinals, Option.some.inj hempty⟩ hsilence
      · intro _
        exact spoken_of_status _ (mergeBatch_transcription h live batch) (by decide)

/-- The transcript at the end of the meeting, from a row whose status is still the first one. -/
theorem finalizeMeeting_spoken (h : Distinct C s) (hsegments : s.segments = [])
    (hstatus : s.run.transcriptionStatus =
      if C.activeTranscriber.isNone then "disabled" else "pending")
    (hclose : ∀ t, C.activeTranscriber = some t → t.closeRaises = false) :
    Spoken (finalizeMeeting C s).2 ↔ Transcribes C := by
  cases ht : C.activeTranscriber with
  | none =>
    rw [ht, Option.isNone_none, if_pos rfl] at hstatus
    have hawait : awaitTranscript C s = (.ok {}, s) := by
      unfold awaitTranscript
      rw [ht]
      rfl
    have htranscribes : Transcribes C := by
      constructor
      · intro t hsome
        cases ht.symm.trans hsome
      · intro t hsome
        cases ht.symm.trans hsome
    have hspoken : Spoken (finalizeMeeting C s).2 := by
      unfold finalizeMeeting
      rw [Fallible.bind_ok hawait]
      unfold finalizeTranscript
      rw [ht]
      dsimp only
      split_ifs
      · obtain ⟨s', hset, hdisabled, -⟩ :=
          setArtifactStatus_transcription (C := C) "disabled" none s
        rw [hset]
        exact spoken_of_status _ hdisabled (by decide)
      · exact spoken_of_status _ hstatus (by decide)
    exact iff_of_true hspoken htranscribes
  | some t =>
    rw [ht, Option.isNone_some, if_neg Bool.false_ne_true] at hstatus
    obtain ⟨s₁, hlive, -, hdistinct, hraised, hempty⟩ :=
      transcribeLive_transcription h t (hclose t ht)
    have hawait : awaitTranscript C s = (.ok t.liveEnd.result, s₁) := by
      unfold awaitTranscript
      rw [ht]
      exact hlive
    have hbind : finalizeMeeting C s = finalizeTranscript C t.liveEnd.result s₁ :=
      Fallible.bind_ok hawait
    rw [hbind]
    by_cases hrecording : C.recording = []
    · have hnothing : finalizeTranscript C t.liveEnd.result s₁ = (.ok (), s₁) := by
        unfold finalizeTranscript
        rw [ht]
        dsimp only
        rw [if_pos hrecording]
        rfl
      rw [hnothing]
      constructor
      · intro hspoken
        rcases hraised with ⟨hend, -⟩ | ⟨-, hpending⟩
        · refine ⟨fun t' hsome _ => ?_, fun t' _ hne => absurd hrecording hne⟩
          cases ht.symm.trans hsome
          exact hend
        · refine absurd ?_ hspoken.1
          rw [hpending, hstatus]
          decide
      · intro htranscribes
        rcases hraised with ⟨-, hfailed⟩ | ⟨hend, -⟩
        · exact spoken_of_status _ hfailed (by decide)
        · exact absurd (htranscribes.empty t ht hrecording) hend
    · rw [finalizeTranscript_spoken hdistinct t ht hrecording]
      constructor
      · intro hsilent
        refine ⟨fun t' _ hnone => absurd hnone hrecording, fun t' hsome _ hbatch hfinals => ?_⟩
        cases ht.symm.trans hsome
        exact (hempty hsegments).mp (hsilent hbatch hfinals)
      · intro htranscribes hbatch hfinals
        exact (hempty hsegments).mpr (htranscribes.silent t ht hrecording hbatch hfinals)

theorem sameColumn_setArtifactStatus (hg : Untimed g) (htranscription : ∀ run status error,
    g (BotRun.withArtifactStatus .transcription status error run) = g run) (status : String)
    (error : Option String) :
    Fallible.Leaves (SameColumn g) (setArtifactStatus C .transcription status error) := by
  intro s
  refine (keeps_transaction hg ?_ s).1
  intro now run run' h
  cases Except.ok.inj h
  exact htranscription run status error

theorem sameColumn_ingest (g : BotRun → γ) (segments : List Segment) :
    Fallible.Leaves (SameColumn g) (Fallible.forEach (ingestSegment C) segments) := by
  refine Fallible.Leaves.forEach (R := SameColumn g) (fun _ => rfl) SameColumn.trans
    (fun segment => ?_) segments
  have hone : ∀ rows, Fallible.Leaves (SameColumn g) (scalarOneOrNone rows)
    | [] | [_] | _ :: _ :: _ => fun _ => rfl
  have hread : Fallible.Leaves (SameColumn g) (Fallible.read fun s : Meeting =>
      s.segments.filter (Db.sameSegment C.bot segment) : Act _) := fun _ => rfl
  have hfind : Fallible.Leaves (SameColumn g) (findSegment C segment) :=
    hread.bind SameColumn.trans hone
  refine hfind.bind SameColumn.trans fun row => ?_
  cases row <;> exact fun _ => rfl

theorem sameColumn_awaitTranscript (hg : Untimed g) (htranscription : ∀ run status error,
    g (BotRun.withArtifactStatus .transcription status error run) = g run) :
    Fallible.Leaves (SameColumn g) (awaitTranscript C) := by
  unfold awaitTranscript
  cases C.activeTranscriber with
  | none => exact fun _ => rfl
  | some t =>
    refine (sameColumn_ingest g _).bind SameColumn.trans fun _ => ?_
    refine Fallible.Leaves.bind SameColumn.trans ?_ fun result => ?_
    · cases t.liveEnd with
      | returned finals => exact fun _ => rfl
      | raised =>
        exact (sameColumn_setArtifactStatus hg htranscription _ _).bind SameColumn.trans
          fun _ _ => rfl
      | drainTimeout => exact fun _ => rfl
    · split_ifs <;> exact fun _ => rfl

theorem sameColumn_mergeBatch (hg : Untimed g) (htranscription : ∀ run status error,
    g (BotRun.withArtifactStatus .transcription status error run) = g run)
    (live : LiveTranscriptionResult) (batch : List Segment) :
    Fallible.Leaves (SameColumn g) (mergeBatch C live batch) := by
  refine Fallible.Leaves.bind SameColumn.trans ?_ fun uncovered => ?_
  · split_ifs <;> exact fun _ => rfl
  · refine (sameColumn_ingest g _).bind SameColumn.trans fun _ => ?_
    refine (sameColumn_setArtifactStatus hg htranscription _ _).bind SameColumn.trans fun _ => ?_
    split_ifs
    · unfold annotateSegments
      cases confidentSplit batch with
      | none => exact fun _ => rfl
      | some confident => cases confident <;> exact fun _ => rfl
    · exact fun _ => rfl

/-- The end of a meeting leaves the other columns of the row alone. -/
theorem sameColumn_finalizeMeeting (hg : Untimed g) (htranscription : ∀ run status error,
    g (BotRun.withArtifactStatus .transcription status error run) = g run) :
    Fallible.Leaves (SameColumn g) (finalizeMeeting C) := by
  have hset := sameColumn_setArtifactStatus (C := C) hg htranscription
  refine (sameColumn_awaitTranscript hg htranscription).bind SameColumn.trans fun live => ?_
  unfold finalizeTranscript
  cases C.activeTranscriber with
  | none =>
    dsimp only
    split_ifs
    · exact hset _ _
    · exact fun _ => rfl
  | some t =>
    dsimp only
    split_ifs
    · exact fun _ => rfl
    · cases t.batch with
      | none => exact hset _ _
      | some batch =>
        dsimp only
        split_ifs
        · exact hset _ _
        · exact sameColumn_mergeBatch hg htranscription _ _

end transcription

section completion

theorem keeps_persistRecording (hg : Untimed g)
    (hadvance : ∀ (run : BotRun) now, g (run.advanced .processing now) = g run)
    (hrecorded : ∀ (run : BotRun) artifact, g (run.recorded artifact) = g run) :
    Fallible.Leaves (Keeps g) (persistRecording C) := by
  have hupload : Fallible.Leaves (Keeps g) (upload C) := by
    unfold upload
    split_ifs <;> exact fun _ => ⟨rfl, rfl⟩
  have hdraw : Fallible.Leaves (Keeps g) (draw C) := fun _ => ⟨rfl, rfl⟩
  refine hupload.bind Keeps.trans fun _ => hdraw.bind Keeps.trans fun _ => keeps_transaction hg ?_
  intro now run run' h
  unfold BotRun.persisted at h
  split at h
  · exact (column_advance (fun run => hadvance run now) h).trans (hrecorded _ _)
  · exact column_advance (fun run => hadvance run now) h

/-- The status of the recording once it is stored. -/
theorem persistRecording_recordingStatus (h : s.run.status = .recording) :
    (C.recording = [] →
      (persistRecording C s).2.run.recordingStatus = s.run.recordingStatus) ∧
    (C.recording ≠ [] →
      (persistRecording C s).2.run.recordingStatus ∈ ["degraded", "partial", "ready"]) := by
  have hg : Untimed fun run => run.recordingStatus := fun _ _ => rfl
  obtain ⟨uri, failed, s₁, hupload, hrun, -, -⟩ := upload_eq (C := C) s
  have hstatus : s₁.run.status = .recording := by
    rw [hrun]
    exact h
  unfold persistRecording
  rw [Fallible.bind_ok hupload]
  dsimp only
  rw [Fallible.bind_ok (draw_eq s₁)]
  by_cases hrecording : C.recording = []
  · rw [if_pos hrecording]
    refine ⟨fun _ => ?_, fun hne => absurd hrecording hne⟩
    have hcolumn := transaction_column (C := C) (s := { s₁ with drawn := s₁.drawn + 1 })
      (f := fun now run => run.persisted none now) hg
      (advance_of_canTransition (by simp [hstatus, BotStatus.terminal])
        (by simp [hstatus, canTransition, allowed]))
    exact hcolumn.trans (congrArg (fun run => run.recordingStatus) hrun)
  · rw [if_neg hrecording]
    refine ⟨fun hnone => absurd hnone hrecording, fun _ => ?_⟩
    let artifact : RecordingArtifact :=
      { uri := uri
        sha256 := C.sha256 C.recording
        size := C.recording.length
        status := if failed then "degraded" else if C.cancelled then "partial" else "ready"
        partialRecording := C.cancelled || failed
        expiresAt := C.draw s₁.drawn + C.retentionDays * 86400
        checkpointManifestUri := C.checkpointUri }
    have hcolumn := transaction_column (C := C) (s := { s₁ with drawn := s₁.drawn + 1 })
      (f := fun now run => run.persisted (some artifact) now) hg
      (advance_of_canTransition (by simp [BotRun.recorded, hstatus, BotStatus.terminal])
        (by simp [BotRun.recorded, hstatus, canTransition, allowed]))
    have hstored : artifact.status ∈ ["degraded", "partial", "ready"] := by
      dsimp only [artifact]
      split_ifs <;> decide
    exact Eq.mpr (congrArg (· ∈ ["degraded", "partial", "ready"]) hcolumn) hstored

theorem leaves_attemptSummary {R : Meeting → Meeting → Prop}
    (h : ∀ s s', Summarizing s s' → R s s') (summarizer : ℕ → Option MeetingNotes)
    (segments : List Segment) (attempts : ℕ) :
    Fallible.Leaves R (attemptSummary summarizer segments attempts) := by
  intro s
  obtain ⟨notes, s', hnotes, hs'⟩ := attemptSummary_eq summarizer segments attempts s
  rw [hnotes]
  exact h s s' hs'

theorem keeps_of_summarizing (g : BotRun → γ) (h : Summarizing s s') : Keeps g s s' := by
  unfold Summarizing at h
  rw [h]
  exact ⟨rfl, rfl⟩

/-- Notes and their columns are all that is written when a meeting is summed up. -/
theorem keeps_summarize (hg : Untimed g)
    (hnotes : ∀ run status error, g (BotRun.withArtifactStatus .notes status error run) = g run) :
    Fallible.Leaves (Keeps g) (summarize C) := by
  have hset : ∀ status error, Fallible.Leaves (Keeps g) (setArtifactStatus C .notes status error) := by
    intro status error
    apply keeps_transaction hg
    intro now run run' h
    cases Except.ok.inj h
    exact hnotes run status error
  unfold summarize
  cases C.summarizer with
  | none => exact hset _ _
  | some summarizer =>
    have htranscript : Fallible.Leaves (Keeps g) transcript := fun s => Keeps.refl g s
    refine htranscript.bind Keeps.trans fun rows => ?_
    split_ifs
    · exact hset _ _
    · have hattempt := leaves_attemptSummary (fun _ _ => keeps_of_summarizing g)
        summarizer (rows.map toSegment) SUMMARY_ATTEMPTS
      refine hattempt.bind Keeps.trans fun notes => ?_
      cases notes with
      | none => exact hset _ _
      | some notes =>
        have hstore : Fallible.Leaves (Keeps g) (storeNotes C notes) := fun _ => ⟨rfl, rfl⟩
        exact hstore.bind Keeps.trans fun _ => hset _ _

/-- Whatever the summarizer does, the notes get a status. -/
theorem summarize_notes (s : Meeting) : (summarize C s).2.run.notesStatus ∈
    ["disabled", "silence", "provider-failed", "ready"] := by
  have hg : Untimed fun run => run.notesStatus := fun _ _ => rfl
  have hset : ∀ status error (u : Meeting),
      (setArtifactStatus C .notes status error u).2.run.notesStatus = status := by
    intro status error u
    unfold setArtifactStatus
    rw [transaction_ok rfl]
    exact hg.flushed _ _ _
  unfold summarize
  cases C.summarizer with
  | none =>
    dsimp only
    rw [hset]
    decide
  | some summarizer =>
    dsimp only
    have htranscript : transcript s =
        (.ok (s.segments.insertionSort fun a b => a.startMs ≤ b.startMs), s) := rfl
    rw [Fallible.bind_ok htranscript]
    split_ifs
    · rw [hset]
      decide
    · obtain ⟨notes, s₁, hnotes, -⟩ := attemptSummary_eq summarizer
        ((s.segments.insertionSort fun a b => a.startMs ≤ b.startMs).map toSegment)
        SUMMARY_ATTEMPTS s
      rw [Fallible.bind_ok hnotes]
      cases notes with
      | none =>
        dsimp only
        rw [hset]
        decide
      | some notes =>
        have hstore : ∃ s₂, storeNotes C notes s₁ = (.ok (), s₂) := ⟨_, rfl⟩
        obtain ⟨s₂, hstored⟩ := hstore
        dsimp only
        rw [Fallible.bind_ok hstored, hset]
        decide

/-- What a completion writes: no audio for a recording that is still pending, and `ready`. -/
theorem complete_columns {run run' : BotRun} {cancelled : Bool} {stopReason : Option String}
    {now : ℕ} (h : run.complete { cancelled := cancelled, stopReason := stopReason } now = .ok run') :
    run'.transcriptionStatus = run.transcriptionStatus ∧ run'.notesStatus = run.notesStatus ∧
      run'.finalizationStatus = "ready" ∧
      run'.recordingStatus =
        if run.recordingStatus = "pending" then "no-audio" else run.recordingStatus := by
  let columns (run : BotRun) :=
    (run.transcriptionStatus, run.notesStatus, run.finalizationStatus, run.recordingStatus)
  let c : Completion := { cancelled := cancelled, stopReason := stopReason }
  unfold BotRun.complete at h
  cases hadvance : (c.assign run).advance .completed now with
  | error e =>
    rw [hadvance] at h
    cases h
  | ok middle =>
    rw [hadvance] at h
    cases Except.ok.inj h
    have hduration : columns middle.withDuration = columns middle := by
      unfold BotRun.withDuration
      split <;> rfl
    have hmiddle : columns middle = columns (c.assign run) :=
      column_advance (g := columns) (fun _ => rfl) hadvance
    have hassign : columns (c.assign run) = (run.transcriptionStatus, run.notesStatus, "ready",
        if run.recordingStatus = "pending" then "no-audio" else run.recordingStatus) := by
      unfold Completion.assign columns
      dsimp only [c]
      split_ifs <;> simp_all
    have hcolumns := (hduration.trans hmiddle).trans hassign
    simpa only [columns, Prod.mk.injEq, and_assoc] using hcolumns

theorem complete_statuses {stopReason : Option String}
    (h : complete C stopReason s = (.ok (), s')) :
    s'.run.transcriptionStatus = s.run.transcriptionStatus ∧
      s'.run.notesStatus = s.run.notesStatus ∧ s'.run.finalizationStatus = "ready" ∧
      s'.run.recordingStatus =
        (if s.run.recordingStatus = "pending" then "no-audio" else s.run.recordingStatus) ∧
      s'.segments = s.segments := by
  let columns (run : BotRun) :=
    (run.transcriptionStatus, run.notesStatus, run.finalizationStatus, run.recordingStatus)
  have hg : Untimed columns := fun _ _ => rfl
  let c : Completion := { cancelled := C.cancelled || stopReason.isSome, stopReason := stopReason }
  cases hrun : s.run.complete c (C.draw s.drawn) with
  | error e =>
    have hraised : complete C stopReason s = _ := transaction_error hrun
    cases hraised.symm.trans h
  | ok run' =>
    have hcommitted : complete C stopReason s = _ := transaction_ok hrun
    cases hcommitted.symm.trans h
    obtain ⟨htranscription, hnotes, hready, hrecording⟩ := complete_columns hrun
    have hcolumns := hg.flushed s.run (C.draw (s.drawn + 1)) run'
    simp only [columns, Prod.mk.injEq] at hcolumns
    exact ⟨hcolumns.1.trans htranscription, hcolumns.2.1.trans hnotes, hcolumns.2.2.1.trans hready,
      hcolumns.2.2.2.trans hrecording, rfl⟩

/-- A meeting that is completed is so with a transcript as it was, and with what has been stored. -/
theorem completeMeeting_truthful (h : s.run.status = .recording)
    (hpending : s.run.recordingStatus = "pending") :
    ((completeMeeting C s).2.run.status = .completed → Truthful C (completeMeeting C s).2) ↔
      (C.leaveRaises = false → (C.shutdown = true ∨ C.cancelKey ≠ some none) →
        Spoken s ∧ Stores C) := by
  let columns (run : BotRun) := (run.transcriptionStatus, run.recordingStatus)
  obtain ⟨s₁, hpersist, hrecorded⟩ := persistRecording_eq (C := C) h
  have hkept : Keeps (fun run => run.transcriptionStatus) s s₁ := by
    have hkeeps := keeps_persistRecording (C := C) (g := fun run => run.transcriptionStatus)
      (fun _ _ => rfl) (fun _ _ => rfl) (fun _ _ => rfl) s
    rw [hpersist] at hkeeps
    exact hkeeps
  have hrecording := persistRecording_recordingStatus (C := C) h
  rw [hpersist] at hrecording
  unfold completeMeeting
  rw [Fallible.bind_ok hpersist]
  cases hleave : C.leaveRaises with
  | true =>
    have hraised : leaveMeeting C s₁ = (.error (.named "leave_meeting"), s₁) := by
      unfold leaveMeeting
      rw [hleave]
      rfl
    rw [Fallible.bind_error hraised]
    constructor
    · intro _ hleft
      cases hleft
    · intro _ hstatus
      cases hstatus.symm.trans hrecorded.status
  | false =>
    have hleft : leaveMeeting C s₁ = (.ok (), s₁) := by
      unfold leaveMeeting
      rw [hleave]
      rfl
    obtain ⟨s₂, hsummarize, hquiet⟩ := summarize_eq (C := C) s₁
    have hcolumns : Keeps columns s₁ s₂ := by
      have hkeeps := keeps_summarize (C := C) (g := columns) (fun _ _ => rfl) (fun _ _ _ => rfl) s₁
      rw [hsummarize] at hkeeps
      exact hkeeps
    have hnotes := summarize_notes (C := C) s₁
    rw [hsummarize] at hnotes
    have hrecorded₂ := hrecorded.quiet hquiet
    rw [Fallible.bind_ok hleft, Fallible.bind_ok hsummarize]
    rcases requestedStopReason_eq (C := C) s₂ with ⟨stopReason, hstop, hread⟩ | ⟨e, hstop, hread⟩
    · obtain ⟨s₃, hcomplete, hstatus, hobjects, huri, -, -⟩ :=
        complete_eq (C := C) hrecorded₂.status stopReason
      obtain ⟨htranscription, hnotes', hready, hrecording', hsegments⟩ := complete_statuses hcomplete
      have hspoken : Spoken s₃ ↔ Spoken s := by
        unfold Spoken
        rw [htranscription, hsegments, hcolumns.2, hkept.2]
        rw [(Prod.mk.inj hcolumns.1).1, show s₁.run.transcriptionStatus = _ from hkept.1]
      have hstores : (C.recording = [] ∨ Uploaded C s₃ ∧ C.checkpointFailed = false) ↔ Stores C := by
        refine or_congr_right' fun hne => and_congr_left' ?_
        constructor
        · intro huploaded
          by_contra hnot
          have hnone := hrecorded₂.lost hne hnot
          rw [← huri, huploaded.uri] at hnone
          cases hnone
        · intro huploads
          obtain ⟨hobject, hstored, -⟩ := hrecorded₂.stored hne huploads
          exact ⟨by rw [hobjects]; exact hobject, huri.trans hstored⟩
      have hsettled : s₃.run.recordingStatus ∉ ["pending", "checkpointed"] := by
        rw [hrecording', show s₂.run.recordingStatus = _ from (Prod.mk.inj hcolumns.1).2]
        by_cases hnone : C.recording = []
        · rw [hrecording.1 hnone, if_pos hpending]
          decide
        · have hmem := hrecording.2 hnone
          dsimp only at hmem
          simp only [List.mem_cons, List.not_mem_nil, or_false] at hmem
          rcases hmem with h | h | h <;> rw [h] <;> decide
      rw [Fallible.bind_ok hstop, hcomplete]
      constructor
      · intro htruthful _ _
        have htrue := htruthful hstatus
        refine ⟨hspoken.mp ⟨htrue.settled _ (by simp), htrue.silence⟩, ?_⟩
        exact hstores.mp (htrue.ready hready)
      · intro hanswered _
        obtain ⟨hs, hstored⟩ := hanswered rfl hread
        have htrue := hspoken.mpr hs
        refine ⟨fun status hmem => ?_, htrue.2, fun _ => hstores.mpr hstored⟩
        simp only [List.mem_cons, List.not_mem_nil, or_false] at hmem
        rcases hmem with rfl | rfl | rfl | rfl
        · exact hsettled
        · exact htrue.1
        · rw [hnotes']
          simp only [List.mem_cons, List.not_mem_nil, or_false] at hnotes
          rcases hnotes with h | h | h | h <;> rw [h] <;> decide
        · rw [hready]
          decide
    · rw [Fallible.bind_error hstop]
      constructor
      · intro _ _ hreadable
        exact absurd hreadable hread
      · intro _ hstatus
        cases hstatus.symm.trans hrecorded₂.status

end completion

section start

/-- A run that is being recorded, with nothing to its transcript yet. -/
structure Starts (C : Environment) (s : Meeting) : Prop where
  status : s.run.status = .recording
  recording : s.run.recordingStatus = "pending"
  transcription : s.run.transcriptionStatus =
    if C.activeTranscriber.isNone then "disabled" else "pending"
  segments : s.segments = []

theorem Starts.distinct (h : Starts C s) : Distinct C s := by
  constructor <;> simp [h.segments]

theorem advance_eq (target : BotStatus) (hlive : s.run.status.terminal = false)
    (h : canTransition s.run.status target = true) :
    ∃ s', transaction C (fun now run => run.advance target now) s = (.ok (), s') ∧
      s'.run.status = target ∧
      Keeps (fun run => (run.recordingStatus, run.transcriptionStatus)) s s' := by
  have hg : Untimed fun run => (run.recordingStatus, run.transcriptionStatus) := fun _ _ => rfl
  refine ⟨_, transaction_ok (advance_of_canTransition hlive h), (flushed_eq _ _ _).1, ?_, rfl⟩
  exact hg.flushed _ _ _

theorem checkpoints_eq (manifests : List Uri) (s : Meeting) : ∃ s', Fallible.forEach
    (fun uri => transaction C fun _ run => .ok (run.checkpointed uri)) manifests s =
      (.ok (), s') ∧
    Keeps (fun run => (run.status, run.recordingStatus, run.transcriptionStatus)) s s' := by
  have hg : Untimed fun run => (run.status, run.recordingStatus, run.transcriptionStatus) :=
    fun _ _ => rfl
  induction manifests generalizing s with
  | nil => exact ⟨s, rfl, Keeps.refl _ s⟩
  | cons uri manifests ih =>
    have hfirst : ∃ s₁, transaction C (fun _ run => .ok (run.checkpointed uri)) s = (.ok (), s₁) ∧
        Keeps (fun run => (run.status, run.recordingStatus, run.transcriptionStatus)) s s₁ :=
      ⟨_, transaction_ok rfl, hg.flushed _ _ _, rfl⟩
    obtain ⟨s₁, hcommit, hkept⟩ := hfirst
    obtain ⟨s', hrest, hkept'⟩ := ih s₁
    exact ⟨s', (Fallible.bind_ok hcommit).trans hrest, hkept.trans hkept'⟩

/-- Before the meeting ends nothing raises, and the row is what `Starts` says of it. -/
theorem attendAdmitted_eq {run : BotRun} (hrun : Created run) (manifests : List Uri)
    (objects : Objects) : ∃ s, Starts C s ∧
      attendAdmitted C manifests (begun run objects) = attendFromEnd C s := by
  obtain ⟨s₁, hjoining, hstatus₁, hkept₁⟩ := advance_eq (C := C) (s := begun run objects) .joining
    (by simp [begun, hrun.status, BotStatus.terminal])
    (by simp [begun, hrun.status, canTransition, allowed])
  obtain ⟨s₂, hjoined, hstatus₂, hkept₂⟩ := advance_eq (C := C) (s := s₁) .joined
    (by simp [hstatus₁, BotStatus.terminal]) (by simp [hstatus₁, canTransition, allowed])
  obtain ⟨s₃, hrecording, hstatus₃, hkept₃⟩ := advance_eq (C := C) (s := s₂) .recording
    (by simp [hstatus₂, BotStatus.terminal]) (by simp [hstatus₂, canTransition, allowed])
  obtain ⟨hcolumns, hsegments⟩ := (hkept₁.trans hkept₂).trans hkept₃
  have hrecorded : s₃.run.recordingStatus = "pending" :=
    (Prod.mk.inj hcolumns).1.trans hrun.recording
  have htranscribed : s₃.run.transcriptionStatus = "pending" :=
    (Prod.mk.inj hcolumns).2.trans hrun.transcription
  have hdisabled : ∃ s₄, disableTranscription C s₃ = (.ok (), s₄) ∧ Starts C s₄ := by
    unfold disableTranscription
    split_ifs with hnone
    · have hg : Untimed fun run => (run.status, run.recordingStatus) := fun _ _ => rfl
      have hcommit := transaction_ok (C := C) (s := s₃)
        (f := fun _ run => .ok (run.withArtifactStatus .transcription "disabled" none)) rfl
      refine ⟨_, hcommit, ?_, ?_, ?_, hsegments⟩
      · exact (congrArg Prod.fst (hg.flushed _ _ _)).trans hstatus₃
      · exact (congrArg Prod.snd (hg.flushed _ _ _)).trans hrecorded
      · rw [if_pos hnone]
        exact Untimed.flushed (g := fun run => run.transcriptionStatus) (fun _ _ => rfl) _ _ _
    · refine ⟨s₃, rfl, hstatus₃, hrecorded, ?_, hsegments⟩
      rw [if_neg hnone]
      exact htranscribed
  obtain ⟨s₄, hdisable, hstarts⟩ := hdisabled
  obtain ⟨s₅, hcheckpoints, hcolumns₅, hsegments₅⟩ := checkpoints_eq (C := C) manifests s₄
  obtain ⟨hstatus₅, hrest₅⟩ := Prod.mk.inj hcolumns₅
  obtain ⟨hrecording₅, htranscription₅⟩ := Prod.mk.inj hrest₅
  refine ⟨s₅, ⟨hstatus₅.trans hstarts.status, hrecording₅.trans hstarts.recording,
    htranscription₅.trans hstarts.transcription, hsegments₅.trans hstarts.segments⟩, ?_⟩
  unfold attendAdmitted
  rw [Fallible.bind_ok hjoining, Fallible.bind_ok hjoined, Fallible.bind_ok hrecording,
    Fallible.bind_ok hdisable, Fallible.bind_ok hcheckpoints]

end start

/-- A run that is completed has true statuses exactly when its transcriber has an answer for what is
recorded, and its recording and checkpoints are stored. -/
theorem truthful_iff (C : Environment) (manifests : List Uri) (run : BotRun) (objects : Objects)
    (hrun : Created run) :
    ((attendAdmitted C manifests (begun run objects)).2.run.status = .completed →
      Truthful C (attendAdmitted C manifests (begun run objects)).2) ↔
        (Completes C → Transcribes C ∧ Stores C) := by
  obtain ⟨s, hstarts, hattend⟩ := attendAdmitted_eq (C := C) hrun manifests objects
  rw [hattend]
  obtain ⟨s', hquiet, hcase⟩ := finalizeMeeting_eq (C := C) hstarts.distinct
  have hstatus : s'.run.status = .recording := hquiet.status.trans hstarts.status
  unfold attendFromEnd
  rcases hcase with ⟨hok, hfinalizes⟩ | ⟨e, herror, hnot⟩
  · have hpending : s'.run.recordingStatus = "pending" := by
      have hsame := sameColumn_finalizeMeeting (C := C) (g := fun run => run.recordingStatus)
        (fun _ _ => rfl) (fun _ _ _ => rfl) s
      rw [hok] at hsame
      exact Eq.trans hsame hstarts.recording
    have hspoken := finalizeMeeting_spoken hstarts.distinct hstarts.segments
      hstarts.transcription hfinalizes.close
    rw [hok] at hspoken
    have hread : (Fallible.read Meeting.run : Act BotRun) s' = (.ok s'.run, s') := rfl
    rw [Fallible.bind_ok hok, Fallible.bind_ok hread, if_neg (by simp [hstatus]),
      completeMeeting_truthful hstatus hpending, hspoken]
    constructor
    · intro hanswered hcompletes
      exact hanswered hcompletes.leave hcompletes.readable
    · intro hanswered hleave hreadable
      exact hanswered ⟨hfinalizes, hleave, hreadable⟩
  · rw [Fallible.bind_error herror]
    constructor
    · intro _ hcompletes
      exact absurd hcompletes.finalizes hnot
    · intro _ hcompleted
      cases hstatus.symm.trans hcompleted

section counterexample

def queuedRun : BotRun := { recordingRun with status := .queued }

/-- The dialogue is recorded, transcribed and stored. -/
theorem truthful_iff_dialogue : Truthful (oneFinal dialogue)
    (attendAdmitted (oneFinal dialogue) [] (begun queuedRun fun _ => none)).2 := by
  refine (truthful_iff (oneFinal dialogue) [] queuedRun (fun _ => none)
    ⟨rfl, rfl, rfl, rfl, rfl⟩).mpr (fun _ => ⟨⟨fun t ht hnone => ?_, fun t ht _ hbatch _ => ?_⟩,
      Or.inr ⟨⟨rfl, rfl⟩, rfl⟩⟩) (by decide +kernel)
  · cases hnone
  · cases Option.some.inj ht
    cases Option.some.inj hbatch

/-- A meeting without audio. -/
def noAudio : Environment :=
  { raisedAfterSentence with
    recorder := some []
    transcriber := some { segments := [], liveEnd := .returned 0, batch := none } }

theorem not_truthful : ¬∀ (C : Environment) (manifests : List Uri) (run : BotRun)
    (objects : Objects), Created run →
      (attendAdmitted C manifests (begun run objects)).2.run.status = .completed →
        Truthful C (attendAdmitted C manifests (begun run objects)).2 := by
  intro h
  have htruthful := h noAudio [] queuedRun (fun _ => none) ⟨rfl, rfl, rfl, rfl, rfl⟩
    (by decide +kernel)
  have hpending : (attendAdmitted noAudio []
      (begun queuedRun fun _ => none)).2.run.transcriptionStatus = "pending" := by
    decide +kernel
  have hsettled := htruthful.settled "pending" (by simp [hpending])
  exact hsettled (by decide)

/-- The stream raises after one sentence, the batch is empty, and the upload raises. -/
def silentDespiteSentence : Environment :=
  { raisedAfterSentence with
    transcriber := some { segments := [sentence], liveEnd := .raised, batch := some [] }
    uploadRaises := true }

/-- The other two parts fail here: there is a row beside the silence, and nothing is uploaded. -/
example : let s := (attendAdmitted silentDespiteSentence [] (begun queuedRun fun _ => none)).2
    s.run.status = .completed ∧ s.run.transcriptionStatus = "silence" ∧ s.segments.length = 1 ∧
      s.run.finalizationStatus = "ready" ∧ s.run.recordingUri = none := by
  decide +kernel

end counterexample

end Fakery.Attend
