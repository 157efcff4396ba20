import Fakery.Attend.Merge
import Fakery.Bots.Lifecycle

/-! When a meeting that has ended keeps its recording and its run is completed. -/
namespace Fakery.Attend
open Fakery.Bots Fakery.Notes Fakery.Sequential Fakery.Storage Fakery.Transcription

variable {C : Environment} {s s' : Meeting}

/-- The run is completed, and what was recorded is its recording. -/
structure Survives (C : Environment) (s : Meeting) : Prop where
  status : s.run.status = .completed
  stored : C.recording ≠ [] →
    s.objects (.recording C.bot) = some (.bytes C.recording) ∧
      s.run.recordingUri = some ⟨C.bucket, .recording C.bot⟩ ∧
      s.run.recordingSha256 = some (C.sha256 C.recording) ∧
      s.run.recordingBytes = some C.recording.length

/-- The stream is closed, and the speakers of an annotated batch have spoken for some time. -/
structure Finalizes (C : Environment) : Prop where
  close : ∀ t, C.activeTranscriber = some t → t.closeRaises = false
  shares : ∀ t batch, C.activeTranscriber = some t → C.recording ≠ [] → t.batch = some batch →
    t.liveEnd.result.finals ≠ 0 → C.sttDiarize = true → ¬Shareless batch

/-- Nothing after the meeting breaks: there is a store that takes the recording, the meeting can be
left, and the cancel key can be read. -/
structure Unbroken (C : Environment) : Prop where
  finalizes : Finalizes C
  stored : C.recording ≠ [] → C.hasBlob = true ∧ C.uploadRaises = false
  leave : C.leaveRaises = false
  readable : C.shutdown = true ∨ C.cancelKey ≠ some none

section finalization

theorem annotateSegments_eq (s : Meeting) (segments : List Segment) :
    ∃ s', Quiet s s' ∧ ((annotateSegments C segments s = (.ok (), s') ∧ ¬Shareless segments) ∨
      ∃ e, annotateSegments C segments s = (.error e, s') ∧ Shareless segments) := by
  unfold annotateSegments
  rw [← confidentSplit_eq_none]
  cases confidentSplit segments with
  | none => exact ⟨s, Quiet.refl s, Or.inr ⟨_, rfl, rfl⟩⟩
  | some confident =>
    cases confident with
    | false => exact ⟨s, Quiet.refl s, Or.inl ⟨rfl, nofun⟩⟩
    | true =>
      exact ⟨s.setSegments (annotateSpeakers C.bot s.segments segments).1,
        ⟨rfl, rfl, rfl, rfl, rfl⟩, Or.inl ⟨rfl, nofun⟩⟩

/-- The finalization raises for one list of segments only. -/
theorem finalizeTranscript_eq (live : LiveTranscriptionResult) (h : Distinct C s) (t : Transcriber)
    (ht : C.activeTranscriber = some t) : ∃ s', Quiet s s' ∧
      ((finalizeTranscript C live s = (.ok (), s') ∧ ∀ batch, C.recording ≠ [] →
        t.batch = some batch → live.finals ≠ 0 → C.sttDiarize = true → ¬Shareless batch) ∨
      ∃ e batch, finalizeTranscript C live s = (.error e, s') ∧ C.recording ≠ [] ∧
        t.batch = some batch ∧ live.finals ≠ 0 ∧ C.sttDiarize = true ∧ Shareless batch) := by
  unfold finalizeTranscript
  rw [ht]
  dsimp only
  by_cases hrecording : C.recording = []
  · rw [if_pos hrecording]
    exact ⟨s, Quiet.refl s, Or.inl ⟨rfl, fun _ hne => absurd hrecording hne⟩⟩
  · rw [if_neg hrecording]
    cases hbatch : t.batch with
    | none =>
      obtain ⟨s', hset, hquiet, -⟩ :=
        setArtifactStatus_eq (C := C) .transcription "provider-failed" (some "batch-failed") s
      exact ⟨s', hquiet, Or.inl ⟨hset, fun _ _ hsome => nomatch hsome⟩⟩
    | some batch =>
      dsimp only
      split_ifs with hsilence
      · obtain ⟨s', hset, hquiet, -⟩ :=
          setArtifactStatus_eq (C := C) .transcription "silence" live.error s
        exact ⟨s', hquiet, Or.inl ⟨hset, fun _ _ _ hlive => absurd hsilence.1 hlive⟩⟩
      · obtain ⟨s₁, s₂, hs₁, hs₂, -, hmerge⟩ := mergeBatch_eq h live batch
        have hquiet := hs₁.quiet.trans hs₂
        rw [hmerge]
        split_ifs with hannotated
        · obtain ⟨s', hs', hcase⟩ := annotateSegments_eq (C := C) s₂ batch
          refine ⟨s', hquiet.trans hs', ?_⟩
          rcases hcase with ⟨hok, hshares⟩ | ⟨e, herror, hshareless⟩
          · refine Or.inl ⟨hok, fun other _ hsome _ _ => ?_⟩
            cases Option.some.inj hsome
            exact hshares
          · exact Or.inr ⟨e, batch, herror, hrecording, rfl, hannotated.1, hannotated.2, hshareless⟩
        · refine ⟨s₂, hquiet, Or.inl ⟨rfl, fun other _ _ hlive hdiarize => ?_⟩⟩
          exact absurd ⟨hlive, hdiarize⟩ hannotated

theorem finalizeMeeting_eq (h : Distinct C s) : ∃ s', Quiet s s' ∧
    ((finalizeMeeting C s = (.ok (), s') ∧ Finalizes C) ∨
      ∃ e, finalizeMeeting C s = (.error e, s') ∧ ¬Finalizes C) := by
  cases ht : C.activeTranscriber with
  | none =>
    have hawait : awaitTranscript C s = (.ok {}, s) := by
      unfold awaitTranscript
      rw [ht]
      rfl
    have hfinalizes : Finalizes C := by
      constructor
      · intro t hsome
        cases ht.symm.trans hsome
      · intro t batch hsome
        cases ht.symm.trans hsome
    unfold finalizeMeeting
    rw [Fallible.bind_ok hawait]
    unfold finalizeTranscript
    rw [ht]
    dsimp only
    split_ifs
    · obtain ⟨s', hset, hquiet, -⟩ :=
        setArtifactStatus_eq (C := C) .transcription "disabled" none s
      exact ⟨s', hquiet, Or.inl ⟨hset, hfinalizes⟩⟩
    · exact ⟨s, Quiet.refl s, Or.inl ⟨rfl, hfinalizes⟩⟩
  | some t =>
    obtain ⟨s₁, hquiet, hdistinct, hlive⟩ := transcribeLive_eq h t
    have hawait : awaitTranscript C s =
        if t.closeRaises then (.error (.named "aclose"), s₁) else (.ok t.liveEnd.result, s₁) := by
      unfold awaitTranscript
      rw [ht]
      exact hlive
    cases hclose : t.closeRaises with
    | true =>
      rw [hclose, if_pos rfl] at hawait
      refine ⟨s₁, hquiet, Or.inr ⟨_, Fallible.bind_error hawait, fun hfinalizes => ?_⟩⟩
      cases hclose.symm.trans (hfinalizes.close t ht)
    | false =>
      rw [hclose, if_neg Bool.false_ne_true] at hawait
      obtain ⟨s', hs', hcase⟩ := finalizeTranscript_eq t.liveEnd.result hdistinct t ht
      refine ⟨s', hquiet.trans hs', ?_⟩
      have hbind : finalizeMeeting C s = finalizeTranscript C t.liveEnd.result s₁ :=
        Fallible.bind_ok hawait
      rw [hbind]
      rcases hcase with ⟨hok, hshares⟩ | ⟨e, batch, herror, hrecording, hbatch, hfinals, hd, hz⟩
      · refine Or.inl ⟨hok, ?_, ?_⟩
        · intro t' hsome
          cases ht.symm.trans hsome
          exact hclose
        · intro t' batch hsome hrecording hbatch hfinals hdiarize
          cases ht.symm.trans hsome
          exact hshares batch hrecording hbatch hfinals hdiarize
      · exact Or.inr ⟨e, herror, fun hfinalizes =>
          hfinalizes.shares t batch ht hrecording hbatch hfinals hd hz⟩

end finalization

section completion

/-- Where the upload succeeds, if there is one. -/
def Uploads (C : Environment) : Prop := C.hasBlob = true ∧ C.uploadRaises = false

instance : Decidable (Uploads C) := inferInstanceAs (Decidable (_ ∧ _))

/-- The run has its recording, or, where the upload fails, has none. -/
structure Recorded (C : Environment) (s : Meeting) : Prop where
  status : s.run.status = .processing
  stored : C.recording ≠ [] → Uploads C →
    s.objects (.recording C.bot) = some (.bytes C.recording) ∧
      s.run.recordingUri = some ⟨C.bucket, .recording C.bot⟩ ∧
      s.run.recordingSha256 = some (C.sha256 C.recording) ∧
      s.run.recordingBytes = some C.recording.length
  lost : C.recording ≠ [] → ¬Uploads C → s.run.recordingUri = none

theorem Recorded.quiet (h : Recorded C s) (hq : Quiet s s') : Recorded C s' := by
  constructor
  · exact hq.status.trans h.status
  · rw [hq.objects, hq.uri, hq.sha256, hq.bytes]
    exact h.stored
  · rw [hq.uri]
    exact h.lost

/-- The columns of a recording after a flush. -/
theorem flushed_eq (loaded : BotRun) (moment : ℕ) (run : BotRun) :
    (BotRun.flushed loaded moment run).status = run.status ∧
      (BotRun.flushed loaded moment run).recordingUri = run.recordingUri ∧
      (BotRun.flushed loaded moment run).recordingSha256 = run.recordingSha256 ∧
      (BotRun.flushed loaded moment run).recordingBytes = run.recordingBytes := by
  have hcolumns := BotRun.flushed_column (g := fun run =>
    (run.status, run.recordingUri, run.recordingSha256, run.recordingBytes)) (fun _ _ => rfl)
    loaded moment run
  simpa only [Prod.mk.injEq] using hcolumns

theorem advance_of_canTransition {run : BotRun} {target : BotStatus} {now : ℕ}
    (hlive : run.status.terminal = false) (h : canTransition run.status target = true) :
    run.advance target now = .ok (run.advanced target now) := by
  unfold BotRun.advance requireTransition
  rw [if_neg (by simp [hlive]), if_pos h]
  rfl

theorem upload_eq (s : Meeting) : ∃ uri failed s', upload C s = (.ok (uri, failed), s') ∧
    s'.run = s.run ∧ (C.recording ≠ [] → Uploads C → uri = some ⟨C.bucket, .recording C.bot⟩ ∧
      s'.objects (.recording C.bot) = some (.bytes C.recording)) ∧
    (C.recording ≠ [] → ¬Uploads C → uri = none) := by
  unfold upload
  by_cases hrecording : C.recording = []
  · rw [if_pos hrecording]
    exact ⟨_, _, _, rfl, rfl, fun hne => absurd hrecording hne, fun hne => absurd hrecording hne⟩
  · rw [if_neg hrecording]
    have huploads : C.hasBlob ∧ ¬C.uploadRaises ↔ Uploads C := by simp [Uploads]
    split_ifs with h
    · refine ⟨_, _, _, rfl, rfl, fun _ _ => ⟨rfl, ?_⟩, fun _ hnot => absurd (huploads.mp h) hnot⟩
      exact Function.update_self ..
    · exact ⟨_, _, _, rfl, rfl, fun _ hup => absurd (huploads.mpr hup) h, fun _ _ => rfl⟩

theorem persistRecording_eq (h : s.run.status = .recording) :
    ∃ s', persistRecording C s = (.ok (), s') ∧ Recorded C s' := by
  obtain ⟨uri, failed, s₁, hupload, hrun, hstored, hlost⟩ := upload_eq (C := C) s
  have hstatus : s₁.run.status = .recording := by rw [hrun]; exact h
  unfold persistRecording
  rw [Fallible.bind_ok hupload]
  dsimp only
  rw [Fallible.bind_ok (draw_eq s₁)]
  by_cases hrecording : C.recording = []
  · rw [if_pos hrecording]
    refine ⟨_, transaction_ok (advance_of_canTransition ?_ ?_), ?_, ?_, ?_⟩
    · simp [hstatus, BotStatus.terminal]
    · simp [hstatus, canTransition, allowed]
    · exact (flushed_eq _ _ _).1
    · exact fun hne => absurd hrecording hne
    · exact fun hne => absurd hrecording hne
  · rw [if_neg hrecording]
    refine ⟨_, transaction_ok (advance_of_canTransition ?_ ?_), ?_, ?_, ?_⟩
    · simp [BotRun.recorded, hstatus, BotStatus.terminal]
    · simp [BotRun.recorded, hstatus, canTransition, allowed]
    · exact (flushed_eq _ _ _).1
    · intro hne hup
      obtain ⟨huri, hobject⟩ := hstored hne hup
      obtain ⟨-, hu, hsha, hbytes⟩ := flushed_eq s₁.run (C.draw (s₁.drawn + 1 + 1)) _
      exact ⟨hobject, hu.trans huri, hsha, hbytes⟩
    · intro hne hnot
      obtain ⟨-, hu, -, -⟩ := flushed_eq s₁.run (C.draw (s₁.drawn + 1 + 1)) _
      exact hu.trans (hlost hne hnot)

/-- Nothing but the count of its calls is changed by the summarizer. -/
def Summarizing (s s' : Meeting) : Prop := s' = { s with summarized := s'.summarized }

theorem Summarizing.trans {s'' : Meeting} (h : Summarizing s s') (h' : Summarizing s' s'') :
    Summarizing s s'' := by
  unfold Summarizing at *
  rw [h', h]

theorem leaves_pure {α : Type} (a : α) : Fallible.Leaves Summarizing (pure a : Act α) :=
  fun _ => rfl

theorem leaves_summarizeEach (summarizer : ℕ → Option MeetingNotes) (batches : List (List Segment)) :
    Fallible.Leaves Summarizing (summarizeEach (callSummarizer summarizer) batches) := by
  have hcall : ∀ batch, Fallible.Leaves Summarizing (callSummarizer summarizer batch) := by
    intro batch s
    show Summarizing s (answer (summarizer s.summarized) { s with summarized := s.summarized + 1 }).2
    cases summarizer s.summarized <;> rfl
  induction batches with
  | nil => exact leaves_pure []
  | cons batch batches ih =>
    exact (hcall batch).bind Summarizing.trans fun _ =>
      ih.bind Summarizing.trans fun _ => leaves_pure _

/-- Every exception of the summarizer is caught. -/
theorem attemptSummary_eq (summarizer : ℕ → Option MeetingNotes) (segments : List Segment)
    (attempts : ℕ) (s : Meeting) : ∃ notes s',
      attemptSummary summarizer segments attempts s = (.ok notes, s') ∧ Summarizing s s' := by
  induction attempts generalizing s with
  | zero => exact ⟨none, s, rfl, rfl⟩
  | succ attempts ih =>
    have hnotes : Fallible.Leaves Summarizing
        (summarizeSegments (callSummarizer summarizer) segments) :=
      (leaves_summarizeEach summarizer _).bind Summarizing.trans fun _ => leaves_pure _
    have hleaves : Fallible.Leaves Summarizing (do
        let notes ← summarizeSegments (callSummarizer summarizer) segments
        pure (some notes) : Act (Option MeetingNotes)) :=
      hnotes.bind Summarizing.trans fun _ => leaves_pure _
    have hfirst := hleaves s
    unfold attemptSummary Fallible.except
    generalize (do
      let notes ← summarizeSegments (callSummarizer summarizer) segments
      pure (some notes) : Act (Option MeetingNotes)) s = outcome at hfirst
    obtain ⟨r, s₁⟩ := outcome
    cases r with
    | ok notes => exact ⟨notes, s₁, rfl, hfirst⟩
    | error e =>
      obtain ⟨notes, s₂, hrest, hs₂⟩ := ih s₁
      exact ⟨notes, s₂, hrest, hfirst.trans hs₂⟩

theorem Summarizing.quiet (h : Summarizing s s') : Quiet s s' := by
  unfold Summarizing at h
  rw [h]
  exact ⟨rfl, rfl, rfl, rfl, rfl⟩

theorem summarize_eq (s : Meeting) : ∃ s', summarize C s = (.ok (), s') ∧ Quiet s s' := by
  have hset : ∀ status error (u : Meeting), ∃ s',
      setArtifactStatus C .notes status error u = (.ok (), s') ∧ Quiet u s' := by
    intro status error u
    obtain ⟨s', h, hquiet, -⟩ := setArtifactStatus_eq (C := C) .notes status error u
    exact ⟨s', h, hquiet⟩
  unfold summarize
  cases C.summarizer with
  | none => exact hset _ _ s
  | some summarizer =>
    dsimp only
    have htranscript : transcript s =
        (.ok (s.segments.insertionSort fun a b => a.startMs ≤ b.startMs), s) := rfl
    rw [Fallible.bind_ok htranscript]
    split_ifs
    · exact hset _ _ s
    · obtain ⟨notes, s₁, hnotes, hs₁⟩ := attemptSummary_eq summarizer
        ((s.segments.insertionSort fun a b => a.startMs ≤ b.startMs).map toSegment)
        SUMMARY_ATTEMPTS s
      rw [Fallible.bind_ok hnotes]
      cases notes with
      | none =>
        obtain ⟨s', h, hquiet⟩ := hset "provider-failed" (some "exhausted") s₁
        exact ⟨s', h, hs₁.quiet.trans hquiet⟩
      | some notes =>
        have hstore : ∃ s₂, storeNotes C notes s₁ = (.ok (), s₂) ∧ Quiet s₁ s₂ :=
          ⟨_, rfl, ⟨rfl, rfl, rfl, rfl, rfl⟩⟩
        obtain ⟨s₂, hstored, hs₂⟩ := hstore
        obtain ⟨s', h, hquiet⟩ := hset "ready" none s₂
        dsimp only
        rw [Fallible.bind_ok hstored]
        exact ⟨s', h, (hs₁.quiet.trans hs₂).trans hquiet⟩

/-- Completed, with the recording as it was. -/
theorem complete_eq (h : s.run.status = .processing) (stopReason : Option String) :
    ∃ s', complete C stopReason s = (.ok (), s') ∧ s'.run.status = .completed ∧
      s'.objects = s.objects ∧ s'.run.recordingUri = s.run.recordingUri ∧
      s'.run.recordingSha256 = s.run.recordingSha256 ∧
      s'.run.recordingBytes = s.run.recordingBytes := by
  let c : Completion := { cancelled := C.cancelled || stopReason.isSome, stopReason := stopReason }
  let run' := ((c.assign s.run).advanced .completed (C.draw s.drawn)).withDuration
  have hstatus : (c.assign s.run).status = .processing := (sameEnds_assign c s.run).status.trans h
  have hadvance : s.run.complete c (C.draw s.drawn) = .ok run' := by
    unfold BotRun.complete
    rw [advance_of_canTransition (by simp [hstatus, BotStatus.terminal])
      (by simp [hstatus, canTransition, allowed])]
    rfl
  have hcolumns : run'.status = .completed ∧ run'.recordingUri = s.run.recordingUri ∧
      run'.recordingSha256 = s.run.recordingSha256 ∧
      run'.recordingBytes = s.run.recordingBytes := by
    have hassign : (c.assign s.run).recordingUri = s.run.recordingUri ∧
        (c.assign s.run).recordingSha256 = s.run.recordingSha256 ∧
        (c.assign s.run).recordingBytes = s.run.recordingBytes := by
      unfold Completion.assign
      dsimp only
      split_ifs <;> exact ⟨rfl, rfl, rfl⟩
    have hduration : ∀ run : BotRun, run.withDuration.status = run.status ∧
        run.withDuration.recordingUri = run.recordingUri ∧
        run.withDuration.recordingSha256 = run.recordingSha256 ∧
        run.withDuration.recordingBytes = run.recordingBytes := by
      intro run
      unfold BotRun.withDuration
      split <;> exact ⟨rfl, rfl, rfl, rfl⟩
    obtain ⟨hs, hu, hsha, hbytes⟩ :=
      hduration ((c.assign s.run).advanced .completed (C.draw s.drawn))
    exact ⟨hs, hu.trans hassign.1, hsha.trans hassign.2.1, hbytes.trans hassign.2.2⟩
  obtain ⟨hs, hu, hsha, hbytes⟩ := flushed_eq s.run (C.draw (s.drawn + 1)) run'
  exact ⟨_, transaction_ok hadvance, hs.trans hcolumns.1, rfl, hu.trans hcolumns.2.1,
    hsha.trans hcolumns.2.2.1, hbytes.trans hcolumns.2.2.2⟩

/-- Only an unreadable cancel key raises. -/
theorem requestedStopReason_eq (s : Meeting) :
    (∃ stopReason, requestedStopReason C s = (.ok stopReason, s) ∧
      (C.shutdown = true ∨ C.cancelKey ≠ some none)) ∨
    ∃ e, requestedStopReason C s = (.error e, s) ∧
      ¬(C.shutdown = true ∨ C.cancelKey ≠ some none) := by
  unfold requestedStopReason
  cases hshutdown : C.shutdown with
  | true => exact Or.inl ⟨_, rfl, Or.inl rfl⟩
  | false =>
    cases hkey : C.cancelKey with
    | none => exact Or.inl ⟨_, rfl, Or.inr nofun⟩
    | some answer =>
      cases answer with
      | none => exact Or.inr ⟨_, rfl, by simp⟩
      | some isCancelled => exact Or.inl ⟨_, rfl, Or.inr nofun⟩

/-- A run that goes through is completed with what `persistRecording` has recorded, and one that
breaks is not completed. -/
theorem completeMeeting_eq (h : s.run.status = .recording) : ∃ r s',
    completeMeeting C s = (r, s') ∧ (Survives C s' ↔
      (C.recording ≠ [] → Uploads C) ∧ C.leaveRaises = false ∧
        (C.shutdown = true ∨ C.cancelKey ≠ some none)) := by
  obtain ⟨s₁, hpersist, hrecorded⟩ := persistRecording_eq (C := C) h
  have hbroken : ∀ {u : Meeting}, Recorded C u → ¬Survives C u := by
    intro u hu hsurvives
    cases hsurvives.status.symm.trans hu.status
  unfold completeMeeting
  rw [Fallible.bind_ok hpersist]
  cases hleave : C.leaveRaises with
  | true =>
    have hraised : leaveMeeting C s₁ = (.error (.named "leave_meeting"), s₁) := by
      unfold leaveMeeting
      rw [hleave]
      rfl
    refine ⟨_, s₁, Fallible.bind_error hraised, ?_⟩
    constructor
    · intro hsurvives
      exact absurd hsurvives (hbroken hrecorded)
    · intro ⟨_, hleft, _⟩
      cases hleft
  | false =>
    have hleft : leaveMeeting C s₁ = (.ok (), s₁) := by
      unfold leaveMeeting
      rw [hleave]
      rfl
    obtain ⟨s₂, hsummarize, hquiet⟩ := summarize_eq (C := C) s₁
    have hrecorded₂ := hrecorded.quiet hquiet
    rw [Fallible.bind_ok hleft, Fallible.bind_ok hsummarize]
    rcases requestedStopReason_eq (C := C) s₂ with ⟨stopReason, hstop, hread⟩ | ⟨e, hstop, hread⟩
    · obtain ⟨s₃, hcomplete, hstatus, hobjects, huri, hsha, hbytes⟩ :=
        complete_eq (C := C) hrecorded₂.status stopReason
      refine ⟨_, s₃, (Fallible.bind_ok hstop).trans hcomplete, ?_⟩
      constructor
      · intro hsurvives
        refine ⟨fun hne => ?_, rfl, hread⟩
        by_contra hnot
        have hstored := (hsurvives.stored hne).2.1
        rw [huri, hrecorded₂.lost hne hnot] at hstored
        cases hstored
      · intro ⟨huploads, _, _⟩
        refine ⟨hstatus, fun hne => ?_⟩
        rw [hobjects, huri, hsha, hbytes]
        exact hrecorded₂.stored hne (huploads hne)
    · refine ⟨_, s₂, Fallible.bind_error hstop, ?_⟩
      constructor
      · intro hsurvives
        exact absurd hsurvives (hbroken hrecorded₂)
      · intro ⟨_, _, hreadable⟩
        exact absurd hreadable hread

end completion

/-- From the end of the meeting on, a run that is recording is completed with its recording exactly
when nothing breaks. -/
theorem recording_survives_iff (C : Environment) (run : BotRun) (objects : Objects)
    (hrun : run.status = .recording) :
    Survives C (attendFromEnd C (begun run objects)).2 ↔ Unbroken C := by
  obtain ⟨s, hquiet, hcase⟩ := finalizeMeeting_eq (C := C) (distinct_begun run objects)
  have hstatus : s.run.status = .recording := hquiet.status.trans hrun
  unfold attendFromEnd
  rcases hcase with ⟨hok, hfinalizes⟩ | ⟨e, herror, hnot⟩
  · obtain ⟨r, s', hcomplete, hiff⟩ := completeMeeting_eq (C := C) hstatus
    have hread : (Fallible.read Meeting.run : Act BotRun) s = (.ok s.run, s) := rfl
    rw [Fallible.bind_ok hok, Fallible.bind_ok hread, if_neg (by simp [hstatus]), hcomplete, hiff]
    constructor
    · intro ⟨hstored, hleave, hreadable⟩
      exact ⟨hfinalizes, hstored, hleave, hreadable⟩
    · intro h
      exact ⟨h.stored, h.leave, h.readable⟩
  · rw [Fallible.bind_error herror]
    constructor
    · intro hsurvives
      cases hstatus.symm.trans hsurvives.status
    · intro h
      exact absurd h.finalizes hnot

section counterexample

/-- A meeting whose live stream has one final segment, whatever the batch is. -/
def oneFinal (batch : List Segment) : Environment where
  bot := 7
  bucket := "recordings"
  sha256 _ := "digest"
  retentionDays := 30
  recorder := some [1]
  transcriber := some { segments := [sentence], liveEnd := .returned 1, batch := some batch }
  summarizer := none
  draw := id

/-- Two speakers, both for no time. -/
def noTime : List Segment := [⟨"yes", 2000, 2000, some "0"⟩, ⟨"no", 3000, 3000, some "1"⟩]

/-- Two speakers. -/
def dialogue : List Segment := [⟨"yes", 2000, 2500, some "0"⟩, ⟨"no", 3000, 3500, some "1"⟩]

theorem recording_survives_dialogue : Survives (oneFinal dialogue)
    (attendFromEnd (oneFinal dialogue) (begun recordingRun fun _ => none)).2 := by
  refine (recording_survives_iff (oneFinal dialogue) recordingRun (fun _ => none) rfl).mpr
    ⟨⟨fun t ht => ?_, fun t batch ht _ hbatch _ _ => ?_⟩, fun _ => ⟨rfl, rfl⟩, rfl, Or.inr nofun⟩
  · cases Option.some.inj ht
    rfl
  · cases Option.some.inj ht
    cases Option.some.inj hbatch
    decide

/-- Everything but the speakers goes well. -/
theorem not_recording_survives : ¬∀ (C : Environment) (run : BotRun) (objects : Objects),
    run.status = .recording → C.hasBlob = true → C.uploadRaises = false → C.leaveRaises = false →
      C.cancelKey ≠ some none → (∀ t, C.activeTranscriber = some t → t.closeRaises = false) →
        Survives C (attendFromEnd C (begun run objects)).2 := by
  intro h
  have hclose : ∀ t, (oneFinal noTime).activeTranscriber = some t → t.closeRaises = false := by
    intro t ht
    cases Option.some.inj ht
    rfl
  have hsurvives := h (oneFinal noTime) recordingRun (fun _ => none) rfl rfl rfl rfl nofun hclose
  have hstatus : (attendFromEnd (oneFinal noTime) (begun recordingRun fun _ => none)).2.run.status =
      .recording := by decide +kernel
  cases hstatus.symm.trans hsurvives.status

end counterexample

end Fakery.Attend
