import Fakery.Attend.Ingest

/-! Which segments of the batch get rows beside those of the live transcript. -/
namespace Fakery.Attend
open Fakery.Bots Fakery.Sequential Fakery.Storage Fakery.Transcription

variable {C : Environment} {s s' : Meeting} {segment : Segment} {batch : List Segment}
  {live : LiveTranscriptionResult} {row : TranscriptSegment}

/-- A run when its meeting begins. -/
def begun (run : BotRun) (objects : Objects) : Meeting := { run := run, objects := objects }

theorem distinct_begun (run : BotRun) (objects : Objects) : Distinct C (begun run objects) := by
  constructor <;> simp [begun]

/-- What the stored rows say. -/
def spoken (s : Meeting) : List Segment := s.segments.map toSegment

/-- The rows that `s'` has more than `s`. -/
def addedRows (s s' : Meeting) : List TranscriptSegment := s'.segments.drop s.segments.length

/-- The batch is compared with what is stored, or none of it that is covered would get a row. -/
def Compared (C : Environment) (s : Meeting) : Prop :=
  ∀ t batch, C.activeTranscriber = some t → t.closeRaises = false → C.recording ≠ [] →
    t.batch = some batch → t.liveEnd.result.finals ≠ 0 ∨
      ∀ segment ∈ batch, coveredByLive segment (spoken s) = true → Present s segment

theorem quarterCovered_congr {live live' : List Segment} (h : ∀ x, x ∈ live ↔ x ∈ live') :
    QuarterCovered segment live ↔ QuarterCovered segment live' := by
  have hpoints : coveredPoints segment live = coveredPoints segment live' := by
    ext x
    simp [coveredPoints, h]
  unfold QuarterCovered
  rw [hpoints]

theorem mem_sorted_spoken (s : Meeting) (x : Segment) :
    x ∈ (s.segments.insertionSort fun a b => a.startMs ≤ b.startMs).map toSegment ↔
      x ∈ spoken s := by
  simp [spoken]

/-- The segments that are ingested at the end. -/
def merged (live : LiveTranscriptionResult) (batch : List Segment) (s : Meeting) : List Segment :=
  if live.finals ≠ 0 ∧ batch ≠ [] then
    uncoveredBatchSegments
      ((s.segments.insertionSort fun a b => a.startMs ≤ b.startMs).map toSegment) batch
  else batch

theorem mem_merged (h : segment ∈ merged live batch s) : segment ∈ batch ∧
    (live.finals ≠ 0 → ¬QuarterCovered segment (spoken s)) := by
  unfold merged at h
  split_ifs at h with hlive
  · obtain ⟨hbatch, hnot⟩ := mem_uncoveredBatchSegments.mp h
    rw [quarterCovered_congr (mem_sorted_spoken s)] at hnot
    exact ⟨hbatch, fun _ => hnot⟩
  · refine ⟨h, fun hfinals => ?_⟩
    have hne : batch ≠ [] := List.ne_nil_of_mem h
    exact absurd ⟨hfinals, hne⟩ hlive

/-- An annotation changes nothing of the rows but their speakers. -/
theorem annotate_unnamed (s : Meeting) (segments : List Segment) :
    (annotateSegments C segments s).2.segments.map unnamed = s.segments.map unnamed := by
  unfold annotateSegments
  cases confidentSplit segments with
  | none => rfl
  | some confident =>
    cases confident with
    | false => rfl
    | true => exact map_unnamed_annotateSpeakers segments

/-- A merge ingests what is left of the batch; then come the status and the annotation. -/
theorem mergeBatch_eq (h : Distinct C s) (live : LiveTranscriptionResult) (batch : List Segment) :
    ∃ s₁ s₂, Ingested C (merged live batch s) s s₁ ∧ Quiet s₁ s₂ ∧ s₂.segments = s₁.segments ∧
      mergeBatch C live batch s = (if live.finals ≠ 0 ∧ C.sttDiarize then annotateSegments C batch
        else pure () : Act Unit) s₂ := by
  obtain ⟨s₁, hingest, hs₁⟩ := forEach_ingest h (merged live batch s)
  obtain ⟨s₂, hset, hquiet, hsegments⟩ :=
    setArtifactStatus_eq (C := C) .transcription "ready" live.error s₁
  refine ⟨s₁, s₂, hs₁, hquiet, hsegments, ?_⟩
  have huncovered : (if live.finals ≠ 0 ∧ batch ≠ [] then do
      let current ← transcript
      pure (uncoveredBatchSegments (current.map toSegment) batch)
    else pure batch : Act (List Segment)) s = (.ok (merged live batch s), s) := by
    unfold merged
    split_ifs <;> rfl
  unfold mergeBatch
  rw [Fallible.bind_ok huncovered, Fallible.bind_ok hingest, Fallible.bind_ok hset]

/-- The rows that a merge adds, up to their speakers. -/
theorem addedRows_mergeBatch (h : Distinct C s) (live : LiveTranscriptionResult)
    (batch : List Segment) : ∃ rows : List TranscriptSegment,
    (addedRows s (mergeBatch C live batch s).2).map unnamed = rows.map unnamed ∧
      (∀ row ∈ rows, ∃ segment ∈ merged live batch s, toSegment row = segment ∧
        ¬Present s segment) ∧
      ∀ segment ∈ merged live batch s, ¬Present s segment →
        ∃ row ∈ rows, rowKey row = segmentKey segment := by
  obtain ⟨s₁, s₂, hs₁, -, hsegments, hmerge⟩ := mergeBatch_eq h live batch
  obtain ⟨rows, hrows, hadded⟩ := hs₁.added
  refine ⟨rows, ?_, hadded, fun segment hsegment hnot => ?_⟩
  · have hunnamed : (mergeBatch C live batch s).2.segments.map unnamed =
        s₂.segments.map unnamed := by
      rw [hmerge]
      split_ifs
      · exact annotate_unnamed s₂ batch
      · rfl
    have hlength : (s.segments.map unnamed).length = s.segments.length := List.length_map _
    rw [addedRows, List.map_drop, hunnamed, hsegments, hrows, List.map_append, ← hlength,
      List.drop_left]
  · obtain ⟨row, hrow, hkey⟩ := hs₁.present segment hsegment
    rw [hrows] at hrow
    rcases List.mem_append.mp hrow with hrow | hrow
    · exact absurd ⟨row, hrow, hkey⟩ hnot
    · exact ⟨row, hrow, hkey⟩

/-- A row says when its segment speaks, whoever the speaker is. -/
theorem forall_not_covered_congr {rows rows' : List TranscriptSegment} {live : List Segment}
    (h : rows.map unnamed = rows'.map unnamed) :
    (∀ row ∈ rows, ¬QuarterCovered (toSegment row) live) ↔
      ∀ row ∈ rows', ¬QuarterCovered (toSegment row) live := by
  have hunnamed : ∀ rows : List TranscriptSegment,
      (∀ row ∈ rows, ¬QuarterCovered (toSegment row) live) ↔
        ∀ row ∈ rows.map unnamed, ¬QuarterCovered (toSegment row) live := by
    intro rows
    rw [List.forall_mem_map]
    rfl
  rw [hunnamed rows, hunnamed rows', h]

theorem quarterCovered_of_key {live : List Segment} (h : rowKey row = segmentKey segment) :
    QuarterCovered (toSegment row) live ↔ QuarterCovered segment live := by
  obtain ⟨hstart, hrest⟩ := Prod.mk.inj h
  obtain ⟨hend, -⟩ := Prod.mk.inj hrest
  unfold QuarterCovered candidateDuration coveredPoints toSegment
  rw [hstart, hend]

/-- The rows of a merge: a comparison leaves no covered segment in it, and without one each covered
segment must have a row before. -/
theorem merge_iff (h : Distinct C s) :
    (∀ row ∈ addedRows s (mergeBatch C live batch s).2, ¬QuarterCovered (toSegment row) (spoken s)) ↔
      live.finals ≠ 0 ∨
        ∀ segment ∈ batch, coveredByLive segment (spoken s) = true → Present s segment := by
  obtain ⟨rows, hrows, hadded, hpresent⟩ := addedRows_mergeBatch h live batch
  rw [forall_not_covered_congr hrows]
  constructor
  · intro huncovered
    by_cases hlive : live.finals = 0
    · right
      intro segment hsegment hcovered
      by_contra hnot
      have hmerged : merged live batch s = batch := if_neg (by simp [hlive])
      obtain ⟨row, hrow, hkey⟩ := hpresent segment (by rwa [hmerged]) hnot
      refine huncovered row hrow ?_
      rw [quarterCovered_of_key hkey]
      exact coveredByLive_eq_true.mp hcovered
    · exact Or.inl hlive
  · intro hcase row hrow hcovered
    obtain ⟨segment, hsegment, rfl, hnot⟩ := hadded row hrow
    obtain ⟨hbatch, huncovered⟩ := mem_merged hsegment
    rcases hcase with hlive | hall
    · exact huncovered hlive hcovered
    · exact hnot (hall _ hbatch (coveredByLive_eq_true.mpr hcovered))

theorem addedRows_of_segments (h : s'.segments = s.segments) : addedRows s s' = [] := by
  unfold addedRows
  rw [h]
  exact List.drop_length

/-- What the finalization does from the rows on that the live task has left. -/
theorem finalize_iff (h : Distinct C s) (t : Transcriber) (ht : C.activeTranscriber = some t) :
    (∀ row ∈ addedRows s (finalizeTranscript C live s).2,
      ¬QuarterCovered (toSegment row) (spoken s)) ↔
        (C.recording ≠ [] → ∀ batch, t.batch = some batch → live.finals ≠ 0 ∨
          ∀ segment ∈ batch, coveredByLive segment (spoken s) = true → Present s segment) := by
  have hnone : ∀ {u : Meeting}, u.segments = s.segments →
      ∀ row ∈ addedRows s u, ¬QuarterCovered (toSegment row) (spoken s) := by
    intro u hu row hrow
    rw [addedRows_of_segments hu] at hrow
    cases hrow
  have hset : ∀ status error, ∀ row ∈
      addedRows s (setArtifactStatus C .transcription status error s).2,
        ¬QuarterCovered (toSegment row) (spoken s) := by
    intro status error
    obtain ⟨u, hu, -, hsegments⟩ :=
      setArtifactStatus_eq (C := C) .transcription status error s
    rw [hu]
    exact hnone hsegments
  unfold finalizeTranscript
  rw [ht]
  dsimp only
  by_cases hrecording : C.recording = []
  · rw [if_pos hrecording]
    constructor
    · intro _ hne
      exact absurd hrecording hne
    · intro _
      exact hnone rfl
  · rw [if_neg hrecording]
    cases hbatch : t.batch with
    | none =>
      constructor
      · intro _ _ batch hsome
        cases hsome
      · intro _
        exact hset _ _
    | some batch =>
      dsimp only
      split_ifs with hsilence
      · constructor
        · intro _ _ other hsome
          cases Option.some.inj hsome
          simp [hsilence.2]
        · intro _
          exact hset _ _
      · rw [merge_iff h]
        constructor
        · intro hcase _ other hsome
          cases Option.some.inj hsome
          exact hcase
        · intro hall
          exact hall hrecording batch rfl

/-- No covered segment of the batch gets a row, exactly when the batch is compared. -/
theorem covered_not_added_iff (C : Environment) (run : BotRun) (objects : Objects) :
    (∀ row ∈ addedRows (awaitTranscript C (begun run objects)).2
        (finalizeMeeting C (begun run objects)).2,
      ¬QuarterCovered (toSegment row) (spoken (awaitTranscript C (begun run objects)).2)) ↔
        Compared C (awaitTranscript C (begun run objects)).2 := by
  have hbegun : Distinct C (begun run objects) := distinct_begun run objects
  cases ht : C.activeTranscriber with
  | none =>
    have hawait : awaitTranscript C (begun run objects) = (.ok {}, begun run objects) := by
      unfold awaitTranscript
      rw [ht]
      rfl
    have hsegments : (finalizeMeeting C (begun run objects)).2.segments =
        (begun run objects).segments := by
      unfold finalizeMeeting
      rw [Fallible.bind_ok hawait]
      unfold finalizeTranscript
      rw [ht]
      dsimp only
      split_ifs
      · obtain ⟨u, hu, -, hu'⟩ :=
          setArtifactStatus_eq (C := C) .transcription "disabled" none (begun run objects)
        rw [hu]
        exact hu'
      · rfl
    rw [hawait, addedRows_of_segments hsegments]
    constructor
    · intro _ t batch hsome
      cases ht.symm.trans hsome
    · intro _ row hrow
      cases hrow
  | some t =>
    obtain ⟨s, -, hdistinct, hlive⟩ := transcribeLive_eq hbegun t
    have hawait : awaitTranscript C (begun run objects) =
        if t.closeRaises then (.error (.named "aclose"), s) else (.ok t.liveEnd.result, s) := by
      unfold awaitTranscript
      rw [ht]
      exact hlive
    cases hclose : t.closeRaises with
    | true =>
      rw [hclose, if_pos rfl] at hawait
      have hraised : finalizeMeeting C (begun run objects) = (.error (.named "aclose"), s) :=
        Fallible.bind_error hawait
      rw [hawait, hraised]
      constructor
      · intro _ t' batch hsome hopen
        cases ht.symm.trans hsome
        cases hclose.symm.trans hopen
      · intro _ row hrow
        rw [addedRows_of_segments rfl] at hrow
        cases hrow
    | false =>
      rw [hclose, if_neg Bool.false_ne_true] at hawait
      have hfinal : finalizeMeeting C (begun run objects) =
          finalizeTranscript C t.liveEnd.result s := Fallible.bind_ok hawait
      rw [hawait, hfinal]
      refine (finalize_iff hdistinct t ht).trans ?_
      constructor
      · intro hcase t' batch hsome _ hrecording hbatch
        cases ht.symm.trans hsome
        exact hcase hrecording batch hbatch
      · intro hcompared hrecording batch hbatch
        exact hcompared t batch ht hclose hrecording hbatch

section counterexample

/-- One sentence of the first second. -/
def sentence : Segment := ⟨"hello there", 0, 1000, none⟩

/-- The stream raises after it has handed the sentence over, and the batch has it again. -/
def raisedAfterSentence : Environment where
  bot := 7
  bucket := "recordings"
  sha256 _ := "digest"
  retentionDays := 30
  recorder := some [1]
  transcriber := some
    { segments := [sentence], liveEnd := .raised,
      batch := some [{ sentence with text := "Hello there." }] }
  summarizer := none
  draw := id

def recordingRun : BotRun where
  id := 7
  meetingUrl := "https://meet.google.com/abc-defg-hij"
  meetingKey := "meet.google.com/abc-defg-hij"
  idempotencyKey := none
  displayName := none
  status := .recording
  createdAt := 0
  updatedAt := 0

theorem not_covered_not_added : ¬∀ (C : Environment) (run : BotRun) (objects : Objects),
    ∀ row ∈ addedRows (awaitTranscript C (begun run objects)).2
        (finalizeMeeting C (begun run objects)).2,
      ¬QuarterCovered (toSegment row) (spoken (awaitTranscript C (begun run objects)).2) := by
  intro h
  have hspoken : spoken (awaitTranscript raisedAfterSentence (begun recordingRun fun _ => none)).2 =
      [sentence] := by decide +kernel
  have hadded : (addedRows
      (awaitTranscript raisedAfterSentence (begun recordingRun fun _ => none)).2
      (finalizeMeeting raisedAfterSentence (begun recordingRun fun _ => none)).2).map toSegment =
        [{ sentence with text := "Hello there." }] := by decide +kernel
  obtain ⟨row, hrow, hsegment⟩ := List.map_eq_singleton_iff.mp hadded
  have hnot := h raisedAfterSentence recordingRun (fun _ => none) row (by simp [hrow])
  rw [hspoken, hsegment] at hnot
  exact hnot (coveredByLive_eq_true.mp (by decide +kernel))

end counterexample

end Fakery.Attend
