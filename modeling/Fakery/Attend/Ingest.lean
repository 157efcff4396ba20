import Fakery.Attend.Finalize

/-! What the transactions of the finalization do to the transcript rows: none but the ingestion adds
any, and it adds each segment once. Status, recording and objects are left alone by all of them. -/
namespace Fakery.Attend
open Fakery.Bots Fakery.Core Fakery.Sequential Fakery.Storage Fakery.Transcription

variable {C : Environment} {s s' : Meeting} {segment : Segment} {segments : List Segment}
  {row : TranscriptSegment}

/-- What tells two rows of a run apart. -/
def rowKey (row : TranscriptSegment) : ℤ × ℤ × String := (row.startMs, row.endMs, row.text)

def segmentKey (segment : Segment) : ℤ × ℤ × String :=
  (segment.startMs, segment.endMs, segment.text)

/-- The rows of the bot, no two of them alike. -/
structure Distinct (C : Environment) (s : Meeting) : Prop where
  bot : ∀ row ∈ s.segments, row.botRunId = C.bot
  keys : (s.segments.map rowKey).Nodup

/-- The segment has a row already. -/
def Present (s : Meeting) (segment : Segment) : Prop :=
  ∃ row ∈ s.segments, rowKey row = segmentKey segment

instance : Decidable (Present s segment) := inferInstanceAs (Decidable (∃ row ∈ s.segments, _))

theorem sameSegment_iff (h : row.botRunId = C.bot) :
    Db.sameSegment C.bot segment row = true ↔ rowKey row = segmentKey segment := by
  simp [Db.sameSegment, rowKey, segmentKey, h, and_assoc]

@[simp] theorem draw_eq (s : Meeting) :
    draw C s = (.ok (C.draw s.drawn), { s with drawn := s.drawn + 1 }) := rfl

/-- The row that the ingestion of a segment adds. -/
def newRow (C : Environment) (segment : Segment) (s : Meeting) : TranscriptSegment where
  id := C.draw s.drawn
  botRunId := C.bot
  speaker := segment.speaker
  text := segment.text
  startMs := segment.startMs
  endMs := segment.endMs
  createdAt := C.draw (s.drawn + 1)

def ingested (C : Environment) (segment : Segment) (s : Meeting) : Meeting :=
  if Present s segment then s
  else { s with segments := s.segments ++ [newRow C segment s], drawn := s.drawn + 2 }

/-- At most one row is found. -/
theorem findSegment_eq (h : Distinct C s) (segment : Segment) :
    (findSegment C segment s = (.ok none, s) ∧ ¬Present s segment) ∨
      ∃ row, findSegment C segment s = (.ok (some row), s) ∧ Present s segment := by
  have hfilter : ∀ row, row ∈ s.segments.filter (Db.sameSegment C.bot segment) ↔
      row ∈ s.segments ∧ rowKey row = segmentKey segment := by
    intro row
    rw [List.mem_filter]
    exact and_congr_right fun hrow => sameSegment_iff (h.bot row hrow)
  have hfind : findSegment C segment s =
      scalarOneOrNone (s.segments.filter (Db.sameSegment C.bot segment)) s := rfl
  cases hf : s.segments.filter (Db.sameSegment C.bot segment) with
  | nil =>
    left
    constructor
    · rw [hfind, hf]
      rfl
    · intro ⟨row, hrow, hkey⟩
      have hmem := (hfilter row).mpr ⟨hrow, hkey⟩
      rw [hf] at hmem
      cases hmem
  | cons row rest =>
    have hrow := (hfilter row).mp (by rw [hf]; exact List.mem_cons_self)
    cases rest with
    | nil =>
      right
      refine ⟨row, ?_, row, hrow.1, hrow.2⟩
      rw [hfind, hf]
      rfl
    | cons other rest =>
      exfalso
      have hother := (hfilter other).mp (by rw [hf]; simp)
      have hsub : (row :: other :: rest).Sublist s.segments := by
        rw [← hf]
        exact List.filter_sublist
      have hnodup := (hsub.map rowKey).nodup h.keys
      simp [hrow.2, hother.2] at hnodup

theorem ingestSegment_eq (h : Distinct C s) (segment : Segment) :
    ingestSegment C segment s = (.ok (), ingested C segment s) := by
  unfold ingested
  rcases findSegment_eq h segment with ⟨hf, hp⟩ | ⟨row, hf, hp⟩
  · rw [if_neg hp]
    exact Fallible.bind_ok hf
  · rw [if_pos hp]
    exact Fallible.bind_ok hf

theorem distinct_ingested (h : Distinct C s) (segment : Segment) :
    Distinct C (ingested C segment s) := by
  unfold ingested
  split_ifs with hp
  · exact h
  · constructor
    · intro row hrow
      rcases List.mem_append.mp hrow with hrow | hrow
      · exact h.bot row hrow
      · rw [List.mem_singleton.mp hrow]
        rfl
    · have hfresh : segmentKey segment ∉ s.segments.map rowKey := by
        intro hmem
        obtain ⟨row, hrow, hkey⟩ := List.mem_map.mp hmem
        exact hp ⟨row, hrow, hkey⟩
      simp only [List.map_append, List.map_cons, List.map_nil]
      exact List.nodup_append_comm.mp (List.nodup_cons.mpr ⟨hfresh, h.keys⟩)

/-- What the rows of `s'` have more than those of `s`, by the ingestion of the segments. -/
structure Ingested (C : Environment) (segments : List Segment) (s s' : Meeting) : Prop where
  distinct : Distinct C s'
  added : ∃ rows, s'.segments = s.segments ++ rows ∧
    ∀ row ∈ rows, ∃ segment ∈ segments, toSegment row = segment ∧ ¬Present s segment
  present : ∀ segment ∈ segments, Present s' segment
  same : s' = { s with segments := s'.segments, drawn := s'.drawn }

theorem forEach_ingest (h : Distinct C s) (segments : List Segment) :
    ∃ s', Fallible.forEach (ingestSegment C) segments s = (.ok (), s') ∧
      Ingested C segments s s' := by
  induction segments generalizing s with
  | nil => exact ⟨s, rfl, h, ⟨[], by simp, by simp⟩, by simp, rfl⟩
  | cons segment segments ih =>
    obtain ⟨s', hrest, hs'⟩ := ih (distinct_ingested h segment)
    refine ⟨s', (Fallible.bind_ok (ingestSegment_eq h segment)).trans hrest, hs'.distinct, ?_, ?_, ?_⟩
    · obtain ⟨rows, hrows, hadded⟩ := hs'.added
      have hlater : ∀ other, Present s other → Present (ingested C segment s) other := by
        intro other ⟨row, hrow, hkey⟩
        refine ⟨row, ?_, hkey⟩
        unfold ingested
        split_ifs
        · exact hrow
        · exact List.mem_append_left _ hrow
      have hold : ∀ row ∈ rows, ∃ other ∈ segment :: segments,
          toSegment row = other ∧ ¬Present s other := by
        intro row hrow
        obtain ⟨other, hother, heq, hnot⟩ := hadded row hrow
        exact ⟨other, List.mem_cons_of_mem _ hother, heq, fun hp => hnot (hlater other hp)⟩
      by_cases hp : Present s segment
      · rw [ingested, if_pos hp] at hrows
        exact ⟨rows, hrows, hold⟩
      · rw [ingested, if_neg hp, List.append_assoc] at hrows
        refine ⟨newRow C segment s :: rows, hrows, fun row hrow => ?_⟩
        rcases List.mem_cons.mp hrow with rfl | hrow
        · exact ⟨segment, List.mem_cons_self, rfl, hp⟩
        · exact hold row hrow
    · intro other hother
      rcases List.mem_cons.mp hother with rfl | hother
      · obtain ⟨rows, hrows, -⟩ := hs'.added
        have hp : Present (ingested C other s) other := by
          unfold ingested
          split_ifs with hp
          · exact hp
          · exact ⟨newRow C other s, by simp, rfl⟩
        obtain ⟨row, hrow, hkey⟩ := hp
        exact ⟨row, by rw [hrows]; exact List.mem_append_left _ hrow, hkey⟩
      · exact hs'.present other hother
    · have hsame := hs'.same
      unfold ingested at hsame
      split_ifs at hsame
      · exact hsame
      · exact hsame

/-- The status of the run, its recording and the objects are as they were. -/
structure Quiet (s s' : Meeting) : Prop where
  status : s'.run.status = s.run.status
  uri : s'.run.recordingUri = s.run.recordingUri
  sha256 : s'.run.recordingSha256 = s.run.recordingSha256
  bytes : s'.run.recordingBytes = s.run.recordingBytes
  objects : s'.objects = s.objects

theorem Quiet.refl (s : Meeting) : Quiet s s := ⟨rfl, rfl, rfl, rfl, rfl⟩

theorem Quiet.trans {s'' : Meeting} (h : Quiet s s') (h' : Quiet s' s'') : Quiet s s'' :=
  ⟨h'.status.trans h.status, h'.uri.trans h.uri, h'.sha256.trans h.sha256, h'.bytes.trans h.bytes,
    h'.objects.trans h.objects⟩

theorem Ingested.quiet (h : Ingested C segments s s') : Quiet s s' := by
  rw [h.same]
  exact ⟨rfl, rfl, rfl, rfl, rfl⟩

section transactions

variable {f : ℕ → BotRun → Except TwinError BotRun} {run' : BotRun} {e : TwinError}

/-- A transaction that commits. -/
theorem transaction_ok (h : f (C.draw s.drawn) s.run = .ok run') : transaction C f s =
    (.ok (), { s with
      run := BotRun.flushed s.run (C.draw (s.drawn + 1)) run'
      drawn := s.drawn + 2 }) := by
  show leaveScope (C.draw (s.drawn + 1)) s.run (f (C.draw s.drawn) s.run)
    { s with drawn := s.drawn + 2 } = _
  rw [h]
  rfl

/-- One that raises. -/
theorem transaction_error (h : f (C.draw s.drawn) s.run = .error e) :
    transaction C f s = (.error (.twin e), { s with drawn := s.drawn + 2 }) := by
  show leaveScope (C.draw (s.drawn + 1)) s.run (f (C.draw s.drawn) s.run)
    { s with drawn := s.drawn + 2 } = _
  rw [h]
  rfl

/-- The row after a status of an artifact has been set. -/
theorem setArtifactStatus_eq (artifact : Artifact) (status : String) (error : Option String)
    (s : Meeting) : ∃ s', setArtifactStatus C artifact status error s = (.ok (), s') ∧
      Quiet s s' ∧ s'.segments = s.segments := by
  refine ⟨_, transaction_ok rfl, ?_, rfl⟩
  unfold BotRun.flushed BotRun.withArtifactStatus BotRun.touched
  cases artifact <;> constructor <;> dsimp only <;> split_ifs <;> rfl

end transactions

/-- What comes of the live task. -/
def LiveEnd.result : LiveEnd → LiveTranscriptionResult
  | returned finals => { finals := finals }
  | raised => { error := some "live-failed" }
  | drainTimeout => { error := some "live-drain-timeout" }

theorem transcribeLive_eq (h : Distinct C s) (t : Transcriber) :
    ∃ s', Quiet s s' ∧ Distinct C s' ∧ transcribeLive C t s =
      if t.closeRaises then (.error (.named "aclose"), s') else (.ok t.liveEnd.result, s') := by
  obtain ⟨s₁, hfirst, hs₁⟩ := forEach_ingest h t.segments
  have hclose : ∀ (result : LiveTranscriptionResult) (u : Meeting),
      (if t.closeRaises then Fallible.raise (.named "aclose") else pure result : Act _) u =
        if t.closeRaises then (.error (.named "aclose"), u) else (.ok result, u) := by
    intro result u
    split_ifs <;> rfl
  cases hend : t.liveEnd with
  | returned finals =>
    refine ⟨s₁, hs₁.quiet, hs₁.distinct, ?_⟩
    unfold transcribeLive
    rw [Fallible.bind_ok hfirst, hend]
    exact hclose _ s₁
  | raised =>
    obtain ⟨s₂, hset, hquiet, hsegments⟩ :=
      setArtifactStatus_eq (C := C) .transcription "provider-failed" (some "live-failed") s₁
    have hdistinct : Distinct C s₂ := by
      constructor
      · rw [hsegments]
        exact hs₁.distinct.bot
      · rw [hsegments]
        exact hs₁.distinct.keys
    refine ⟨s₂, hs₁.quiet.trans hquiet, hdistinct, ?_⟩
    unfold transcribeLive
    rw [Fallible.bind_ok hfirst, hend]
    have hbind := Fallible.bind_ok (f := fun _ => (pure { error := some "live-failed" } :
      Act LiveTranscriptionResult)) hset
    exact (Fallible.bind_ok hbind).trans (hclose _ s₂)
  | drainTimeout =>
    refine ⟨s₁, hs₁.quiet, hs₁.distinct, ?_⟩
    unfold transcribeLive
    rw [Fallible.bind_ok hfirst, hend]
    exact hclose _ s₁

end Fakery.Attend
