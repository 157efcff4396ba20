import Fakery.Transcription.Speakers
import Mathlib.Data.List.Count

/-! What an annotation does to the rows of a transcript: a blank speaker becomes that of the first
segment that overlaps the row, and nothing else changes. -/
namespace Fakery.Transcription
open Fakery.Bots

/-- The segment has a speaker and shares time with the row. -/
def names (row : TranscriptSegment) (segment : Segment) : Bool :=
  segment.speaker.isSome && row.startMs < segment.endMs && row.endMs > segment.startMs

/-- The speaker that the segments give a row. -/
def speakerFor (segments : List Segment) (row : TranscriptSegment) : Option String :=
  (segments.find? (names row)).bind Segment.speaker

def blank (b : ℕ) (row : TranscriptSegment) : Bool := row.botRunId = b && row.speaker.isNone

def fill (b : ℕ) (segments : List Segment) (row : TranscriptSegment) : TranscriptSegment :=
  if blank b row then { row with speaker := speakerFor segments row } else row

variable {segments segments' : List Segment} {segment : Segment} {b : ℕ}
  {rows : List TranscriptSegment} {row : TranscriptSegment} {speaker : String}

section rows

theorem eq_of_blank (h : blank b row = true) : row.botRunId = b ∧ row.speaker = none := by
  simpa [blank] using h

theorem fill_of_not_blank (h : blank b row = false) : fill b segments row = row := by
  simp [fill, h]

theorem fill_blank (h : blank b row = true) :
    fill b segments row = { row with speaker := speakerFor segments row } := by
  simp [fill, h]

/-- An annotation by one segment is the same as filling with that segment alone. -/
theorem annotates_eq (hs : segment.speaker = some speaker) :
    annotates b segment.startMs segment.endMs row = (blank b row && names row segment) := by
  simp [annotates, blank, names, hs, Bool.and_assoc]

theorem speakerFor_cons_none (hs : segment.speaker = none) :
    speakerFor (segment :: segments) row = speakerFor segments row := by
  simp [speakerFor, names, hs]

theorem speakerFor_cons_some (hs : segment.speaker = some speaker) :
    speakerFor (segment :: segments) row =
      if names row segment then some speaker else speakerFor segments row := by
  unfold speakerFor
  rw [List.find?_cons]
  cases names row segment with
  | true => simp [hs]
  | false => simp

/-- The speaker that is found belongs to a segment that names the row. -/
theorem speakerFor_eq_some (h : speakerFor segments row = some speaker) :
    ∃ segment ∈ segments, names row segment = true ∧ segment.speaker = some speaker := by
  obtain ⟨segment, hfind, hs⟩ := Option.bind_eq_some_iff.mp h
  exact ⟨segment, List.mem_of_find?_eq_some hfind, List.find?_some hfind, hs⟩

theorem speakerFor_eq_none :
    speakerFor segments row = none ↔ ∀ segment ∈ segments, names row segment = false := by
  constructor
  · intro h segment hmem
    cases hfind : segments.find? (names row) with
    | none =>
      rw [← Bool.not_eq_true]
      exact List.find?_eq_none.mp hfind segment hmem
    | some found =>
      have hnames := List.find?_some hfind
      simp only [speakerFor, hfind, Option.bind_some] at h
      simp [names, h] at hnames
  · intro h
    have hfind : segments.find? (names row) = none :=
      List.find?_eq_none.mpr fun segment hmem => by simp [h segment hmem]
    simp [speakerFor, hfind]

/-- A row that one segment has named is left alone by the segments after it. -/
theorem fill_fill_cons (hs : segment.speaker = some speaker) :
    fill b segments (if annotates b segment.startMs segment.endMs row
      then { row with speaker := some speaker } else row) = fill b (segment :: segments) row := by
  rw [annotates_eq hs]
  cases hb : blank b row with
  | false => simp [fill_of_not_blank hb]
  | true =>
    rw [fill_blank hb, speakerFor_cons_some hs]
    cases names row segment with
    | true =>
      have hnamed : blank b { row with speaker := some speaker } = false := by simp [blank]
      simp [fill_of_not_blank hnamed]
    | false => simp [fill_blank hb]

theorem fill_fill : fill b segments (fill b segments row) = fill b segments row := by
  cases hb : blank b row with
  | false => rw [fill_of_not_blank hb, fill_of_not_blank hb]
  | true =>
    have hfilled : fill b segments row = { row with speaker := speakerFor segments row } :=
      fill_blank hb
    cases hs : speakerFor segments row with
    | none =>
      have hsame : fill b segments row = row := by
        rw [hfilled, hs, ← (eq_of_blank hb).2]
      rw [hsame, hsame]
    | some speaker =>
      have hnamed : blank b (fill b segments row) = false := by
        rw [hfilled, hs]
        simp [blank]
      exact fill_of_not_blank hnamed

end rows

section count

/-- The rows that a list of segments names. -/
def fills (b : ℕ) (segments : List Segment) (row : TranscriptSegment) : Bool :=
  blank b row && (speakerFor segments row).isSome

theorem fills_iff : fills b segments row = true ↔ fill b segments row ≠ row := by
  cases hb : blank b row with
  | false => simp [fills, hb, fill_of_not_blank hb]
  | true =>
    have hspeaker := (eq_of_blank hb).2
    rw [fill_blank hb]
    constructor
    · intro h heq
      have hsame : speakerFor segments row = row.speaker :=
        congrArg TranscriptSegment.speaker heq
      simp only [fills, hb, Bool.true_and] at h
      rw [hsame, hspeaker] at h
      cases h
    · intro h
      rw [fills, hb, Bool.true_and, Option.isSome_iff_ne_none]
      intro hnone
      apply h
      rw [hnone, ← hspeaker]

/-- A row is named by the first segment, or later by the others. -/
theorem countP_fills_cons (hs : segment.speaker = some speaker) :
    rows.countP (fills b (segment :: segments)) =
      rows.countP (annotates b segment.startMs segment.endMs) +
        ((annotateRows b segment.startMs segment.endMs speaker rows).1).countP
          (fills b segments) := by
  simp only [annotateRows, List.countP_map]
  induction rows with
  | nil => rfl
  | cons row rows ih =>
    simp only [List.countP_cons, ih, Function.comp_apply, annotates_eq hs]
    have hone : (if fills b (segment :: segments) row then 1 else 0) =
        (if blank b row && names row segment then 1 else 0) +
          if fills b segments (if blank b row && names row segment
            then { row with speaker := some speaker } else row) then 1 else 0 := by
      unfold fills
      rw [speakerFor_cons_some hs]
      cases hb : blank b row with
      | false => simp [hb]
      | true =>
        cases hn : names row segment with
        | true => simp [blank]
        | false => simp [hb]
    omega

end count

/-- The loop of the service fills every row once. -/
theorem annotateSpeakers_eq (b : ℕ) (rows : List TranscriptSegment) (segments : List Segment) :
    annotateSpeakers b rows segments = (rows.map (fill b segments), rows.countP (fills b segments))
    := by
  induction segments generalizing rows with
  | nil =>
    have hfill : ∀ row, fill b [] row = row := by
      intro row
      cases hb : blank b row with
      | false => exact fill_of_not_blank hb
      | true =>
        have hspeaker := (eq_of_blank hb).2
        rw [fill_blank hb, speakerFor_eq_none.mpr (by simp), ← hspeaker]
    have hmap : rows.map (fill b []) = rows := (List.map_congr_left fun row _ => hfill row).trans
      (List.map_id rows)
    have hcount : rows.countP (fills b []) = 0 :=
      List.countP_eq_zero.mpr fun row _ h => fills_iff.mp h (hfill row)
    rw [hmap, hcount]
    rfl
  | cons segment segments ih =>
    cases hs : segment.speaker with
    | none =>
      have hfill : fill b (segment :: segments) = fill b segments := by
        funext row
        simp only [fill, speakerFor_cons_none hs]
      have hfills : fills b (segment :: segments) = fills b segments := by
        funext row
        simp only [fills, speakerFor_cons_none hs]
      simp only [annotateSpeakers, hs]
      rw [hfill, hfills, ih]
    | some speaker =>
      simp only [annotateSpeakers, hs]
      rw [ih, countP_fills_cons hs]
      have hrows : (annotateRows b segment.startMs segment.endMs speaker rows).1.map
          (fill b segments) = rows.map (fill b (segment :: segments)) := by
        simp only [annotateRows, List.map_map]
        exact List.map_congr_left fun row _ => fill_fill_cons hs
      rw [hrows]
      rfl

section order

/-- No two segments that overlap the row disagree about its speaker. -/
def Agreed (segments : List Segment) (row : TranscriptSegment) : Prop :=
  ∀ segment ∈ segments, ∀ other ∈ segments, names row segment = true → names row other = true →
    segment.speaker = other.speaker

theorem speakerFor_perm (h : segments'.Perm segments) (ha : Agreed segments row) :
    speakerFor segments' row = speakerFor segments row := by
  cases hs : speakerFor segments row with
  | none =>
    rw [speakerFor_eq_none] at hs ⊢
    exact fun segment hmem => hs segment (h.mem_iff.mp hmem)
  | some speaker =>
    obtain ⟨segment, hmem, hnames, hspeaker⟩ := speakerFor_eq_some hs
    cases hs' : speakerFor segments' row with
    | none =>
      have hnot := speakerFor_eq_none.mp hs' segment (h.mem_iff.mpr hmem)
      rw [hnames] at hnot
      cases hnot
    | some speaker' =>
      obtain ⟨other, hother, hnames', hspeaker'⟩ := speakerFor_eq_some hs'
      have hsame := ha other (h.mem_iff.mp hother) segment hmem hnames' hnames
      rw [← hspeaker', hsame, hspeaker]

end order

/-- An annotation gives every blank row of the run the speaker of the first segment that overlaps
it, counts the rows it changes, and has nothing left to do a second time. -/
theorem annotation_fills_blanks (b : ℕ) (rows : List TranscriptSegment) (segments : List Segment) :
    (annotateSpeakers b rows segments).1.map unnamed = rows.map unnamed ∧
    (∀ (i : ℕ) (row row' : TranscriptSegment), rows[i]? = some row →
      (annotateSpeakers b rows segments).1[i]? = some row' →
      (row.botRunId ≠ b → row' = row) ∧ (row.speaker ≠ none → row' = row) ∧
      (row.botRunId = b → row.speaker = none →
        row' = { row with speaker := (segments.find? fun segment => segment.speaker.isSome &&
          row.startMs < segment.endMs && row.endMs > segment.startMs).bind Segment.speaker })) ∧
    (annotateSpeakers b rows segments).2 =
      (rows.zip (annotateSpeakers b rows segments).1).countP (fun pair => pair.1 ≠ pair.2) ∧
    annotateSpeakers b (annotateSpeakers b rows segments).1 segments =
      ((annotateSpeakers b rows segments).1, 0) ∧
    ∀ segments', segments'.Perm segments →
      (∀ row ∈ rows, row.botRunId = b → row.speaker = none → Agreed segments row) →
      annotateSpeakers b rows segments' = annotateSpeakers b rows segments := by
  refine ⟨map_unnamed_annotateSpeakers segments, ?_, ?_, ?_, ?_⟩
  · intro i row row' hrow hrow'
    rw [annotateSpeakers_eq, List.getElem?_map, hrow] at hrow'
    obtain rfl := Option.some.inj hrow'
    refine ⟨fun hb => ?_, fun hs => ?_, fun hb hs => ?_⟩
    · exact fill_of_not_blank (by simp [blank, hb])
    · have hnamed : row.speaker.isNone = false := by simpa [Option.isSome_iff_ne_none] using hs
      exact fill_of_not_blank (by simp [blank, hnamed])
    · exact fill_blank (by simp [blank, hb, hs])
  · rw [annotateSpeakers_eq]
    induction rows with
    | nil => rfl
    | cons row rows ih =>
      have hrow : fills b segments row = decide (row ≠ fill b segments row) := by
        rw [Bool.eq_iff_iff, fills_iff, decide_eq_true_iff]
        exact ne_comm
      simp only [List.countP_cons, List.map_cons, List.zip_cons_cons, hrow] at ih ⊢
      rw [ih]
  · rw [annotateSpeakers_eq, annotateSpeakers_eq, List.map_map]
    have hmap : rows.map (fill b segments ∘ fill b segments) = rows.map (fill b segments) :=
      List.map_congr_left fun row _ => fill_fill
    have hcount : (rows.map (fill b segments)).countP (fills b segments) = 0 := by
      apply List.countP_eq_zero.mpr
      intro row hmem h
      obtain ⟨row, -, rfl⟩ := List.mem_map.mp hmem
      exact fills_iff.mp h fill_fill
    rw [hmap, hcount]
  · intro segments' h ha
    have hspeaker : ∀ row ∈ rows, blank b row = true →
        speakerFor segments' row = speakerFor segments row := fun row hmem hb =>
      speakerFor_perm h (ha row hmem (eq_of_blank hb).1 (eq_of_blank hb).2)
    rw [annotateSpeakers_eq, annotateSpeakers_eq]
    apply Prod.ext
    · refine List.map_congr_left fun row hmem => ?_
      cases hb : blank b row with
      | false => rw [fill_of_not_blank hb, fill_of_not_blank hb]
      | true => rw [fill_blank hb, fill_blank hb, hspeaker row hmem hb]
    · refine List.countP_congr fun row hmem => ?_
      cases hb : blank b row with
      | false => simp [fills, hb]
      | true => simp [fills, hb, hspeaker row hmem hb]

end Fakery.Transcription
