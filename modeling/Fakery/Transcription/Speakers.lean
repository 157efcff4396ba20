import Fakery.Bots.Models
import Mathlib.Data.Rat.Defs

/-! Speakers of the batch transcript: whether they are told apart well enough, and the rows that
take their names. -/
namespace Fakery.Transcription
open Fakery.Bots

def SPEAKER_MIN_SHARE : ℚ := 3 / 20

/-- One more entry of the dict, or more time for one that is there. -/
def addDuration (speaker : String) (duration : ℤ) : List (String × ℤ) → List (String × ℤ)
  | [] => [(speaker, duration)]
  | (name, total) :: durations =>
    if name = speaker then (name, total + duration) :: durations
    else (name, total) :: addDuration speaker duration durations

def speakerDurations (segments : List Segment) : List (String × ℤ) :=
  segments.foldl (fun durations segment => match segment.speaker with
    | none => durations
    | some speaker => addDuration speaker (segment.endMs - segment.startMs) durations) []

def totalDuration (segments : List Segment) : ℤ :=
  (speakerDurations segments).foldl (fun total d => total + d.2) 0

/-- The shares of several speakers who together have spoken for no time at all. -/
def Shareless (segments : List Segment) : Prop :=
  2 ≤ (speakerDurations segments).length ∧ totalDuration segments = 0

instance (segments : List Segment) : Decidable (Shareless segments) :=
  inferInstanceAs (Decidable (_ ∧ _))

/-- `none` is the ZeroDivisionError that the share of a speaker in no time raises. -/
def confidentSplit (segments : List Segment) : Option Bool :=
  let durations := (speakerDurations segments).map Prod.snd
  if durations.length < 2 then some false
  else if totalDuration segments = 0 then none
  else some (((durations.min?.getD 0 : ℤ) : ℚ) / totalDuration segments ≥ SPEAKER_MIN_SHARE)

/-- The rows that an annotation selects. -/
def annotates (b : ℕ) (startMs endMs : ℤ) (row : TranscriptSegment) : Bool :=
  row.botRunId = b && row.speaker.isNone && row.startMs < endMs && row.endMs > startMs

/-- The annotation by one segment, with the number of rows it names a speaker for. -/
def annotateRows (b : ℕ) (startMs endMs : ℤ) (speaker : String) (rows : List TranscriptSegment) :
    List TranscriptSegment × ℕ :=
  (rows.map fun row => if annotates b startMs endMs row then { row with speaker := some speaker }
    else row, rows.countP (annotates b startMs endMs))

def annotateSpeakers (b : ℕ) (rows : List TranscriptSegment) :
    List Segment → List TranscriptSegment × ℕ
  | [] => (rows, 0)
  | segment :: segments =>
    match segment.speaker with
    | none => annotateSpeakers b rows segments
    | some speaker =>
      let annotated := annotateRows b segment.startMs segment.endMs speaker rows
      let rest := annotateSpeakers b annotated.1 segments
      (rest.1, annotated.2 + rest.2)

variable {segments : List Segment} {b : ℕ} {rows : List TranscriptSegment}

theorem confidentSplit_eq_none : confidentSplit segments = none ↔ Shareless segments := by
  simp only [confidentSplit, Shareless, List.length_map]
  split_ifs with hlt hzero
  · simp only [false_iff]
    omega
  · simp only [true_iff]
    omega
  · simp [hzero]

/-- What an annotation leaves of a row. -/
def unnamed (row : TranscriptSegment) : TranscriptSegment := { row with speaker := none }

theorem map_unnamed_annotateSpeakers (segments : List Segment) :
    (annotateSpeakers b rows segments).1.map unnamed = rows.map unnamed := by
  induction segments generalizing rows with
  | nil => rfl
  | cons segment segments ih =>
    simp only [annotateSpeakers]
    cases segment.speaker with
    | none => exact ih
    | some speaker =>
      have hone : (annotateRows b segment.startMs segment.endMs speaker rows).1.map unnamed =
          rows.map unnamed := by
        simp only [annotateRows, List.map_map]
        refine List.map_congr_left fun row _ => ?_
        simp only [Function.comp_apply]
        split_ifs <;> rfl
      exact ih.trans hone

end Fakery.Transcription
