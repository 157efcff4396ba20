import Fakery.Bots.Models

/-! The notes of a meeting, put together from those of batches of its transcript. -/
namespace Fakery.Notes
open Fakery.Bots

def MAX_TRANSCRIPT_CHARS : ℕ := 100000

/-- `:02d` -/
def twoDigits (n : ℤ) : String := if 0 ≤ n ∧ n < 10 then "0" ++ toString n else toString n

def stamp (startMs : ℤ) : String :=
  let total := startMs / 1000
  twoDigits (total / 60) ++ ":" ++ twoDigits (total % 60)

def line (segment : Segment) : String :=
  let speaker := match segment.speaker with
    | some speaker => "spk-" ++ speaker
    | none => "spk-?"
  "[" ++ stamp segment.startMs ++ "] (" ++ speaker ++ ") " ++ segment.text

def header : String := "Transcript:\n"

def notesPrompt (segments : List Segment) : String :=
  header ++ "\n".intercalate (segments.map line)

def splitFrom (batches : List (List Segment)) (current : List Segment) (size : ℕ) :
    List Segment → List (List Segment)
  | [] => if current = [] then batches else batches ++ [current]
  | segment :: segments =>
    let lineSize := (line segment).length + 1
    if current ≠ [] ∧ size + lineSize > MAX_TRANSCRIPT_CHARS then
      splitFrom (batches ++ [current]) [segment] (header.length + lineSize) segments
    else splitFrom batches (current ++ [segment]) (size + lineSize) segments

def splitSegments (segments : List Segment) : List (List Segment) :=
  splitFrom [] [] header.length segments

def joinNotes (notes : List MeetingNotes) : MeetingNotes where
  summary := "\n".intercalate ((notes.map MeetingNotes.summary).filter (· ≠ ""))
  keyPoints := notes.flatMap MeetingNotes.keyPoints
  actionItems := notes.flatMap MeetingNotes.actionItems

section calls

variable {m : Type → Type} [Monad m] (summarize : List Segment → m MeetingNotes)

/-- The summarizer is called for one batch after another. -/
def summarizeEach : List (List Segment) → m (List MeetingNotes)
  | [] => pure []
  | batch :: batches => do
    let notes ← summarize batch
    let rest ← summarizeEach batches
    pure (notes :: rest)

def summarizeSegments (segments : List Segment) : m MeetingNotes := do
  let notes ← summarizeEach summarize (splitSegments segments)
  pure (joinNotes notes)

end calls

end Fakery.Notes
