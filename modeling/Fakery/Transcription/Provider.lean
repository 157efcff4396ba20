import Fakery.Bots.Models
import Fakery.Counting.Tally
import Fakery.Texts.Strings
import Mathlib.Data.List.DropRight
import Mathlib.Data.List.Forall2

/-! The segments that the answers of the provider are read as, and whose each of them is. -/
namespace Fakery.Transcription.Provider
open Fakery.Bots Fakery.Counting Fakery.Texts

/-- Times are a `τ`. -/
structure Word (τ : Type) where
  start : τ
  «end» : τ
  speaker : Option ℤ := none

structure Sentence (τ : Type) where
  text : Option Text
  start : τ
  «end» : τ
  speaker : Option ℤ := none

structure Alternative (τ : Type) where
  transcript : Option Text := none
  paragraphs : Option (List (Option (List (Sentence τ)))) := none
  words : Option (List (Word τ)) := none

/-- The first alternative of the first channel, where there is one. -/
structure Response (τ : Type) where
  alternative : Option (Alternative τ)
  duration : Option τ := none

section code

/-- `str.isspace` of a character. -/
def isSpace (c : Char) : Bool :=
  let n := c.toNat
  (9 ≤ n && n ≤ 13) || (28 ≤ n && n ≤ 32) || n = 133 || n = 160 || n = 5760 ||
    (8192 ≤ n && n ≤ 8202) || n = 8232 || n = 8233 || n = 8239 || n = 8287 || n = 12288

def strip (s : Text) : Text := (s.dropWhile isSpace).rdropWhile isSpace

/-- `(text or "").strip()` -/
def spokenText (text : Option Text) : Text := strip (text.getD [])

variable {τ : Type} (ms : τ → ℤ)

def labels (words : List (Word τ)) : List ℤ := words.filterMap Word.speaker

def majoritySpeaker (words : List (Word τ)) : Option String :=
  (leader (tally (labels words))).map fun c => toString c.1

def wordsInRange (words : List (Word τ)) (startMs endMs : ℤ) : List (Word τ) :=
  words.filter fun word => ms word.start < endMs && ms word.end > startMs

def batchSpeaker (sentence : Sentence τ) (words : List (Word τ)) : Option String :=
  match sentence.speaker with
  | some direct => some (toString direct)
  | none => majoritySpeaker (wordsInRange ms words (ms sentence.start) (ms sentence.end))

def Alternative.sentences (alternative : Alternative τ) : List (Sentence τ) :=
  (alternative.paragraphs.getD []).flatMap fun paragraph => paragraph.getD []

def sentenceSegment (words : List (Word τ)) (sentence : Sentence τ) : Segment where
  text := String.ofList (spokenText sentence.text)
  startMs := ms sentence.start
  endMs := ms sentence.end
  speaker := batchSpeaker ms sentence words

/-- `ms` is `int(seconds * 1000)`. -/
def prerecordedSegments (response : Response τ) : List Segment :=
  match response.alternative with
  | none => []
  | some alternative =>
    let sentences := alternative.sentences.filter fun sentence => spokenText sentence.text ≠ []
    let segments := sentences.map (sentenceSegment ms (alternative.words.getD []))
    if segments ≠ [] then segments
    else
      let text := spokenText alternative.transcript
      if text = [] then []
      else [⟨String.ofList text, 0, (response.duration.map ms).getD 0, none⟩]

/-- A message of the live provider, with the first alternative of its channel. -/
structure Message (τ : Type) where
  alternative : Option (Alternative τ)
  start : τ
  duration : τ
  isFinal : Bool := false
  speechFinal : Bool := false

/-- The segment of a message, and whether it is final. -/
def liveSegment [Add τ] (message : Message τ) : Option (Segment × Bool) :=
  message.alternative.bind fun alternative =>
    let text := spokenText alternative.transcript
    if text = [] then none
    else
      let words := alternative.words.getD []
      let startMs := match words.head? with
        | some word => ms word.start
        | none => ms message.start
      let endMs := match words.getLast? with
        | some word => ms word.end
        | none => ms (message.start + message.duration)
      some (⟨String.ofList text, startMs, endMs, majoritySpeaker words⟩,
        message.isFinal || message.speechFinal)

end code

section strip

variable {s t : Text}

theorem dropWhile_of_prefix (h : t <+: s) (hs : s.dropWhile isSpace = s) :
    t.dropWhile isSpace = t := by
  cases t with
  | nil => rfl
  | cons c t =>
    obtain ⟨rest, rfl⟩ := h
    rw [List.cons_append] at hs
    have hc : isSpace c = false := by
      have hhead := List.dropWhile_eq_self_iff.mp hs (by simp)
      simpa using hhead
    rw [List.dropWhile_cons_of_neg (by simp [hc])]

/-- What is stripped has no space at its ends. -/
theorem strip_strip (s : Text) : strip (strip s) = strip s := by
  have hfront : (s.dropWhile isSpace).dropWhile isSpace = s.dropWhile isSpace :=
    List.dropWhile_idempotent _ _
  have hstrip : (strip s).dropWhile isSpace = strip s :=
    dropWhile_of_prefix (List.rdropWhile_prefix _ _) hfront
  rw [strip, hstrip]
  exact List.rdropWhile_idempotent _ _

end strip

section segments

variable {τ : Type} {ms : τ → ℤ} {words : List (Word τ)} {sentence : Sentence τ}

/-- A vote of words names the label that leads. -/
theorem majoritySpeaker_iff {name : String} : majoritySpeaker words = some name ↔
    ∃ label, name = toString label ∧ Leads (labels words) label := by
  rw [majoritySpeaker]
  constructor
  · intro h
    obtain ⟨c, hc, rfl⟩ := Option.map_eq_some_iff.mp h
    exact ⟨c.1, rfl, leader_tally.mp (by rw [hc]; rfl)⟩
  · rintro ⟨label, rfl, h⟩
    obtain ⟨c, hc, rfl⟩ := Option.map_eq_some_iff.mp (leader_tally.mpr h)
    rw [hc]
    rfl

/-- The words of a sentence that its own times meet. -/
def Meets (ms : τ → ℤ) (sentence : Sentence τ) (word : Word τ) : Prop :=
  ms word.start < ms sentence.end ∧ ms sentence.start < ms word.end

/-- The segment of a sentence: its text and times, and its own speaker or the one that most of its
words are said by, of several the one that speaks first. -/
structure Says (ms : τ → ℤ) (words : List (Word τ)) (sentence : Sentence τ) (segment : Segment) :
    Prop where
  text : segment.text.toList = spokenText sentence.text
  startMs : segment.startMs = ms sentence.start
  endMs : segment.endMs = ms sentence.end
  own : ∀ label, sentence.speaker = some label → segment.speaker = some (toString label)
  voted : sentence.speaker = none → ∃ said, said.Sublist words ∧
    (∀ word, word ∈ said ↔ word ∈ words ∧ Meets ms sentence word) ∧
    ∀ name, segment.speaker = some name ↔
      ∃ label, name = toString label ∧ Leads (labels said) label

theorem says_sentenceSegment (words : List (Word τ)) (sentence : Sentence τ) :
    Says ms words sentence (sentenceSegment ms words sentence) where
  text := String.toList_ofList
  startMs := rfl
  endMs := rfl
  own label h := by simp [sentenceSegment, batchSpeaker, h]
  voted h := by
    refine ⟨wordsInRange ms words (ms sentence.start) (ms sentence.end), List.filter_sublist,
      fun word => ?_, fun name => ?_⟩
    · simp [wordsInRange, Meets]
    · simp only [sentenceSegment, batchSpeaker, h]
      exact majoritySpeaker_iff

/-- A text that is worth a segment. -/
def Stripped (text : String) : Prop := text.toList ≠ [] ∧ strip text.toList = text.toList

theorem stripped_ofList {text : Option Text} (h : spokenText text ≠ []) :
    Stripped (String.ofList (spokenText text)) := by
  rw [Stripped, String.toList_ofList]
  exact ⟨h, strip_strip _⟩

def Response.saidWords (response : Response τ) : List (Word τ) :=
  (response.alternative.bind Alternative.words).getD []

/-- The sentences of a response that have a text. -/
def Response.spoken (response : Response τ) : List (Sentence τ) :=
  ((response.alternative.map Alternative.sentences).getD []).filter fun sentence =>
    spokenText sentence.text ≠ []

/-- The text of a response that has no sentences. -/
def Response.whole (response : Response τ) : Text :=
  spokenText (response.alternative.bind Alternative.transcript)

theorem prerecordedSegments_eq (response : Response τ) : prerecordedSegments ms response =
    if response.spoken ≠ [] then response.spoken.map (sentenceSegment ms response.saidWords)
    else if response.whole = [] then []
    else [⟨String.ofList response.whole, 0, (response.duration.map ms).getD 0, none⟩] := by
  obtain ⟨alternative, duration⟩ := response
  cases alternative with
  | none => rfl
  | some alternative =>
    simp only [prerecordedSegments, ne_eq, List.map_eq_nil_iff]
    rfl

/-- What the answers of the provider are read as: no segment without a text or with space around it;
one for every sentence that has a text, in their order, with the speaker that it names or that leads
among the words said meanwhile; one for the whole text where there is no such sentence; and that of
a live message with the speaker that leads among its words. -/
theorem provider_segments [Add τ] (ms : τ → ℤ) (response : Response τ) (message : Message τ) :
    (∀ segment ∈ prerecordedSegments ms response, Stripped segment.text) ∧
    (response.spoken ≠ [] → List.Forall₂ (Says ms response.saidWords) response.spoken
      (prerecordedSegments ms response)) ∧
    (response.spoken = [] → ∀ segment, segment ∈ prerecordedSegments ms response ↔
      response.whole ≠ [] ∧ segment =
        ⟨String.ofList response.whole, 0, (response.duration.map ms).getD 0, none⟩) ∧
    ∀ segment final, liveSegment ms message = some (segment, final) → Stripped segment.text ∧
      ∀ name, segment.speaker = some name ↔ ∃ label, name = toString label ∧
        Leads (labels ((message.alternative.bind Alternative.words).getD [])) label := by
  rw [prerecordedSegments_eq]
  refine ⟨?_, fun h => ?_, fun h segment => ?_, fun segment final h => ?_⟩
  · split_ifs with hspoken hwhole
    · intro segment hsegment
      obtain ⟨sentence, hs, rfl⟩ := List.mem_map.mp hsegment
      exact stripped_ofList (of_decide_eq_true (List.mem_filter.mp hs).2)
    · exact fun segment hsegment => by cases hsegment
    · intro segment hsegment
      rw [List.mem_singleton.mp hsegment]
      exact stripped_ofList hwhole
  · rw [if_pos h, List.forall₂_map_right_iff, List.forall₂_same]
    exact fun sentence _ => says_sentenceSegment response.saidWords sentence
  · rw [if_neg (not_not.mpr h)]
    split_ifs with hwhole <;> simp [hwhole]
  · obtain ⟨alternative, ha, h⟩ := Option.bind_eq_some_iff.mp h
    dsimp only at h
    split_ifs at h with htext
    cases Option.some.inj h
    rw [ha]
    exact ⟨stripped_ofList htext, fun name => majoritySpeaker_iff⟩

end segments

end Fakery.Transcription.Provider
