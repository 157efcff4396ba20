import Fakery.Batching.Greedy
import Fakery.Notes.Summarizer

/-! The batches of a transcript: what the running size is of, that no other batches of their
length are fewer, and what is asked of the summarizer. -/
namespace Fakery.Notes
open Fakery.Bots Fakery.Batching

variable {segments batch current front : List Segment} {batches : List (List Segment)}
  {segment : Segment} {size : ℕ}

section sizes

/-- What the lines of the segments add to the running size. -/
def linesSize : List Segment → ℕ
  | [] => 0
  | segment :: segments => (line segment).length + 1 + linesSize segments

@[simp] theorem linesSize_append (front batch : List Segment) :
    linesSize (front ++ batch) = linesSize front + linesSize batch := by
  induction front with
  | nil => simp [linesSize]
  | cons segment front ih =>
    simp only [List.cons_append, linesSize, ih]
    omega

theorem length_intercalate (segment : Segment) (segments : List Segment) :
    ("\n".intercalate ((segment :: segments).map line)).length + 1 =
      linesSize (segment :: segments) := by
  induction segments generalizing segment with
  | nil => simp [linesSize]
  | cons next segments ih =>
    have hnext := ih next
    have hbreak : "\n".length = 1 := rfl
    simp only [List.map_cons, linesSize] at hnext ⊢
    rw [String.intercalate_cons_cons, String.length_append, String.length_append]
    omega

/-- The running size counts one line break more than the prompt has. -/
theorem length_notesPrompt (h : batch ≠ []) :
    (notesPrompt batch).length + 1 = header.length + linesSize batch := by
  cases batch with
  | nil => exact absurd rfl h
  | cons segment segments =>
    have hlines := length_intercalate segment segments
    unfold notesPrompt
    rw [String.length_append]
    omega

/-- A batch of several segments leaves room in the prompt. -/
def Fits (batch : List Segment) : Prop :=
  1 < batch.length → (notesPrompt batch).length < MAX_TRANSCRIPT_CHARS

theorem fits_iff (h : 1 < batch.length) :
    Fits batch ↔ header.length + linesSize batch ≤ MAX_TRANSCRIPT_CHARS := by
  have hne : batch ≠ [] := by
    rintro rfl
    cases h
  have hlength := length_notesPrompt hne
  unfold Fits
  constructor
  · intro hfits
    have hlt := hfits h
    omega
  · intro hle _
    omega

theorem fits_tail (front batch : List Segment) (h : batch ≠ []) (hfits : Fits (front ++ batch)) :
    Fits batch := by
  intro hlong
  have hlonger : 1 < (front ++ batch).length := by
    rw [List.length_append]
    omega
  have hle := (fits_iff hlonger).mp hfits
  rw [linesSize_append] at hle
  have hlength := length_notesPrompt h
  omega

end sizes

section split

theorem splitFrom_cons_nil :
    splitFrom batches [] header.length (segment :: segments) =
      splitFrom batches [segment] (header.length + ((line segment).length + 1)) segments := by
  simp [splitFrom]

/-- Batches that are full stay as they are. -/
theorem splitFrom_append : splitFrom batches current size segments =
    batches ++ splitFrom [] current size segments := by
  induction segments generalizing batches current size with
  | nil =>
    simp only [splitFrom]
    split_ifs <;> simp
  | cons segment segments ih =>
    simp only [splitFrom]
    split_ifs with h
    · have hfirst := @ih [segment] [current] (header.length + ((line segment).length + 1))
      rw [ih, List.nil_append, hfirst, List.append_assoc]
    · exact ih

/-- The current batch takes segments for as long as they fit, and the rest is split anew. -/
theorem splitFrom_current (segments : List Segment) (h : current ≠ [])
    (hsize : size = header.length + linesSize current) :
    ∃ taken rest, segments = taken ++ rest ∧
      splitFrom [] current size segments = (current ++ taken) :: splitSegments rest ∧
      (taken ≠ [] → header.length + linesSize (current ++ taken) ≤ MAX_TRANSCRIPT_CHARS) ∧
      (∀ next rest', rest = next :: rest' → MAX_TRANSCRIPT_CHARS <
        header.length + linesSize (current ++ taken ++ [next])) := by
  induction segments generalizing current size with
  | nil =>
    refine ⟨[], [], rfl, ?_, fun hne => absurd rfl hne, fun _ _ h => by cases h⟩
    simp [splitFrom, splitSegments, h]
  | cons segment segments ih =>
    simp only [splitFrom]
    split_ifs with hfull
    · refine ⟨[], segment :: segments, rfl, ?_, fun hne => absurd rfl hne, ?_⟩
      · rw [splitFrom_append, splitSegments, splitFrom_cons_nil]
        simp
      · intro next rest' hnext
        obtain ⟨rfl, rfl⟩ := List.cons.inj hnext
        simp only [List.append_nil, linesSize_append, linesSize]
        omega
    · have hroom : ¬size + ((line segment).length + 1) > MAX_TRANSCRIPT_CHARS :=
        fun hgt => hfull ⟨h, hgt⟩
      have hsize' : size + ((line segment).length + 1) =
          header.length + linesSize (current ++ [segment]) := by
        simp only [linesSize_append, linesSize]
        omega
      obtain ⟨taken, rest, rfl, hsplit, hfits, hmore⟩ := ih (by simp) hsize'
      refine ⟨segment :: taken, rest, rfl, ?_, fun _ => ?_, fun next rest' hnext => ?_⟩
      · simpa using hsplit
      · cases taken with
        | nil => omega
        | cons next taken => simpa using hfits (by simp)
      · simpa using hmore next rest' hnext

theorem greedy_splitSegments : Greedy Fits splitSegments := by
  constructor
  · rfl
  · intro segment segments
    have hsize : header.length + ((line segment).length + 1) =
        header.length + linesSize [segment] := by
      simp only [linesSize, Nat.add_zero]
    obtain ⟨taken, rest, rfl, hsplit, hfits, hmore⟩ :=
      splitFrom_current segments (List.cons_ne_nil segment []) hsize
    refine ⟨taken, rest, rfl, ?_, fun hlong => ?_, fun taken' rest' h hfits' => ?_⟩
    · rw [splitSegments, splitFrom_cons_nil, hsplit]
      rfl
    · refine (fits_iff hlong).mpr (hfits ?_) hlong
      rintro rfl
      simp at hlong
    · -- A longer batch would have room for the segment that did not fit.
      by_contra hlonger
      have hbegin : taken <+: taken' := by
        apply List.prefix_of_prefix_length_le (List.prefix_append taken rest) ⟨rest', h.symm⟩
        omega
      obtain ⟨more, rfl⟩ := hbegin
      cases more with
      | nil => simp at hlonger
      | cons next more =>
        have hrest : rest = next :: more ++ rest' := by
          rw [List.append_assoc] at h
          exact List.append_cancel_left h
        have hover := hmore next (more ++ rest') hrest
        have hlong : 1 < (segment :: (taken ++ next :: more)).length := by
          simp only [List.length_cons, List.length_append]
          omega
        have hle := (fits_iff hlong).mp hfits'
        simp only [List.cons_append, List.nil_append, linesSize, linesSize_append] at hover hle
        omega

end split

section calls

variable {ε σ : Type}

/-- A summarizer that may fail and whose answers may depend on what has happened before. -/
abbrev Remote (ε σ : Type) := List Segment → σ → Except ε MeetingNotes × σ

/-- What each call was about and how it ended, next to the state of the summarizer. -/
abbrev Recorded (ε σ : Type) :=
  ExceptT ε (StateM (List (List Segment × Except ε MeetingNotes) × σ))

def recorded (summarize : Remote ε σ) (batch : List Segment) : Recorded ε σ MeetingNotes :=
  fun s => ((summarize batch s.2).1,
    (s.1 ++ [(batch, (summarize batch s.2).1)], (summarize batch s.2).2))

variable {summarize : Remote ε σ} {s s' : List (List Segment × Except ε MeetingNotes) × σ}

theorem summarizeEach_cons (batch : List Segment) (batches : List (List Segment)) :
    summarizeEach (recorded summarize) (batch :: batches) s =
      match recorded summarize batch s with
      | (.error e, s') => (.error e, s')
      | (.ok notes, s') =>
        match summarizeEach (recorded summarize) batches s' with
        | (.error e, s') => (.error e, s')
        | (.ok rest, s') => (.ok (notes :: rest), s') := by
  simp only [summarizeEach, bind, ExceptT.bind, ExceptT.mk, StateT.bind]
  rcases recorded summarize batch s with ⟨answer, s'⟩
  cases answer with
  | error e => rfl
  | ok notes =>
    simp only [ExceptT.bindCont, bind, StateT.bind]
    rcases summarizeEach (recorded summarize) batches s' with ⟨answer, s'⟩
    cases answer <;> rfl

/-- How the calls for the batches ended, and what they are good for. -/
def Called (batches : List (List Segment)) (calls : List (List Segment × Except ε MeetingNotes)) :
    Except ε (List MeetingNotes) → Prop
  | .ok notes => calls.map Prod.fst = batches ∧ calls.map Prod.snd = notes.map Except.ok
  | .error e => calls.map Prod.fst <+: batches ∧
      (calls.map Prod.snd).getLast? = some (.error e)

/-- Every batch is asked about in its turn, until one of them fails. -/
theorem summarizeEach_calls {r : Except ε (List MeetingNotes)}
    (h : summarizeEach (recorded summarize) batches s = (r, s')) :
    ∃ calls, s'.1 = s.1 ++ calls ∧ Called batches calls r := by
  induction batches generalizing s s' r with
  | nil =>
    obtain ⟨rfl, rfl⟩ := Prod.mk.inj h
    exact ⟨[], by simp, rfl, rfl⟩
  | cons batch batches ih =>
    rw [summarizeEach_cons] at h
    cases hfirst : (summarize batch s.2).1 with
    | error e =>
      simp only [recorded, hfirst] at h
      obtain ⟨rfl, rfl⟩ := Prod.mk.inj h
      exact ⟨[(batch, .error e)], rfl, by simp, rfl⟩
    | ok notes =>
      simp only [recorded, hfirst] at h
      rcases hrest : summarizeEach (recorded summarize) batches
        (s.1 ++ [(batch, .ok notes)], (summarize batch s.2).2) with ⟨answer, s₁⟩
      obtain ⟨calls, hcalls, hcalled⟩ := ih hrest
      rw [hrest] at h
      cases answer with
      | error e =>
        obtain ⟨rfl, rfl⟩ := Prod.mk.inj h
        obtain ⟨hbegin, hlast⟩ := hcalled
        refine ⟨(batch, .ok notes) :: calls, by simpa using hcalls, ?_, ?_⟩
        · simpa using hbegin
        · simp only [List.map_cons, List.getLast?_cons, hlast]
          rfl
      | ok rest =>
        obtain ⟨rfl, rfl⟩ := Prod.mk.inj h
        obtain ⟨hall, hanswers⟩ := hcalled
        refine ⟨(batch, .ok notes) :: calls, by simpa using hcalls, ?_, ?_⟩
        · simp [hall]
        · simp [hanswers]

theorem summarizeSegments_eq : summarizeSegments (recorded summarize) segments s =
    match summarizeEach (recorded summarize) (splitSegments segments) s with
    | (.error e, s') => (.error e, s')
    | (.ok notes, s') => (.ok (joinNotes notes), s') := by
  simp only [summarizeSegments, bind, ExceptT.bind, ExceptT.mk, StateT.bind]
  rcases summarizeEach (recorded summarize) (splitSegments segments) s with ⟨answer, s'⟩
  cases answer <;> rfl

end calls

/-- The transcript is cut into as few batches as the prompt allows, each is asked about once, and
the notes have what was answered. -/
theorem notes_of_batches (segments : List Segment) :
    (splitSegments segments).flatten = segments ∧
    (∀ batch ∈ splitSegments segments, batch ≠ [] ∧
      (1 < batch.length → (notesPrompt batch).length < MAX_TRANSCRIPT_CHARS)) ∧
    (∀ batches : List (List Segment), batches.flatten = segments →
      (∀ batch ∈ batches, 1 < batch.length →
        (notesPrompt batch).length < MAX_TRANSCRIPT_CHARS) →
      (splitSegments segments).length ≤ batches.length) ∧
    ∀ (ε σ : Type) (summarize : Remote ε σ) (world : σ),
      let run := summarizeSegments (recorded summarize) segments ([], world)
      (∀ notes, run.1 = .ok notes → run.2.1.map Prod.fst = splitSegments segments ∧
        ∃ answers : List MeetingNotes, run.2.1.map Prod.snd = answers.map Except.ok ∧
          notes.keyPoints = (answers.map MeetingNotes.keyPoints).flatten ∧
          notes.actionItems = (answers.map MeetingNotes.actionItems).flatten) ∧
      ∀ e, run.1 = .error e → run.2.1.map Prod.fst <+: splitSegments segments ∧
        (run.2.1.map Prod.snd).getLast? = some (.error e) := by
  refine ⟨greedy_splitSegments.flatten segments, fun batch hmem => ⟨?_, ?_⟩, ?_, ?_⟩
  · exact greedy_splitSegments.ne_nil batch hmem
  · exact greedy_splitSegments.admits_of_mem batch hmem
  · rintro batches rfl hbatches
    exact greedy_splitSegments.minimal fits_tail hbatches
  · intro ε σ summarize world
    rcases hrun : summarizeEach (recorded summarize) (splitSegments segments) ([], world) with
      ⟨answer, s'⟩
    obtain ⟨calls, hcalls, hcalled⟩ := summarizeEach_calls hrun
    rw [List.nil_append] at hcalls
    simp only [summarizeSegments_eq, hrun]
    cases answer with
    | error e =>
      constructor
      · intro notes h
        cases h
      intro e' h
      obtain rfl := Except.error.inj h
      rw [hcalls]
      exact hcalled
    | ok answers =>
      refine ⟨fun notes h => ?_, fun e h => nomatch h⟩
      obtain rfl := Except.ok.inj h
      rw [hcalls]
      exact ⟨hcalled.1, answers, hcalled.2, rfl, rfl⟩

end Fakery.Notes
