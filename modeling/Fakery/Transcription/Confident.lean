import Fakery.Transcription.Speakers
import Mathlib.Algebra.Order.Field.Basic
import Mathlib.Algebra.Order.Field.Rat
import Mathlib.Algebra.Order.BigOperators.Group.List
import Mathlib.Tactic.Linarith

/-! When the speakers of a batch transcript are told apart well enough: the dict of durations
against the segments it is built from. -/
namespace Fakery.Transcription
open Fakery.Bots

def duration (segment : Segment) : ℤ := segment.endMs - segment.startMs

/-- How long one speaker has spoken. -/
def speech (segments : List Segment) (speaker : String) : ℤ :=
  ((segments.filter fun segment => segment.speaker = some speaker).map duration).sum

/-- How long anybody with a name has spoken. -/
def labelledTime (segments : List Segment) : ℤ :=
  ((segments.filter fun segment => segment.speaker.isSome).map duration).sum

def Speaks (segments : List Segment) (speaker : String) : Prop :=
  ∃ segment ∈ segments, segment.speaker = some speaker

def SeveralSpeakers (segments : List Segment) : Prop :=
  ∃ speaker other, Speaks segments speaker ∧ Speaks segments other ∧ speaker ≠ other

/-- The smallest share of the time is at least three twentieths. -/
def SharesAreLarge (segments : List Segment) : Prop :=
  SeveralSpeakers segments ∧ 0 < labelledTime segments ∧
    ∀ speaker, Speaks segments speaker →
      3 * labelledTime segments ≤ 20 * speech segments speaker

variable {segments : List Segment} {durations : List (String × ℤ)} {speaker name : String} {d : ℤ}

section dict

theorem fst_addDuration : name ∈ (addDuration speaker d durations).map Prod.fst ↔
    name = speaker ∨ name ∈ durations.map Prod.fst := by
  induction durations with
  | nil => simp [addDuration]
  | cons entry durations ih =>
    simp only [addDuration]
    split_ifs with h
    · subst h
      simp
    · simp only [List.map_cons, List.mem_cons, ih]
      tauto

theorem nodup_addDuration (h : (durations.map Prod.fst).Nodup) :
    ((addDuration speaker d durations).map Prod.fst).Nodup := by
  induction durations with
  | nil => simp [addDuration]
  | cons entry durations ih =>
    obtain ⟨hfresh, hrest⟩ := List.nodup_cons.mp h
    simp only [addDuration]
    split_ifs with hname
    · exact h
    · refine List.nodup_cons.mpr ⟨fun hmem => ?_, ih hrest⟩
      rcases fst_addDuration.mp hmem with heq | hmem
      · exact hname heq
      · exact hfresh hmem

/-- The time that the dict has for a name, or zero. -/
def timeOf (name : String) : List (String × ℤ) → ℤ
  | [] => 0
  | entry :: durations => if entry.1 = name then entry.2 else timeOf name durations

theorem timeOf_addDuration : timeOf name (addDuration speaker d durations) =
    timeOf name durations + if speaker = name then d else 0 := by
  induction durations with
  | nil => simp [timeOf, addDuration]
  | cons entry durations ih =>
    by_cases hentry : entry.1 = speaker
    · subst hentry
      simp only [addDuration, timeOf, if_true]
      split_ifs <;> simp
    · simp only [addDuration, timeOf, if_neg hentry]
      by_cases hname : entry.1 = name
      · have hother : speaker ≠ name := fun h => hentry (hname.trans h.symm)
        simp [hname, hother]
      · rw [if_neg hname, if_neg hname]
        exact ih

theorem timeOf_eq (h : (durations.map Prod.fst).Nodup) (hmem : (name, d) ∈ durations) :
    timeOf name durations = d := by
  induction durations with
  | nil => cases hmem
  | cons entry durations ih =>
    obtain ⟨hfresh, hrest⟩ := List.nodup_cons.mp h
    simp only [timeOf]
    rcases List.mem_cons.mp hmem with rfl | hmem
    · simp
    · have hname : entry.1 ≠ name := by
        rintro rfl
        exact hfresh (List.mem_map.mpr ⟨(entry.1, d), hmem, rfl⟩)
      rw [if_neg hname]
      exact ih hrest hmem

theorem sum_addDuration : ((addDuration speaker d durations).map Prod.snd).sum =
    (durations.map Prod.snd).sum + d := by
  induction durations with
  | nil => simp [addDuration]
  | cons entry durations ih =>
    simp only [addDuration]
    split_ifs
    · simp only [List.map_cons, List.sum_cons]
      omega
    · simp only [List.map_cons, List.sum_cons, ih]
      omega

end dict

section durations

/-- One more segment of the loop. -/
theorem speakerDurations_append (segments : List Segment) (segment : Segment) :
    speakerDurations (segments ++ [segment]) = match segment.speaker with
      | none => speakerDurations segments
      | some speaker =>
        addDuration speaker (segment.endMs - segment.startMs) (speakerDurations segments) := by
  cases hs : segment.speaker <;> simp [speakerDurations, List.foldl_append, hs]

/-- The dict has every speaker once, each with the time of the speaker. -/
theorem speakerDurations_spec (segments : List Segment) :
    ((speakerDurations segments).map Prod.fst).Nodup ∧
    (∀ speaker, speaker ∈ (speakerDurations segments).map Prod.fst ↔ Speaks segments speaker) ∧
    (∀ speaker, timeOf speaker (speakerDurations segments) = speech segments speaker) ∧
    ((speakerDurations segments).map Prod.snd).sum = labelledTime segments := by
  induction segments using List.reverseRecOn with
  | nil => simp [speakerDurations, Speaks, timeOf, speech, labelledTime]
  | append_singleton segments segment ih =>
    obtain ⟨hnodup, hspeaks, htime, hsum⟩ := ih
    rw [speakerDurations_append]
    cases hs : segment.speaker with
    | none =>
      refine ⟨hnodup, fun speaker => ?_, fun speaker => ?_, ?_⟩
      · rw [hspeaks]
        simp [Speaks, hs, or_and_right, exists_or]
      · rw [htime]
        simp [speech, List.filter_append, hs]
      · rw [hsum]
        simp [labelledTime, List.filter_append, hs]
    | some name =>
      refine ⟨nodup_addDuration hnodup, fun speaker => ?_, fun speaker => ?_, ?_⟩
      · simp only [fst_addDuration, hspeaks, Speaks, List.mem_append, List.mem_singleton,
          or_and_right, exists_or, exists_eq_left, hs, Option.some.injEq]
        rw [or_comm, eq_comm]
      · rw [timeOf_addDuration, htime]
        by_cases hname : name = speaker
        · simp [speech, List.filter_append, hs, hname, duration]
        · simp [speech, List.filter_append, hs, hname]
      · simp only [sum_addDuration, hsum]
        simp [labelledTime, List.filter_append, hs, duration]

theorem two_le_length_speakerDurations :
    2 ≤ (speakerDurations segments).length ↔ SeveralSpeakers segments := by
  obtain ⟨hnodup, hspeaks, -, -⟩ := speakerDurations_spec segments
  unfold SeveralSpeakers
  simp only [← hspeaks]
  rw [← List.length_map Prod.fst]
  generalize (speakerDurations segments).map Prod.fst = names at hnodup
  match names with
  | [] => simp
  | [name] => simp
  | first :: second :: names =>
    have hne : first ≠ second := by
      rintro rfl
      simp at hnodup
    simp only [List.length_cons, Nat.le_add_left, true_iff]
    exact ⟨first, second, by simp, by simp, hne⟩

theorem totalDuration_eq (segments : List Segment) :
    totalDuration segments = labelledTime segments := by
  rw [← (speakerDurations_spec segments).2.2.2, List.sum_eq_foldl, List.foldl_map]
  rfl

/-- The smallest time in the dict is large enough if that of every speaker is. -/
theorem le_min_durations {bound : ℤ} (h : SeveralSpeakers segments) :
    bound ≤ 20 * (((speakerDurations segments).map Prod.snd).min?.getD 0) ↔
      ∀ speaker, Speaks segments speaker → bound ≤ 20 * speech segments speaker := by
  obtain ⟨hnodup, hspeaks, htime, -⟩ := speakerDurations_spec segments
  have hentry : ∀ entry ∈ speakerDurations segments, entry.2 = speech segments entry.1 :=
    fun entry hmem => (timeOf_eq hnodup hmem).symm.trans (htime entry.1)
  have hlong := two_le_length_speakerDurations.mpr h
  cases hmin : ((speakerDurations segments).map Prod.snd).min? with
  | none =>
    rw [List.min?_eq_none_iff, List.map_eq_nil_iff] at hmin
    rw [hmin] at hlong
    cases hlong
  | some least =>
    obtain ⟨hmem, hleast⟩ := List.min?_eq_some_iff.mp hmin
    rw [Option.getD_some]
    constructor
    · intro hbound speaker hspeaker
      obtain ⟨entry, hin, rfl⟩ := List.mem_map.mp ((hspeaks speaker).mpr hspeaker)
      have hle := hleast entry.2 (List.mem_map_of_mem hin)
      rw [← hentry entry hin]
      omega
    · intro hbound
      obtain ⟨entry, hin, rfl⟩ := List.mem_map.mp hmem
      rw [hentry entry hin]
      exact hbound entry.1 ((hspeaks entry.1).mp (List.mem_map_of_mem hin))

end durations

section verdict

theorem labelledTime_nonneg (h : ∀ segment ∈ segments, segment.startMs ≤ segment.endMs) :
    0 ≤ labelledTime segments := by
  apply List.sum_nonneg
  intro time hmem
  obtain ⟨segment, hin, rfl⟩ := List.mem_map.mp hmem
  have hle := h segment (List.mem_of_mem_filter hin)
  unfold duration
  omega

theorem confidentSplit_eq_true (h : ∀ segment ∈ segments, segment.startMs ≤ segment.endMs) :
    confidentSplit segments = some true ↔ SharesAreLarge segments := by
  have hnonneg := labelledTime_nonneg h
  unfold confidentSplit SharesAreLarge
  dsimp only
  rw [totalDuration_eq, List.length_map, ← two_le_length_speakerDurations]
  split_ifs with hfew hzero
  · simp only [Option.some.injEq, Bool.false_eq_true, false_iff]
    omega
  · simp only [false_iff]
    omega
  · have htwo : 2 ≤ (speakerDurations segments).length := by omega
    have hseveral := two_le_length_speakerDurations.mp htwo
    have hpos : (0 : ℚ) < (labelledTime segments : ℤ) := by
      have hlt : 0 < labelledTime segments := by omega
      exact_mod_cast hlt
    rw [Option.some.injEq, decide_eq_true_eq, ge_iff_le, SPEAKER_MIN_SHARE, le_div_iff₀ hpos,
      ← le_min_durations hseveral]
    generalize ((speakerDurations segments).map Prod.snd).min?.getD 0 = least
    constructor
    · intro hshare
      have hscaled : 3 * (labelledTime segments : ℚ) ≤ 20 * (least : ℚ) := by linarith
      refine ⟨by omega, by omega, ?_⟩
      exact_mod_cast hscaled
    · rintro ⟨-, -, hshare⟩
      have hscaled : 3 * (labelledTime segments : ℚ) ≤ 20 * (least : ℚ) := by exact_mod_cast hshare
      linarith

theorem shareless_iff :
    Shareless segments ↔ SeveralSpeakers segments ∧ labelledTime segments = 0 := by
  rw [Shareless, two_le_length_speakerDurations, totalDuration_eq]

/-- The verdict depends on the speakers and on their times only. -/
theorem confidentSplit_congr {segments' : List Segment}
    (h : ∀ segment ∈ segments, segment.startMs ≤ segment.endMs)
    (h' : ∀ segment ∈ segments', segment.startMs ≤ segment.endMs)
    (hseveral : SeveralSpeakers segments' ↔ SeveralSpeakers segments)
    (htime : labelledTime segments' = labelledTime segments)
    (hlarge : SharesAreLarge segments' ↔ SharesAreLarge segments) :
    confidentSplit segments' = confidentSplit segments := by
  have hnone : confidentSplit segments' = none ↔ confidentSplit segments = none := by
    rw [confidentSplit_eq_none, confidentSplit_eq_none, shareless_iff, shareless_iff, hseveral,
      htime]
  have htrue : confidentSplit segments' = some true ↔ confidentSplit segments = some true := by
    rw [confidentSplit_eq_true h, confidentSplit_eq_true h', hlarge]
  rcases hv : confidentSplit segments with _ | _ | _ <;>
    rcases hv' : confidentSplit segments' with _ | _ | _ <;> simp_all

end verdict

section invariance

variable {segments' : List Segment}

theorem speaks_perm (h : segments'.Perm segments) :
    Speaks segments' speaker ↔ Speaks segments speaker := by
  simp [Speaks, h.mem_iff]

theorem labelledTime_perm (h : segments'.Perm segments) :
    labelledTime segments' = labelledTime segments := ((h.filter _).map _).sum_eq

theorem speech_perm (h : segments'.Perm segments) :
    speech segments' speaker = speech segments speaker := ((h.filter _).map _).sum_eq

theorem confidentSplit_perm (h : ∀ segment ∈ segments, segment.startMs ≤ segment.endMs)
    (hp : segments'.Perm segments) : confidentSplit segments' = confidentSplit segments := by
  have hseveral : SeveralSpeakers segments' ↔ SeveralSpeakers segments := by
    simp only [SeveralSpeakers, speaks_perm hp]
  apply confidentSplit_congr h (fun segment hmem => h segment (hp.mem_iff.mp hmem)) hseveral
    (labelledTime_perm hp)
  simp only [SharesAreLarge, hseveral, speaks_perm hp, labelledTime_perm hp, speech_perm hp]

def Segment.renamed (f : String → String) (segment : Segment) : Segment :=
  { segment with speaker := segment.speaker.map f }

section names

variable {f : String → String}

theorem speaks_renamed : Speaks (segments.map (Segment.renamed f)) name ↔
    ∃ speaker, Speaks segments speaker ∧ f speaker = name := by
  simp only [Speaks, List.mem_map, Segment.renamed]
  constructor
  · rintro ⟨_, ⟨segment, hmem, rfl⟩, hname⟩
    obtain ⟨speaker, hs, rfl⟩ := Option.map_eq_some_iff.mp hname
    exact ⟨speaker, ⟨segment, hmem, hs⟩, rfl⟩
  · rintro ⟨speaker, ⟨segment, hmem, hs⟩, rfl⟩
    exact ⟨_, ⟨segment, hmem, rfl⟩, by simp [hs]⟩

theorem labelledTime_renamed :
    labelledTime (segments.map (Segment.renamed f)) = labelledTime segments := by
  unfold labelledTime
  rw [List.filter_map, List.map_map]
  have hlabelled : ((fun segment : Segment => segment.speaker.isSome) ∘ Segment.renamed f) =
      fun segment => segment.speaker.isSome := by
    funext segment
    simp [Segment.renamed]
  rw [hlabelled]
  rfl

theorem speech_renamed (hf : Function.Injective f) (speaker : String) :
    speech (segments.map (Segment.renamed f)) (f speaker) = speech segments speaker := by
  unfold speech
  rw [List.filter_map, List.map_map]
  have hsame : ((fun segment : Segment => decide (segment.speaker = some (f speaker))) ∘
      Segment.renamed f) = fun segment => decide (segment.speaker = some speaker) := by
    funext segment
    simp [Segment.renamed, hf.eq_iff]
  rw [hsame]
  rfl

theorem confidentSplit_renamed (h : ∀ segment ∈ segments, segment.startMs ≤ segment.endMs)
    (hf : Function.Injective f) :
    confidentSplit (segments.map (Segment.renamed f)) = confidentSplit segments := by
  have h' : ∀ segment ∈ segments.map (Segment.renamed f), segment.startMs ≤ segment.endMs := by
    intro segment hmem
    obtain ⟨original, horiginal, rfl⟩ := List.mem_map.mp hmem
    exact h original horiginal
  have hseveral : SeveralSpeakers (segments.map (Segment.renamed f)) ↔
      SeveralSpeakers segments := by
    unfold SeveralSpeakers
    simp only [speaks_renamed]
    constructor
    · rintro ⟨_, _, ⟨speaker, hs, rfl⟩, ⟨other, ho, rfl⟩, hne⟩
      exact ⟨speaker, other, hs, ho, fun heq => hne (congrArg f heq)⟩
    · rintro ⟨speaker, other, hs, ho, hne⟩
      exact ⟨f speaker, f other, ⟨speaker, hs, rfl⟩, ⟨other, ho, rfl⟩, hf.ne hne⟩
  apply confidentSplit_congr h h' hseveral labelledTime_renamed
  unfold SharesAreLarge
  simp only [hseveral, labelledTime_renamed, speaks_renamed]
  refine and_congr_right fun _ => and_congr_right fun _ => ?_
  constructor
  · intro hlarge speaker hs
    have hshare := hlarge (f speaker) ⟨speaker, hs, rfl⟩
    rwa [speech_renamed hf] at hshare
  · rintro hlarge _ ⟨speaker, hs, rfl⟩
    rw [speech_renamed hf]
    exact hlarge speaker hs

end names

/-- Segments without a speaker are passed over. -/
theorem speakerDurations_filter (segments : List Segment) :
    speakerDurations (segments.filter fun segment => segment.speaker.isSome) =
      speakerDurations segments := by
  unfold speakerDurations
  rw [List.foldl_filter]
  congr 1
  funext durations segment
  cases segment.speaker <;> rfl

theorem confidentSplit_unlabelled
    (h : (segments'.filter fun segment => segment.speaker.isSome) =
      segments.filter fun segment => segment.speaker.isSome) :
    confidentSplit segments' = confidentSplit segments := by
  have hdurations : speakerDurations segments' = speakerDurations segments := by
    rw [← speakerDurations_filter, h, speakerDurations_filter]
  unfold confidentSplit totalDuration
  rw [hdurations]

end invariance

section settled

/-- The verdict is there, tells whether the shares are large enough, and is about nothing else. -/
structure Settled (segments : List Segment) : Prop where
  defined : confidentSplit segments ≠ none
  shares : confidentSplit segments = some true ↔ SharesAreLarge segments
  order : ∀ segments', segments'.Perm segments →
    confidentSplit segments' = confidentSplit segments
  names : ∀ f, Function.Injective f →
    confidentSplit (segments.map (Segment.renamed f)) = confidentSplit segments
  unlabelled : ∀ segments' : List Segment,
    (segments'.filter fun segment => segment.speaker.isSome) =
      (segments.filter fun segment => segment.speaker.isSome) →
    confidentSplit segments' = confidentSplit segments

/-- Several speakers, and nobody's segments take any time. -/
def Timeless (segments : List Segment) : Prop :=
  SeveralSpeakers segments ∧
    ∀ segment ∈ segments, segment.speaker.isSome → segment.startMs = segment.endMs

theorem labelledTime_eq_zero (h : ∀ segment ∈ segments, segment.startMs ≤ segment.endMs) :
    labelledTime segments = 0 ↔
      ∀ segment ∈ segments, segment.speaker.isSome → segment.startMs = segment.endMs := by
  induction segments with
  | nil => simp [labelledTime]
  | cons segment segments ih =>
    have hrest : ∀ segment ∈ segments, segment.startMs ≤ segment.endMs :=
      fun other hmem => h other (List.mem_cons_of_mem _ hmem)
    have hnonneg := labelledTime_nonneg hrest
    have hfirst := h segment List.mem_cons_self
    have htime : labelledTime (segment :: segments) =
        (if segment.speaker.isSome then duration segment else 0) + labelledTime segments := by
      unfold labelledTime
      rw [List.filter_cons]
      split_ifs <;> simp
    rw [htime, List.forall_mem_cons, ← ih hrest]
    unfold duration
    split_ifs with hs
    · simp only [hs, true_implies]
      omega
    · simp [hs]

theorem settled_iff (h : ∀ segment ∈ segments, segment.startMs ≤ segment.endMs) :
    Settled segments ↔ ¬Timeless segments := by
  have hnone : confidentSplit segments = none ↔ Timeless segments := by
    rw [confidentSplit_eq_none, shareless_iff, labelledTime_eq_zero h]
    rfl
  constructor
  · intro hsettled htimeless
    exact hsettled.defined (hnone.mpr htimeless)
  · intro htimeless
    constructor
    · exact fun hv => htimeless (hnone.mp hv)
    · exact confidentSplit_eq_true h
    · exact fun segments' hp => confidentSplit_perm h hp
    · exact fun f hf => confidentSplit_renamed h hf
    · exact fun segments' hf => confidentSplit_unlabelled hf

theorem settled_dialogue :
    Settled [⟨"hello", 0, 900, some "0"⟩, ⟨"hi", 1000, 1400, some "1"⟩] := by
  have htimes : ∀ segment ∈ ([⟨"hello", 0, 900, some "0"⟩, ⟨"hi", 1000, 1400, some "1"⟩] :
      List Segment), segment.startMs ≤ segment.endMs := by decide
  refine (settled_iff htimes).mpr fun htimeless => ?_
  have hinstant := htimeless.2 ⟨"hello", 0, 900, some "0"⟩ List.mem_cons_self rfl
  cases hinstant

/-- Two speakers who are each heard for less than a millisecond. -/
theorem not_settled : ¬∀ segments : List Segment,
    (∀ segment ∈ segments, segment.startMs ≤ segment.endMs) → Settled segments := by
  intro h
  have hsettled := h [⟨"hello", 500, 500, some "0"⟩, ⟨"hi", 700, 700, some "1"⟩] (by decide)
  have hshareless : Shareless [⟨"hello", 500, 500, some "0"⟩, ⟨"hi", 700, 700, some "1"⟩] := by
    decide +kernel
  exact hsettled.defined (confidentSplit_eq_none.mpr hshareless)

end settled

end Fakery.Transcription
