import Fakery.Bots.Models
import Fakery.Intervals.Sweep
import Mathlib.Algebra.Order.Field.Basic
import Mathlib.Algebra.Order.Field.Rat
import Mathlib.Data.List.Sort
import Mathlib.Data.Set.Card
import Mathlib.Tactic.Linarith

/-! Which segments of the batch transcript the live transcript covers already. -/
namespace Fakery.Transcription
open Fakery.Bots Fakery.Intervals

def BATCH_COVERAGE_THRESHOLD : ℚ := 1 / 4

/-- The part of the candidate that one live segment covers. -/
def overlap (candidate segment : Segment) : Option (ℤ × ℤ) :=
  let start := max candidate.startMs segment.startMs
  let stop := min candidate.endMs segment.endMs
  if start < stop then some (start, stop) else none

def coveredRanges (candidate : Segment) (live : List Segment) : List (ℤ × ℤ) :=
  (live.insertionSort fun a b => a.startMs ≤ b.startMs).filterMap (overlap candidate)

def candidateDuration (candidate : Segment) : ℤ := max 1 (candidate.endMs - candidate.startMs)

def coveredByLive (candidate : Segment) (live : List Segment) : Bool :=
  (sweep none 0 (coveredRanges candidate live) : ℚ) / candidateDuration candidate ≥
    BATCH_COVERAGE_THRESHOLD

def uncoveredBatchSegments (live batch : List Segment) : List Segment :=
  if live = [] then batch else batch.filter fun segment => !coveredByLive segment live

/-- The milliseconds of the candidate in which some live segment speaks. -/
def coveredPoints (candidate : Segment) (live : List Segment) : Finset ℤ :=
  (within (candidate.startMs, candidate.endMs)).filter fun x =>
    ∃ segment ∈ live, segment.startMs ≤ x ∧ x < segment.endMs

/-- At least a quarter of it; a candidate without a duration counts as a millisecond. -/
def QuarterCovered (candidate : Segment) (live : List Segment) : Prop :=
  candidateDuration candidate ≤ 4 * ((coveredPoints candidate live).card : ℤ)

variable {candidate segment : Segment} {live batch : List Segment} {r : ℤ × ℤ}

theorem overlap_eq_some (h : overlap candidate segment = some r) :
    r.1 = max candidate.startMs segment.startMs ∧ r.2 = min candidate.endMs segment.endMs ∧
      r.1 < r.2 := by
  simp only [overlap] at h
  split_ifs at h with hlt
  cases Option.some.inj h
  exact ⟨rfl, rfl, hlt⟩

theorem mem_coveredRanges :
    r ∈ coveredRanges candidate live ↔ ∃ segment ∈ live, overlap candidate segment = some r := by
  simp [coveredRanges]

/-- The ranges are sorted because the live segments are. -/
theorem pairwise_coveredRanges :
    (coveredRanges candidate live).Pairwise fun r s => r.1 ≤ s.1 := by
  have hsorted := List.pairwise_insertionSort (fun a b : Segment => a.startMs ≤ b.startMs) live
  refine List.pairwise_filterMap.mpr (hsorted.imp fun {a b} hab r hr s hs => ?_)
  obtain ⟨hr, -⟩ := overlap_eq_some hr
  obtain ⟨hs, -⟩ := overlap_eq_some hs
  rw [hr, hs]
  exact max_le_max_left _ hab

theorem points_coveredRanges :
    points (coveredRanges candidate live) = coveredPoints candidate live := by
  ext x
  simp only [mem_points, mem_coveredRanges, coveredPoints, Finset.mem_filter, mem_within]
  constructor
  · rintro ⟨r, ⟨segment, hmem, hr⟩, hle, hlt⟩
    obtain ⟨hstart, hstop, -⟩ := overlap_eq_some hr
    exact ⟨by omega, segment, hmem, by omega⟩
  · rintro ⟨hx, segment, hmem, hle, hlt⟩
    refine ⟨(max candidate.startMs segment.startMs, min candidate.endMs segment.endMs),
      ⟨segment, hmem, ?_⟩, by omega, by omega⟩
    exact if_pos (by omega)

theorem sweep_coveredRanges :
    sweep none 0 (coveredRanges candidate live) = (coveredPoints candidate live).card := by
  have hranges : ∀ r ∈ coveredRanges candidate live, r.1 ≤ r.2 := by
    intro r hr
    obtain ⟨segment, -, hr⟩ := mem_coveredRanges.mp hr
    have hlt := (overlap_eq_some hr).2.2
    omega
  rw [sweep_eq_card hranges pairwise_coveredRanges, points_coveredRanges]

/-- The sweep decides how much of the candidate is covered. -/
theorem coveredByLive_eq_true :
    coveredByLive candidate live = true ↔ QuarterCovered candidate live := by
  have hpos : (0 : ℚ) < (candidateDuration candidate : ℤ) := by
    have hone : 1 ≤ candidateDuration candidate := le_max_left _ _
    exact_mod_cast hone
  unfold coveredByLive QuarterCovered BATCH_COVERAGE_THRESHOLD
  rw [decide_eq_true_eq, ge_iff_le, le_div_iff₀ hpos, sweep_coveredRanges]
  constructor
  · intro h
    have hquarter : (candidateDuration candidate : ℚ) ≤
        4 * ((coveredPoints candidate live).card : ℤ) := by linarith
    exact_mod_cast hquarter
  · intro h
    have hquarter : (candidateDuration candidate : ℚ) ≤
        4 * ((coveredPoints candidate live).card : ℤ) := by exact_mod_cast h
    linarith

theorem not_quarterCovered_nil : ¬QuarterCovered candidate [] := by
  have hone : 1 ≤ candidateDuration candidate := le_max_left _ _
  simp only [QuarterCovered, coveredPoints, List.not_mem_nil, false_and, exists_false,
    Finset.filter_false, Finset.card_empty]
  omega

theorem mem_uncoveredBatchSegments : segment ∈ uncoveredBatchSegments live batch ↔
    segment ∈ batch ∧ ¬QuarterCovered segment live := by
  unfold uncoveredBatchSegments
  split_ifs with hlive
  · subst hlive
    simp [not_quarterCovered_nil]
  · rw [List.mem_filter, ← coveredByLive_eq_true]
    simp

section measure

variable {live' : List Segment}

/-- The times of the candidate in which some live segment speaks. -/
def spokenTimes (candidate : Segment) (live : List Segment) : Set ℤ :=
  {t | candidate.startMs ≤ t ∧ t < candidate.endMs ∧
    ∃ segment ∈ live, segment.startMs ≤ t ∧ t < segment.endMs}

theorem ncard_spokenTimes (candidate : Segment) (live : List Segment) :
    (spokenTimes candidate live).ncard = (coveredPoints candidate live).card := by
  have hset : spokenTimes candidate live = coveredPoints candidate live := by
    ext t
    simp [spokenTimes, coveredPoints, and_assoc]
  rw [hset, Set.ncard_coe_finset]

/-- Without a live transcript the early return is what the filter gives. -/
theorem uncoveredBatchSegments_eq_filter (live batch : List Segment) :
    uncoveredBatchSegments live batch =
      batch.filter fun segment => !coveredByLive segment live := by
  unfold uncoveredBatchSegments
  split_ifs with hlive
  · subst hlive
    refine (List.filter_eq_self.mpr fun segment _ => ?_).symm
    have huncovered : ¬coveredByLive segment [] = true :=
      fun h => not_quarterCovered_nil (coveredByLive_eq_true.mp h)
    simpa using huncovered
  · rfl

theorem coveredPoints_mono (h : live ⊆ live') :
    coveredPoints candidate live ⊆ coveredPoints candidate live' := by
  intro x hx
  obtain ⟨hwithin, segment, hmem, htimes⟩ := Finset.mem_filter.mp hx
  exact Finset.mem_filter.mpr ⟨hwithin, segment, h hmem, htimes⟩

theorem coveredByLive_mono (h : live ⊆ live') (hc : coveredByLive candidate live = true) :
    coveredByLive candidate live' = true := by
  have hcard : (coveredPoints candidate live).card ≤ (coveredPoints candidate live').card :=
    Finset.card_le_card (coveredPoints_mono h)
  rw [coveredByLive_eq_true] at hc ⊢
  unfold QuarterCovered at hc ⊢
  omega

theorem coveredByLive_perm (h : live.Perm live') :
    coveredByLive candidate live = coveredByLive candidate live' := by
  rw [Bool.eq_iff_iff]
  exact ⟨coveredByLive_mono h.subset, coveredByLive_mono h.symm.subset⟩

theorem uncoveredBatchSegments_mono (h : live ⊆ live') :
    (uncoveredBatchSegments live' batch).Sublist (uncoveredBatchSegments live batch) := by
  rw [uncoveredBatchSegments_eq_filter, uncoveredBatchSegments_eq_filter]
  refine List.monotone_filter_right batch fun segment huncovered => ?_
  simp only [Bool.not_eq_true', ← Bool.not_eq_true] at huncovered ⊢
  exact fun hc => huncovered (coveredByLive_mono h hc)

open Classical in
/-- What the batch transcript adds to the live one is decided by the measure of a union. -/
theorem uncovered_by_measure (live batch : List Segment) :
    (∀ candidate, coveredByLive candidate live = true ↔
      max 1 (candidate.endMs - candidate.startMs) ≤ 4 * ((spokenTimes candidate live).ncard : ℤ)) ∧
    (uncoveredBatchSegments live batch = batch.filter fun candidate =>
      4 * ((spokenTimes candidate live).ncard : ℤ) <
        max 1 (candidate.endMs - candidate.startMs)) ∧
    (∀ live', live'.Perm live →
      uncoveredBatchSegments live' batch = uncoveredBatchSegments live batch) ∧
    (∀ live', live ⊆ live' →
      (uncoveredBatchSegments live' batch).Sublist (uncoveredBatchSegments live batch) ∧
      ∀ candidate, coveredByLive candidate live = true →
        coveredByLive candidate live' = true) := by
  have hmeasure : ∀ candidate, coveredByLive candidate live = true ↔
      max 1 (candidate.endMs - candidate.startMs) ≤
        4 * ((spokenTimes candidate live).ncard : ℤ) := by
    intro candidate
    rw [coveredByLive_eq_true, ncard_spokenTimes]
    rfl
  refine ⟨hmeasure, ?_, fun live' h => ?_, fun live' h => ?_⟩
  · rw [uncoveredBatchSegments_eq_filter]
    refine List.filter_congr fun candidate _ => ?_
    rw [Bool.eq_iff_iff, Bool.not_eq_true', ← Bool.not_eq_true, hmeasure, decide_eq_true_iff,
      not_le]
  · rw [uncoveredBatchSegments_eq_filter, uncoveredBatchSegments_eq_filter]
    refine List.filter_congr fun candidate _ => ?_
    rw [coveredByLive_perm h]
  · exact ⟨uncoveredBatchSegments_mono h, fun candidate hc => coveredByLive_mono h hc⟩

end measure

end Fakery.Transcription
