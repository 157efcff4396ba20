import Mathlib.Algebra.Order.Group.Int
import Mathlib.Data.Finset.Card
import Mathlib.Data.Finset.Range

/-! Lists of half-open integer ranges: how many points they have together, and the sweep over a
sorted list that counts them. -/
namespace Fakery.Intervals

/-- The points of one range. -/
def within (r : ℤ × ℤ) : Finset ℤ :=
  (Finset.range (r.2 - r.1).toNat).image fun i : ℕ => r.1 + (i : ℤ)

/-- The points of all ranges. -/
def points : List (ℤ × ℤ) → Finset ℤ
  | [] => ∅
  | r :: ranges => within r ∪ points ranges

/-- `current` is the range that the next one may still extend, `covered` the length of those before
it. -/
def sweep (current : Option (ℤ × ℤ)) (covered : ℤ) : List (ℤ × ℤ) → ℤ
  | [] => match current with
    | none => covered
    | some c => covered + (c.2 - c.1)
  | r :: ranges => match current with
    | none => sweep (some r) covered ranges
    | some c =>
      if r.1 ≤ c.2 then sweep (some (c.1, max c.2 r.2)) covered ranges
      else sweep (some r) (covered + (c.2 - c.1)) ranges

variable {ranges others : List (ℤ × ℤ)} {r c : ℤ × ℤ} {covered x : ℤ}

@[simp] theorem mem_within : x ∈ within r ↔ r.1 ≤ x ∧ x < r.2 := by
  simp only [within, Finset.mem_image, Finset.mem_range]
  constructor
  · intro ⟨i, hi, hx⟩
    omega
  · intro ⟨hle, hlt⟩
    exact ⟨(x - r.1).toNat, by omega, by omega⟩

@[simp] theorem card_within (r : ℤ × ℤ) : (within r).card = (r.2 - r.1).toNat := by
  have hinjective : Function.Injective fun i : ℕ => r.1 + (i : ℤ) := by
    intro i j hij
    have hsame : r.1 + (i : ℤ) = r.1 + (j : ℤ) := hij
    omega
  rw [within, Finset.card_image_of_injective _ hinjective, Finset.card_range]

theorem mem_points : x ∈ points ranges ↔ ∃ r ∈ ranges, r.1 ≤ x ∧ x < r.2 := by
  induction ranges with
  | nil => simp [points]
  | cons r ranges ih => simp [points, ih]

/-- A range that starts within another one, or where it ends, extends it. -/
theorem within_union (hs : c.1 ≤ r.1) (hr : r.1 ≤ c.2) :
    within (c.1, max c.2 r.2) = within c ∪ within r := by
  ext x
  simp only [mem_within, Finset.mem_union, lt_max_iff]
  omega

/-- Ranges that start after the end of another one have no point in common with it. -/
theorem disjoint_points (h : ∀ r ∈ ranges, c.2 ≤ r.1) :
    Disjoint (within c) (points ranges) := by
  rw [Finset.disjoint_left]
  intro x hx hmem
  obtain ⟨r, hr, hle, -⟩ := mem_points.mp hmem
  have hlt := (mem_within.mp hx).2
  have hafter := h r hr
  omega

variable (covered) in
theorem sweep_some (hc : c.1 ≤ c.2) (hranges : ∀ r ∈ ranges, c.1 ≤ r.1 ∧ r.1 ≤ r.2)
    (hs : ranges.Pairwise fun r s => r.1 ≤ s.1) :
    sweep (some c) covered ranges = covered + ((points (c :: ranges)).card : ℤ) := by
  induction ranges generalizing c covered with
  | nil =>
    simp only [sweep, points, Finset.union_empty, card_within]
    omega
  | cons r ranges ih =>
    obtain ⟨hfirst, hrest⟩ := List.pairwise_cons.mp hs
    obtain ⟨hstart, hr⟩ := hranges r List.mem_cons_self
    have hafter : ∀ s ∈ ranges, s.1 ≤ s.2 := fun s hs => (hranges s (List.mem_cons_of_mem _ hs)).2
    have hbefore : ∀ s ∈ ranges, c.1 ≤ s.1 := fun s hs => (hranges s (List.mem_cons_of_mem _ hs)).1
    simp only [sweep]
    split_ifs with h
    · have hmax : c.1 ≤ max c.2 r.2 := le_max_of_le_left hc
      have hunion : points ((c.1, max c.2 r.2) :: ranges) = points (c :: r :: ranges) := by
        simp only [points]
        rw [within_union hstart h, Finset.union_assoc]
      rw [← hunion]
      exact ih covered hmax (fun s hs => ⟨hbefore s hs, hafter s hs⟩) hrest
    · have hgap : ∀ s ∈ r :: ranges, c.2 ≤ s.1 := by
        intro s hs
        rcases List.mem_cons.mp hs with rfl | hs
        · omega
        · have hle := hfirst s hs
          omega
      have hcard : (points (c :: r :: ranges)).card =
          (within c).card + (points (r :: ranges)).card :=
        Finset.card_union_of_disjoint (disjoint_points hgap)
      rw [ih _ hr (fun s hs => ⟨hfirst s hs, hafter s hs⟩) hrest, hcard, card_within]
      omega

/-- Over a sorted list the sweep counts every point once. -/
theorem sweep_eq_card (hranges : ∀ r ∈ ranges, r.1 ≤ r.2)
    (hs : ranges.Pairwise fun r s => r.1 ≤ s.1) :
    sweep none 0 ranges = (points ranges).card := by
  cases ranges with
  | nil => rfl
  | cons r ranges =>
    obtain ⟨hfirst, hrest⟩ := List.pairwise_cons.mp hs
    have hsweep := sweep_some 0 (hranges r List.mem_cons_self)
      (fun s hs => ⟨hfirst s hs, hranges s (List.mem_cons_of_mem _ hs)⟩) hrest
    rw [zero_add] at hsweep
    exact hsweep

end Fakery.Intervals
