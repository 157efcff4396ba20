import Mathlib.Data.List.Sort
import Mathlib.Data.List.Nodup

/-! Numbering the rows of each partition of a list in the order of their places. -/
namespace Fakery.Windows

variable {α β κ ω : Type} [DecidableEq κ] [LinearOrder ω] {part : α → κ} {place : α → ω}
  {l : List α} {k : κ} {x y : α}

/-- The rows of one partition, in order. -/
def window (part : α → κ) (place : α → ω) (l : List α) (k : κ) : List α :=
  (l.filter fun x => part x = k).mergeSort fun x y => place x ≤ place y

/-- The number of a row in its partition, counting from 1. -/
def rowNumber [DecidableEq α] (part : α → κ) (place : α → ω) (l : List α) (x : α) : ℕ :=
  (window part place l (part x)).idxOf x + 1

section window

@[simp] theorem mem_window : x ∈ window part place l k ↔ x ∈ l ∧ part x = k := by
  simp [window]

theorem length_window (part : α → κ) (place : α → ω) (l : List α) (k : κ) :
    (window part place l k).length = (l.filter fun x => part x = k).length :=
  List.length_mergeSort _

theorem window_sorted (part : α → κ) (place : α → ω) (l : List α) (k : κ) :
    (window part place l k).Pairwise fun x y => place x ≤ place y := by
  have hsorted : (window part place l k).Pairwise fun x y => decide (place x ≤ place y) = true := by
    apply List.pairwise_mergeSort
    · intro a b c hab hbc
      exact decide_eq_true ((of_decide_eq_true hab).trans (of_decide_eq_true hbc))
    · intro a b
      simpa using le_total (place a) (place b)
  exact hsorted.imp fun h => of_decide_eq_true h

theorem window_nodup (h : l.Nodup) : (window part place l k).Nodup :=
  (List.mergeSort_perm _ _).nodup_iff.mpr (h.filter _)

/-- A change of the rows that keeps their partitions and their places. -/
theorem window_map {part' : β → κ} {place' : β → ω} {f : α → β}
    (hpart : ∀ x ∈ l, part' (f x) = part x) (hplace : ∀ x ∈ l, place' (f x) = place x) :
    window part' place' (l.map f) k = (window part place l k).map f := by
  have hfilter : (l.map f).filter (fun y => part' y = k) =
      (l.filter fun x => part x = k).map f := by
    rw [List.filter_map]
    congr 1
    apply List.filter_congr
    intro x hx
    simp [hpart x hx]
  unfold window
  rw [hfilter]
  symm
  apply List.map_mergeSort
  intro a ha b hb
  rw [hplace a (List.mem_of_mem_filter ha), hplace b (List.mem_of_mem_filter hb)]

end window

section joins

variable {ι ν : Type} [DecidableEq ι] {key : α → ι} {i : ι}

/-- A join by a unique key finds what was computed for the row. -/
theorem lookup_of_mem (value : α → ν) (h : (l.map key).Nodup) (hx : x ∈ l) :
    (l.map fun y => (key y, value y)).lookup (key x) = some (value x) := by
  induction l with
  | nil => cases hx
  | cons y l ih =>
    rw [List.map_cons, List.nodup_cons] at h
    rcases List.mem_cons.mp hx with rfl | hmem
    · simp
    · have hne : key x ≠ key y := fun heq => h.1 (heq ▸ List.mem_map_of_mem hmem)
      have hbeq : (key x == key y) = false := beq_eq_false_iff_ne.mpr hne
      rw [List.map_cons, List.lookup_cons, hbeq]
      exact ih h.2 hmem

theorem lookup_of_not_mem (value : α → ν) (h : i ∉ l.map key) :
    (l.map fun y => (key y, value y)).lookup i = none := by
  induction l with
  | nil => rfl
  | cons y l ih =>
    rw [List.map_cons, List.mem_cons, not_or] at h
    have hbeq : (i == key y) = false := beq_eq_false_iff_ne.mpr h.1
    rw [List.map_cons, List.lookup_cons, hbeq]
    exact ih h.2

end joins

section numbers

variable [DecidableEq α]

theorem rowNumber_of_mem (hx : x ∈ window part place l k) :
    rowNumber part place l x = (window part place l k).idxOf x + 1 := by
  rw [rowNumber, (mem_window.mp hx).2]

/-- The numbers of a partition are those from 1 on, in order. -/
theorem map_rowNumber (h : l.Nodup) (k : κ) :
    (window part place l k).map (rowNumber part place l) =
      (List.range (window part place l k).length).map (· + 1) := by
  apply List.ext_getElem
  · simp
  · intro i hi hi'
    rw [List.length_map] at hi
    rw [List.getElem_map, List.getElem_map, List.getElem_range,
      rowNumber_of_mem (List.getElem_mem hi), (window_nodup h).idxOf_getElem]

theorem rowNumber_injective (hx : x ∈ l) (hpart : part x = part y)
    (hnumber : rowNumber part place l x = rowNumber part place l y) : x = y := by
  unfold rowNumber at hnumber
  rw [hpart] at hnumber
  have hmem : x ∈ window part place l (part y) := mem_window.mpr ⟨hx, hpart⟩
  exact List.idxOf_inj hmem |>.mp (Nat.succ.inj hnumber)

/-- The first row is one that no other comes before. -/
theorem rowNumber_eq_one (hx : x ∈ l) (hone : rowNumber part place l x = 1) (hy : y ∈ l)
    (hpart : part y = part x) : place x ≤ place y := by
  have hmem : x ∈ window part place l (part x) := mem_window.mpr ⟨hx, rfl⟩
  have hother : y ∈ window part place l (part x) := mem_window.mpr ⟨hy, hpart⟩
  have hsorted := window_sorted part place l (part x)
  have hfirst : (window part place l (part x)).idxOf x = 0 := Nat.succ.inj hone
  cases hwindow : window part place l (part x) with
  | nil =>
    rw [hwindow] at hmem
    cases hmem
  | cons z rest =>
    rw [hwindow] at hfirst hother hsorted
    have hz : z = x := by
      by_contra hne
      rw [List.idxOf_cons_ne _ hne] at hfirst
      cases hfirst
    subst hz
    rcases List.mem_cons.mp hother with rfl | hrest
    · exact le_refl _
    · exact (List.pairwise_cons.mp hsorted).1 y hrest

/-- Every partition with a row has a first one. -/
theorem exists_rowNumber_eq_one (hx : x ∈ l) :
    ∃ y ∈ l, part y = part x ∧ rowNumber part place l y = 1 := by
  have hmem : x ∈ window part place l (part x) := mem_window.mpr ⟨hx, rfl⟩
  cases hwindow : window part place l (part x) with
  | nil =>
    rw [hwindow] at hmem
    cases hmem
  | cons z rest =>
    have hz : z ∈ window part place l (part x) := by
      rw [hwindow]
      exact List.mem_cons_self
    obtain ⟨hzl, hpart⟩ := mem_window.mp hz
    refine ⟨z, hzl, hpart, ?_⟩
    rw [rowNumber, hpart, hwindow, List.idxOf_cons_self]

/-- The row numbers of a partition stay within a bound if it has no more rows, and only then. -/
theorem rowNumber_le_iff (h : l.Nodup) (k : κ) (bound : ℕ) :
    (∀ x ∈ l, part x = k → rowNumber part place l x ≤ bound) ↔
      (l.filter fun x => part x = k).length ≤ bound := by
  have hnumbers : (∀ n ∈ (window part place l k).map (rowNumber part place l), n ≤ bound) ↔
      (window part place l k).length ≤ bound := by
    rw [map_rowNumber h k, List.forall_mem_map]
    constructor
    · intro hall
      by_contra hnot
      have hlast := hall bound (List.mem_range.mpr (by omega))
      omega
    · intro hle i hi
      have hlt := List.mem_range.mp hi
      omega
  rw [← length_window part place l k, ← hnumbers, List.forall_mem_map]
  constructor
  · intro hall x hx
    exact hall x (mem_window.mp hx).1 (mem_window.mp hx).2
  · intro hall x hx hpart
    exact hall x (mem_window.mpr ⟨hx, hpart⟩)

end numbers

end Fakery.Windows
