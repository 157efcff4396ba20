import Mathlib.Data.List.Basic

/-! Cutting a list into consecutive batches, each the longest admissible one from where the last
ended. Where a tail of an admissible batch is admissible, no other cut has fewer batches. -/
namespace Fakery.Batching

variable {α : Type}

structure Greedy (admits : List α → Prop) (split : List α → List (List α)) : Prop where
  nil : split [] = []
  cons : ∀ a l, ∃ taken rest, l = taken ++ rest ∧ split (a :: l) = (a :: taken) :: split rest ∧
    admits (a :: taken) ∧
    ∀ taken' rest', l = taken' ++ rest' → admits (a :: taken') → taken'.length ≤ taken.length

variable {admits : List α → Prop} {split : List α → List (List α)} {batch l : List α}

namespace Greedy

/-- The rule for a property of the batches of every list. -/
theorem induction (h : Greedy admits split) {P : List α → List (List α) → Prop} (hnil : P [] [])
    (hcons : ∀ a taken rest, admits (a :: taken) → P rest (split rest) →
      P (a :: taken ++ rest) ((a :: taken) :: split rest)) (l : List α) : P l (split l) := by
  induction hn : l.length using Nat.strongRecOn generalizing l with
  | _ n ih =>
    subst hn
    cases l with
    | nil =>
      rw [h.nil]
      exact hnil
    | cons a l =>
      obtain ⟨taken, rest, rfl, hsplit, hadmits, -⟩ := h.cons a l
      rw [hsplit]
      refine hcons a taken rest hadmits (ih rest.length ?_ rest rfl)
      simp only [List.length_cons, List.length_append]
      omega

theorem flatten (h : Greedy admits split) (l : List α) : (split l).flatten = l :=
  h.induction (P := fun l batches => batches.flatten = l) rfl
    (fun a taken rest _ ih => by rw [List.flatten_cons, ih]) l

theorem ne_nil (h : Greedy admits split) : ∀ batch ∈ split l, batch ≠ [] := by
  refine h.induction (P := fun _ batches => ∀ batch ∈ batches, batch ≠ []) (by simp) ?_ l
  intro a taken rest _ ih batch hmem
  rcases List.mem_cons.mp hmem with rfl | hmem
  · exact List.cons_ne_nil a taken
  · exact ih batch hmem

theorem admits_of_mem (h : Greedy admits split) : ∀ batch ∈ split l, admits batch := by
  refine h.induction (P := fun _ batches => ∀ batch ∈ batches, admits batch) (by simp) ?_ l
  intro a taken rest hadmits ih batch hmem
  rcases List.mem_cons.mp hmem with rfl | hmem
  · exact hadmits
  · exact ih batch hmem

/-- A tail of a list that other batches cover takes no more batches than they are: what the first
batch leaves is a tail of what the first of the others leaves. -/
theorem length_le_of_suffix (h : Greedy admits split)
    (htail : ∀ front batch, batch ≠ [] → admits (front ++ batch) → admits batch)
    (batches : List (List α)) (hbatches : ∀ batch ∈ batches, admits batch)
    (hl : l <:+ batches.flatten) : (split l).length ≤ batches.length := by
  induction batches generalizing l with
  | nil =>
    have hnil : l = [] := List.suffix_nil.mp hl
    simp [hnil, h.nil]
  | cons first batches ih =>
    have hrest : ∀ batch ∈ batches, admits batch :=
      fun batch hmem => hbatches batch (List.mem_cons_of_mem _ hmem)
    have hlonger : ∀ l, l <:+ batches.flatten → (split l).length ≤ (first :: batches).length :=
      fun l hl => Nat.le_succ_of_le (ih hrest hl)
    have hflat : batches.flatten <:+ first ++ batches.flatten := List.suffix_append _ _
    rcases List.suffix_or_suffix_of_suffix hl hflat with hl' | ⟨piece, rfl⟩
    · exact hlonger l hl'
    obtain ⟨front, hfront⟩ := hl
    have hfirst : front ++ piece = first := by
      rw [List.flatten_cons, ← List.append_assoc] at hfront
      exact List.append_cancel_right hfront
    cases piece with
    | nil => exact hlonger _ (List.suffix_refl _)
    | cons a piece =>
      have hpiece : admits (a :: piece) := by
        apply htail front (a :: piece) (List.cons_ne_nil a piece)
        rw [hfirst]
        exact hbatches first List.mem_cons_self
      obtain ⟨taken, rest, htaken, hsplit, -, hlongest⟩ := h.cons a (piece ++ batches.flatten)
      have hlength := hlongest piece batches.flatten rfl hpiece
      have hsuffix : rest <:+ batches.flatten := by
        have hin : rest <:+ piece ++ batches.flatten := ⟨taken, htaken.symm⟩
        apply List.suffix_of_suffix_length_le hin (List.suffix_append _ _)
        have hsum := congrArg List.length htaken
        simp only [List.length_append] at hsum
        omega
      rw [List.cons_append, hsplit]
      exact Nat.succ_le_succ (ih hrest hsuffix)

theorem minimal (h : Greedy admits split)
    (htail : ∀ front batch, batch ≠ [] → admits (front ++ batch) → admits batch)
    {batches : List (List α)} (hbatches : ∀ batch ∈ batches, admits batch) :
    (split batches.flatten).length ≤ batches.length :=
  h.length_le_of_suffix htail batches hbatches (List.suffix_refl _)

end Greedy

end Fakery.Batching
