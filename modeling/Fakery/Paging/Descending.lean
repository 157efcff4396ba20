import Mathlib.Data.List.Nodup
import Mathlib.Data.List.Sort

/-! Rows in descending order of a key, read a page at a time from below the last key read. -/
namespace Fakery.Paging

variable {α κ : Type} [LinearOrder κ] {key : α → κ} {rows : List α} {keys other front : List κ}
  {k : κ} {limit : ℕ}

/-- `ORDER BY key DESC` -/
def descending (key : α → κ) (rows : List α) : List α :=
  rows.insertionSort fun a b => key b ≤ key a

theorem perm_descending (key : α → κ) (rows : List α) : (descending key rows).Perm rows :=
  List.perm_insertionSort _ _

theorem pairwise_descending (h : (rows.map key).Nodup) :
    ((descending key rows).map key).Pairwise (· > ·) := by
  have hsorted : ((descending key rows).map key).Pairwise (· ≥ ·) :=
    List.pairwise_map.mpr (List.pairwise_insertionSort (fun a b => key b ≤ key a) rows)
  have hnodup : ((descending key rows).map key).Nodup :=
    ((perm_descending key rows).map key).nodup_iff.mpr h
  exact (hsorted.and hnodup).imp fun hab => lt_of_le_of_ne hab.1 hab.2.symm

/-- A descending list is determined by its members. -/
theorem eq_of_descending (h : keys.Pairwise (· > ·)) (ho : other.Pairwise (· > ·))
    (hmem : ∀ k, k ∈ keys ↔ k ∈ other) : keys = other := by
  have hperm : keys.Perm other := by
    apply (List.perm_ext_iff_of_nodup ?_ ?_).mpr hmem
    · exact h.imp fun hab => ne_of_gt hab
    · exact ho.imp fun hab => ne_of_gt hab
  exact hperm.eq_of_pairwise (fun a b _ _ hab hba => absurd hab (lt_asymm hba)) h ho

/-- Below the last key of a front there is the rest. -/
theorem filter_lt_of_descending (h : (front ++ k :: keys).Pairwise (· > ·)) :
    (front ++ k :: keys).filter (· < k) = keys := by
  obtain ⟨-, htail, hfront⟩ := List.pairwise_append.mp h
  have hbelow := (List.pairwise_cons.mp htail).1
  have habove : front.filter (· < k) = [] := by
    apply List.filter_eq_nil_iff.mpr
    intro a ha
    simpa using (hfront a ha k List.mem_cons_self).le
  have hrest : keys.filter (· < k) = keys :=
    List.filter_eq_self.mpr fun a ha => decide_eq_true (hbelow a ha)
  rw [List.filter_append, habove, List.filter_cons_of_neg (by simp), hrest]
  rfl

section pages

variable {β : Type} {items : List β} {pages : List (List β)}

/-- A list cut into full pages and a last one. -/
inductive Paged (limit : ℕ) : List β → List (List β) → Prop
  | last {items : List β} (h : items.length ≤ limit) : Paged limit items [items]
  | more {page items : List β} {pages : List (List β)} (hp : page.length = limit)
      (h : Paged limit items pages) : Paged limit (page ++ items) (page :: pages)

theorem Paged.ne_nil (h : Paged limit items pages) : pages ≠ [] := by
  cases h <;> simp

theorem Paged.flatten (h : Paged limit items pages) : pages.flatten = items := by
  induction h with
  | last => simp
  | more _ _ ih => rw [List.flatten_cons, ih]

theorem Paged.full (h : Paged limit items pages) :
    ∀ page ∈ pages.dropLast, page.length = limit := by
  induction h with
  | last => simp
  | more hp h ih =>
    rw [List.dropLast_cons_of_ne_nil h.ne_nil]
    intro page hmem
    rcases List.mem_cons.mp hmem with rfl | hmem
    · exact hp
    · exact ih page hmem

end pages

end Fakery.Paging
