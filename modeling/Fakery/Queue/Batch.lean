import Mathlib.Data.List.Sort

/-! Batches off the front of a sorted queue. -/
namespace Fakery.Queue

section sorted

variable {α : Type} {r : α → α → Prop} [DecidableRel r] {l : List α} {x : α} {n : ℕ}

/-- In a sorted list the first `n` are those with less than `n` others before them. -/
theorem mem_take_iff_countP (h : l.Pairwise r) (asymm : ∀ a b, r a b → ¬r b a) :
    x ∈ l.take n ↔ x ∈ l ∧ l.countP (fun y => r y x) < n := by
  induction l generalizing n with
  | nil => simp
  | cons a l ih =>
    have hirrefl : ¬r a a := fun ha => asymm a a ha ha
    have htail := h.of_cons
    have hhead : ∀ b ∈ l, r a b := fun b hb => List.rel_of_pairwise_cons h hb
    cases n with
    | zero => simp
    | succ n =>
      rw [List.take_succ_cons, List.mem_cons, List.mem_cons, List.countP_cons, ih htail]
      by_cases hx : x = a
      · have hnone : l.countP (fun y => r y x) = 0 := by
          rw [List.countP_eq_zero]
          intro b hb
          have hno := asymm a b (hhead b hb)
          simp [hx, hno]
        subst hx
        simp [hirrefl, hnone]
      · constructor
        · intro hmem
          obtain ⟨hl, hlt⟩ := hmem.resolve_left hx
          have hax := hhead x hl
          simp [hl, hax]
          omega
        · intro hmem
          have hl := hmem.1.resolve_left hx
          have hax := hhead x hl
          have hlt := hmem.2
          simp [hax] at hlt
          exact Or.inr ⟨hl, hlt⟩

end sorted

section passes

variable {α : Type} (n : ℕ) (good : α → Bool)

/-- A pass takes the good ones out of the first `n`; the others stay where they are. -/
def pass (queue : List α) : List α :=
  (queue.take n).filter (fun y => !good y) ++ queue.drop n

variable {n good} {x : α} {queue before after : List α} {k : ℕ}

theorem pass_sublist : (pass n good queue).Sublist queue := by
  have h : ((queue.take n).filter (fun y => !good y) ++ queue.drop n).Sublist
      (queue.take n ++ queue.drop n) := List.filter_sublist.append (List.Sublist.refl _)
  rwa [List.take_append_drop] at h

theorem pass_eq_filter [DecidableEq α] (h : queue.Nodup) :
    pass n good queue = queue.filter fun y => !(queue.take n).contains y || !good y := by
  have hdisjoint : ∀ y ∈ queue.drop n, y ∉ queue.take n := by
    rw [← List.take_append_drop n queue] at h
    exact fun y hd ht => (List.nodup_append.mp h).2.2 y ht y hd rfl
  have hsplit : ∀ p : α → Bool,
      queue.filter p = (queue.take n).filter p ++ (queue.drop n).filter p := by
    intro p
    rw [← List.filter_append, List.take_append_drop]
  rw [pass, hsplit]
  congr 1
  · refine List.filter_congr fun y hy => ?_
    simp [hy]
  · symm
    rw [List.filter_eq_self]
    intro y hy
    simp [hdisjoint y hy]

theorem pass_eq_filter_of {stays : α → Bool} (h : queue.Nodup)
    (hstays : ∀ y, stays y = true ↔ y ∉ queue.take n ∨ good y = false) :
    pass n good queue = queue.filter stays := by
  classical
  rw [pass_eq_filter h]
  refine List.filter_congr fun y _ => ?_
  rw [Bool.eq_iff_iff, hstays]
  simp

theorem passes_sublist : ((pass n good)^[k] queue).Sublist queue := by
  induction k generalizing queue with
  | zero => exact List.Sublist.refl _
  | succ k ih => exact ih.trans pass_sublist

/-- The rest of the queue does not move up to `x` before `x` is in the batch. -/
theorem pass_append_cons (h : n ≤ before.length) :
    pass n good (before ++ x :: after) = pass n good before ++ x :: after := by
  rw [pass, pass, List.take_append_of_le_length h, List.drop_append_of_le_length h,
    List.append_assoc]

theorem countP_pass : (pass n good queue).countP (fun y => !good y) =
    queue.countP (fun y => !good y) := by
  have hsplit : queue.countP (fun y => !good y) = (queue.take n).countP (fun y => !good y) +
      (queue.drop n).countP (fun y => !good y) := by
    rw [← List.countP_append, List.take_append_drop]
  rw [pass, List.countP_append, hsplit, List.countP_filter]
  simp

/-- With less than `n` bad ones a full batch loses some. -/
theorem length_pass_lt (h : n ≤ queue.length) (hbad : queue.countP (fun y => !good y) < n) :
    (pass n good queue).length < queue.length := by
  have htake : (queue.take n).length = n := by
    rw [List.length_take, Nat.min_eq_left h]
  have hle : (queue.take n).countP (fun y => !good y) ≤ queue.countP (fun y => !good y) :=
    (List.take_sublist n queue).countP_le
  have hfilter : ((queue.take n).filter (fun y => !good y)).length =
      (queue.take n).countP (fun y => !good y) := List.countP_eq_length_filter.symm
  rw [pass, List.length_append, hfilter, List.length_drop]
  omega

theorem not_mem_pass (hx : good x = true) (h : before.length < n)
    (hnodup : (before ++ x :: after).Nodup) : x ∉ pass n good (before ++ x :: after) := by
  have htake : x ∈ (before ++ x :: after).take n := by
    rw [List.take_append, List.mem_append]
    right
    have hpos : n - before.length = (n - before.length - 1) + 1 := by omega
    rw [hpos, List.take_succ_cons]
    exact List.mem_cons_self
  have hdrop : x ∉ (before ++ x :: after).drop n := by
    intro hmem
    rw [← List.take_append_drop n (before ++ x :: after)] at hnodup
    exact (List.nodup_append.mp hnodup).2.2 x htake x hmem rfl
  simp [pass, hx, hdrop]

theorem mem_passes_of_le (h : n ≤ before.countP (fun y => !good y)) :
    x ∈ (pass n good)^[k] (before ++ x :: after) := by
  induction k generalizing before with
  | zero => exact List.mem_append_right _ List.mem_cons_self
  | succ k ih =>
    have hlen : n ≤ before.length := h.trans List.countP_le_length
    rw [Function.iterate_succ_apply, pass_append_cons hlen]
    exact ih (countP_pass.symm ▸ h)

theorem not_mem_passes (hx : good x = true) (hbad : before.countP (fun y => !good y) < n)
    (hk : before.length < k) (hnodup : (before ++ x :: after).Nodup) :
    x ∉ (pass n good)^[k] (before ++ x :: after) := by
  induction k generalizing before with
  | zero => exact absurd hk (Nat.not_lt_zero _)
  | succ k ih =>
    rw [Function.iterate_succ_apply]
    by_cases hlen : n ≤ before.length
    · have hlt := length_pass_lt hlen hbad
      have hnext : (pass n good (before ++ x :: after)).Nodup := pass_sublist.nodup hnodup
      rw [pass_append_cons hlen] at hnext ⊢
      exact ih (countP_pass.symm ▸ hbad) (by omega) hnext
    · intro hmem
      exact not_mem_pass hx (by omega) hnodup (passes_sublist.mem hmem)

/-- After as many passes as there are places up to its own, a good one is left exactly if a whole
batch of bad ones was before it. -/
theorem mem_passes_iff (hx : good x = true) (hk : before.length < k)
    (hnodup : (before ++ x :: after).Nodup) :
    x ∈ (pass n good)^[k] (before ++ x :: after) ↔ n ≤ before.countP (fun y => !good y) := by
  constructor
  · intro hmem
    by_contra hlt
    exact not_mem_passes hx (Nat.lt_of_not_le hlt) hk hnodup hmem
  · exact mem_passes_of_le

end passes

end Fakery.Queue
