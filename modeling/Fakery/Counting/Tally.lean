import Mathlib.Data.List.Basic
import Mathlib.Data.List.Induction
import Mathlib.Data.List.Nodup

/-! Votes counted in the order in which they first come, and the first of those that have most. -/
namespace Fakery.Counting

variable {κ : Type} [DecidableEq κ]

/-- One more vote of a dict. -/
def addVote (a : κ) : List (κ × ℕ) → List (κ × ℕ)
  | [] => [(a, 1)]
  | (k, n) :: counts => if k = a then (k, n + 1) :: counts else (k, n) :: addVote a counts

def tally (votes : List κ) : List (κ × ℕ) := votes.foldl (fun counts a => addVote a counts) []

omit [DecidableEq κ] in
/-- `max` by the counts, which is the first one of several. -/
def leader : List (κ × ℕ) → Option (κ × ℕ)
  | [] => none
  | c :: counts => some (counts.foldl (fun best c => if best.2 < c.2 then c else best) c)

/-- No other one has more votes, and those that have as many come later. -/
def Leads (votes : List κ) (k : κ) : Prop := k ∈ votes ∧ ∀ other ∈ votes,
  votes.count other < votes.count k ∨
    votes.count other = votes.count k ∧ votes.idxOf k ≤ votes.idxOf other

variable {votes keys : List κ} {a k : κ} {counts : List (κ × ℕ)} {best c : κ × ℕ}

theorem addVote_map (hk : keys.Nodup) (f : κ → ℕ) :
    addVote a (keys.map fun k => (k, f k)) =
      if a ∈ keys then keys.map fun k => (k, if k = a then f k + 1 else f k)
      else (keys.map fun k => (k, f k)) ++ [(a, 1)] := by
  induction keys with
  | nil => rfl
  | cons k keys ih =>
    obtain ⟨hnot, hrest⟩ := List.nodup_cons.mp hk
    rw [List.map_cons, addVote]
    by_cases hka : k = a
    · subst hka
      have hsame : (keys.map fun j => (j, if j = k then f j + 1 else f j)) =
          keys.map fun j => (j, f j) := by
        refine List.map_congr_left fun j hj => ?_
        rw [if_neg (ne_of_mem_of_not_mem hj hnot)]
      simp [hsame]
    · have hak : a ∈ k :: keys ↔ a ∈ keys := by simp [Ne.symm hka]
      rw [if_neg hka, ih hrest]
      simp only [hak]
      split_ifs <;> simp [hka]

/-- The votes of all, in the order of the first ones. -/
structure Tallied (votes keys : List κ) : Prop where
  nodup : keys.Nodup
  mem : ∀ k, k ∈ keys ↔ k ∈ votes
  order : keys.Pairwise fun a b => votes.idxOf a < votes.idxOf b
  counts : tally votes = keys.map fun k => (k, votes.count k)

theorem Tallied.vote (h : Tallied votes keys) (a : κ) : ∃ keys', Tallied (votes ++ [a]) keys' := by
  have htally : tally (votes ++ [a]) = addVote a (tally votes) := by
    rw [tally, List.foldl_append]
    rfl
  rw [h.counts, addVote_map h.nodup] at htally
  have hidx : ∀ k ∈ keys, (votes ++ [a]).idxOf k = votes.idxOf k := fun k hk =>
    List.idxOf_append_of_mem ((h.mem k).mp hk)
  by_cases ha : a ∈ keys
  · refine ⟨keys, h.nodup, fun k => ?_, ?_, ?_⟩
    · have hvoted := (h.mem a).mp ha
      rw [h.mem, List.mem_append, List.mem_singleton]
      refine ⟨Or.inl, fun hk => hk.elim id fun heq => heq ▸ hvoted⟩
    · exact h.order.imp_of_mem fun hj hk hlt => by rwa [hidx _ hj, hidx _ hk]
    · rw [htally, if_pos ha]
      refine List.map_congr_left fun k _ => ?_
      rw [List.count_append, List.count_singleton]
      by_cases hka : k = a
      · simp [hka]
      · simp [hka, Ne.symm hka]
  · have hnew : a ∉ votes := mt (h.mem a).mpr ha
    have hlast : (votes ++ [a]).idxOf a = votes.length := by
      rw [List.idxOf_append_of_notMem hnew]
      simp
    refine ⟨keys ++ [a], ?_, fun k => ?_, ?_, ?_⟩
    · exact List.nodup_append.mpr ⟨h.nodup, List.nodup_singleton a, fun k hk j hj => by
        rw [List.mem_singleton.mp hj]
        exact fun heq => ha (heq ▸ hk)⟩
    · rw [List.mem_append, List.mem_append, h.mem]
    · refine List.pairwise_append.mpr ⟨?_, List.pairwise_singleton _ _, fun k hk j hj => ?_⟩
      · exact h.order.imp_of_mem fun hj hk hlt => by rwa [hidx _ hj, hidx _ hk]
      · rw [List.mem_singleton.mp hj, hidx k hk, hlast]
        exact List.idxOf_lt_length_of_mem ((h.mem k).mp hk)
    · rw [htally, if_neg ha, List.map_append, List.map_singleton]
      refine congrArg₂ (· ++ ·) (List.map_congr_left fun k hk => ?_) ?_
      · have hka : a ≠ k := fun heq => ha (heq ▸ hk)
        rw [List.count_append, List.count_singleton]
        simp [hka]
      · simp [List.count_eq_zero_of_not_mem hnew]

theorem exists_tallied (votes : List κ) : ∃ keys, Tallied votes keys := by
  induction votes using List.reverseRecOn with
  | nil => exact ⟨[], List.nodup_nil, fun _ => Iff.rfl, List.Pairwise.nil, rfl⟩
  | append_singleton votes a ih =>
    obtain ⟨keys, h⟩ := ih
    exact h.vote a

omit [DecidableEq κ] in
theorem foldl_leader (counts : List (κ × ℕ)) (best : κ × ℕ) :
    let r := counts.foldl (fun best c => if best.2 < c.2 then c else best) best
    ∃ before after, best :: counts = before ++ r :: after ∧ (∀ d ∈ before, d.2 < r.2) ∧
      ∀ d ∈ after, d.2 ≤ r.2 := by
  induction counts using List.reverseRecOn with
  | nil => exact ⟨[], [], rfl, nofun, nofun⟩
  | append_singleton counts c ih =>
    obtain ⟨before, after, hsplit, hbefore, hafter⟩ := ih
    intro r
    have hr : r = if (counts.foldl (fun best c => if best.2 < c.2 then c else best) best).2 < c.2
        then c else counts.foldl (fun best c => if best.2 < c.2 then c else best) best := by
      simp only [r, List.foldl_append, List.foldl_cons, List.foldl_nil]
    generalize counts.foldl (fun best c => if best.2 < c.2 then c else best) best = q at *
    have hall : ∀ d ∈ best :: counts, d.2 ≤ q.2 := by
      intro d hd
      rw [hsplit, List.mem_append, List.mem_cons] at hd
      rcases hd with hd | rfl | hd
      · exact Nat.le_of_lt (hbefore d hd)
      · exact Nat.le_refl _
      · exact hafter d hd
    by_cases hlt : q.2 < c.2
    · rw [hr, if_pos hlt]
      refine ⟨best :: counts, [], rfl, fun d hd => ?_, nofun⟩
      exact Nat.lt_of_le_of_lt (hall d hd) hlt
    · rw [hr, if_neg hlt]
      refine ⟨before, after ++ [c], ?_, hbefore, fun d hd => ?_⟩
      · rw [← List.cons_append, hsplit]
        simp
      · rcases List.mem_append.mp hd with hd | hd
        · exact hafter d hd
        · rw [List.mem_singleton.mp hd]
          exact Nat.le_of_not_lt hlt

theorem Leads.unique {j : κ} (h : Leads votes k) (h' : Leads votes j) : k = j := by
  have hjk := h.2 j h'.1
  have hkj := h'.2 k h.1
  have hidx : votes.idxOf k = votes.idxOf j := by omega
  exact (List.idxOf_inj h.1).mp hidx

/-- The one that is found leads. -/
theorem leader_tally : (leader (tally votes)).map Prod.fst = some k ↔ Leads votes k := by
  obtain ⟨keys, hnodup, hmem, horder, hcounts⟩ := exists_tallied votes
  have hpairs : (tally votes).Pairwise fun a b => votes.idxOf a.1 < votes.idxOf b.1 := by
    rw [hcounts, List.pairwise_map]
    exact horder
  have hcount : ∀ c ∈ tally votes, c.1 ∈ votes ∧ c.2 = votes.count c.1 := by
    rw [hcounts]
    intro c hc
    obtain ⟨j, hj, rfl⟩ := List.mem_map.mp hc
    exact ⟨(hmem j).mp hj, rfl⟩
  have hentry : ∀ j ∈ votes, (j, votes.count j) ∈ tally votes := by
    intro j hj
    rw [hcounts]
    exact List.mem_map.mpr ⟨j, (hmem j).mpr hj, rfl⟩
  have hfound : ∀ c, leader (tally votes) = some c → Leads votes c.1 := by
    intro c hc
    cases htally : tally votes with
    | nil =>
      rw [htally] at hc
      cases hc
    | cons first counts =>
      obtain ⟨before, after, hsplit, hbefore, hafter⟩ := foldl_leader counts first
      rw [htally] at hc
      rw [Option.some.inj hc, ← htally] at hsplit
      rw [Option.some.inj hc] at hbefore hafter
      rw [hsplit] at hpairs hcount
      obtain ⟨hvoted, hvotes⟩ := hcount c (by simp)
      refine ⟨hvoted, fun j hj => ?_⟩
      have hj := hentry j hj
      rw [hsplit, List.mem_append, List.mem_cons] at hj
      rw [← hvotes]
      rcases hj with hj | rfl | hj
      · exact Or.inl (hbefore _ hj)
      · exact Or.inr ⟨rfl, Nat.le_refl _⟩
      · have hlate := List.rel_of_pairwise_cons (List.pairwise_append.mp hpairs).2.1 hj
        rcases Nat.lt_or_eq_of_le (hafter _ hj) with hlt | heq
        · exact Or.inl hlt
        · exact Or.inr ⟨heq, Nat.le_of_lt hlate⟩
  constructor
  · intro h
    obtain ⟨c, hc, rfl⟩ := Option.map_eq_some_iff.mp h
    exact hfound c hc
  · intro h
    cases hl : leader (tally votes) with
    | none =>
      have hk := hentry k h.1
      cases htally : tally votes with
      | nil =>
        rw [htally] at hk
        cases hk
      | cons first counts =>
        rw [htally] at hl
        cases hl
    | some c => exact congrArg some ((hfound c hl).unique h)

end Fakery.Counting
