import Fakery.Bots.Absorbing

/-! One browser for each bot. The gate is the locked transition out of queued: whatever starts
`attend`, and however often, a commit takes a run out of queued only once, and nothing writes
queued again. Workers, Job pods, duplicate stream entries and reclaims are all threads here. -/
namespace Fakery.Bots
open Fakery.Concurrent

variable {es : List (Event Op ℕ World)} {s : service.State}

/-- All that counts is that a run never comes back to queued. -/
def onward : Discipline where
  cond := service.free
  next current target := current = target ∨ target ≠ .queued
  next_refl _ := Or.inl rfl
  next_of_canTransition {s τ} h := Or.inr fun he => by
    subst he
    rw [not_canTransition_queued] at h
    cases h
  next_queued h := h.resolve_right fun hn => hn rfl
  next_of_reread _ _ hl _ _ _ _ := Or.inr (Discipline.ne_queued_of_mem_late hl)

theorem onward_inv_init : onward.Inv {} := fun _ => ⟨rfl, Or.inl rfl, nofun, Or.inl rfl⟩

/-- However transactions interleave and wherever they are cut off, the browser of a bot is opened
at most once, and only by the caller whose commit took the run from queued to joining. -/
theorem browser_opened_once (hr : service.run (service.init {}) es = some s) (b : ℕ) :
    (s.shared.openedBy b).length ≤ 1 ∧
      ∀ u ∈ s.shared.openedBy b, s.shared.joinedBy b = some u := by
  have h := onward.sound.run (Protocol.holds_init onward_inv_init fun _ _ => nofun)
    (Machine.free_meets _ _) hr
  rcases (h.inv b).opened with ho | ⟨u, hu, ho⟩ <;> rw [ho]
  · exact ⟨Nat.zero_le 1, nofun⟩
  · exact ⟨Nat.le_refl 1, fun v hv => List.mem_singleton.mp hv ▸ hu⟩

/-- Two attendances of one bot that are under way together: the second waits for the row. -/
def attendedTwice : List (Event Op ℕ World) :=
  created ++ whole 1 (.attend 0) 3 ++ whole 2 (.attend 0) 1 ++ calls 1 7 ++ calls 2 2

theorem attendedTwice_opened : (service.run (service.init {}) attendedTwice).map
    (fun s => s.shared.openedBy 0) = some [1] := by
  decide

theorem browser_opened_once_twice : ∃ s, service.run (service.init {}) attendedTwice = some s ∧
    (s.shared.openedBy 0).length ≤ 1 ∧
      ∀ u ∈ s.shared.openedBy 0, s.shared.joinedBy 0 = some u := by
  obtain ⟨s, hs, -⟩ := Option.map_eq_some_iff.mp attendedTwice_opened
  exact ⟨s, hs, browser_opened_once hs 0⟩

end Fakery.Bots
