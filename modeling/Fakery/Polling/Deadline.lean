import Mathlib.Algebra.Order.Field.Rat
import Mathlib.Algebra.Order.Floor.Semiring
import Mathlib.Data.Rat.Floor
import Mathlib.Tactic.Linarith

/-! Loops that look again and again until a deadline: they end with the first look that decides, or
with the first one that comes too late. -/
namespace Fakery.Polling

/-- How a loop ends: a look decides, or the time is over. -/
inductive Outcome (α : Type) where
  | decided (a : α)
  | expired
deriving DecidableEq

variable {σ ω α : Type}

/-- A look decides with `.error`, or goes on with what the loop remembers. The clock is read before
every look. -/
def poll (look : σ → ω → Except α σ) (deadline : ℚ) (clock : ℕ → ℚ) (seen : ℕ → ω) :
    ℕ → ℕ → σ → Option (ℕ × Outcome α)
  | 0, _, _ => none
  | fuel + 1, k, s =>
    if clock k < deadline then
      match look s (seen k) with
      | .error a => some (k, .decided a)
      | .ok s => poll look deadline clock seen fuel (k + 1) s
    else some (k, .expired)

section rules

variable {look : σ → ω → Except α σ} {deadline : ℚ} {clock : ℕ → ℚ} {seen : ℕ → ω}
  {fuel k n : ℕ} {s : σ}

/-- Looks that do not decide are passed over, with what they leave to remember. -/
theorem poll_passes (memory : ℕ → σ) (hin : ∀ i < n, clock (k + i) < deadline)
    (hgoes : ∀ i < n, look (memory i) (seen (k + i)) = .ok (memory (i + 1))) :
    poll look deadline clock seen (n + fuel) k (memory 0) =
      poll look deadline clock seen fuel (k + n) (memory n) := by
  induction n generalizing k memory with
  | zero => rw [Nat.zero_add, Nat.add_zero]
  | succ n ih =>
    have hfirst := hin 0 (Nat.succ_pos n)
    have hlook := hgoes 0 (Nat.succ_pos n)
    rw [Nat.add_zero] at hfirst hlook
    have hrest := ih (k := k + 1) (fun i => memory (i + 1))
      (fun i hi => by
        have := hin (i + 1) (Nat.succ_lt_succ hi)
        rwa [show k + 1 + i = k + (i + 1) by omega])
      (fun i hi => by
        have := hgoes (i + 1) (Nat.succ_lt_succ hi)
        rwa [show k + 1 + i = k + (i + 1) by omega])
    rw [show n + 1 + fuel = (n + fuel) + 1 by omega, poll, if_pos hfirst, hlook]
    refine hrest.trans ?_
    rw [show k + 1 + n = k + (n + 1) by omega]

theorem poll_decides {a : α} (hin : clock k < deadline) (hlook : look s (seen k) = .error a) :
    poll look deadline clock seen (fuel + 1) k s = some (k, .decided a) := by
  rw [poll, if_pos hin, hlook]

theorem poll_expires (hout : deadline ≤ clock k) :
    poll look deadline clock seen (fuel + 1) k s = some (k, .expired) := by
  rw [poll, if_neg (not_lt.mpr hout)]

/-- A clock that goes on by a period with every look. -/
theorem clock_ge {period : ℚ} (hclock : ∀ i, clock i + period ≤ clock (i + 1)) (n : ℕ) :
    clock 0 + n * period ≤ clock n := by
  induction n with
  | zero => simp
  | succ n ih =>
    have hnext := hclock n
    push_cast
    linarith

/-- A loop with a period comes to its end: of whatever there is to wait for, the deadline at the
latest is met after as many looks as there are periods. -/
theorem exists_first {period timeout : ℚ} (hperiod : 0 < period)
    (hclock : ∀ i, clock i + period ≤ clock (i + 1)) (hdeadline : deadline ≤ clock 0 + timeout)
    (past : ℕ → Prop) (hpast : ∀ i, deadline ≤ clock i → past i) :
    ∃ k ≤ ⌈timeout / period⌉₊, past k ∧ ∀ i < k, ¬past i := by
  classical
  have hend : past ⌈timeout / period⌉₊ := by
    refine hpast _ (hdeadline.trans ((clock_ge hclock _).trans' ?_))
    have hceil := Nat.le_ceil (timeout / period)
    rw [div_le_iff₀ hperiod] at hceil
    linarith
  refine ⟨Nat.find ⟨_, hend⟩, Nat.find_min' _ hend, Nat.find_spec ⟨_, hend⟩, fun i hi => ?_⟩
  exact Nat.find_min ⟨_, hend⟩ hi

/-- A loop ends with the first look that ends it, in the way that it does. -/
theorem poll_first {period timeout : ℚ} {past : ℕ → Prop} {ends : ℕ → Outcome α} (memory : ℕ → σ)
    (hperiod : 0 < period) (hclock : ∀ i, clock i + period ≤ clock (i + 1))
    (hdeadline : deadline ≤ clock 0 + timeout) (hlate : ∀ i, deadline ≤ clock i → past i)
    (hgoes : ∀ i, ¬past i → look (memory i) (seen i) = .ok (memory (i + 1)))
    (hends : ∀ i, past i → ∀ fuel,
      poll look deadline clock seen (fuel + 1) i (memory i) = some (i, ends i)) :
    ∃ k ≤ ⌈timeout / period⌉₊, past k ∧ (∀ i < k, ¬past i) ∧
      ∀ fuel, k < fuel → poll look deadline clock seen fuel 0 (memory 0) = some (k, ends k) := by
  obtain ⟨k, hk, hpast, hfirst⟩ := exists_first hperiod hclock hdeadline past hlate
  refine ⟨k, hk, hpast, hfirst, fun fuel hfuel => ?_⟩
  obtain ⟨rest, rfl⟩ : ∃ rest, fuel = k + (rest + 1) := ⟨fuel - k - 1, by omega⟩
  have hpasses : poll look deadline clock seen (k + (rest + 1)) 0 (memory 0) =
      poll look deadline clock seen (rest + 1) (0 + k) (memory k) :=
    poll_passes memory
      (fun i hi => by
        rw [Nat.zero_add]
        exact lt_of_not_ge fun hge => hfirst i hi (hlate i hge))
      (fun i hi => by
        rw [Nat.zero_add]
        exact hgoes i (hfirst i hi))
  rw [Nat.zero_add] at hpasses
  rw [hpasses, hends k hpast rest]

end rules

end Fakery.Polling
