import Mathlib.Data.Nat.Notation
import Mathlib.Logic.Function.Basic
import Mathlib.Logic.Relation

/-! Lock tables and the lock hierarchy. A transaction holds its locks until it ends and waits for
one lock at a time. -/
namespace Fakery.Concurrent

/-- The modes of a lock request, ranked so that only requests of one rank conflict. -/
structure Hierarchy (ρ : Type) where
  conflict : ρ → ρ → Bool
  rank : ρ → ℕ
  symm : ∀ {h r}, conflict h r = true → conflict r h = true
  rank_eq : ∀ {h r}, conflict h r = true → rank h = rank r

structure LockTable (ρ : Type) where
  locks : List (ℕ × ρ) := []
  waiting : ℕ → Option ρ := fun _ => none

namespace LockTable

variable {ρ : Type} (H : Hierarchy ρ) (s : LockTable ρ) (t : ℕ) (r : ρ)

/-- No other transaction holds a lock that keeps `t` from `r`. -/
def free : Bool := s.locks.all fun x => x.1 = t || !H.conflict x.2 r

/-- `t` holds a lock. -/
def holds : Bool := s.locks.any fun x => x.1 = t

def grant : LockTable ρ := ⟨(t, r) :: s.locks, Function.update s.waiting t none⟩

def enqueue : LockTable ρ := ⟨s.locks, Function.update s.waiting t (some r)⟩

def release : LockTable ρ := ⟨s.locks.filter fun x => x.1 ≠ t, Function.update s.waiting t none⟩

/-- `t` waits for a lock that `u` has. -/
def WaitsFor (u : ℕ) : Prop :=
  u ≠ t ∧ ∃ r, s.waiting t = some r ∧ ∃ h, (u, h) ∈ s.locks ∧ H.conflict h r = true

/-- Whoever waits holds only locks below the one it waits for. -/
def Ordered : Prop :=
  ∀ t r, s.waiting t = some r → ∀ h, (t, h) ∈ s.locks → H.rank h < H.rank r

/-- Conflicting locks are held by one transaction. -/
def Exclusive : Prop :=
  ∀ t u h r, (t, h) ∈ s.locks → (u, r) ∈ s.locks → H.conflict h r = true → t = u

/-- `t` does not wait and holds just the locks in `L`. -/
structure Has (L : List ρ) : Prop where
  running : s.waiting t = none
  held : ∀ r, (t, r) ∈ s.locks ↔ r ∈ L

/-- The two tables are the same for `t`. -/
structure Agrees (s' : LockTable ρ) : Prop where
  waiting : s'.waiting t = s.waiting t
  held : ∀ r, (t, r) ∈ s'.locks ↔ (t, r) ∈ s.locks

variable {H s t r} {s₁ s₂ s₃ : LockTable ρ} {u : ℕ} {h : ρ} {L : List ρ}

theorem free_iff : s.free H t r = true ↔ ∀ u h, (u, h) ∈ s.locks → u ≠ t → H.conflict h r = false := by
  simp only [free, List.all_eq_true, Bool.or_eq_true, decide_eq_true_eq, Bool.not_eq_true', Prod.forall]
  constructor
  · intro hf u h hm hu
    exact (hf u h hm).resolve_left hu
  · intro hf u h hm
    by_cases hu : u = t
    · exact Or.inl hu
    · exact Or.inr (hf u h hm hu)

theorem holds_iff : s.holds t = true ↔ ∃ r, (t, r) ∈ s.locks := by
  simp [holds]

@[simp] theorem grant_waiting_self : (s.grant t r).waiting t = none := Function.update_self _ _ _

@[simp] theorem enqueue_waiting_self : (s.enqueue t r).waiting t = some r :=
  Function.update_self _ _ _

@[simp] theorem release_waiting_self : (s.release t).waiting t = none :=
  Function.update_self _ _ _

theorem rank_lt_of_waitsFor (ho : s.Ordered H) (hw : s.WaitsFor H t u) {r r' : ρ}
    (hr : s.waiting t = some r) (hr' : s.waiting u = some r') : H.rank r < H.rank r' := by
  obtain ⟨-, _, hw, h, hm, hc⟩ := hw
  cases hr.symm.trans hw
  have hlt := ho u r' hr' h hm
  rwa [H.rank_eq hc] at hlt

/-- Along a chain of waiting transactions the rank of the awaited lock grows. -/
theorem rank_lt_of_transGen (ho : s.Ordered H) (h : Relation.TransGen (s.WaitsFor H) t u)
    {r r' : ρ} (hr : s.waiting t = some r) (hr' : s.waiting u = some r') :
    H.rank r < H.rank r' := by
  induction h generalizing r' with
  | single h => exact rank_lt_of_waitsFor ho h hr hr'
  | tail _ h ih =>
    obtain ⟨q, hq, -⟩ := h.2
    exact Nat.lt_trans (ih hq) (rank_lt_of_waitsFor ho h hq hr')

/-- Transactions that respect the hierarchy do not wait for each other in a circle. -/
theorem Ordered.acyclic (ho : s.Ordered H) (t : ℕ) : ¬Relation.TransGen (s.WaitsFor H) t t := by
  intro h
  obtain ⟨u, hu, -⟩ := Relation.TransGen.head'_iff.mp h
  obtain ⟨r, hr, -⟩ := hu.2
  exact Nat.lt_irrefl _ (rank_lt_of_transGen ho h hr hr)

theorem Agrees.refl (t : ℕ) (s : LockTable ρ) : s.Agrees t s := ⟨rfl, fun _ => Iff.rfl⟩

theorem Agrees.trans (h : s₁.Agrees t s₂) (k : s₂.Agrees t s₃) : s₁.Agrees t s₃ :=
  ⟨k.waiting.trans h.waiting, fun r => (k.held r).trans (h.held r)⟩

theorem Has.agrees (h : s.Has t L) (ha : s.Agrees t s₁) : s₁.Has t L :=
  ⟨ha.waiting.trans h.running, fun r => (ha.held r).trans (h.held r)⟩

theorem agrees_grant (hu : u ≠ t) : s.Agrees u (s.grant t r) := by
  refine ⟨Function.update_of_ne hu _ _, fun q => ?_⟩
  simp [grant, hu]

theorem agrees_enqueue (hu : u ≠ t) : s.Agrees u (s.enqueue t r) :=
  ⟨Function.update_of_ne hu _ _, fun _ => Iff.rfl⟩

theorem agrees_release (hu : u ≠ t) : s.Agrees u (s.release t) := by
  refine ⟨Function.update_of_ne hu _ _, fun q => ?_⟩
  simp [release, hu]

theorem has_grant (h : ∀ q, (t, q) ∈ s.locks ↔ q ∈ L) : (s.grant t r).Has t (r :: L) := by
  refine ⟨grant_waiting_self, fun q => ?_⟩
  simp [grant, h]

theorem has_release : (s.release t).Has t [] := by
  refine ⟨release_waiting_self, fun q => ?_⟩
  simp [release]

theorem Ordered.grant (ho : s.Ordered H) (t : ℕ) (r : ρ) : (s.grant t r).Ordered H := by
  intro u q hw h hm
  by_cases hu : u = t
  · subst hu
    cases grant_waiting_self.symm.trans hw
  · rw [(agrees_grant hu).waiting] at hw
    exact ho u q hw h (((agrees_grant hu).held h).mp hm)

theorem Ordered.enqueue (ho : s.Ordered H) (hr : ∀ h, (t, h) ∈ s.locks → H.rank h < H.rank r) :
    (s.enqueue t r).Ordered H := by
  intro u q hw h hm
  by_cases hu : u = t
  · subst hu
    cases enqueue_waiting_self.symm.trans hw
    exact hr h hm
  · rw [(agrees_enqueue hu).waiting] at hw
    exact ho u q hw h hm

theorem Ordered.release (ho : s.Ordered H) (t : ℕ) : (s.release t).Ordered H := by
  intro u q hw h hm
  by_cases hu : u = t
  · subst hu
    cases release_waiting_self.symm.trans hw
  · rw [(agrees_release hu).waiting] at hw
    exact ho u q hw h (((agrees_release hu).held h).mp hm)

theorem Exclusive.grant (he : s.Exclusive H) (hf : s.free H t r = true) :
    (s.grant t r).Exclusive H := by
  have hothers : ∀ u h, (u, h) ∈ s.locks → H.conflict h r = true → u = t := by
    intro u h hm hc
    by_contra hu
    rw [free_iff.mp hf u h hm hu] at hc
    cases hc
  intro u v h q hu hv hc
  simp only [LockTable.grant, List.mem_cons, Prod.mk.injEq] at hu hv
  rcases hu with ⟨rfl, rfl⟩ | hu
  · rcases hv with ⟨rfl, rfl⟩ | hv
    · rfl
    · exact (hothers v q hv (H.symm hc)).symm
  · rcases hv with ⟨rfl, rfl⟩ | hv
    · exact hothers u h hu hc
    · exact he u v h q hu hv hc

theorem Exclusive.enqueue (he : s.Exclusive H) (t : ℕ) (r : ρ) : (s.enqueue t r).Exclusive H := he

theorem Exclusive.release (he : s.Exclusive H) (t : ℕ) : (s.release t).Exclusive H := by
  intro u v h q hu hv hc
  exact he u v h q (List.mem_filter.mp hu).1 (List.mem_filter.mp hv).1 hc

/-- What a transaction holds it is granted again at once. -/
theorem Exclusive.free (he : s.Exclusive H) (hm : (t, r) ∈ s.locks) : s.free H t r = true := by
  refine free_iff.mpr fun u h hu hne => ?_
  by_contra hc
  exact hne (he u t h r hu hm (by simpa using hc))

end LockTable

end Fakery.Concurrent
