import Mathlib.Data.Nat.Notation
import Mathlib.Tactic.SplitIfs

/-! A database row under READ COMMITTED. A transaction that updates the row or selects it
FOR UPDATE holds the row lock until it commits or rolls back; plain reads never block. -/
namespace Fakery.Postgres

/-- `written` is the version that the holder of the lock sees. -/
structure Row (ρ : Type) where
  committed : ρ
  holder : Option ℕ
  written : ρ

namespace Row

variable {ρ : Type} {r r' : Row ρ} {t u : ℕ} {f : ρ → ρ}

def new (x : ρ) : Row ρ := ⟨x, none, x⟩

/-- What a plain SELECT of transaction `t` returns. -/
def visible (r : Row ρ) (t : ℕ) : ρ := if r.holder = some t then r.written else r.committed

/-- `none` is a transaction that waits for another one to end. -/
def lock (r : Row ρ) (t : ℕ) : Option (Row ρ) :=
  match r.holder with
  | none => some ⟨r.committed, some t, r.committed⟩
  | some u => if u = t then some r else none

def update (r : Row ρ) (t : ℕ) (f : ρ → ρ) : Option (Row ρ) :=
  (r.lock t).map fun r => { r with written := f r.written }

def commit (r : Row ρ) (t : ℕ) : Row ρ := if r.holder = some t then new r.written else r

def rollback (r : Row ρ) (t : ℕ) : Row ρ := if r.holder = some t then new r.committed else r

/-- The lock is free or already held by `t`. -/
def Free (r : Row ρ) (t : ℕ) : Prop := r.holder = none ∨ r.holder = some t

theorem lock_eq (h : r.lock t = some r') :
    r.Free t ∧ r' = ⟨r.committed, some t, r.visible t⟩ := by
  unfold lock at h
  unfold Free visible
  cases hh : r.holder with
  | none =>
    simp only [hh, Option.some.injEq] at h
    exact ⟨Or.inl rfl, by simp [← h]⟩
  | some u =>
    simp only [hh] at h
    split_ifs at h with hu
    cases Option.some.inj h
    subst hu
    obtain ⟨c, hd, w⟩ := r
    cases hh
    exact ⟨Or.inr rfl, by simp⟩

theorem update_eq (h : r.update t f = some r') :
    r.Free t ∧ r' = ⟨r.committed, some t, f (r.visible t)⟩ := by
  obtain ⟨q, hq, rfl⟩ := Option.map_eq_some_iff.mp h
  obtain ⟨hf, rfl⟩ := lock_eq hq
  exact ⟨hf, rfl⟩

/-- Whoever holds the lock keeps every other transaction out. -/
theorem Free.ne_holder (h : r.Free t) (hu : u ≠ t) : r.holder ≠ some u := by
  rcases h with h | h <;> rw [h]
  · exact nofun
  · exact fun he => hu (Option.some.inj he).symm

theorem visible_of_holder (h : r.holder = some t) : r.visible t = r.written := if_pos h

theorem visible_of_not_holder (h : r.holder ≠ some t) : r.visible t = r.committed := if_neg h

theorem commit_of_holder (h : r.holder = some t) : r.commit t = new r.written := if_pos h

theorem commit_of_not_holder (h : r.holder ≠ some t) : r.commit t = r := if_neg h

theorem rollback_of_holder (h : r.holder = some t) : r.rollback t = new r.committed := if_pos h

theorem rollback_of_not_holder (h : r.holder ≠ some t) : r.rollback t = r := if_neg h

@[simp] theorem rollback_committed (r : Row ρ) (t : ℕ) : (r.rollback t).committed = r.committed := by
  unfold rollback
  split_ifs <;> rfl

/-- The end of a transaction leaves the locks of the others alone. -/
theorem commit_holder_iff (r : Row ρ) (hu : u ≠ t) :
    (r.commit t).holder = some u ↔ r.holder = some u := by
  unfold commit
  split_ifs with h
  · exact ⟨nofun, fun hr => absurd (Option.some.inj (hr.symm.trans h)) hu⟩
  · exact Iff.rfl

theorem rollback_holder_iff (r : Row ρ) (hu : u ≠ t) :
    (r.rollback t).holder = some u ↔ r.holder = some u := by
  unfold rollback
  split_ifs with h
  · exact ⟨nofun, fun hr => absurd (Option.some.inj (hr.symm.trans h)) hu⟩
  · exact Iff.rfl

theorem rollback_visible (r : Row ρ) (hu : u ≠ t) : (r.rollback t).visible u = r.visible u := by
  by_cases ht : r.holder = some t
  · have hru : r.holder ≠ some u := fun h => hu (Option.some.inj (h.symm.trans ht))
    rw [rollback_of_holder ht, visible_of_not_holder hru]
    exact visible_of_not_holder nofun
  · rw [rollback_of_not_holder ht]

/-- What a commit of `t` adds to what `u` sees is what `t` saw beyond the committed version. -/
theorem commit_visible_add (r : Row ρ) (f : ρ → ℕ) (hu : u ≠ t) :
    f ((r.commit t).visible u) + f r.committed = f (r.visible u) + f (r.visible t) := by
  by_cases ht : r.holder = some t
  · have hru : r.holder ≠ some u := fun h => hu (Option.some.inj (h.symm.trans ht))
    rw [commit_of_holder ht, visible_of_holder ht, visible_of_not_holder hru,
      visible_of_not_holder (t := u) (r := new r.written) nofun]
    exact Nat.add_comm _ _
  · rw [commit_of_not_holder ht, visible_of_not_holder ht]

/-- What a statement of `t` before the end of its transaction can do to a row. -/
def Kept (t : ℕ) (r r' : Row ρ) : Prop :=
  r' = r ∨ r.Free t ∧ r'.committed = r.committed ∧ r'.holder = some t

theorem Kept.committed (h : Kept t r r') : r'.committed = r.committed := by
  rcases h with rfl | ⟨-, h, -⟩
  · rfl
  · exact h

theorem Kept.holder_iff (h : Kept t r r') (hu : u ≠ t) : r'.holder = some u ↔ r.holder = some u := by
  rcases h with rfl | ⟨hf, -, hh⟩
  · rfl
  · rw [hh]
    exact ⟨fun he => absurd (Option.some.inj he).symm hu, fun he => absurd he (hf.ne_holder hu)⟩

theorem Kept.eq_of_holder (h : Kept t r r') (hu : u ≠ t) (hr : r.holder = some u) : r' = r :=
  h.resolve_right fun ⟨hf, _, _⟩ => hf.ne_holder hu hr

/-- The other transactions see what they saw. -/
theorem Kept.visible (h : Kept t r r') (hu : u ≠ t) : r'.visible u = r.visible u := by
  by_cases hr : r.holder = some u
  · rw [h.eq_of_holder hu hr]
  · rw [visible_of_not_holder hr, visible_of_not_holder fun h' => hr ((h.holder_iff hu).mp h'),
      h.committed]

theorem kept_lock (h : r.lock t = some r') : Kept t r r' := by
  obtain ⟨hf, rfl⟩ := lock_eq h
  exact Or.inr ⟨hf, rfl, rfl⟩

theorem kept_update (h : r.update t f = some r') : Kept t r r' := by
  obtain ⟨hf, rfl⟩ := update_eq h
  exact Or.inr ⟨hf, rfl, rfl⟩

end Row

end Fakery.Postgres
