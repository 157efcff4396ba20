import Mathlib.Data.Nat.Notation
import Mathlib.Logic.Function.Basic

/-! A store of keys that expire. -/
namespace Fakery.Redis

structure Entry (ν : Type) where
  value : ν
  expiresAt : ℕ

/-- An expired entry stays where it is; no command sees it. -/
structure Keys (κ ν : Type) where
  now : ℕ := 0
  entry : κ → Option (Entry ν) := fun _ => none

namespace Keys

variable {κ ν : Type} (s : Keys κ ν) (k : κ) (v : ν) (ttl d : ℕ)

def get : Option ν := ((s.entry k).filter fun e => s.now < e.expiresAt).map Entry.value

def elapse : Keys κ ν := { s with now := s.now + d }

/-- What the key holds until `deadline`, unless a command changes it. -/
def LastsUntil (deadline : ℕ) : Prop :=
  ∃ e, s.entry k = some e ∧ e.value = v ∧ deadline ≤ e.expiresAt

section

variable {s k v d}

theorem get_eq_some_iff :
    s.get k = some v ↔ ∃ e, s.entry k = some e ∧ e.value = v ∧ s.now < e.expiresAt := by
  simp only [get, Option.map_eq_some_iff, Option.filter_eq_some_iff, decide_eq_true_eq]
  constructor
  · rintro ⟨e, ⟨he, hlt⟩, rfl⟩
    exact ⟨e, he, rfl, hlt⟩
  · rintro ⟨e, he, rfl, hlt⟩
    exact ⟨e, ⟨he, hlt⟩, rfl⟩

/-- Time takes keys away and adds none. -/
theorem get_of_elapse (h : (s.elapse d).get k = some v) : s.get k = some v := by
  obtain ⟨e, he, hv, hlt⟩ := get_eq_some_iff.mp h
  exact get_eq_some_iff.mpr ⟨e, he, hv, Nat.lt_of_le_of_lt (Nat.le_add_right _ _) hlt⟩

theorem get_elapse_of_isSome (h : ((s.elapse d).get k).isSome) :
    (s.elapse d).get k = s.get k := by
  obtain ⟨v, hv⟩ := Option.isSome_iff_exists.mp h
  rw [hv, get_of_elapse hv]

theorem LastsUntil.get {deadline : ℕ} (h : s.LastsUntil k v deadline) (hlt : s.now < deadline) :
    s.get k = some v := by
  obtain ⟨e, he, hv, hle⟩ := h
  exact get_eq_some_iff.mpr ⟨e, he, hv, Nat.lt_of_lt_of_le hlt hle⟩

end

variable [DecidableEq κ]

def set : Keys κ ν := { s with entry := Function.update s.entry k (some ⟨v, s.now + ttl⟩) }

/-- SET with the NX option: whether the key was free. -/
def setNx : Keys κ ν × Bool := if (s.get k).isSome then (s, false) else (s.set k v ttl, true)

def delete : Keys κ ν := { s with entry := Function.update s.entry k none }

variable {s k v ttl d} {j : κ}

theorem get_set_self (h : 0 < ttl) : (s.set k v ttl).get k = some v :=
  get_eq_some_iff.mpr ⟨_, Function.update_self _ _ _, rfl, Nat.lt_add_of_pos_right h⟩

theorem lastsUntil_set {deadline : ℕ} (h : deadline ≤ s.now + ttl) :
    (s.set k v ttl).LastsUntil k v deadline := ⟨_, Function.update_self _ _ _, rfl, h⟩

theorem get_set_of_ne (h : j ≠ k) : (s.set k v ttl).get j = s.get j := by
  unfold get set
  simp only [Function.update_of_ne h]

theorem get_delete_of_ne (h : j ≠ k) : (s.delete k).get j = s.get j := by
  unfold get delete
  simp only [Function.update_of_ne h]

theorem setNx_of_true (h : (s.setNx k v ttl).2 = true) :
    (s.setNx k v ttl).1 = s.set k v ttl := by
  unfold setNx at h ⊢
  split
  · rename_i hk
    rw [if_pos hk] at h
    cases h
  · rfl

/-- A key that is there is not set. -/
theorem get_setNx_of_get {u : ν} (h : s.get j = some u) :
    (s.setNx k v ttl).1.get j = some u := by
  unfold setNx
  split
  · exact h
  · rename_i hk
    have hne : j ≠ k := by
      rintro rfl
      simp [h] at hk
    rw [get_set_of_ne hne, h]

end Keys

end Fakery.Redis
