import Fakery.Concurrent.Machine

/-! A machine with a history beside its state, which its calls write and do not read. -/
namespace Fakery.Concurrent.Machine

variable {ι : Type} {ρ : ι → Type} {κ σ χ η τ : Type}

/-- `observe` adds a call to the history, or answers `none` for an outcome that the history rules
out. -/
def observed (M : Machine ι ρ κ σ χ η) (observe : ℕ → ι → χ → σ → τ → Option τ) :
    Machine ι ρ κ (σ × τ) χ η where
  prog := M.prog
  begin t k s := (M.begin t k s.1).map fun s' => (s', s.2)
  exec t i c s :=
    (M.exec t i c s.1).bind fun r => (observe t i c s.1 s.2).map fun h => ((r.1, h), r.2)
  kill t s := (M.kill t s.1, s.2)
  env e s := (M.env e s.1).map fun s' => (s', s.2)

variable {M : Machine ι ρ κ σ χ η} {observe : ℕ → ι → χ → σ → τ → Option τ}

theorem exec_observed {t : ℕ} {i : ι} {c : χ} {s s' : σ × τ} {r : ρ i}
    (h : (M.observed observe).exec t i c s = some (s', r)) :
    M.exec t i c s.1 = some (s'.1, r) ∧ observe t i c s.1 s.2 = some s'.2 := by
  obtain ⟨x, hx, h⟩ := Option.bind_eq_some_iff.mp h
  obtain ⟨g, hg, h⟩ := Option.map_eq_some_iff.mp h
  obtain ⟨rfl, rfl⟩ := Prod.mk.inj h
  exact ⟨hx, hg⟩

end Fakery.Concurrent.Machine
