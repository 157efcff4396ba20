import Fakery.Concurrent.RelyGuarantee

/-! Programs that are embedded into a machine with more instructions are verified as they are. -/
namespace Fakery.Concurrent

variable {ι ι' : Type} {ρ : ι → Type} {ρ' : ι' → Type} {κ σ χ η α : Type}

/-- The machine, as far as the instructions of an embedded program go. -/
def Machine.along (M : Machine ι' ρ' κ σ χ η) (f : ι → ι') (g : ∀ i, ρ' (f i) → ρ i) :
    Machine ι ρ κ σ χ η where
  prog _ := .done ()
  begin := M.begin
  exec t i c s := (M.exec t (f i) c s).map fun r => (r.1, g i r.2)
  kill := M.kill
  env := M.env

namespace Protocol

variable {M : Machine ι' ρ' κ σ χ η} (P : Protocol M) (f : ι → ι') (g : ∀ i, ρ' (f i) → ρ i)

def along : Protocol (M.along f g) where
  cond := { call := fun t k i => P.cond.call t k (f i) }
  inv := P.inv
  rely := P.rely
  idle := P.idle
  final := P.final
  effect := P.effect
  rely_refl := P.rely_refl
  rely_trans := P.rely_trans

variable {P f g} {t : ℕ} {k : κ} {s s' : σ}

theorem allowed_along : (P.along f g).Allowed t s s' ↔ P.Allowed t s s' :=
  ⟨fun h => ⟨h.inv, h.others, h.effect⟩, fun h => ⟨h.inv, h.others, h.effect⟩⟩

theorem wp_embed {p : Prog ι ρ α} {Q : α → σ → Prop}
    (h : (P.along f g).wp t k p Q s) : P.wp t k (p.embed f g) Q s := by
  induction p generalizing s with
  | done a => exact h
  | call i q ih =>
    intro s₁ hr hi hc c s₂ r he
    have hexec : (M.along f g).exec t i c s₁ = some (s₂, g i r) := by
      simp only [Machine.along, he, Option.map_some]
    obtain ⟨hallowed, hrest⟩ := h s₁ hr hi hc c s₂ (g i r) hexec
    exact ⟨allowed_along.mp hallowed, ih (g i r) hrest⟩

end Protocol

end Fakery.Concurrent
