import Fakery.Sequential.Fallible

/-! One program that may raise beside another one, over states that are related. -/
namespace Fakery.Sequential.Fallible

variable {σ τ ε α β : Type} {R : σ → τ → Prop} {x : Fallible σ ε α} {y : Fallible τ ε α}

/-- From related states the programs give the same answer and leave related states. -/
def Matches (R : σ → τ → Prop) (x : Fallible σ ε α) (y : Fallible τ ε α) : Prop :=
  ∀ s t, R s t → (y t).1 = (x s).1 ∧ R (x s).2 (y t).2

theorem Matches.pure (a : α) :
    Matches R (pure a : Fallible σ ε α) (pure a : Fallible τ ε α) := fun _ _ h => ⟨rfl, h⟩

theorem Matches.raise (e : ε) : Matches R (raise e : Fallible σ ε α) (raise e : Fallible τ ε α) :=
  fun _ _ h => ⟨rfl, h⟩

theorem Matches.update {f : σ → σ} {g : τ → τ} (h : ∀ s t, R s t → R (f s) (g t)) :
    Matches R (update f : Fallible σ ε Unit) (update g : Fallible τ ε Unit) :=
  fun s t hst => ⟨rfl, h s t hst⟩

theorem Matches.bind {f : α → Fallible σ ε β} {g : α → Fallible τ ε β} (h : Matches R x y)
    (hf : ∀ a, Matches R (f a) (g a)) : Matches R (x >>= f) (y >>= g) := by
  intro s t hst
  obtain ⟨hanswer, hstate⟩ := h s t hst
  cases hx : x s with
  | mk r s' =>
    cases hy : y t with
    | mk q t' =>
      rw [hx, hy] at hanswer hstate
      dsimp only at hanswer hstate
      subst hanswer
      cases q with
      | ok a =>
        rw [bind_ok hx, bind_ok hy]
        exact hf a s' t' hstate
      | error e =>
        rw [bind_error hx, bind_error hy]
        exact ⟨rfl, hstate⟩

theorem Matches.except {f : ε → Fallible σ ε α} {g : ε → Fallible τ ε α} (h : Matches R x y)
    (hf : ∀ e, Matches R (f e) (g e)) : Matches R (x.except f) (y.except g) := by
  intro s t hst
  obtain ⟨hanswer, hstate⟩ := h s t hst
  unfold Fallible.except
  cases hx : x s with
  | mk r s' =>
    cases hy : y t with
    | mk q t' =>
      rw [hx, hy] at hanswer hstate
      dsimp only at hanswer hstate
      subst hanswer
      cases q with
      | ok a => exact ⟨rfl, hstate⟩
      | error e => exact hf e s' t' hstate

theorem Matches.ite {p q : Prop} [Decidable p] [Decidable q] {x' : Fallible σ ε α}
    {y' : Fallible τ ε α} (hpq : p ↔ q) (h : Matches R x y) (h' : Matches R x' y') :
    Matches R (if p then x else x') (if q then y else y') := by
  by_cases hp : p
  · rwa [if_pos hp, if_pos (hpq.mp hp)]
  · rwa [if_neg hp, if_neg (mt hpq.mpr hp)]

/-- What is read first may differ. -/
theorem Matches.read {γ δ : Type} {f : σ → γ} {g : τ → δ} {k : γ → Fallible σ ε α}
    {l : δ → Fallible τ ε α} (h : ∀ s t, R s t → Matches R (k (f s)) (l (g t))) :
    Matches R (Fallible.read f >>= k) (Fallible.read g >>= l) :=
  fun s t hst => h s t hst s t hst

end Fakery.Sequential.Fallible
