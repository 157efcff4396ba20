import Mathlib.Data.Nat.Notation

/-! Code that runs on its own over a state and may raise. What it has done to the state by the time
it raises stays done. -/
namespace Fakery.Sequential

def Fallible (σ ε α : Type) : Type := σ → Except ε α × σ

variable {σ ε α β : Type}

namespace Fallible

instance : Monad (Fallible σ ε) where
  pure a := fun s => (.ok a, s)
  bind x f := fun s => match x s with
    | (.ok a, s') => f a s'
    | (.error e, s') => (.error e, s')

def raise (e : ε) : Fallible σ ε α := fun s => (.error e, s)

def read (f : σ → α) : Fallible σ ε α := fun s => (.ok (f s), s)

def update (f : σ → σ) : Fallible σ ε Unit := fun s => (.ok (), f s)

/-- `try: body` / `except Exception: handler`. -/
def except (body : Fallible σ ε α) (handler : ε → Fallible σ ε α) : Fallible σ ε α := fun s =>
  match body s with
  | (.ok a, s') => (.ok a, s')
  | (.error e, s') => handler e s'

/-- One after another, for each element of a list. -/
def forEach {γ : Type} (f : γ → Fallible σ ε Unit) : List γ → Fallible σ ε Unit
  | [] => pure ()
  | c :: cs => do
    f c
    forEach f cs

variable {x : Fallible σ ε α} {f : α → Fallible σ ε β} {s s' : σ} {a : α} {e : ε}
  {P : σ → Prop} {Q : α → σ → Prop} {S : β → σ → Prop} {R : σ → σ → Prop}

theorem bind_ok (h : x s = (.ok a, s')) : (x >>= f) s = f a s' := by
  show (match x s with
    | (.ok a, s') => f a s'
    | (.error e, s') => (.error e, s')) = f a s'
  rw [h]

theorem bind_error (h : x s = (.error e, s')) : (x >>= f) s = (.error e, s') := by
  show (match x s with
    | (.ok a, s') => f a s'
    | (.error e, s') => (.error e, s')) = (.error e, s')
  rw [h]

/-- From `P` on, `x` does not raise, and ends in `Q`. -/
def Gives (P : σ → Prop) (x : Fallible σ ε α) (Q : α → σ → Prop) : Prop :=
  ∀ s, P s → ∃ a s', x s = (.ok a, s') ∧ Q a s'

theorem Gives.bind (hx : Gives P x Q) (hf : ∀ a, Gives (Q a) (f a) S) : Gives P (x >>= f) S := by
  intro s hs
  obtain ⟨a, s', hxs, hq⟩ := hx s hs
  rw [bind_ok hxs]
  exact hf a s' hq

theorem Gives.pure (h : ∀ s, P s → Q a s) : Gives P (pure a : Fallible σ ε α) Q :=
  fun s hs => ⟨a, s, rfl, h s hs⟩

theorem Gives.update {g : σ → σ} {Q : Unit → σ → Prop} (h : ∀ s, P s → Q () (g s)) :
    Gives P (update g : Fallible σ ε Unit) Q :=
  fun s hs => ⟨(), g s, rfl, h s hs⟩

theorem Gives.forEach {γ : Type} {g : γ → Fallible σ ε Unit}
    (hg : ∀ c, Gives P (g c) fun _ => P) (cs : List γ) : Gives P (forEach g cs) fun _ => P := by
  induction cs with
  | nil => exact .pure fun _ => id
  | cons c cs ih => exact (hg c).bind fun _ => ih

/-- `x` relates the state before to the state after, whether it raises or not. -/
def Leaves (R : σ → σ → Prop) (x : Fallible σ ε α) : Prop := ∀ s, R s (x s).2

theorem Leaves.bind (trans : ∀ {a b c}, R a b → R b c → R a c) (hx : Leaves R x)
    (hf : ∀ a, Leaves R (f a)) : Leaves R (x >>= f) := by
  intro s
  have hfirst := hx s
  cases h : x s with
  | mk r s' =>
    rw [h] at hfirst
    cases r with
    | ok a =>
      rw [bind_ok h]
      exact trans hfirst (hf a s')
    | error e =>
      rw [bind_error h]
      exact hfirst

theorem Leaves.forEach {γ : Type} {g : γ → Fallible σ ε Unit} (refl : ∀ a, R a a)
    (trans : ∀ {a b c}, R a b → R b c → R a c) (hg : ∀ c, Leaves R (g c)) (cs : List γ) :
    Leaves R (forEach g cs) := by
  induction cs with
  | nil => exact fun s => refl s
  | cons c cs ih => exact (hg c).bind trans fun _ => ih

end Fallible

end Fakery.Sequential
