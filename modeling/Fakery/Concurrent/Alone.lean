import Fakery.Concurrent.RelyGuarantee

/-! A program that runs to its end while nothing else takes a step. -/
namespace Fakery.Concurrent

variable {ι : Type} {ρ : ι → Type} {κ σ χ η α β : Type}

namespace Machine

variable (M : Machine ι ρ κ σ χ η) (t : ℕ) (allows : ι → χ → Prop)

/-- Every call of the thread ends with an outcome that is allowed for it. -/
inductive Alone : Prog ι ρ α → σ → σ → α → Prop
  | done (a : α) (s : σ) : Alone (.done a) s s a
  | call {i : ι} {k : ρ i → Prog ι ρ α} {c : χ} {s s' s'' : σ} {r : ρ i} {a : α}
      (hc : allows i c) (he : M.exec t i c s = some (s', r)) (h : Alone (k r) s' s'' a) :
      Alone (.call i k) s s'' a

/-- The same with the outcomes given. -/
def alone (outcomes : ι → χ) : Prog ι ρ α → σ → Option (σ × α)
  | .done a, s => some (s, a)
  | .call i k, s => (M.exec t i (outcomes i) s).bind fun r => alone outcomes (k r.2) r.1

variable {M t allows} {s s' : σ} {a : α} {b : β}

theorem Alone.of_alone {outcomes : ι → χ} {p : Prog ι ρ α} (hc : ∀ i, allows i (outcomes i))
    (h : M.alone t outcomes p s = some (s', a)) : M.Alone t allows p s s' a := by
  induction p generalizing s with
  | done b =>
    cases Option.some.inj h
    exact .done _ _
  | call i k ih =>
    obtain ⟨⟨s₁, r⟩, he, hr⟩ := Option.bind_eq_some_iff.mp h
    exact .call (hc i) he (ih r hr)

@[simp] theorem alone_done {b : α} : M.Alone t allows (.done b) s s' a ↔ s' = s ∧ a = b := by
  constructor
  · intro h
    cases h
    exact ⟨rfl, rfl⟩
  · rintro ⟨rfl, rfl⟩
    exact .done _ _

theorem alone_call {i : ι} {k : ρ i → Prog ι ρ α} : M.Alone t allows (.call i k) s s' a ↔
    ∃ c s₁ r, allows i c ∧ M.exec t i c s = some (s₁, r) ∧ M.Alone t allows (k r) s₁ s' a := by
  constructor
  · intro h
    cases h with
    | call hc he h => exact ⟨_, _, _, hc, he, h⟩
  · rintro ⟨c, s₁, r, hc, he, h⟩
    exact .call hc he h

theorem alone_bind {p : Prog ι ρ α} {f : α → Prog ι ρ β} : M.Alone t allows (p >>= f) s s' b ↔
    ∃ s₁ a, M.Alone t allows p s s₁ a ∧ M.Alone t allows (f a) s₁ s' b := by
  induction p generalizing s with
  | done a =>
    constructor
    · intro h
      exact ⟨s, a, .done a s, h⟩
    · rintro ⟨s₁, a', h, hf⟩
      obtain ⟨rfl, rfl⟩ := alone_done.mp h
      exact hf
  | call i k ih =>
    constructor
    · intro h
      obtain ⟨c, s₁, r, hc, he, hk⟩ := alone_call.mp h
      obtain ⟨s₂, a, hp, hf⟩ := (ih r).mp hk
      exact ⟨s₂, a, .call hc he hp, hf⟩
    · rintro ⟨s₂, a, hp, hf⟩
      obtain ⟨c, s₁, r, hc, he, hk⟩ := alone_call.mp hp
      exact .call hc he ((ih r).mpr ⟨s₂, a, hk, hf⟩)

theorem alone_ask {i : ι} {r : ρ i} : M.Alone t allows (Prog.ask i) s s' r ↔
    ∃ c, allows i c ∧ M.exec t i c s = some (s', r) := by
  constructor
  · intro h
    obtain ⟨c, s₁, r', hc, he, hk⟩ := alone_call.mp h
    obtain ⟨rfl, rfl⟩ := alone_done.mp hk
    exact ⟨c, hc, he⟩
  · rintro ⟨c, hc, he⟩
    exact .call hc he (.done _ _)

section tasks

variable {ε : Type} {r : Except ε β}

theorem alone_task_bind {x : Task ι ρ ε α} {f : α → Task ι ρ ε β} :
    M.Alone t allows (x >>= f).run s s' r ↔ ∃ s₁ q, M.Alone t allows x.run s s₁ q ∧
      match q with
      | .ok a => M.Alone t allows (f a).run s₁ s' r
      | .error e => s' = s₁ ∧ r = .error e := by
  rw [ExceptT.run_bind, alone_bind]
  refine exists_congr fun s₁ => exists_congr fun q => and_congr_right fun _ => ?_
  cases q with
  | ok a => exact Iff.rfl
  | error e => exact alone_done

theorem alone_perform {i : ι} {f : ρ i → Task ι ρ ε β} :
    M.Alone t allows (Task.perform i >>= f).run s s' r ↔ ∃ c s₁ a, allows i c ∧
      M.exec t i c s = some (s₁, a) ∧ M.Alone t allows (f a).run s₁ s' r :=
  alone_call

theorem alone_pure {b : β} :
    M.Alone t allows (pure b : Task ι ρ ε β).run s s' r ↔ s' = s ∧ r = .ok b :=
  alone_done

theorem alone_throw {e : ε} :
    M.Alone t allows (throw e : Task ι ρ ε β).run s s' r ↔ s' = s ∧ r = .error e :=
  alone_done

theorem alone_except {x : Task ι ρ ε β} {h : ε → Task ι ρ ε β} :
    M.Alone t allows (x.except h).run s s' r ↔ ∃ s₁ q, M.Alone t allows x.run s s₁ q ∧
      match q with
      | .ok b => s' = s₁ ∧ r = .ok b
      | .error e => M.Alone t allows (h e).run s₁ s' r := by
  refine alone_bind.trans ?_
  refine exists_congr fun s₁ => exists_congr fun q => and_congr_right fun _ => ?_
  cases q with
  | ok b => exact alone_done
  | error e => exact Iff.rfl

end tasks

end Machine

section verification

variable {M : Machine ι ρ κ σ χ η} {t : ℕ} {k : κ} {allows : ι → χ → Prop} {s s' : σ} {a : α}
  {p : Prog ι ρ α} {Q : α → σ → Prop}

/-- The protocol of a thread that no other one is beside. -/
def Protocol.solo (M : Machine ι ρ κ σ χ η) (t : ℕ) : Protocol M where
  inv _ := True
  rely u s s' := u = t → s' = s
  rely_refl _ _ _ := rfl
  rely_trans _ _ _ _ h h' hu := (h' hu).trans (h hu)

theorem Protocol.wp_solo_ask {i : ι} {Q : ρ i → σ → Prop} :
    (Protocol.solo M t).wp t k (Prog.ask i) Q s ↔
      ∀ c s' r, M.exec t i c s = some (s', r) → Q r s' := by
  constructor
  · intro h c s' r he
    exact (h s (fun _ => rfl) trivial trivial c s' r he).2
  · intro h s₁ hs _ _ c s' r he
    cases hs rfl
    exact ⟨⟨trivial, fun u hu heq => absurd heq hu, trivial⟩, h c s' r he⟩

theorem Protocol.wp_solo_perform_bind {i : ι} {ε : Type} {f : ρ i → Task ι ρ ε β}
    {R : Except ε β → σ → Prop} :
    (Protocol.solo M t).wp t k (Task.perform i >>= f).run R s ↔
      ∀ c s' r, M.exec t i c s = some (s', r) → (Protocol.solo M t).wp t k (f r).run R s' :=
  (Protocol.wp_perform_bind i).trans Protocol.wp_solo_ask

/-- Calls that keep an assertion, one after another. -/
theorem Protocol.wp_solo_uses {U : ι → Prop} {A : σ → Prop} (hp : p.Uses U) (h : A s)
    (kept : ∀ i c s s' r, U i → A s → M.exec t i c s = some (s', r) → A s') :
    (Protocol.solo M t).wp t k p (fun _ => A) s := by
  refine Protocol.wp_frame hp h (fun s s' hr _ hA => ?_) fun i c s s' r hU _ _ hA he => ?_
  · exact (hr rfl).symm ▸ hA
  · exact ⟨⟨trivial, fun u hu heq => absurd heq hu, trivial⟩, kept i c s s' r hU hA he⟩

/-- What is verified of a program holds of its runs. -/
theorem Machine.Alone.of_wp (h : (Protocol.solo M t).wp t k p Q s)
    (hrun : M.Alone t allows p s s' a) : Q a s' := by
  induction hrun with
  | done a s => exact h
  | call hc he hrest ih => exact ih (h _ (fun _ => rfl) trivial trivial _ _ _ he).2

end verification

end Fakery.Concurrent
