import Fakery.Concurrent.Machine

/-! Thread-modular proofs. A protocol gives a shared invariant and, for each thread, what the
others may do between two of its calls; each program is then verified alone. -/
namespace Fakery.Concurrent

variable {ι : Type} {ρ : ι → Type} {κ σ χ η ε α β : Type} {M : Machine ι ρ κ σ χ η}

/-- `rely t` bounds what happens between two calls of thread `t`, `idle t` holds until `t` starts
and `final t` once it has ended. `effect t` is what a development wants to know of every step of
`t` besides. -/
structure Protocol (M : Machine ι ρ κ σ χ η) where
  cond : M.Condition := M.free
  inv : σ → Prop
  rely : ℕ → σ → σ → Prop
  idle : ℕ → σ → Prop := fun _ _ => True
  final : ℕ → σ → Prop := fun _ _ => True
  effect : ℕ → σ → σ → Prop := fun _ _ _ => True
  rely_refl : ∀ t s, rely t s s
  rely_trans : ∀ t {a b c}, rely t a b → rely t b c → rely t a c

namespace Protocol

variable (P : Protocol M)

structure Allowed (t : ℕ) (s s' : σ) : Prop where
  inv : P.inv s'
  others : ∀ u, u ≠ t → P.rely u s s'
  effect : P.effect t s s'

/-- `p`, run by thread `t` of kind `k` from `s` on, makes allowed steps only and ends in `Q`. -/
def wp (t : ℕ) (k : κ) : Prog ι ρ α → (α → σ → Prop) → σ → Prop
  | .done a, Q, s => Q a s
  | .call i f, Q, s => ∀ s₁, P.rely t s s₁ → P.inv s₁ → P.cond.call t k i s₁ →
      ∀ c s₂ r, M.exec t i c s₁ = some (s₂, r) → P.Allowed t s₁ s₂ ∧ wp t k (f r) Q s₂

variable {P} {t : ℕ} {k : κ} {s s' : σ} {p : Prog ι ρ α} {Q Q' : α → σ → Prop}

@[simp] theorem wp_done (a : α) : P.wp t k (.done a) Q s ↔ Q a s := Iff.rfl

theorem wp_mono (h : P.wp t k p Q s) (hq : ∀ a s, Q a s → Q' a s) : P.wp t k p Q' s := by
  induction p generalizing s with
  | done a => exact hq a s h
  | call i f ih =>
    intro s₁ hr hi hc c s₂ r he
    obtain ⟨ha, hn⟩ := h s₁ hr hi hc c s₂ r he
    exact ⟨ha, ih r hn⟩

theorem wp_bind {f : α → Prog ι ρ β} {Q : β → σ → Prop} :
    P.wp t k (p >>= f) Q s ↔ P.wp t k p (fun a s => P.wp t k (f a) Q s) s := by
  induction p generalizing s with
  | done a => rfl
  | call i g ih =>
    simp only [Prog.call_bind, wp]
    exact forall_congr' fun s₁ => forall_congr' fun _ => forall_congr' fun _ =>
      forall_congr' fun _ => forall_congr' fun _ => forall_congr' fun s₂ =>
      forall_congr' fun r => forall_congr' fun _ => and_congr_right' (ih r)

/-- What holds for a thread keeps holding while the others step. -/
theorem wp_rely (hQ : ∀ a s s', P.rely t s s' → Q a s → Q a s') (h : P.wp t k p Q s)
    (hr : P.rely t s s') : P.wp t k p Q s' := by
  cases p with
  | done a => exact hQ a s s' hr h
  | call i f => exact fun s₁ hr' => h s₁ (P.rely_trans t hr hr')

/-- The frame rule: an assertion that neither the other threads nor the calls of `p` break. -/
theorem wp_frame {U : ι → Prop} {A : σ → Prop} (hp : p.Uses U) (h : A s)
    (stable : ∀ s s', P.rely t s s' → P.inv s' → A s → A s')
    (kept : ∀ i c s s' r, U i → P.inv s → P.cond.call t k i s → A s →
      M.exec t i c s = some (s', r) → P.Allowed t s s' ∧ A s') :
    P.wp t k p (fun _ => A) s := by
  induction p generalizing s with
  | done a => exact h
  | call i f ih =>
    intro s₁ hr hi hc c s₂ r he
    obtain ⟨ha, hA⟩ := kept i c s₁ s₂ r hp.1 hi hc (stable s s₁ hr hi h) he
    exact ⟨ha, ih r (hp.2 r) hA⟩

/-- A program ends with a value that it returns. -/
theorem wp_returns {V : α → Prop} (hp : p.Returns V) (h : P.wp t k p Q s) :
    P.wp t k p (fun a s => V a ∧ Q a s) s := by
  induction p generalizing s with
  | done a => exact ⟨hp, h⟩
  | call i f ih =>
    intro s₁ hr hi hc c s₂ r he
    obtain ⟨ha, hn⟩ := h s₁ hr hi hc c s₂ r he
    exact ⟨ha, ih r (hp r) hn⟩

/-- `p` makes allowed steps only and hands `A` on. -/
def Keeps (P : Protocol M) (t : ℕ) (k : κ) (A : σ → Prop) (p : Prog ι ρ α) : Prop :=
  ∀ s, A s → P.wp t k p (fun _ => A) s

theorem Keeps.bind {A : σ → Prop} {f : α → Prog ι ρ β} (hp : P.Keeps t k A p)
    (hf : ∀ a, P.Keeps t k A (f a)) : P.Keeps t k A (p >>= f) :=
  fun s hs => wp_bind.mpr (wp_mono (hp s hs) fun a s' => hf a s')

section tasks

variable {x : Task ι ρ ε α} {R : Except ε α → σ → Prop}

theorem wp_pure (a : α) : P.wp t k (pure a : Task ι ρ ε α).run R s ↔ R (.ok a) s := Iff.rfl

theorem wp_throw (e : ε) : P.wp t k (throw e : Task ι ρ ε α).run R s ↔ R (.error e) s := Iff.rfl

theorem wp_task_bind {f : α → Task ι ρ ε β} {R : Except ε β → σ → Prop} :
    P.wp t k (x >>= f).run R s ↔ P.wp t k x.run (fun r s => match r with
      | .ok a => P.wp t k (f a).run R s
      | .error e => R (.error e) s) s := by
  rw [ExceptT.run_bind, wp_bind]
  constructor <;> intro h <;> refine wp_mono h fun r s hr => ?_ <;> cases r <;> exact hr

theorem wp_perform (i : ι) {R : Except ε (ρ i) → σ → Prop} :
    P.wp t k (Task.perform (ε := ε) i).run R s ↔
      P.wp t k (Prog.ask i) (fun r s => R (.ok r) s) s := Iff.rfl

theorem wp_perform_bind (i : ι) {f : ρ i → Task ι ρ ε β} {R : Except ε β → σ → Prop} :
    P.wp t k (Task.perform i >>= f).run R s ↔
      P.wp t k (Prog.ask i) (fun r s => P.wp t k (f r).run R s) s := by
  rw [wp_task_bind, wp_perform]

theorem wp_ask (i : ι) {Q : ρ i → σ → Prop} : P.wp t k (Prog.ask i) Q s ↔
    ∀ s₁, P.rely t s s₁ → P.inv s₁ → P.cond.call t k i s₁ →
      ∀ c s₂ r, M.exec t i c s₁ = some (s₂, r) → P.Allowed t s₁ s₂ ∧ Q r s₂ := Iff.rfl

theorem Keeps.task_bind {A : σ → Prop} {f : α → Task ι ρ ε β} (hx : P.Keeps t k A x.run)
    (hf : ∀ a, P.Keeps t k A (f a).run) : P.Keeps t k A (x >>= f).run := by
  refine fun s hs => wp_task_bind.mpr (wp_mono (hx s hs) fun r s' hs' => ?_)
  cases r with
  | ok a => exact hf a s' hs'
  | error e => exact hs'

theorem wp_except {h : ε → Task ι ρ ε α} :
    P.wp t k (x.except h).run R s ↔ P.wp t k x.run (fun r s => match r with
      | .ok a => R (.ok a) s
      | .error e => P.wp t k (h e).run R s) s := by
  refine wp_bind.trans ?_
  constructor <;> intro h <;> refine wp_mono h fun r s hr => ?_ <;> cases r <;> exact hr

theorem wp_rescue {x : Task ι ρ (Task.Raised ε) α} {h : ε → Task ι ρ (Task.Raised ε) α}
    {R : Except (Task.Raised ε) α → σ → Prop} :
    P.wp t k (x.rescue h).run R s ↔ P.wp t k x.run (fun r s => match r with
      | .ok a => R (.ok a) s
      | .error (.exception e) => P.wp t k (h e).run R s
      | .error .cancelled => R (.error .cancelled) s) s := by
  refine wp_except.trans ?_
  constructor <;> intro h <;> refine wp_mono h fun r s hr => ?_
  · match r with
    | .ok _ | .error (.exception _) | .error .cancelled => exact hr
  · match r with
    | .ok _ | .error (.exception _) | .error .cancelled => exact hr

theorem wp_ensuring {c : Task ι ρ ε Unit} :
    P.wp t k (x.ensuring c).run R s ↔ P.wp t k x.run (fun r s => P.wp t k c.run
      (fun c s => match c with
        | .ok _ => R r s
        | .error e => R (.error e) s) s) s := by
  refine wp_bind.trans ?_
  constructor <;> intro h <;> refine wp_mono h fun r s hr => ?_
  · refine wp_mono (wp_bind.mp hr) fun c s hc => ?_
    cases c <;> exact hc
  · refine wp_bind.mpr (wp_mono hr fun c s hc => ?_)
    cases c <;> exact hc

end tasks

/-- The obligations of a protocol: each kind of thread is verified on its own. -/
structure Sound (P : Protocol M) : Prop where
  idle : ∀ {t s s'}, P.rely t s s' → P.idle t s → P.idle t s'
  final : ∀ {t s s'}, P.rely t s s' → P.final t s → P.final t s'
  start : ∀ {t k s s'}, P.inv s → P.idle t s → P.cond.start t k s → M.begin t k s = some s' →
    P.Allowed t s s' ∧ P.wp t k (M.prog k) (fun _ => P.final t) s'
  kill : ∀ {t s}, P.inv s → P.cond.kill t s →
    P.Allowed t s (M.kill t s) ∧ P.final t (M.kill t s)
  env : ∀ {e s s'}, P.inv s → P.cond.env e s → M.env e s = some s' →
    P.inv s' ∧ ∀ u, P.rely u s s'

structure Holds (P : Protocol M) (s : M.State) : Prop where
  inv : P.inv s.shared
  idle : ∀ t, s.thread t = none → P.idle t s.shared
  threads : ∀ t k p, s.thread t = some (k, p) → P.wp t k p (fun _ => P.final t) s.shared

theorem holds_init {s : σ} (h : P.inv s) (idle : ∀ t, P.idle t s) : P.Holds (M.init s) :=
  ⟨h, fun t _ => idle t, fun _ _ _ ht => by cases ht⟩

theorem Sound.setThread (hP : P.Sound) {s : M.State} {q : Prog ι ρ Unit} (h : P.Holds s)
    (hi : P.inv s') (others : ∀ u, u ≠ t → P.rely u s.shared s')
    (hq : P.wp t k q (fun _ => P.final t) s') : P.Holds (M.setThread s t k q s') := by
  refine ⟨hi, fun u hu => ?_, fun u l p hu => ?_⟩
  · by_cases hut : u = t
    · subst hut
      simp only [Machine.setThread, Function.update_self] at hu
      cases hu
    · simp only [Machine.setThread, Function.update_of_ne hut] at hu
      exact hP.idle (others u hut) (h.idle u hu)
  · by_cases hut : u = t
    · subst hut
      simp only [Machine.setThread, Function.update_self, Option.some.injEq, Prod.mk.injEq] at hu
      obtain ⟨rfl, rfl⟩ := hu
      exact hq
    · simp only [Machine.setThread, Function.update_of_ne hut] at hu
      exact wp_rely (fun _ _ _ => hP.final) (h.threads u l p hu) (others u hut)

theorem Sound.step (hP : P.Sound) {s s' : M.State} {e : Event κ χ η} (h : P.Holds s)
    (hc : P.cond.Admits s e) (hs : M.step s e = some s') : P.Holds s' := by
  cases Machine.step_cases hs with
  | start fresh hb =>
    obtain ⟨ha, hw⟩ := hP.start h.inv (h.idle _ fresh) hc hb
    exact hP.setThread h ha.inv ha.others hw
  | step at_call he =>
    obtain ⟨ha, hw⟩ := h.threads _ _ _ at_call _ (P.rely_refl _ _) h.inv (hc _ _ _ at_call) _ _ _ he
    exact hP.setThread h ha.inv ha.others hw
  | @kill t k i f at_call =>
    obtain ⟨ha, hf⟩ := hP.kill (t := t) h.inv hc
    exact hP.setThread h ha.inv ha.others hf
  | env he =>
    obtain ⟨hi, hr⟩ := hP.env h.inv hc he
    exact ⟨hi, fun t ht => hP.idle (hr t) (h.idle t ht),
      fun t k p ht => wp_rely (fun _ _ _ => hP.final) (h.threads t k p ht) (hr t)⟩

/-- Along every run whose steps meet the condition, the invariant holds. -/
theorem Sound.run (hP : P.Sound) {s s' : M.State} {es : List (Event κ χ η)} (h : P.Holds s)
    (hc : P.cond.Meets s es) (hr : M.run s es = some s') : P.Holds s' := by
  induction es generalizing s with
  | nil =>
    cases Option.some.inj hr
    exact h
  | cons e es ih =>
    obtain ⟨u, hu, hr⟩ := Option.bind_eq_some_iff.mp hr
    exact ih (hP.step h hc.1 hu) (hc.2 u hu) hr

/-- What every step does, a run does. -/
theorem Sound.run_relates (hP : P.Sound) {G : σ → σ → Prop} {s s' : M.State}
    {es : List (Event κ χ η)} (refl : ∀ s, G s s) (trans : ∀ {a b c}, G a b → G b c → G a c)
    (effect : ∀ {t s s'}, P.effect t s s' → G s s')
    (env : ∀ {s s'}, (∀ u, P.rely u s s') → G s s') (h : P.Holds s) (hc : P.cond.Meets s es)
    (hr : M.run s es = some s') : G s.shared s'.shared := by
  induction es generalizing s with
  | nil =>
    cases Option.some.inj hr
    exact refl _
  | cons e es ih =>
    obtain ⟨u, hu, hr⟩ := Option.bind_eq_some_iff.mp hr
    refine trans ?_ (ih (hP.step h hc.1 hu) (hc.2 u hu) hr)
    have hadmits := hc.1
    cases Machine.step_cases hu with
    | start fresh hb => exact effect (hP.start h.inv (h.idle _ fresh) hadmits hb).1.effect
    | @step t c k i f s' r at_call he =>
      exact effect (h.threads _ _ _ at_call _ (P.rely_refl _ _) h.inv (hadmits _ _ _ at_call) _ _ _
        he).1.effect
    | @kill t k i f at_call => exact effect (hP.kill (t := t) h.inv hadmits).1.effect
    | env he => exact env (hP.env h.inv hadmits he).2

/-- When no thread is left, each one has ended as it should. -/
theorem Holds.final {s : M.State} {t : ℕ} (h : P.Holds s) (hq : M.Quiescent s)
    (idle : ∀ t, P.idle t s.shared → P.final t s.shared) : P.final t s.shared := by
  cases ht : s.thread t with
  | none => exact idle t (h.idle t ht)
  | some x =>
    have hw := h.threads t x.1 x.2 ht
    rw [hq t x.1 x.2 ht] at hw
    exact hw

/-- The effect of a single call, at any state that a run reaches. -/
theorem Holds.effect {s s' : M.State} {c : χ} (h : P.Holds s)
    (hc : P.cond.Admits s (.step t c)) (hs : M.step s (.step t c) = some s') :
    P.effect t s.shared s'.shared := by
  cases Machine.step_cases hs with
  | step at_call he =>
    exact (h.threads _ _ _ at_call _ (P.rely_refl _ _) h.inv (hc _ _ _ at_call) _ _ _ he).1.effect

end Protocol

end Fakery.Concurrent
