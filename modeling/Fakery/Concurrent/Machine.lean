import Fakery.Concurrent.Prog

/-! Machines: threads that interleave at every call, threads that are killed between
two calls, and steps of the environment. -/
namespace Fakery.Concurrent

/-- `κ` names the kinds of threads, `χ` the outcomes the environment picks for a call, and `η`
the steps of the environment. `none` is a call that blocks or an outcome that cannot occur. -/
structure Machine (ι : Type) (ρ : ι → Type) (κ σ χ η : Type) where
  prog : κ → Prog ι ρ Unit
  begin : ℕ → κ → σ → Option σ
  exec : ℕ → (i : ι) → χ → σ → Option (σ × ρ i)
  kill : ℕ → σ → σ
  env : η → σ → Option σ

inductive Event (κ χ η : Type) where
  | start (t : ℕ) (k : κ)
  | step (t : ℕ) (c : χ)
  | kill (t : ℕ)
  | env (e : η)

variable {ι : Type} {ρ : ι → Type} {κ σ χ η : Type}

namespace Machine

structure State (M : Machine ι ρ κ σ χ η) where
  shared : σ
  thread : ℕ → Option (κ × Prog ι ρ Unit)

variable (M : Machine ι ρ κ σ χ η)

def init (s : σ) : M.State := ⟨s, fun _ => none⟩

def setThread (s : M.State) (t : ℕ) (k : κ) (p : Prog ι ρ Unit) (shared : σ) : M.State :=
  ⟨shared, Function.update s.thread t (some (k, p))⟩

/-- Thread numbers are never used twice: a finished or killed thread keeps its slot. -/
def step (s : M.State) : Event κ χ η → Option M.State
  | .start t k =>
    match s.thread t with
    | none => (M.begin t k s.shared).map fun s' => M.setThread s t k (M.prog k) s'
    | some _ => none
  | .step t c =>
    match s.thread t with
    | some (k, .call i f) =>
      (M.exec t i c s.shared).map fun r => M.setThread s t k (f r.2) r.1
    | _ => none
  | .kill t =>
    match s.thread t with
    | some (k, .call _ _) => some (M.setThread s t k (.done ()) (M.kill t s.shared))
    | _ => none
  | .env e => (M.env e s.shared).map fun s' => ⟨s', s.thread⟩

def run (s : M.State) : List (Event κ χ η) → Option M.State
  | [] => some s
  | e :: es => (M.step s e).bind fun s' => run s' es

theorem run_append (s : M.State) (es fs : List (Event κ χ η)) :
    M.run s (es ++ fs) = (M.run s es).bind fun s' => M.run s' fs := by
  induction es generalizing s with
  | nil => rfl
  | cons e es ih =>
    simp only [List.cons_append, run]
    cases M.step s e with
    | none => rfl
    | some s' => exact ih s'

/-- Every thread has finished or was killed. -/
def Quiescent (s : M.State) : Prop := ∀ t k p, s.thread t = some (k, p) → p = .done ()

/-- What each step of a run is asked to meet, read off the state before the step. -/
structure Condition (M : Machine ι ρ κ σ χ η) where
  start : ℕ → κ → σ → Prop := fun _ _ _ => True
  call : ℕ → κ → ι → σ → Prop := fun _ _ _ _ => True
  kill : ℕ → σ → Prop := fun _ _ => True
  env : η → σ → Prop := fun _ _ => True

variable {M}

def Condition.Admits (C : M.Condition) (s : M.State) : Event κ χ η → Prop
  | .start t k => C.start t k s.shared
  | .step t _ => ∀ k i f, s.thread t = some (k, .call i f) → C.call t k i s.shared
  | .kill t => C.kill t s.shared
  | .env e => C.env e s.shared

def Condition.Meets (C : M.Condition) (s : M.State) : List (Event κ χ η) → Prop
  | [] => True
  | e :: es => C.Admits s e ∧ ∀ s', M.step s e = some s' → C.Meets s' es

section decidable

variable (C : M.Condition) [∀ t k s, Decidable (C.start t k s)]
  [∀ t k i s, Decidable (C.call t k i s)] [∀ t s, Decidable (C.kill t s)]
  [∀ e s, Decidable (C.env e s)]

instance (s : M.State) : (e : Event κ χ η) → Decidable (C.Admits s e)
  | .start t k => inferInstanceAs (Decidable (C.start t k s.shared))
  | .step t _ =>
    match h : s.thread t with
    | some (k, .call i _) =>
      decidable_of_iff (C.call t k i s.shared)
        ⟨fun hc _ _ _ h' => by cases h.symm.trans h'; exact hc, fun hc => hc k i _ h⟩
    | some (_, .done _) => isTrue fun _ _ _ h' => by cases h.symm.trans h'
    | none => isTrue fun _ _ _ h' => by cases h.symm.trans h'
  | .kill t => inferInstanceAs (Decidable (C.kill t s.shared))
  | .env e => inferInstanceAs (Decidable (C.env e s.shared))

instance decidableMeets (s : M.State) : (es : List (Event κ χ η)) → Decidable (C.Meets s es)
  | [] => isTrue trivial
  | e :: es =>
    match h : M.step s e with
    | none => decidable_of_iff (C.Admits s e)
        ⟨fun ha => ⟨ha, fun _ h' => by cases h.symm.trans h'⟩, And.left⟩
    | some s' =>
      have := decidableMeets s' es
      decidable_of_iff (C.Admits s e ∧ C.Meets s' es)
        ⟨fun ha => ⟨ha.1, fun _ h' => by cases h.symm.trans h'; exact ha.2⟩,
          fun ha => ⟨ha.1, ha.2 s' h⟩⟩

end decidable

/-- The condition that every step meets. -/
def free (M : Machine ι ρ κ σ χ η) : M.Condition := {}

theorem free_meets (s : M.State) (es : List (Event κ χ η)) : M.free.Meets s es := by
  induction es generalizing s with
  | nil => trivial
  | cons e es ih =>
    refine ⟨?_, fun s' _ => ih s'⟩
    cases e with
    | start t k => trivial
    | step t c => exact fun _ _ _ _ => trivial
    | kill t => trivial
    | env e => trivial

theorem Condition.Meets.of_append {C : M.Condition} {s s' : M.State} {es fs : List (Event κ χ η)}
    (h : C.Meets s (es ++ fs)) (hr : M.run s es = some s') : C.Meets s es ∧ C.Meets s' fs := by
  induction es generalizing s with
  | nil =>
    cases Option.some.inj hr
    exact ⟨trivial, h⟩
  | cons e es ih =>
    obtain ⟨ha, hn⟩ := h
    obtain ⟨u, hu, hr⟩ := Option.bind_eq_some_iff.mp hr
    refine ⟨⟨ha, fun v hv => ?_⟩, (ih (hn u hu) hr).2⟩
    cases hu.symm.trans hv
    exact (ih (hn u hu) hr).1

/-- What a step can be, whatever the machine. -/
inductive Stepped (M : Machine ι ρ κ σ χ η) (s : M.State) : Event κ χ η → M.State → Prop where
  | start {t k s'} (fresh : s.thread t = none) (hb : M.begin t k s.shared = some s') :
      Stepped M s (.start t k) (M.setThread s t k (M.prog k) s')
  | step {t c k i f s' r} (at_call : s.thread t = some (k, .call i f))
      (he : M.exec t i c s.shared = some (s', r)) :
      Stepped M s (.step t c) (M.setThread s t k (f r) s')
  | kill {t k i f} (at_call : s.thread t = some (k, .call i f)) :
      Stepped M s (.kill t) (M.setThread s t k (.done ()) (M.kill t s.shared))
  | env {e s'} (he : M.env e s.shared = some s') : Stepped M s (.env e) ⟨s', s.thread⟩

theorem step_cases {s s' : M.State} {e : Event κ χ η} (h : M.step s e = some s') :
    M.Stepped s e s' := by
  cases e with
  | start t k =>
    simp only [step] at h
    split at h
    · rename_i hf
      obtain ⟨u, hu, rfl⟩ := Option.map_eq_some_iff.mp h
      exact .start hf hu
    · cases h
  | step t c =>
    simp only [step] at h
    split at h
    · rename_i k i f hc
      obtain ⟨⟨u, r⟩, hu, rfl⟩ := Option.map_eq_some_iff.mp h
      exact .step hc hu
    · cases h
  | kill t =>
    simp only [step] at h
    split at h
    · rename_i k i f hc
      cases Option.some.inj h
      exact .kill hc
    · cases h
  | env e =>
    obtain ⟨u, hu, rfl⟩ := Option.map_eq_some_iff.mp h
    exact .env hu

/-- The thread that an event starts. -/
def started : Event κ χ η → Option ℕ
  | .start t _ => some t
  | _ => none

/-- Only the threads that a run starts take part in it. -/
theorem thread_of_run {s s' : M.State} {es : List (Event κ χ η)} {t : ℕ}
    (hr : M.run s es = some s') (ht : t ∉ es.filterMap started) (h : s.thread t = none) :
    s'.thread t = none := by
  induction es generalizing s with
  | nil =>
    cases Option.some.inj hr
    exact h
  | cons e es ih =>
    obtain ⟨u, hu, hr⟩ := Option.bind_eq_some_iff.mp hr
    have htail : t ∉ es.filterMap started := by
      intro hmem
      cases he : started e with
      | none => exact ht (by rwa [List.filterMap_cons_none he])
      | some v => exact ht (by rw [List.filterMap_cons_some he]; exact List.mem_cons_of_mem _ hmem)
    refine ih hr htail ?_
    cases step_cases hu with
    | @start v k s' fresh hb =>
      have hne : t ≠ v := by
        rintro rfl
        exact ht (List.mem_cons_self)
      simp only [setThread, Function.update_of_ne hne]
      exact h
    | @step v c k i f s' r at_call he =>
      have hne : t ≠ v := by
        rintro rfl
        cases h.symm.trans at_call
      simp only [setThread, Function.update_of_ne hne]
      exact h
    | @kill v k i f at_call =>
      have hne : t ≠ v := by
        rintro rfl
        cases h.symm.trans at_call
      simp only [setThread, Function.update_of_ne hne]
      exact h
    | env he => exact h

def State.ended (s : M.State) (t : ℕ) : Bool :=
  match s.thread t with
  | some (_, .call _ _) => false
  | _ => true

theorem quiescent_of_ended {s : σ} {s' : M.State} {es : List (Event κ χ η)}
    (hr : M.run (M.init s) es = some s') (h : ∀ t ∈ es.filterMap started, s'.ended t = true) :
    M.Quiescent s' := by
  intro t k p hp
  cases p with
  | done a => rfl
  | call i f =>
    by_cases ht : t ∈ es.filterMap started
    · have he := h t ht
      rw [State.ended, hp] at he
      cases he
    · cases (thread_of_run hr ht rfl).symm.trans hp

end Machine

/-- A call that has its effect or raises, and that may raise once it has had its effect. -/
theorem raised_cases {ε α : Type} {s s' : σ} {x : σ × Except ε α} {r : Except ε α}
    (raised : Option (ε × Bool))
    (h : (match raised with
      | none => some x
      | some (e, reached) => some (if reached then x.1 else s, .error e)) = some (s', r)) :
    (s' = s ∧ ∃ e, r = .error e) ∨ s' = x.1 ∧ (r = x.2 ∨ ∃ e, r = .error e) := by
  cases raised with
  | none =>
    cases Option.some.inj h
    exact Or.inr ⟨rfl, Or.inl rfl⟩
  | some raised =>
    obtain ⟨e, reached⟩ := raised
    obtain ⟨rfl, rfl⟩ := Prod.mk.inj (Option.some.inj h)
    cases reached with
    | true => exact Or.inr ⟨rfl, Or.inr ⟨e, rfl⟩⟩
    | false => exact Or.inl ⟨rfl, e, rfl⟩

end Fakery.Concurrent
