import Mathlib.Data.Nat.Notation
import Mathlib.Logic.Function.Basic

/-! Programs as trees of calls. A call names an instruction and continues with the
answer; what an instruction does to a shared state is the business of a machine. -/
namespace Fakery.Concurrent

inductive Prog (ι : Type) (ρ : ι → Type) (α : Type) : Type where
  | done (a : α) : Prog ι ρ α
  | call (i : ι) (k : ρ i → Prog ι ρ α) : Prog ι ρ α

variable {ι : Type} {ρ : ι → Type} {ε α β γ : Type}

namespace Prog

def bind : Prog ι ρ α → (α → Prog ι ρ β) → Prog ι ρ β
  | done a, f => f a
  | call i k, f => call i fun r => (k r).bind f

instance : Monad (Prog ι ρ) where
  pure := done
  bind := bind

/-- A single call that returns its answer. -/
def ask (i : ι) : Prog ι ρ (ρ i) := call i done

@[simp] theorem pure_eq (a : α) : (pure a : Prog ι ρ α) = done a := rfl

@[simp] theorem done_bind (a : α) (f : α → Prog ι ρ β) : (done a >>= f) = f a := rfl

@[simp] theorem call_bind (i : ι) (k : ρ i → Prog ι ρ α) (f : α → Prog ι ρ β) :
    (call i k >>= f) = call i fun r => k r >>= f := rfl

/-- Every call the program can make satisfies `P`. -/
def Uses (P : ι → Prop) : Prog ι ρ α → Prop
  | done _ => True
  | call i k => P i ∧ ∀ r, (k r).Uses P

theorem Uses.mono {P Q : ι → Prop} {p : Prog ι ρ α} (h : p.Uses P) (hPQ : ∀ i, P i → Q i) :
    p.Uses Q := by
  induction p with
  | done a => trivial
  | call i k ih => exact ⟨hPQ i h.1, fun r => ih r (h.2 r)⟩

theorem Uses.bind {P : ι → Prop} {p : Prog ι ρ α} {f : α → Prog ι ρ β}
    (hp : p.Uses P) (hf : ∀ a, (f a).Uses P) : (p >>= f).Uses P := by
  induction p with
  | done a => exact hf a
  | call i k ih => exact ⟨hp.1, fun r => ih r (hp.2 r)⟩

/-- Whatever its calls answer, the program ends with a value in `Q`. -/
def Returns (Q : α → Prop) : Prog ι ρ α → Prop
  | done a => Q a
  | call _ k => ∀ r, (k r).Returns Q

section embed

variable {ι' : Type} {ρ' : ι' → Type} (f : ι → ι') (g : ∀ i, ρ' (f i) → ρ i)

/-- The same program among more instructions. -/
def embed : Prog ι ρ α → Prog ι' ρ' α
  | done a => done a
  | call i k => call (f i) fun r => (k (g i r)).embed

theorem embed_bind (p : Prog ι ρ α) (q : α → Prog ι ρ β) :
    (p >>= q).embed f g = p.embed f g >>= fun a => (q a).embed f g := by
  induction p with
  | done a => rfl
  | call i k ih =>
    simp only [call_bind, embed]
    congr 1
    funext r
    exact ih (g i r)

end embed

end Prog

/-- A program that ends with a value or with a raised error. -/
abbrev Task (ι : Type) (ρ : ι → Type) (ε : Type) := ExceptT ε (Prog ι ρ)

namespace Task

/-- Perform an instruction that answers with a value. -/
def perform (i : ι) : Task ι ρ ε (ρ i) := ExceptT.lift (Prog.ask i)

/-- `try: body` / `except Exception: handler`. -/
def except (body : Task ι ρ ε α) (handler : ε → Task ι ρ ε α) : Task ι ρ ε α :=
  ExceptT.mk (body.run >>= fun r => match r with
    | .ok a => .done (.ok a)
    | .error e => (handler e).run)

/-- `try: body` / `finally: cleanup`; an error of the cleanup replaces the outcome. -/
def ensuring (body : Task ι ρ ε α) (cleanup : Task ι ρ ε Unit) : Task ι ρ ε α :=
  ExceptT.mk (body.run >>= fun r => cleanup.run >>= fun c => match c with
    | .ok _ => .done r
    | .error e => .done (.error e))

section cancellation

/-- What a task that can be cancelled raises. -/
inductive Raised (ε : Type) where
  | exception (e : ε)
  | cancelled
deriving DecidableEq

/-- `except Exception` lets a cancellation through. -/
def rescue (body : Task ι ρ (Raised ε) α) (handler : ε → Task ι ρ (Raised ε) α) :
    Task ι ρ (Raised ε) α :=
  body.except fun
    | .exception e => handler e
    | .cancelled => throw .cancelled

end cancellation

theorem uses_bind {P : ι → Prop} {x : Task ι ρ ε α} {f : α → Task ι ρ ε β}
    (hx : x.run.Uses P) (hf : ∀ a, (f a).run.Uses P) : (x >>= f).run.Uses P := by
  rw [ExceptT.run_bind]
  refine hx.bind fun r => ?_
  cases r with
  | ok a => exact hf a
  | error e => trivial

theorem uses_perform {P : ι → Prop} {i : ι} (h : P i) :
    (perform i : Task ι ρ ε (ρ i)).run.Uses P := ⟨h, fun _ => trivial⟩

theorem uses_except {P : ι → Prop} {x : Task ι ρ ε α} {h : ε → Task ι ρ ε α}
    (hx : x.run.Uses P) (hh : ∀ e, (h e).run.Uses P) : (x.except h).run.Uses P := by
  refine Prog.Uses.bind hx fun r => ?_
  cases r with
  | ok a => trivial
  | error e => exact hh e

theorem uses_ensuring {P : ι → Prop} {x : Task ι ρ ε α} {c : Task ι ρ ε Unit}
    (hx : x.run.Uses P) (hc : c.run.Uses P) : (x.ensuring c).run.Uses P := by
  refine Prog.Uses.bind hx fun r => Prog.Uses.bind hc fun r' => ?_
  cases r' with
  | ok a => trivial
  | error e => trivial

theorem uses_rescue {P : ι → Prop} {x : Task ι ρ (Raised ε) α} {h : ε → Task ι ρ (Raised ε) α}
    (hx : x.run.Uses P) (hh : ∀ e, (h e).run.Uses P) : (x.rescue h).run.Uses P := by
  refine uses_except hx fun e => ?_
  cases e with
  | exception e => exact hh e
  | cancelled => trivial

end Task

end Fakery.Concurrent
