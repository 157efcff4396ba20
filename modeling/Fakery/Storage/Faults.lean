import Fakery.Storage.Blob
import Mathlib.Tactic.SplitIfs

/-! Stores whose puts may raise, before or after the object is stored. -/
namespace Fakery.Storage

/-- A put that is done, one that is lost, and one that is stored though it raises. -/
inductive PutOutcome where
  | done | lost | late
deriving DecidableEq

def PutOutcome.stores : PutOutcome → Bool
  | .done | .late => true
  | .lost => false

def PutOutcome.raises : PutOutcome → Bool
  | .done => false
  | .lost | .late => true

theorem PutOutcome.stores_of_not_raises {o : PutOutcome} (h : ¬o.raises = true) :
    o.stores = true := by
  cases o with
  | done => rfl
  | lost => exact absurd rfl h
  | late => exact absurd rfl h

/-- `outcomes` lists what comes of the next puts; those beyond are done. -/
structure Faulty (κ ο : Type) where
  objects : κ → Option ο
  outcomes : List PutOutcome

namespace Faulty

variable {κ ο : Type} [DecidableEq κ]

def outcome (s : Faulty κ ο) : PutOutcome := s.outcomes.head?.getD .done

def put (s : Faulty κ ο) (key : κ) (object : ο) : Faulty κ ο where
  objects := if s.outcome.stores then Function.update s.objects key (some object) else s.objects
  outcomes := s.outcomes.tail

def putting {α : Type} (key : κ) (object : ο) (answer : α) :
    ExceptT Unit (StateM (Faulty κ ο)) α :=
  ExceptT.mk fun s => (if s.outcome.raises then .error () else .ok answer, s.put key object)

def getting (key : κ) : ExceptT Unit (StateM (Faulty κ ο)) ο :=
  ExceptT.mk fun s => match s.objects key with
    | some object => (.ok object, s)
    | none => (.error (), s)

theorem bind_putting {α β : Type} (key : κ) (object : ο) (answer : α)
    (f : Except Unit α → StateM (Faulty κ ο) β) (s : Faulty κ ο) :
    ((putting key object answer).run >>= f) s =
      f (if s.outcome.raises then .error () else .ok answer) (s.put key object) := rfl

theorem put_of_ne (s : Faulty κ ο) {key other : κ} (h : other ≠ key) (object : ο) :
    (s.put key object).objects other = s.objects other := by
  simp only [Faulty.put]
  split_ifs
  · exact Function.update_of_ne h _ _
  · rfl

theorem put_stored {s : Faulty κ ο} (h : s.outcome = .done) (key : κ) (object : ο) :
    (s.put key object).objects = Function.update s.objects key (some object) := by
  simp only [Faulty.put, h, PutOutcome.stores, if_true]

theorem put_lost {s : Faulty κ ο} (h : s.outcome = .lost) (key : κ) (object : ο) :
    (s.put key object).objects = s.objects := by
  simp only [Faulty.put, h, PutOutcome.stores, Bool.false_eq_true, if_false]

omit [DecidableEq κ] in
theorem outcome_of_done {s : Faulty κ ο} (h : ∀ o ∈ s.outcomes, o = .done) :
    s.outcome = .done := by
  unfold outcome
  cases hs : s.outcomes with
  | nil => rfl
  | cons o os => exact h o (hs ▸ List.mem_cons_self)

/-- One store under another: its keys and objects go to keys and objects of the other. -/
structure Represents {κ' ο' : Type} (key : κ → κ') (object : ο → ο') (s : Faulty κ ο)
    (t : Faulty κ' ο') : Prop where
  outcomes : t.outcomes = s.outcomes
  objects : ∀ k, t.objects (key k) = (s.objects k).map object

variable {κ' ο' : Type} [DecidableEq κ'] {key : κ → κ'} {object : ο → ο'} {s : Faulty κ ο}
  {t : Faulty κ' ο'}

omit [DecidableEq κ] [DecidableEq κ'] in
theorem Represents.outcome (h : Represents key object s t) : t.outcome = s.outcome := by
  rw [Faulty.outcome, Faulty.outcome, h.outcomes]

theorem Represents.put (hkey : Function.Injective key) (h : Represents key object s t) (k : κ)
    (o : ο) : Represents key object (s.put k o) (t.put (key k) (object o)) where
  outcomes := congrArg List.tail h.outcomes
  objects k' := by
    simp only [Faulty.put, h.outcome]
    split_ifs
    · by_cases hk : k' = k
      · subst hk
        rw [Function.update_self, Function.update_self, Option.map_some]
      · rw [Function.update_of_ne (hkey.ne hk), Function.update_of_ne hk, h.objects]
    · exact h.objects k'

end Faulty

/-- The object store, of which `bucket` is the name. -/
def faultyBlob (bucket : String) : BlobStore (StateM (Faulty Key Object)) where
  put key object := Faulty.putting key object ⟨bucket, key⟩
  get key := Faulty.getting key

end Fakery.Storage
