import Fakery.Core.Errors
import Mathlib.Data.List.Chain
import Mathlib.Logic.Relation

/-! The status machine of a bot run. -/
namespace Fakery.Bots
open Fakery.Core

inductive BotStatus where
  | queued | joining | joined | recording | processing | completed | failed
deriving DecidableEq, Repr

namespace BotStatus

def value : BotStatus → String
  | queued => "queued"
  | joining => "joining"
  | joined => "joined"
  | recording => "recording"
  | processing => "processing"
  | completed => "completed"
  | failed => "failed"

def terminal (s : BotStatus) : Bool := s = completed || s = failed

end BotStatus

open BotStatus

def liveStatuses : List BotStatus := [joining, joined, recording, processing]

def allowed : BotStatus → List BotStatus
  | queued => [joining, failed]
  | joining => [joined, failed]
  | joined => [recording, failed]
  | recording => [processing, failed]
  | processing => [completed, failed]
  | completed => []
  | failed => []

def canTransition (current target : BotStatus) : Bool := target ∈ allowed current

def requireTransition (current target : BotStatus) : Except TwinError BotStatus :=
  if canTransition current target then .ok target
  else .error (makeError "conflict"
    ("illegal bot transition " ++ current.value ++ " -> " ++ target.value))

/-- One status can follow another over any number of allowed transitions. -/
def Leads : BotStatus → BotStatus → Prop :=
  Relation.ReflTransGen fun s t => canTransition s t = true

/-- `h` lists the statuses of a run from its insertion on, each related to the next one, and
ends with the present one. A run that is not there has no statuses. -/
def Tracks (R : BotStatus → BotStatus → Prop) (h : List BotStatus) : Option BotStatus → Prop
  | none => h = []
  | some s => h.head? = some queued ∧ h.IsChain R ∧ h.getLast? = some s

theorem Tracks.snoc {R : BotStatus → BotStatus → Prop} {h : List BotStatus} {s t : BotStatus}
    (ht : Tracks R h (some s)) (hr : R s t) : Tracks R (h ++ [t]) (some t) := by
  obtain ⟨hh, hc, hl⟩ := ht
  refine ⟨?_, ?_, by simp⟩
  · rw [List.head?_append, hh]
    rfl
  · refine List.isChain_append.mpr ⟨hc, .singleton t, fun x hx y hy => ?_⟩
    cases hl.symm.trans hx
    cases hy
    exact hr

theorem Tracks.imp {R S : BotStatus → BotStatus → Prop} {h : List BotStatus}
    {x : Option BotStatus} (ht : Tracks R h x) (hRS : ∀ s t, R s t → S s t) : Tracks S h x := by
  cases x with
  | none => exact ht
  | some s => exact ⟨ht.1, ht.2.1.imp hRS, ht.2.2⟩

/-- A status that nothing follows stays the last one. -/
theorem Tracks.eq_of_prefix {R : BotStatus → BotStatus → Prop} {h h' : List BotStatus}
    {s : BotStatus} {x : Option BotStatus} (ht : Tracks R h (some s)) (ht' : Tracks R h' x)
    (hp : h <+: h') (hs : ∀ t, ¬R s t) : h' = h ∧ x = some s := by
  obtain ⟨l, rfl⟩ := hp
  obtain ⟨-, -, hl⟩ := ht
  have hne : h ≠ [] := by
    rintro rfl
    cases hl
  cases x with
  | none => exact absurd (List.append_eq_nil_iff.mp ht').1 hne
  | some y =>
    obtain ⟨-, hc', hl'⟩ := ht'
    cases l with
    | nil =>
      rw [List.append_nil] at hl' ⊢
      exact ⟨rfl, hl'.symm.trans hl⟩
    | cons a l =>
      have := (List.isChain_append.mp hc').2.2 s hl a rfl
      exact absurd this (hs a)

theorem not_canTransition_of_terminal {s : BotStatus} (t : BotStatus) (h : s.terminal = true) :
    canTransition s t = false := by
  cases s <;> first | rfl | cases h

theorem not_canTransition_queued (s : BotStatus) : canTransition s queued = false := by
  cases s <;> rfl

theorem eq_queued_of_canTransition_joining {s : BotStatus} (h : canTransition s joining = true) :
    s = queued := by
  cases s <;> first | rfl | cases h

/-- The position in the run of a bot that nothing goes wrong with. -/
def rank : BotStatus → ℕ
  | queued => 0
  | joining => 1
  | joined => 2
  | recording => 3
  | processing => 4
  | completed => 5
  | failed => 5

theorem rank_lt_of_canTransition {s t : BotStatus} (h : canTransition s t = true) :
    rank s < rank t := by
  cases s <;> cases t <;> first | decide | cases h

theorem Leads.rank_le {s t : BotStatus} (h : Leads s t) : rank s ≤ rank t := by
  induction h with
  | refl => exact Nat.le_refl _
  | tail _ hst ih => exact Nat.le_trans ih (Nat.le_of_lt (rank_lt_of_canTransition hst))

end Fakery.Bots
