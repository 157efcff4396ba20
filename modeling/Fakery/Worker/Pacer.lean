import Mathlib.Algebra.Order.Field.Rat
import Mathlib.Algebra.Order.Group.Abs
import Mathlib.Logic.Function.Basic
import Mathlib.Tactic.Linarith

/-! The pacing of guest runs: the slots that a worker hands out stay a gap apart, whatever slots
are given back in between. -/
namespace Fakery.Worker

@[ext] structure GuestPacer where
  gapS : ℚ
  nextAt : ℚ := 0
deriving DecidableEq

namespace GuestPacer

/-- The wait and the slot. -/
def reserve (pacer : GuestPacer) (now : ℚ) : (ℚ × ℚ) × GuestPacer :=
  let slotAt := max now pacer.nextAt
  ((slotAt - now, slotAt), { pacer with nextAt := slotAt + pacer.gapS })

def release (pacer : GuestPacer) (slotAt : ℚ) : GuestPacer :=
  if pacer.nextAt = slotAt + pacer.gapS then { pacer with nextAt := slotAt } else pacer

end GuestPacer

/-- What the tasks of `run_claim` call. -/
inductive PacerCall where
  | reserve (task : ℕ) (now : ℚ)
  | release (task : ℕ)

/-- The pacer, the slots that the tasks hold, and the time of the last reservation. -/
structure Pacing where
  pacer : GuestPacer
  slots : ℕ → Option ℚ := fun _ => none
  last : Option ℚ := none

structure Reservation where
  now : ℚ
  wait : ℚ
  slotAt : ℚ
deriving DecidableEq

namespace Pacing

def start (gapS : ℚ) : Pacing := { pacer := { gapS := gapS } }

/-- A task holds one slot at most, gives back only the slot it holds, and time does not go
backwards. -/
def step (s : Pacing) : PacerCall → Option (Pacing × List Reservation)
  | .reserve task now =>
    if s.slots task = none ∧ ∀ last ∈ s.last, last ≤ now then
      let reserved := s.pacer.reserve now
      some ({ pacer := reserved.2
              slots := Function.update s.slots task (some reserved.1.2)
              last := some now }, [⟨now, reserved.1.1, reserved.1.2⟩])
    else none
  | .release task => match s.slots task with
    | none => none
    | some slotAt =>
      some ({ s with pacer := s.pacer.release slotAt
                     slots := Function.update s.slots task none }, [])

def run (s : Pacing) : List PacerCall → Option (Pacing × List Reservation)
  | [] => some (s, [])
  | call :: calls => do
    let (s', first) ← s.step call
    let (s'', rest) ← s'.run calls
    pure (s'', first ++ rest)

/-- What the reservations of a sequence of calls return. -/
def results (s : Pacing) (calls : List PacerCall) : Option (List Reservation) :=
  (s.run calls).map Prod.snd

end Pacing

variable {s s' : Pacing} {call : PacerCall} {calls : List PacerCall} {rs : List Reservation}
  {task : ℕ} {now slotAt : ℚ}

section steps

open Pacing

@[simp] theorem release_gapS (pacer : GuestPacer) (slotAt : ℚ) :
    (pacer.release slotAt).gapS = pacer.gapS := by
  unfold GuestPacer.release
  split_ifs <;> rfl

theorem step_reserve (h : s.step (.reserve task now) = some (s', rs)) :
    s.slots task = none ∧ (∀ last ∈ s.last, last ≤ now) ∧
      s' = ⟨⟨s.pacer.gapS, max now s.pacer.nextAt + s.pacer.gapS⟩,
        Function.update s.slots task (some (max now s.pacer.nextAt)), some now⟩ ∧
      rs = [⟨now, max now s.pacer.nextAt - now, max now s.pacer.nextAt⟩] := by
  simp only [step] at h
  split_ifs at h with hc
  obtain ⟨rfl, rfl⟩ := Prod.mk.inj (Option.some.inj h)
  exact ⟨hc.1, hc.2, rfl, rfl⟩

theorem step_release (h : s.step (.release task) = some (s', rs)) :
    ∃ slotAt, s.slots task = some slotAt ∧
      s' = ⟨s.pacer.release slotAt, Function.update s.slots task none, s.last⟩ ∧ rs = [] := by
  simp only [step] at h
  split at h
  · cases h
  · rename_i slotAt hslot
    obtain ⟨rfl, rfl⟩ := Prod.mk.inj (Option.some.inj h)
    exact ⟨slotAt, hslot, rfl, rfl⟩

theorem run_cons (h : s.run (call :: calls) = some (s', rs)) :
    ∃ s₁ first rest, s.step call = some (s₁, first) ∧ s₁.run calls = some (s', rest) ∧
      rs = first ++ rest := by
  obtain ⟨⟨s₁, first⟩, hstep, hrest⟩ := Option.bind_eq_some_iff.mp h
  obtain ⟨⟨s₂, rest⟩, hrun, hend⟩ := Option.bind_eq_some_iff.mp hrest
  obtain ⟨rfl, rfl⟩ := Prod.mk.inj (Option.some.inj hend)
  exact ⟨s₁, first, rest, hstep, hrun, rfl⟩

end steps

section invariant

/-- Every slot that is held ends before the next one, and any two are a gap apart. -/
structure Spaced (gapS : ℚ) (s : Pacing) : Prop where
  gap : s.pacer.gapS = gapS
  before : ∀ task slotAt, s.slots task = some slotAt → slotAt + gapS ≤ s.pacer.nextAt
  apart : ∀ task other slotAt otherAt, task ≠ other → s.slots task = some slotAt →
    s.slots other = some otherAt → gapS ≤ |slotAt - otherAt|

variable {gapS : ℚ}

theorem spaced_start (gapS : ℚ) : Spaced gapS (Pacing.start gapS) :=
  ⟨rfl, fun _ _ h => (nomatch h), fun _ _ _ _ _ h => (nomatch h)⟩

theorem spaced_reserve (hgap : 0 ≤ gapS) (ha : Spaced gapS s)
    (h : s.step (.reserve task now) = some (s', rs)) : Spaced gapS s' := by
  obtain ⟨-, -, rfl, -⟩ := step_reserve h
  have hnext : s.pacer.nextAt ≤ max now s.pacer.nextAt := le_max_right _ _
  have hfar : ∀ other otherAt, s.slots other = some otherAt →
      gapS ≤ max now s.pacer.nextAt - otherAt := by
    intro other otherAt hother
    have hbefore := ha.before other otherAt hother
    linarith
  constructor
  · exact ha.gap
  · intro other otherAt hother
    dsimp only at hother ⊢
    rw [ha.gap]
    by_cases heq : other = task
    · subst heq
      rw [Function.update_self] at hother
      cases Option.some.inj hother
      exact le_refl _
    · rw [Function.update_of_ne heq] at hother
      have hbefore := hfar other otherAt hother
      linarith
  · intro first second firstAt secondAt hne hfirst hsecond
    dsimp only at hfirst hsecond
    by_cases hf : first = task
    · subst hf
      rw [Function.update_self] at hfirst
      rw [Function.update_of_ne hne.symm] at hsecond
      cases Option.some.inj hfirst
      exact (hfar second secondAt hsecond).trans (le_abs_self _)
    · rw [Function.update_of_ne hf] at hfirst
      by_cases hs : second = task
      · subst hs
        rw [Function.update_self] at hsecond
        cases Option.some.inj hsecond
        rw [abs_sub_comm]
        exact (hfar first firstAt hfirst).trans (le_abs_self _)
      · rw [Function.update_of_ne hs] at hsecond
        exact ha.apart first second firstAt secondAt hne hfirst hsecond

/-- Where the latest slot is given back, the others end before it. -/
theorem spaced_release (ha : Spaced gapS s) (h : s.step (.release task) = some (s', rs)) :
    Spaced gapS s' := by
  obtain ⟨slotAt, hslot, rfl, -⟩ := step_release h
  have hheld : ∀ other otherAt, Function.update s.slots task none other = some otherAt →
      other ≠ task ∧ s.slots other = some otherAt := by
    intro other otherAt hother
    by_cases heq : other = task
    · subst heq
      rw [Function.update_self] at hother
      cases hother
    · rw [Function.update_of_ne heq] at hother
      exact ⟨heq, hother⟩
  constructor
  · rw [release_gapS]
    exact ha.gap
  · intro other otherAt hother
    obtain ⟨hne, hother⟩ := hheld other otherAt hother
    have hbefore := ha.before other otherAt hother
    dsimp only [GuestPacer.release]
    split_ifs with hlatest
    · have hapart := ha.apart task other slotAt otherAt hne.symm hslot hother
      rw [ha.gap] at hlatest
      have hle : 0 ≤ slotAt - otherAt := by linarith
      rw [abs_of_nonneg hle] at hapart
      dsimp only
      linarith
    · exact hbefore
  · intro first second firstAt secondAt hne hfirst hsecond
    exact ha.apart first second firstAt secondAt hne (hheld first firstAt hfirst).2
      (hheld second secondAt hsecond).2

theorem spaced_run (hgap : 0 ≤ gapS) (ha : Spaced gapS s) (h : s.run calls = some (s', rs)) :
    Spaced gapS s' := by
  induction calls generalizing s rs with
  | nil =>
    obtain ⟨rfl, -⟩ := Prod.mk.inj (Option.some.inj h)
    exact ha
  | cons call calls ih =>
    obtain ⟨s₁, first, rest, hstep, hrun, -⟩ := run_cons h
    cases call with
    | reserve task now => exact ih (spaced_reserve hgap ha hstep) hrun
    | release task => exact ih (spaced_release ha hstep) hrun

theorem reserved_run (h : s.run calls = some (s', rs)) :
    ∀ r ∈ rs, r.now ≤ r.slotAt ∧ r.wait = r.slotAt - r.now := by
  induction calls generalizing s rs with
  | nil =>
    obtain ⟨-, rfl⟩ := Prod.mk.inj (Option.some.inj h)
    simp
  | cons call calls ih =>
    obtain ⟨s₁, first, rest, hstep, hrun, rfl⟩ := run_cons h
    intro r hr
    rcases List.mem_append.mp hr with hr | hr
    · cases call with
      | reserve task now =>
        obtain ⟨-, -, -, rfl⟩ := step_reserve hstep
        cases List.mem_singleton.mp hr
        exact ⟨le_max_left _ _, rfl⟩
      | release task =>
        obtain ⟨-, -, -, rfl⟩ := step_release hstep
        cases hr
    · exact ih hrun r hr

end invariant

section undone

/-- No reservation at or after `now` tells the two apart. -/
structure Alike (now : ℚ) (s s' : Pacing) : Prop where
  slots : s'.slots = s.slots
  gap : s'.pacer.gapS = s.pacer.gapS
  past : ∀ last, last ∈ s.last ∨ last ∈ s'.last → last ≤ now
  next : max now s'.pacer.nextAt = max now s.pacer.nextAt

/-- The next reservation makes them the same. -/
theorem alike_reserve {later : ℚ} (ha : Alike now s s') (hl : now ≤ later) :
    s'.step (.reserve task later) = s.step (.reserve task later) := by
  have hnext : max later s'.pacer.nextAt = max later s.pacer.nextAt := by
    rw [← max_eq_left hl, max_assoc, max_assoc, ha.next]
  have hpast : (∀ last ∈ s'.last, last ≤ later) ↔ ∀ last ∈ s.last, last ≤ later := by
    constructor
    · exact fun _ last hlast => (ha.past last (Or.inl hlast)).trans hl
    · exact fun _ last hlast => (ha.past last (Or.inr hlast)).trans hl
  simp only [Pacing.step, GuestPacer.reserve, ha.slots, hnext, ha.gap, hpast]

theorem max_release (pacer : GuestPacer) (hgap : 0 ≤ pacer.gapS) (h : pacer.nextAt ≤ now) :
    max now (pacer.release slotAt).nextAt = now := by
  unfold GuestPacer.release
  split_ifs with hlatest
  · apply max_eq_left
    dsimp only
    linarith
  · exact max_eq_left h

theorem alike_release (task : ℕ) (slotAt : ℚ) (hgap : 0 ≤ s.pacer.gapS) (ha : Alike now s s') :
    Alike now ⟨s.pacer.release slotAt, Function.update s.slots task none, s.last⟩
      ⟨s'.pacer.release slotAt, Function.update s'.slots task none, s'.last⟩ := by
  constructor
  · rw [ha.slots]
  · rw [release_gapS, release_gapS, ha.gap]
  · exact ha.past
  · dsimp only
    by_cases hle : s.pacer.nextAt ≤ now
    · have hle' : s'.pacer.nextAt ≤ now := by
        have hmax := ha.next
        rw [max_eq_left hle] at hmax
        exact max_eq_left_iff.mp hmax
      have hgap' : 0 ≤ s'.pacer.gapS := by
        rw [ha.gap]
        exact hgap
      rw [max_release _ hgap hle, max_release _ hgap' hle']
    · have heq : s'.pacer.nextAt = s.pacer.nextAt := by
        have hmax := ha.next
        rw [max_eq_right (not_le.mp hle).le] at hmax
        rcases max_choice now s'.pacer.nextAt with hc | hc
        · rw [hc] at hmax
          exact absurd hmax.symm.le hle
        · rw [hc] at hmax
          exact hmax
      have hpacer : s'.pacer = s.pacer := GuestPacer.ext ha.gap heq
      rw [hpacer]

theorem results_cons (s : Pacing) (call : PacerCall) (calls : List PacerCall) :
    s.results (call :: calls) =
      (s.step call).bind fun x => (x.1.results calls).map (x.2 ++ ·) := by
  unfold Pacing.results
  cases hs : s.step call with
  | none => simp [Pacing.run, hs]
  | some x => cases hr : x.1.run calls <;> simp [Pacing.run, hs, hr]

theorem alike_results (ha : Alike now s s') (hgap : 0 ≤ s.pacer.gapS)
    (hlater : ∀ task later, PacerCall.reserve task later ∈ calls → now ≤ later) :
    s'.results calls = s.results calls := by
  induction calls generalizing s s' with
  | nil => rfl
  | cons call calls ih =>
    have hrest : ∀ task later, PacerCall.reserve task later ∈ calls → now ≤ later :=
      fun task later hmem => hlater task later (List.mem_cons_of_mem _ hmem)
    rw [results_cons, results_cons]
    cases call with
    | reserve task later =>
      rw [alike_reserve ha (hlater task later List.mem_cons_self)]
    | release task =>
      simp only [Pacing.step, ha.slots]
      cases hs : s.slots task with
      | none => rfl
      | some slotAt =>
        have hreleased := alike_release task slotAt hgap ha
        rw [ha.slots] at hreleased
        have hgap' : 0 ≤ (s.pacer.release slotAt).gapS := by
          rw [release_gapS]
          exact hgap
        have hsame := ih hreleased hgap' hrest
        simp only [Option.bind_some]
        rw [hsame]

/-- A reservation that is given back at once leaves the pacer where the next one finds it. -/
theorem alike_undone {s' : Pacing} (h : s.run [.reserve task now, .release task] = some (s', rs)) :
    Alike now s s' := by
  obtain ⟨s₁, first, rest, hreserve, hrun, -⟩ := run_cons h
  obtain ⟨s₂, second, rest', hrelease, hend, -⟩ := run_cons hrun
  obtain ⟨rfl, -⟩ := Prod.mk.inj (Option.some.inj hend)
  obtain ⟨hfree, hpast, rfl, -⟩ := step_reserve hreserve
  obtain ⟨slotAt, hslot, rfl, -⟩ := step_release hrelease
  dsimp only at hslot
  rw [Function.update_self] at hslot
  cases Option.some.inj hslot
  constructor
  · rw [Function.update_idem, ← hfree, Function.update_eq_self]
  · simp [GuestPacer.release]
  · intro last hlast
    rcases hlast with hlast | hlast
    · exact hpast last hlast
    · cases Option.some.inj hlast
      exact le_refl _
  · simp [GuestPacer.release]

end undone

/-- Slots are at or after the time they are asked for, those that are not given back are a gap
apart, and a slot given back at once leaves no trace. -/
theorem slots_stay_apart (gapS : ℚ) (hgap : 0 ≤ gapS) (calls : List PacerCall) (s : Pacing)
    (rs : List Reservation) (h : (Pacing.start gapS).run calls = some (s, rs)) :
    (∀ r ∈ rs, r.now ≤ r.slotAt ∧ r.wait = r.slotAt - r.now) ∧
    (∀ task other slotAt otherAt, task ≠ other → s.slots task = some slotAt →
      s.slots other = some otherAt → gapS ≤ |slotAt - otherAt|) ∧
    ∀ task now s' reserved,
      s.run [.reserve task now, .release task] = some (s', reserved) →
      ∀ more, (∀ other later, PacerCall.reserve other later ∈ more → now ≤ later) →
        s'.results more = s.results more := by
  have hapart := spaced_run hgap (spaced_start gapS) h
  refine ⟨reserved_run h, hapart.apart, fun task now s' reserved hundone more hlater => ?_⟩
  have hgap' : 0 ≤ s.pacer.gapS := by
    rw [hapart.gap]
    exact hgap
  exact alike_results (alike_undone hundone) hgap' hlater

theorem slots_stay_apart_two : ∃ s rs, (Pacing.start 240).run
    [.reserve 1 100, .reserve 2 100, .release 1] = some (s, rs) ∧
      ∀ r ∈ rs, r.now ≤ r.slotAt ∧ r.wait = r.slotAt - r.now := by
  refine ⟨_, _, rfl, ?_⟩
  exact (slots_stay_apart 240 (by decide) [.reserve 1 100, .reserve 2 100, .release 1] _ _ rfl).1

end Fakery.Worker
