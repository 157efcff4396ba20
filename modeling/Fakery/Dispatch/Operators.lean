import Fakery.Dispatch.Commanded
import Fakery.Dispatch.Ordered

/-! The commands of operators hold against the sender in every run where each commit and each purge
comes upon the rows as they were read. -/
namespace Fakery.Dispatch
open Fakery.Bots Fakery.Concurrent WebhookDelivery

namespace Commands

variable {t : ℕ} {k : Op} {s : Table × History}

section programs

theorem uses_pure {α : Type} (a : α) : (pure a : Act α).run.Uses Common := trivial

theorem uses_call {i : Call} (h : Common i) : (perform i).run.Uses Common := Task.uses_perform h

theorem wp_sendItems (summary : Summary) (items : List WebhookDelivery) :
    commanding.wp t k (sendItems summary items).run (fun _ _ => True) s := by
  induction items generalizing summary s with
  | nil => exact (Protocol.wp_pure _).mpr trivial
  | cons item items ih =>
    refine Protocol.wp_task_bind.mpr (Protocol.wp_mono wp_attempt fun r s _ => ?_)
    cases r with
    | error e => trivial
    | ok outcome => exact ih (summary.count outcome)

theorem uses_releaseLease (stream : ℕ × ℕ) : (releaseLease stream).run.Uses Common := by
  refine Task.uses_bind (uses_call trivial) fun held => ?_
  split_ifs
  · exact uses_call trivial
  · exact uses_pure _

theorem wp_sendGroups (summary : Summary) (groups : List Group) :
    commanding.wp t k (sendGroups summary groups).run (fun _ _ => True) s := by
  induction groups generalizing summary s with
  | nil => exact (Protocol.wp_pure _).mpr trivial
  | cons g groups ih =>
    refine (Protocol.wp_perform_bind _).mpr ?_
    have hcall : Common (.acquireLease g.1) := trivial
    refine wp_call (A := fun _ => True) (fun _ _ _ _ => trivial) (fun s _ => hcall.entitled s) ?_
      trivial
    intro s₁ c s₂ acquired _ _ _
    split_ifs
    · refine Protocol.wp_task_bind.mpr (Protocol.wp_ensuring.mpr ?_)
      refine Protocol.wp_mono (wp_sendItems summary g.2) fun r s _ => ?_
      refine Protocol.wp_mono (wp_common (uses_releaseLease g.1)) fun e s _ => ?_
      cases e with
      | error e => trivial
      | ok _ =>
        cases r with
        | error e => trivial
        | ok summary => exact ih summary
    · exact ih summary

theorem uses_purge (moment : ℕ) : (purge moment).run.Uses Common :=
  Task.uses_bind (uses_call trivial) fun _ =>
    Task.uses_bind (uses_call trivial) fun _ => uses_pure _

theorem wp_runOnce : commanding.wp t k runOnce.run (fun _ _ => True) s := by
  have hstart : ∀ i : Call, Common i → ∀ {Q : Answer i → Table × History → Prop},
      (∀ s r, Q r s) → ∀ s, commanding.wp t k (Prog.ask i) Q s := by
    intro i hi Q hQ s
    exact wp_call (A := fun _ => True) (fun _ _ _ _ => trivial) (fun s _ => hi.entitled s)
      (fun _ _ s₂ r _ _ _ => hQ s₂ r) trivial
  refine (Protocol.wp_perform_bind _).mpr (hstart .utcnow trivial (fun s₁ moment => ?_) s)
  refine (Protocol.wp_perform_bind _).mpr (hstart .selectOpen trivial (fun s₂ rows => ?_) s₁)
  refine Protocol.wp_task_bind.mpr (Protocol.wp_mono (wp_sendGroups _ _) fun r s _ => ?_)
  cases r with
  | error e => trivial
  | ok summary =>
    exact wp_common (Task.uses_bind (uses_purge moment) fun purged =>
      uses_pure { summary with purged := purged })

theorem uses_replayDelivery (n : ℕ) : (replayDelivery n).run.Uses Common := by
  refine Task.uses_bind (uses_call trivial) fun found => ?_
  cases found with
  | none => exact uses_pure _
  | some loaded =>
    refine Task.uses_bind (uses_call trivial) fun now => ?_
    exact Task.uses_bind (uses_call ⟨rfl, Or.inl rfl⟩) fun _ => uses_pure _

theorem uses_skipDelivery (n : ℕ) : (skipDelivery n).run.Uses Common := by
  refine Task.uses_bind (uses_call trivial) fun found => ?_
  cases found with
  | none => exact uses_pure _
  | some loaded =>
    refine Task.uses_bind (uses_call trivial) fun now => ?_
    exact Task.uses_bind (uses_call ⟨rfl, Or.inr rfl⟩) fun _ => uses_pure _

theorem uses_emitEvents (payloads : List Payload) : (emitEvents payloads).run.Uses Common := by
  induction payloads with
  | nil => exact uses_call trivial
  | cons payload payloads ih => exact Task.uses_bind (uses_call trivial) fun _ => ih

theorem wp_prog (op : Op) : commanding.wp t k op.prog (fun _ _ => True) s := by
  have hact : commanding.wp t k op.act.run (fun _ _ => True) s := by
    cases op with
    | runOnce =>
      refine Protocol.wp_task_bind.mpr (Protocol.wp_mono wp_runOnce fun r _ _ => ?_)
      cases r <;> trivial
    | replay n => exact wp_common (Task.uses_bind (uses_replayDelivery n) fun _ => uses_pure ())
    | skip n => exact wp_common (Task.uses_bind (uses_skipDelivery n) fun _ => uses_pure ())
    | emit payloads => exact wp_common (uses_emitEvents payloads)
  exact Protocol.wp_bind.mpr hact

end programs

theorem sound : commanding.Sound where
  idle _ h := h
  final _ h := h
  start {t k s s'} hi _ _ hb := by
    cases Option.some.inj hb
    have hsame : Steps t s (s.1, s.2) := Steps.of_same hi rfl rfl rfl rfl
    exact ⟨⟨hsame.inv, hsame.others, trivial⟩, wp_prog k⟩
  kill {t s} hi _ := by
    have hkill : Inv (dispatch.kill t s.1, s.2) ∧ (dispatch.kill t s.1).rows = s.1.rows := by
      simp only [dispatch]
      split_ifs
      · exact ⟨inv_rollback hi, rfl⟩
      · exact ⟨hi, rfl⟩
    exact ⟨⟨hkill.1, fun u _ => Rely.of_same hkill.2 rfl, trivial⟩, trivial⟩
  env {e s s'} hi _ he := by
    obtain ⟨table, htable, rfl⟩ := Option.map_eq_some_iff.mp he
    have hsame : table.rows = s.1.rows ∧ table.emitted = s.1.emitted ∧
        table.staged = s.1.staged := by
      cases e with
      | unsubscribe n =>
        simp only [dispatch, World.step] at htable
        split_ifs at htable
        cases Option.some.inj htable
        exact ⟨rfl, rfl, rfl⟩
      | subscribe w | expire stream =>
        cases Option.some.inj htable
        exact ⟨rfl, rfl, rfl⟩
    exact ⟨hi.of_same hsame.1 hsame.2.1 hsame.2.2 rfl, fun u => Rely.of_same hsame.1 rfl⟩

theorem inv_init : Inv ({}, {}) := by
  constructor <;> simp

end Commands

variable {es : List (Event Op Outcome World)} {σ : commanded.State}

/-- In every state of every run whose commits and purges come upon unchanged rows. -/
theorem commands_respected (hr : commanded.run (commanded.init ({}, {})) es = some σ)
    (hc : undisturbed.Meets (commanded.init ({}, {})) es) : Respected σ.shared :=
  (Commands.sound.run (Protocol.holds_init Commands.inv_init fun _ => trivial) hc hr).inv.respected

section runs

instance (s : Table) : (i : Call) → Decidable (Undisturbed s i)
  | .update n loaded now =>
    inferInstanceAs (Decidable (∀ d ∈ s.rows, d.id = n → d.leaseToken = loaded.leaseToken ∧
      (now.status = .pending ∨ now.status = .skipped → d.status = loaded.status)))
  | .delete ids =>
    inferInstanceAs (Decidable (∀ d ∈ s.rows, d.id ∈ ids →
      d.status = .sent ∨ d.status = .dead ∨ d.status = .skipped))
  | .utcnow | .uuid4 | .uniform _ | .selectOpen | .acquireLease _ | .getLease _ | .deleteLease _
  | .leaseRow _ _ | .post _ | .response _ | .get _ | .selectPurgeable _ | .emit _ | .commit =>
    isTrue trivial

instance (t : ℕ) (k : Op) (s : Table × History) : Decidable (undisturbed.start t k s) :=
  isTrue trivial

instance (t : ℕ) (k : Op) (i : Call) (s : Table × History) :
    Decidable (undisturbed.call t k i s) := inferInstanceAs (Decidable (Undisturbed s.1 i))

instance (t : ℕ) (s : Table × History) : Decidable (undisturbed.kill t s) := isTrue trivial

instance (e : World) (s : Table × History) : Decidable (undisturbed.env e s) := isTrue trivial

/-- One event under one subscription. -/
def emitOne : List (Event Op Outcome World) :=
  [.env (.subscribe ⟨7, "https://hooks.example/a"⟩), .start 0 (.emit [.statusChanged 0 .queued 20])] ++
    calls 0 [{ ids := [10] }, {}]

/-- The row is skipped, replayed, and sent again. -/
def replayedAfterSkip : List (Event Op Outcome World) :=
  emitOne ++ .start 1 (.skip 10) :: calls 1 (List.replicate 3 {}) ++
    .start 2 (.replay 10) :: calls 2 (List.replicate 3 {}) ++
    .start 3 .runOnce :: calls 3 (List.replicate 5 {})

/-- The skip comes between the sender's read of the row and its commit. -/
def skippedMeanwhile : List (Event Op Outcome World) :=
  emitOne ++ .start 1 .runOnce :: calls 1 (List.replicate 8 {}) ++
    .start 2 (.skip 10) :: calls 2 (List.replicate 3 {}) ++ calls 1 (List.replicate 2 {})

def statuses (es : List (Event Op Outcome World)) : Option (Option Command × List DeliveryStatus) :=
  (commanded.run (commanded.init ({}, {})) es).map fun σ =>
    (σ.shared.2.command 10, σ.shared.1.rows.map WebhookDelivery.status)

theorem commands_respected_replayed : ∃ σ : commanded.State,
    commanded.run (commanded.init ({}, {})) replayedAfterSkip = some σ ∧
      σ.shared.2.command 10 = some .replay ∧ Respected σ.shared := by
  have h : statuses replayedAfterSkip = some (some .replay, [.pending]) := by decide +kernel
  obtain ⟨σ, hr, hs⟩ := Option.map_eq_some_iff.mp h
  exact ⟨σ, hr, (Prod.mk.inj hs).1, commands_respected hr (by decide +kernel)⟩

theorem not_commands_respected : ¬∀ (es : List (Event Op Outcome World)) (σ : commanded.State),
    commanded.run (commanded.init ({}, {})) es = some σ → Respected σ.shared := by
  intro h
  have hrun : statuses skippedMeanwhile = some (some .skip, [.sent]) := by decide +kernel
  obtain ⟨σ, hr, hs⟩ := Option.map_eq_some_iff.mp hrun
  obtain ⟨hcommand, hrows⟩ := Prod.mk.inj hs
  have hemitted : σ.shared.1.rows.map WebhookDelivery.id = [10] := by
    have hids : (commanded.run (commanded.init ({}, {})) skippedMeanwhile).map
        (fun σ => σ.shared.1.rows.map WebhookDelivery.id) = some [10] := by decide +kernel
    rw [hr] at hids
    exact Option.some.inj hids
  obtain ⟨d, hd, hid⟩ := List.map_eq_singleton_iff.mp hemitted
  have hskipped := (h skippedMeanwhile σ hr).skip 10 hcommand d (by simp [hd]) hid
  simp [hd, hskipped] at hrows

end runs

end Fakery.Dispatch
