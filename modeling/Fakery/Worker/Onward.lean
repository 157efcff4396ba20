import Fakery.Runtime.Rows
import Fakery.Worker.Calls

/-! Every step leaves the runs that are there, makes none of them queued again and takes none back
from its end. -/
namespace Fakery.Worker
open Fakery.Bots Fakery.Concurrent Fakery.Runtime

variable {S : Settings} {t b : ℕ} {i : Call} {c : Outcome} {s s' v : Cluster} {E : ℕ → Prop}
  {run run' : BotRun}

structure Follows (run run' : BotRun) : Prop where
  id : run'.id = run.id
  queued : run'.status = .queued → run.status = .queued
  terminal : run.status.terminal = true → run'.status.terminal = true

/-- Only the runs of `E` may have been dispatched. -/
def Onward (E : ℕ → Prop) (s s' : Cluster) : Prop := ∀ b run, s.runs b = some run →
  ∃ run', s'.runs b = some run' ∧ Follows run run' ∧ (run'.dispatchStatus = run.dispatchStatus ∨ E b)

/-- The runs that the call stores as enqueued. -/
def Call.enqueues : Call → ℕ → Prop
  | .storeDispatch results, b => (b, true) ∈ results
  | _, _ => False

theorem Follows.refl (run : BotRun) : Follows run run := ⟨rfl, fun h => h, fun h => h⟩

theorem follows_of_moves (h : Moves run run') : Follows run run' := by
  refine ⟨h.id, h.queued, fun ht => ?_⟩
  rw [h.status_eq ht]
  exact ht

theorem Overwrites.follows (h : Overwrites run run') : Follows run run' :=
  ⟨h.id, h.queued, h.terminal⟩

theorem Reaped.follows (h : Reaped run run') : Follows run run' := by
  rcases h.status with hs | hs
  · refine ⟨h.id, ?_, ?_⟩
    · rw [hs]
      exact fun h => h
    · rw [hs]
      exact fun h => h
  · refine ⟨h.id, ?_, fun _ => ?_⟩
    · rw [hs]
      exact nofun
    · rw [hs]
      rfl

theorem Onward.refl (s : Cluster) : Onward E s s := fun _ run h => ⟨run, h, .refl run, Or.inl rfl⟩

theorem Onward.trans {s₁ s₂ s₃ : Cluster} (h : Onward E s₁ s₂) (k : Onward E s₂ s₃) :
    Onward E s₁ s₃ := by
  intro b run hrun
  obtain ⟨mid, hmid, hf, hd⟩ := h b run hrun
  obtain ⟨run', hrun', hf', hd'⟩ := k b mid hmid
  refine ⟨run', hrun', ⟨hf'.id.trans hf.id, fun hq => hf.queued (hf'.queued hq),
    fun ht => hf'.terminal (hf.terminal ht)⟩, ?_⟩
  rcases hd' with hd' | hE
  · exact hd.imp (hd'.trans ·) id
  · exact Or.inr hE

theorem onward_of_runs (h : s'.runs = s.runs) : Onward E s s' := by
  intro b run hrun
  exact ⟨run, h ▸ hrun, .refl run, Or.inl rfl⟩

theorem onward_setRun (hrun : s.runs b = some run) (hf : Follows run run')
    (hd : run'.dispatchStatus = run.dispatchStatus ∨ E b) : Onward E s (s.setRun b run') := by
  intro b' old hold
  by_cases hb : b' = b
  · subst hb
    obtain rfl := Option.some.inj (hrun.symm.trans hold)
    exact ⟨run', Function.update_self _ _ _, hf, hd⟩
  · exact ⟨old, (Function.update_of_ne hb _ _).trans hold, .refl old, Or.inl rfl⟩

theorem onward_moves {moment : ℕ} (hrun : s.runs b = some run) (hm : Moves run run') :
    Onward E s (s.setRun b (BotRun.flushed run moment run')) :=
  onward_setRun hrun (follows_of_moves hm.flushed) (Or.inl hm.flushed.dispatch)

theorem attendEffect_onward {i : Runtime.Call} {r : Except Raised (Runtime.Reply i)}
    (he : attendEffect S t b i c s = (v, r)) : Onward E s v := by
  cases i with
  | transaction tx =>
    rcases transaction_cases he with ⟨rfl, -⟩ | ⟨run, run', hrun, happly, -, rfl⟩
    · exact .refl v
    · have hset : Onward E s (s.setRun b (BotRun.flushed run c.now run')) :=
        onward_moves hrun (moves_apply happly)
      split
      · exact hset.trans (onward_of_runs rfl)
      · exact hset
  | getRun =>
    simp only [attendEffect] at he
    split at he
    · obtain ⟨rfl, -⟩ := Prod.mk.inj he
      exact .refl s
    · obtain ⟨rfl, -⟩ := Prod.mk.inj he
      exact .refl s
  | persistProfile =>
    obtain ⟨rfl, -⟩ := Prod.mk.inj he
    split
    · exact .refl s
    · exact onward_of_runs rfl
  | _ =>
    obtain ⟨rfl, -⟩ := Prod.mk.inj he
    exact onward_of_runs rfl

theorem effect_onward {r : Answer i} (he : effect S t i c s = some (v, r)) :
    Onward i.enqueues s v := by
  cases i with
  | attend b i => exact attendEffect_onward (Option.some.inj he)
  | cancel b =>
    rcases cancel_cases he with rfl | ⟨run, run', hrun, hcancel, rfl⟩
    · exact .refl v
    · exact onward_moves hrun (moves_cancel hcancel)
  | reap loaded =>
    obtain ⟨rfl, -⟩ := Prod.mk.inj (Option.some.inj he)
    refine reap_induct .refl (fun _ _ _ => .trans) c.now loaded s fun s b row run hrow hr => ?_
    exact onward_setRun hrow hr.follows (Or.inl hr.dispatch)
  | storeDispatch results =>
    obtain ⟨rfl, -⟩ := Prod.mk.inj (Option.some.inj he)
    refine storeDispatch_induct .refl (fun _ _ _ => .trans) c.now c.error results s
      fun s b run ok hm hrun => ?_
    cases ok with
    | true => exact onward_setRun hrun ⟨rfl, id, id⟩ (Or.inr hm)
    | false => exact onward_setRun hrun ⟨rfl, id, id⟩ (Or.inl rfl)
  | createJob b | deleteJob b =>
    simp only [effect] at he
    split at he
    · obtain ⟨rfl, -⟩ := Prod.mk.inj (Option.some.inj he)
      exact .refl s
    · obtain ⟨rfl, -⟩ := Prod.mk.inj (Option.some.inj he)
      exact onward_of_runs rfl
  | waitTerminal b =>
    simp only [effect] at he
    split at he
    · obtain ⟨rfl, -⟩ := Prod.mk.inj (Option.some.inj he)
      exact .refl s
    · cases he
  | prepareLaunch b =>
    obtain ⟨rfl, -⟩ := Prod.mk.inj (Option.some.inj he)
    split
    · exact .refl s
    · exact onward_of_runs rfl
  | _ =>
    obtain ⟨rfl, -⟩ := Prod.mk.inj (Option.some.inj he)
    exact onward_of_runs rfl

theorem note_runs (r : Answer i) : (note t i r s).runs = s.runs := by
  unfold note
  split <;> rfl

theorem exec_onward {r : Answer i} (he : exec S t i c s = some (s', r)) :
    Onward i.enqueues s s' := by
  obtain ⟨v, hc, rfl⟩ := exec_came he
  have hv : Onward i.enqueues s v := hc.elim (P := Onward i.enqueues s)
    (fun v f h => h.trans (onward_of_runs rfl)) (.refl s) fun _ _ _ he => effect_onward he
  exact hv.trans (onward_of_runs (note_runs r))

theorem step_onward {e : World} (h : World.step e s = some s') : Onward (fun _ => False) s s' := by
  cases e with
  | create run =>
    simp only [World.step] at h
    split at h
    · rename_i hnew
      obtain rfl := Option.some.inj h
      intro b old hold
      by_cases hb : b = run.id
      · subst hb
        have hnone := hnew.2.2.1
        rw [hold] at hnone
        cases hnone
      · exact ⟨old, (Function.update_of_ne hb _ _).trans hold, .refl old, Or.inl rfl⟩
    · cases h
  | write b run =>
    simp only [World.step] at h
    split at h
    · cases h
    · rename_i old hold
      split at h
      · rename_i hw
        obtain rfl := Option.some.inj h
        exact onward_setRun hold hw.follows (Or.inl hw.dispatch)
      · cases h
  | raise t e reached | beat t b | endJob b | removeJob b =>
    simp only [World.step] at h
    split at h
    · obtain rfl := Option.some.inj h
      exact onward_of_runs rfl
    · cases h
  | sigterm worker | elapse d | expireBeat b | expireCancel b =>
    obtain rfl := Option.some.inj h
    exact onward_of_runs rfl

section status

theorem Onward.queued (h : Onward E s s') (hrun : (s.runs b).isSome) (hq : s'.queued b = true) :
    s.queued b = true := by
  obtain ⟨run, hrun⟩ := Option.isSome_iff_exists.mp hrun
  obtain ⟨run', hrun', hf, -⟩ := h b run hrun
  unfold Cluster.queued Cluster.status at hq ⊢
  rw [hrun'] at hq
  rw [hrun]
  have hstatus : run'.status = .queued := Option.some.inj (of_decide_eq_true hq)
  exact decide_eq_true (congrArg some (hf.queued hstatus))

/-- A run that is not queued any more stays so. -/
theorem Onward.dequeued (h : Onward E s s') (hd : (s.runs b).isSome ∧ s.queued b = false) :
    (s'.runs b).isSome ∧ s'.queued b = false := by
  obtain ⟨run, hrun⟩ := Option.isSome_iff_exists.mp hd.1
  obtain ⟨run', hrun', -, -⟩ := h b run hrun
  refine ⟨hrun' ▸ rfl, (Bool.not_eq_true _).mp fun hq => ?_⟩
  rw [h.queued hd.1 hq] at hd
  cases hd.2

theorem Onward.terminal (h : Onward E s s') (ht : s.terminal b = true) : s'.terminal b = true := by
  unfold Cluster.terminal Cluster.status at ht ⊢
  cases hrun : s.runs b with
  | none =>
    rw [hrun] at ht
    cases ht
  | some run =>
    obtain ⟨run', hrun', hf, -⟩ := h b run hrun
    rw [hrun] at ht
    rw [hrun']
    exact hf.terminal ht

end status

end Fakery.Worker
