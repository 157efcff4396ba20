import Fakery.Worker.Programs

/-! What a call of the cluster comes to. -/
namespace Fakery.Worker
open Fakery.Bots Fakery.Concurrent Fakery.Runtime

variable {S : Settings} {t b : ℕ} {i : Call} {c : Outcome} {s s' v : Cluster} {xs : List (ℕ × ℕ)}
  {x : ℕ × ℕ}

theorem mem_drop : x ∈ drop t xs ↔ x ∈ xs ∧ x.1 ≠ t := by
  simp [drop]

/-- A call is answered, or it raises with or without its effect. -/
inductive Came (S : Settings) (t : ℕ) (i : Call) (s : Cluster) : Cluster → Answer i → Prop where
  | answered {c v r} (he : effect S t i c s = some (v, r)) : Came S t i s v r
  | lost {c v r e raising} (he : effect S t i c s = some (v, r)) (hi : i.raises = true) :
      Came S t i s { v with raising := raising } (.error e)
  | refused {e raising} (hi : i.raises = true) : Came S t i s { s with raising := raising } (.error e)

/-- What holds after the effect of a call, and without it, holds whatever the call comes to. -/
theorem Came.elim {P : Cluster → Prop} {r : Answer i} (h : Came S t i s v r)
    (raising : ∀ v f, P v → P { v with raising := f }) (refl : P s)
    (he : ∀ c v r, effect S t i c s = some (v, r) → P v) : P v := by
  cases h with
  | answered h => exact he _ _ _ h
  | lost h _ => exact raising _ _ (he _ _ _ h)
  | refused _ => exact raising _ _ refl

/-- A call is answered, or it raises, with its effect or without. -/
theorem exec_cases {r : Answer i} (he : exec S t i c s = some (s', r)) :
    ∃ v r₀, effect S t i c s = some (v, r₀) ∧
      ((r = r₀ ∧ s' = note t i r v ∧ (i.raises = true → s.raising t = none)) ∨
        ∃ e reached, s.raising t = some (e, reached) ∧ i.raises = true ∧ r = .error e ∧
          s' = note t i r { if reached then v else s with
            raising := Function.update s.raising t none }) := by
  unfold exec at he
  split at he
  · rename_i hnone
    obtain ⟨⟨v, r₀⟩, hv, hs⟩ := Option.map_eq_some_iff.mp he
    obtain ⟨rfl, rfl⟩ := Prod.mk.inj hs
    refine ⟨v, r₀, hv, Or.inl ⟨rfl, rfl, fun hi => ?_⟩⟩
    by_contra hsome
    obtain ⟨y, hy⟩ := Option.ne_none_iff_exists'.mp hsome
    exact Option.filter_eq_none_iff.mp hnone y hy hi
  · rename_i e reached hraising
    obtain ⟨hsome, hi⟩ := Option.filter_eq_some_iff.mp hraising
    obtain ⟨⟨v, r₀⟩, hv, hs⟩ := Option.map_eq_some_iff.mp he
    obtain ⟨rfl, rfl⟩ := Prod.mk.inj hs
    exact ⟨v, r₀, hv, Or.inr ⟨e, reached, hsome, hi, rfl, rfl⟩⟩

theorem exec_came {r : Answer i} (he : exec S t i c s = some (s', r)) :
    ∃ v, Came S t i s v r ∧ s' = note t i r v := by
  obtain ⟨v, r₀, hv, ⟨rfl, rfl, -⟩ | ⟨e, reached, -, hi, rfl, rfl⟩⟩ := exec_cases he
  · exact ⟨v, .answered hv, rfl⟩
  · cases reached with
    | true => exact ⟨_, .lost hv hi, rfl⟩
    | false => exact ⟨_, .refused hi, rfl⟩

/-- A transaction commits the row that it gives, or raises and changes nothing. -/
theorem transaction_cases {b : ℕ} {tx : Tx} {r : Except Raised Unit}
    (he : attendEffect S t b (.transaction tx) c s = (v, r)) :
    v = s ∧ r = .error (.exception none) ∧
        (∀ run, s.runs b = some run → ∃ e, tx.apply c.now run = .error e) ∨
      ∃ run run', s.runs b = some run ∧ tx.apply c.now run = .ok run' ∧ r = .ok () ∧
        v = if tx.joins then (s.setRun b (BotRun.flushed run c.now run')).join t b
          else s.setRun b (BotRun.flushed run c.now run') := by
  simp only [attendEffect] at he
  split at he
  · rename_i hrun
    obtain ⟨rfl, rfl⟩ := Prod.mk.inj he
    exact Or.inl ⟨rfl, rfl, fun run h => (Option.some_ne_none run (h.symm.trans hrun)).elim⟩
  · rename_i run hrun
    split at he
    · rename_i e happly
      obtain ⟨rfl, rfl⟩ := Prod.mk.inj he
      refine Or.inl ⟨rfl, rfl, fun run₁ h₁ => ⟨e, ?_⟩⟩
      obtain rfl := Option.some.inj (hrun.symm.trans h₁)
      exact happly
    · rename_i run' happly
      obtain ⟨hv, hr⟩ := Prod.mk.inj he
      exact Or.inr ⟨run, run', hrun, happly, hr.symm, hv.symm⟩

theorem cancel_cases {b : ℕ} {r : Answer (.cancel b)}
    (he : effect S t (.cancel b) c s = some (v, r)) : v = s ∨
      ∃ run run', s.runs b = some run ∧ run.cancel c.now = .ok run' ∧
        v = s.setRun b (BotRun.flushed run c.now run') := by
  simp only [effect] at he
  split at he
  · exact Or.inl (Prod.mk.inj (Option.some.inj he)).1.symm
  · rename_i run hrun
    split at he
    · exact Or.inl (Prod.mk.inj (Option.some.inj he)).1.symm
    · rename_i run' hcancel
      exact Or.inr ⟨run, run', hrun, hcancel, (Prod.mk.inj (Option.some.inj he)).1.symm⟩

/-- What a sweep does to a row. -/
structure Reaped (row run : BotRun) : Prop where
  id : run.id = row.id
  status : run.status = row.status ∨ run.status = .failed
  dispatch : run.dispatchStatus = row.dispatchStatus

theorem reaped_store {loaded run row : BotRun} {now : ℕ}
    (h : loaded.orphaned.advance .failed now = .ok run) :
    Reaped row (BotRun.store loaded run now row) := by
  have hrun : run.status = .failed ∧ run.dispatchStatus = loaded.dispatchStatus := by
    rcases BotRun.advance_ok h with ⟨rfl, hs, -⟩ | ⟨rfl, -⟩
    · exact ⟨hs, rfl⟩
    · exact ⟨rfl, rfl⟩
  constructor
  · rfl
  · have hstatus : (BotRun.store loaded run now row).status =
        if run.status = loaded.status then row.status else run.status := rfl
    rw [hstatus]
    split
    · exact Or.inl rfl
    · exact Or.inr hrun.1
  · exact if_pos hrun.2

section lists

variable {R : Cluster → Cluster → Prop} (refl : ∀ s, R s s)
  (trans : ∀ s₁ s₂ s₃, R s₁ s₂ → R s₂ s₃ → R s₁ s₃)
include refl trans

theorem reap_induct (now : ℕ) (loaded : List BotRun) (s : Cluster)
    (set : ∀ s b row run, s.runs b = some row → Reaped row run → R s (s.setRun b run)) :
    R s (s.reap now loaded) := by
  induction loaded generalizing s with
  | nil => exact refl s
  | cons x xs ih =>
    unfold Cluster.reap
    split
    · rename_i row run hrow hrun
      exact trans _ _ _ (set s x.id row _ hrow (reaped_store hrun)) (ih _)
    · exact ih s

theorem storeDispatch_induct (now : ℕ) (error : String) (results : List (ℕ × Bool)) (s : Cluster)
    (set : ∀ s b run, ∀ ok, (b, ok) ∈ results → s.runs b = some run →
      R s (s.setRun b (Cluster.dispatched ok now error run))) :
    R s (s.storeDispatch now error results) := by
  induction results generalizing s with
  | nil => exact refl s
  | cons x xs ih =>
    have htail := fun s => ih s fun s b run ok hm => set s b run ok (List.mem_cons_of_mem _ hm)
    unfold Cluster.storeDispatch
    split
    · rename_i run hrun
      exact trans _ _ _ (set s x.1 run x.2 List.mem_cons_self hrun) (htail _)
    · exact htail s

end lists

/-- Steps that change nothing that the executions know of each other. -/
structure Still (s s' : Cluster) : Prop where
  ledger : s'.ledger = s.ledger
  inside : s'.inside = s.inside
  attends : s'.attends = s.attends
  joinedBy : s'.joinedBy = s.joinedBy
  claims : s'.claims = s.claims
  failing : s'.failing = s.failing
  handling : s'.handling = s.handling
  leaving : s'.leaving = s.leaving
  pods : s'.pods = s.pods
  job : s'.job = s.job

theorem Still.refl (s : Cluster) : Still s s := ⟨rfl, rfl, rfl, rfl, rfl, rfl, rfl, rfl, rfl, rfl⟩

theorem Still.trans {s₁ s₂ s₃ : Cluster} (h : Still s₁ s₂) (k : Still s₂ s₃) : Still s₁ s₃ :=
  ⟨k.ledger.trans h.ledger, k.inside.trans h.inside, k.attends.trans h.attends,
    k.joinedBy.trans h.joinedBy, k.claims.trans h.claims, k.failing.trans h.failing,
    k.handling.trans h.handling, k.leaving.trans h.leaving, k.pods.trans h.pods, k.job.trans h.job⟩

theorem still_setRun (s : Cluster) (b : ℕ) (run : BotRun) : Still s (s.setRun b run) :=
  ⟨rfl, rfl, rfl, rfl, rfl, rfl, rfl, rfl, rfl, rfl⟩

theorem still_raising (f : ℕ → Option (Raised × Bool)) (h : Still s v) :
    Still s { v with raising := f } :=
  h.trans ⟨rfl, rfl, rfl, rfl, rfl, rfl, rfl, rfl, rfl, rfl⟩

/-- The calls that touch no reservation, no pod and no attend. -/
def Call.Plain : Call → Prop
  | .attend _ i => i.joins = false
  | .attended _ | .podEnded _ | .tryReserve _ _ | .releaseCapacity _ | .createJob _ | .deleteJob _
  | .sweepCapacity _ => False
  | _ => True

/-- The calls of which nothing is noted besides. -/
def Call.Unnoted : Call → Prop
  | .handling | .hasOtherReservation _ _ | .acquireLease | .isCancelled _ true | .ack _ => False
  | i => i.Plain

/-- The calls that only look. -/
def Call.Looks : Call → Prop
  | .attend _ .getRun | .uuid4 | .utcnow | .shutdown _ | .sleep | .isCancelled _ false
  | .releaseLease | .launchRuntime | .selectPending | .selectStale _ | .getBeat _ => True
  | _ => False

theorem unnoted_of_looks (h : i.Looks) : i.Unnoted := by
  unfold Call.Looks at h
  split at h
  · rfl
  all_goals trivial

theorem plain_of_unnoted (h : i.Unnoted) : i.Plain ∧ i ≠ .handling := by
  unfold Call.Unnoted at h
  split at h
  · exact h.elim
  · exact h.elim
  · exact h.elim
  · exact h.elim
  · exact h.elim
  · rename_i hhandling _ _ _ _
    exact ⟨h, hhandling⟩

theorem attendEffect_still {i : Runtime.Call} {r : Except Raised (Runtime.Reply i)}
    (hi : i.joins = false) (he : attendEffect S t b i c s = (v, r)) : Still s v := by
  cases i with
  | transaction tx =>
    rcases transaction_cases he with ⟨rfl, -⟩ | ⟨run, run', -, -, -, rfl⟩
    · exact .refl v
    · have hjoins : tx.joins = false := hi
      simp only [hjoins, Bool.false_eq_true, if_false]
      exact still_setRun s b _
  | getRun =>
    simp only [attendEffect] at he
    split at he
    · obtain ⟨rfl, -⟩ := Prod.mk.inj he
      exact .refl s
    · obtain ⟨rfl, -⟩ := Prod.mk.inj he
      exact .refl s
  | persistProfile =>
    obtain ⟨rfl, -⟩ := Prod.mk.inj he
    split
    · exact .refl s
    · exact ⟨rfl, rfl, rfl, rfl, rfl, rfl, rfl, rfl, rfl, rfl⟩
  | _ =>
    obtain ⟨rfl, -⟩ := Prod.mk.inj he
    exact ⟨rfl, rfl, rfl, rfl, rfl, rfl, rfl, rfl, rfl, rfl⟩

theorem effect_still {r : Answer i} (hi : i.Plain) (hne : i ≠ .handling)
    (he : effect S t i c s = some (v, r)) :
    Still s v := by
  cases i with
  | handling => exact (hne rfl).elim
  | attended | podEnded | tryReserve | releaseCapacity | createJob | deleteJob | sweepCapacity =>
    exact hi.elim
  | attend b i => exact attendEffect_still hi (Option.some.inj he)
  | waitTerminal b =>
    simp only [effect] at he
    split at he
    · obtain ⟨rfl, -⟩ := Prod.mk.inj (Option.some.inj he)
      exact .refl s
    · cases he
  | cancel b =>
    rcases cancel_cases he with rfl | ⟨run, run', -, -, rfl⟩
    · exact .refl v
    · exact still_setRun s b _
  | prepareLaunch b =>
    obtain ⟨rfl, -⟩ := Prod.mk.inj (Option.some.inj he)
    split
    · exact .refl s
    · exact ⟨rfl, rfl, rfl, rfl, rfl, rfl, rfl, rfl, rfl, rfl⟩
  | reap loaded =>
    obtain ⟨rfl, -⟩ := Prod.mk.inj (Option.some.inj he)
    exact reap_induct .refl (fun _ _ _ => .trans) c.now loaded s fun s b _ run _ _ =>
      still_setRun s b run
  | storeDispatch results =>
    obtain ⟨rfl, -⟩ := Prod.mk.inj (Option.some.inj he)
    exact storeDispatch_induct .refl (fun _ _ _ => .trans) c.now c.error results s fun s b _ _ _ _ =>
      still_setRun s b _
  | _ =>
    obtain ⟨rfl, -⟩ := Prod.mk.inj (Option.some.inj he)
    exact ⟨rfl, rfl, rfl, rfl, rfl, rfl, rfl, rfl, rfl, rfl⟩

/-- The environment ends jobs, or leaves alone what the executions know of each other. -/
theorem step_still {e : World} (h : e.step s = some s') :
    Still s s' ∨ ∃ b status, status ≠ some JobStatus.waiting ∧
      s' = { s with job := Function.update s.job b status } := by
  cases e with
  | endJob b =>
    simp only [World.step] at h
    split at h
    · exact Or.inr ⟨b, some .finished, nofun, (Option.some.inj h).symm⟩
    · cases h
  | removeJob b =>
    simp only [World.step] at h
    split at h
    · exact Or.inr ⟨b, none, nofun, (Option.some.inj h).symm⟩
    · cases h
  | write b run =>
    simp only [World.step] at h
    split at h
    · cases h
    · split at h
      · obtain rfl := Option.some.inj h
        exact Or.inl (still_setRun s b run)
      · cases h
  | create run =>
    simp only [World.step] at h
    split at h
    · obtain rfl := Option.some.inj h
      exact Or.inl ⟨rfl, rfl, rfl, rfl, rfl, rfl, rfl, rfl, rfl, rfl⟩
    · cases h
  | raise t e reached =>
    simp only [World.step] at h
    split at h
    · obtain rfl := Option.some.inj h
      exact Or.inl ⟨rfl, rfl, rfl, rfl, rfl, rfl, rfl, rfl, rfl, rfl⟩
    · cases h
  | beat t b =>
    simp only [World.step] at h
    split at h
    · obtain rfl := Option.some.inj h
      exact Or.inl ⟨rfl, rfl, rfl, rfl, rfl, rfl, rfl, rfl, rfl, rfl⟩
    · cases h
  | _ =>
    obtain rfl := Option.some.inj h
    exact Or.inl ⟨rfl, rfl, rfl, rfl, rfl, rfl, rfl, rfl, rfl, rfl⟩

theorem note_unnoted (h : i.Unnoted) (r : Answer i) (s : Cluster) : note t i r s = s := by
  unfold note
  split <;> first | rfl | exact h.elim

theorem exec_still {r : Answer i} (h : i.Unnoted) (he : exec S t i c s = some (s', r)) :
    Still s s' := by
  obtain ⟨hplain, hne⟩ := plain_of_unnoted h
  obtain ⟨v, hc, rfl⟩ := exec_came he
  rw [note_unnoted h]
  exact hc.elim (P := Still s) (fun _ f h => still_raising f h) (.refl s)
    fun _ _ _ he => effect_still hplain hne he

theorem effect_looks {r : Answer i} (h : i.Looks) (he : effect S t i c s = some (v, r)) : v = s := by
  unfold Call.Looks at h
  split at h
  · simp only [effect, attendEffect] at he
    split at he
    · exact (Prod.mk.inj (Option.some.inj he)).1.symm
    · exact (Prod.mk.inj (Option.some.inj he)).1.symm
  all_goals first | exact h.elim | exact (Prod.mk.inj (Option.some.inj he)).1.symm

theorem exec_looks {r : Answer i} (h : i.Looks) (he : exec S t i c s = some (s', r)) :
    ∃ f, s' = { s with raising := f } := by
  obtain ⟨v, hc, rfl⟩ := exec_came he
  rw [note_unnoted (unnoted_of_looks h)]
  cases hc with
  | answered heffect => exact ⟨s.raising, effect_looks h heffect⟩
  | @lost c v r e f heffect _ => exact ⟨f, by rw [effect_looks h heffect]⟩
  | @refused e f _ => exact ⟨f, rfl⟩

end Fakery.Worker
