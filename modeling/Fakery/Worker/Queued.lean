import Fakery.Worker.Onward

/-! Who answers for a queued run: an entry that is not acknowledged or an execution that goes on.
The condition under which no execution abandons such a run. -/
namespace Fakery.Worker
open Fakery.Bots Fakery.Concurrent Fakery.Runtime

namespace Cluster

variable (s : Cluster)

def undispatched (b : ℕ) : Bool := (s.runs b).any fun run => run.dispatchStatus = "pending"

/-- A queued run is to be dispatched, has an entry that is not acknowledged, or is executed. -/
def Found (b : ℕ) : Prop := s.queued b = true →
  s.undispatched b = true ∨ (∃ e ∈ s.entries, e.bot = b ∧ e.acked = false) ∨
    ∃ c ∈ s.claims, c.bot = b

/-- The entry is not acknowledged, and nobody who has been turned away is about to do it. -/
def Stands (e : Entry) : Prop :=
  e.acked = false ∧ ∀ c ∈ s.claims, c.entry = e.id → c.thread ∉ s.leaving

/-- An execution of `b` by another thread than `t` goes on. -/
def Elsewhere (t b : ℕ) : Prop := ∃ c ∈ s.claims, c.bot = b ∧ c.thread ≠ t ∧ c.thread ∉ s.leaving

def Guarded (b : ℕ) : Prop :=
  (∃ e ∈ s.entries, e.bot = b ∧ s.Stands e) ∨ ∃ c ∈ s.claims, c.bot = b ∧ c.thread ∉ s.leaving

/-- A run that is there and not queued. -/
def Dequeued (b : ℕ) : Prop := (s.runs b).isSome = true ∧ s.queued b = false

instance (e : Entry) : Decidable (s.Stands e) :=
  inferInstanceAs (Decidable (e.acked = false ∧
    ∀ c ∈ s.claims, c.entry = e.id → c.thread ∉ s.leaving))

instance (t b : ℕ) : Decidable (s.Elsewhere t b) :=
  inferInstanceAs (Decidable (∃ c ∈ s.claims, c.bot = b ∧ c.thread ≠ t ∧ c.thread ∉ s.leaving))

end Cluster

/-- The transactions after which a run is not queued. -/
def dequeues : Tx → Bool
  | .advance .joining | .failRun _ => true
  | _ => false

def Call.dequeues (b : ℕ) : Call → Bool
  | .attend b' (.transaction tx) => b' = b && Worker.dequeues tx
  | _ => false

def cancels : Raised → Bool
  | .cancelled => true
  | .exception _ => false

/-- The call raises what no `except` clause catches any more, and the run stays queued. -/
def Cluster.escapes (s : Cluster) (t b : ℕ) (i : Call) : Bool :=
  i.raises && (s.raising t).any fun x => (cancels x.1 || t ∈ s.handling) && !(x.2 && i.dequeues b)

/-- With this call the execution of `b` by `t` ends, and neither fails the run nor leaves it to
another execution. -/
def Cluster.abandons (s : Cluster) (t b : ℕ) (i : Call) : Bool :=
  s.escapes t b i || match i with
    | .shutdown worker => s.sigterm worker
    | .hasOtherReservation b' owner =>
      (s.raising t).isNone && s.ledger.hasOther b' owner && !decide (s.Elsewhere t b)
    | _ => false

/-- No execution abandons a run that is still queued, and none dies whose entry does not stand,
unless another one goes on. -/
def unbroken (S : Settings) : (cluster S).Condition where
  call t _ i s := ∀ c ∈ s.claims, c.thread = t → t ∉ s.leaving → s.queued c.bot = true →
    s.abandons t c.bot i = false
  kill t s := ∀ c ∈ s.claims, c.thread = t → t ∉ s.leaving → s.queued c.bot = true →
    (∃ e ∈ s.entries, e.id = c.entry ∧ s.Stands e) ∨ s.Elsewhere t c.bot

instance (S : Settings) (t : ℕ) (k : Role) (s : Cluster) : Decidable ((unbroken S).start t k s) :=
  isTrue trivial

instance (S : Settings) (t : ℕ) (k : Role) (i : Call) (s : Cluster) :
    Decidable ((unbroken S).call t k i s) :=
  inferInstanceAs (Decidable (∀ c ∈ s.claims, c.thread = t → t ∉ s.leaving → s.queued c.bot = true →
    s.abandons t c.bot i = false))

instance (S : Settings) (t : ℕ) (s : Cluster) : Decidable ((unbroken S).kill t s) :=
  inferInstanceAs (Decidable (∀ c ∈ s.claims, c.thread = t → t ∉ s.leaving → s.queued c.bot = true →
    (∃ e ∈ s.entries, e.id = c.entry ∧ s.Stands e) ∨ s.Elsewhere t c.bot))

instance (S : Settings) (e : World) (s : Cluster) : Decidable ((unbroken S).env e s) :=
  isTrue trivial

variable {S : Settings} {t u b : ℕ} {i : Call} {c : Outcome} {s s' v : Cluster} {E : ℕ → Prop}
  {run run' : BotRun}

structure Accounted (s : Cluster) : Prop where
  guarded : ∀ b, s.queued b = true → s.undispatched b = true ∨ s.Guarded b
  cancelled : ∀ b, s.cancelKey b = true → s.Dequeued b
  ids : ∀ b run, s.runs b = some run → run.id = b
  entries : ∀ e ∈ s.entries, e.id < s.entries.length ∧ (s.runs e.bot).isSome = true
  bots : ∀ e ∈ s.entries, ∀ e' ∈ s.entries, e.id = e'.id → e.bot = e'.bot
  claims : ∀ c ∈ s.claims, ∃ e ∈ s.entries, e.id = c.entry ∧ e.bot = c.bot

/-- What the others do between two calls of `t`. -/
structure Guarding (t : ℕ) (s s' : Cluster) : Prop where
  onward : Onward (fun _ => True) s s'
  claims : ∀ c : Claim, c.thread = t → (c ∈ s'.claims ↔ c ∈ s.claims)
  leaving : t ∈ s'.leaving ↔ t ∈ s.leaving
  handling : t ∈ s'.handling ↔ t ∈ s.handling
  guarded : ∀ b, (s.runs b).isSome = true → (s.queued b = true → s.Guarded b) →
    s'.queued b = true → s'.Guarded b

/-- Steps that leave the stream, the executions and the requests to cancel alone. -/
structure Keeping (E : ℕ → Prop) (s s' : Cluster) : Prop where
  onward : Onward E s s'
  absent : ∀ b, s.runs b = none → s'.runs b = none
  entries : s'.entries = s.entries
  claims : s'.claims = s.claims
  leaving : s'.leaving = s.leaving
  handling : s'.handling = s.handling
  cancelled : ∀ b, s'.cancelKey b = true → s.cancelKey b = true

theorem Cluster.Found.of_accounted (hi : Accounted s) (b : ℕ) : s.Found b := by
  intro hq
  rcases hi.guarded b hq with hpending | ⟨e, he, hbot, hstands⟩ | ⟨c, hc, hbot, -⟩
  · exact Or.inl hpending
  · exact Or.inr (Or.inl ⟨e, he, hbot, hstands.1⟩)
  · exact Or.inr (Or.inr ⟨c, hc, hbot⟩)

section keeping

theorem Onward.mono {F : ℕ → Prop} (h : Onward E s s') (hEF : ∀ b, E b → F b) : Onward F s s' := by
  intro b run hrun
  obtain ⟨run', hrun', hf, hd⟩ := h b run hrun
  exact ⟨run', hrun', hf, hd.imp id (hEF b)⟩

theorem keeping_of_eq (hr : s'.runs = s.runs) (he : s'.entries = s.entries)
    (hc : s'.claims = s.claims) (hl : s'.leaving = s.leaving) (hh : s'.handling = s.handling)
    (hk : s'.cancelKey = s.cancelKey) : Keeping E s s' :=
  ⟨onward_of_runs hr, fun _ h => hr ▸ h, he, hc, hl, hh, fun _ h => hk ▸ h⟩

theorem Keeping.refl (s : Cluster) : Keeping E s s := keeping_of_eq rfl rfl rfl rfl rfl rfl

theorem Keeping.trans {s₁ s₂ s₃ : Cluster} (h : Keeping E s₁ s₂) (k : Keeping E s₂ s₃) :
    Keeping E s₁ s₃ :=
  ⟨h.onward.trans k.onward, fun b hb => k.absent b (h.absent b hb), k.entries.trans h.entries,
    k.claims.trans h.claims, k.leaving.trans h.leaving, k.handling.trans h.handling,
    fun b hb => h.cancelled b (k.cancelled b hb)⟩

theorem keeping_setRun (hrun : s.runs b = some run) (hf : Follows run run')
    (hd : run'.dispatchStatus = run.dispatchStatus ∨ E b) : Keeping E s (s.setRun b run') := by
  refine ⟨onward_setRun hrun hf hd, fun b' hb' => ?_, rfl, rfl, rfl, rfl, fun _ => id⟩
  have hne : b' ≠ b := by
    rintro rfl
    cases hrun.symm.trans hb'
  exact (Function.update_of_ne hne _ _).trans hb'

theorem keeping_moves {moment : ℕ} (hrun : s.runs b = some run) (hm : Moves run run') :
    Keeping E s (s.setRun b (BotRun.flushed run moment run')) :=
  keeping_setRun hrun (follows_of_moves hm.flushed) (Or.inl hm.flushed.dispatch)

theorem Keeping.raising (f : ℕ → Option (Raised × Bool)) (h : Keeping E s v) :
    Keeping E s { v with raising := f } := h.trans (keeping_of_eq rfl rfl rfl rfl rfl rfl)

/-- The calls that leave the stream, the executions and the requests to cancel alone. -/
def Call.Keeps : Call → Prop
  | .handling | .hasOtherReservation _ _ | .ack _ | .xadd _ | .requestCancel _ => False
  | _ => True

/-- Those of them that dispatch no run. -/
def Call.Neutral : Call → Prop
  | .storeDispatch _ => False
  | i => i.Keeps

theorem keeps_of_neutral (h : i.Neutral) : i.Keeps ∧ ∀ b, ¬i.enqueues b := by
  cases i with
  | storeDispatch results => exact h.elim
  | _ => exact ⟨h, fun _ hb => hb⟩

theorem attendEffect_keeping {j : Runtime.Call} {r : Except Raised (Runtime.Reply j)}
    (he : attendEffect S t b j c s = (v, r)) : Keeping E s v := by
  cases j with
  | transaction tx =>
    rcases transaction_cases he with ⟨rfl, -⟩ | ⟨run, run', hrun, happly, -, rfl⟩
    · exact .refl v
    · have hset : Keeping E s (s.setRun b (BotRun.flushed run c.now run')) :=
        keeping_moves hrun (moves_apply happly)
      split
      · exact hset.trans (keeping_of_eq rfl rfl rfl rfl rfl rfl)
      · exact hset
  | getRun =>
    obtain rfl := effect_looks (S := S) (i := .attend b .getRun) trivial (congrArg some he)
    exact .refl v
  | persistProfile =>
    obtain ⟨rfl, -⟩ := Prod.mk.inj he
    split
    · exact .refl s
    · exact keeping_of_eq rfl rfl rfl rfl rfl rfl
  | _ =>
    obtain ⟨rfl, -⟩ := Prod.mk.inj he
    exact keeping_of_eq rfl rfl rfl rfl rfl rfl

theorem effect_keeping {r : Answer i} (hi : i.Keeps) (he : effect S t i c s = some (v, r)) :
    Keeping i.enqueues s v := by
  cases i with
  | handling | hasOtherReservation | ack | xadd | requestCancel => exact hi.elim
  | attend b j => exact attendEffect_keeping (Option.some.inj he)
  | cancel b =>
    rcases cancel_cases he with rfl | ⟨run, run', hrun, hcancel, rfl⟩
    · exact .refl v
    · exact keeping_moves hrun (moves_cancel hcancel)
  | reap loaded =>
    obtain ⟨rfl, -⟩ := Prod.mk.inj (Option.some.inj he)
    refine reap_induct .refl (fun _ _ _ => .trans) c.now loaded s fun s b row run hrow hr => ?_
    exact keeping_setRun hrow hr.follows (Or.inl hr.dispatch)
  | storeDispatch results =>
    obtain ⟨rfl, -⟩ := Prod.mk.inj (Option.some.inj he)
    refine storeDispatch_induct .refl (fun _ _ _ => .trans) c.now c.error results s
      fun s b run ok hm hrun => ?_
    cases ok with
    | true => exact keeping_setRun hrun ⟨rfl, id, id⟩ (Or.inr hm)
    | false => exact keeping_setRun hrun ⟨rfl, id, id⟩ (Or.inl rfl)
  | createJob b | deleteJob b =>
    simp only [effect] at he
    split at he
    · obtain ⟨rfl, -⟩ := Prod.mk.inj (Option.some.inj he)
      exact .refl s
    · obtain ⟨rfl, -⟩ := Prod.mk.inj (Option.some.inj he)
      exact keeping_of_eq rfl rfl rfl rfl rfl rfl
  | waitTerminal b =>
    simp only [effect] at he
    split at he
    · obtain ⟨rfl, -⟩ := Prod.mk.inj (Option.some.inj he)
      exact .refl s
    · cases he
  | prepareLaunch b =>
    obtain ⟨rfl, -⟩ := Prod.mk.inj (Option.some.inj he)
    split
    · exact .refl s
    · exact keeping_of_eq rfl rfl rfl rfl rfl rfl
  | _ =>
    obtain ⟨rfl, -⟩ := Prod.mk.inj (Option.some.inj he)
    exact keeping_of_eq rfl rfl rfl rfl rfl rfl

theorem keeping_note (hi : i.Keeps) (r : Answer i) (s : Cluster) : Keeping E s (note t i r s) := by
  unfold note
  split
  · exact keeping_of_eq rfl rfl rfl rfl rfl rfl
  · exact hi.elim
  · exact hi.elim
  · exact keeping_of_eq rfl rfl rfl rfl rfl rfl
  · exact keeping_of_eq rfl rfl rfl rfl rfl rfl
  · exact keeping_of_eq rfl rfl rfl rfl rfl rfl
  · exact hi.elim
  · exact .refl s

theorem exec_keeping {r : Answer i} (hi : i.Keeps) (he : exec S t i c s = some (s', r)) :
    Keeping i.enqueues s s' := by
  obtain ⟨v, hc, rfl⟩ := exec_came he
  have hv : Keeping i.enqueues s v := hc.elim (P := Keeping i.enqueues s)
    (fun v f h => h.raising f) (.refl s) fun _ _ _ he => effect_keeping hi he
  exact hv.trans (keeping_note hi r v)

end keeping

end Fakery.Worker
