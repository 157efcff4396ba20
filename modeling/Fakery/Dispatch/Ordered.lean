import Fakery.Dispatch.Ordering

/-! Every program of the dispatch knows what its calls need, whatever the others do meanwhile, so
that along every run no delivery overtakes another one of its stream. -/
namespace Fakery.Dispatch
open Fakery.Bots Fakery.Concurrent WebhookDelivery

variable {t : ℕ} {k : Op} {i : Call} {c : Outcome} {A : Table → Prop} {s s' : Table}
  {item : WebhookDelivery} {items : List WebhookDelivery}

/-- What the steps of the other threads, and those of the thread itself, leave true. -/
def Stable (A : Table → Prop) : Prop := ∀ s s', Rely s s' → A s → A s'

theorem stable_ready (items : List WebhookDelivery) : Stable fun s => ∀ d ∈ items, Ready s d :=
  fun _ _ hr h d hd => hr.ready d (h d hd)

theorem stable_true : Stable fun _ => True := fun _ _ _ _ => trivial

theorem Stable.answered (hA : Stable A) (n : ℕ) : Stable fun s => A s ∧ n ∈ s.answered :=
  fun s s' hr h => ⟨hA s s' hr h.1, hr.answered n h.2⟩

section calls

theorem wp_call {Q : Answer i → Table → Prop} (hA : Stable A) (hsafe : ∀ s, A s → Safe s i)
    (hQ : ∀ s₁ c s₂ r, Inv s₁ → exec t i c s₁ = some (s₂, r) → A s₂ → Q r s₂) (hs : A s) :
    ordering.wp t k (Prog.ask i) Q s := by
  intro s₁ hr hi _ c s₂ r he
  have hA₁ := hA s s₁ hr hs
  have hstep := steps_of_exec hi (hsafe s₁ hA₁) he
  exact ⟨hstep.allowed, hQ s₁ c s₂ r hi he (hA s₁ s₂ hstep.rely hA₁)⟩

theorem keeps_perform (hA : Stable A) (hsafe : ∀ s, A s → Safe s i) :
    ordering.Keeps t k A (perform i).run := by
  intro s hs
  have h := wp_call (t := t) (k := k) (Q := fun _ => A) hA hsafe (fun _ _ _ _ _ _ h => h) hs
  exact (Protocol.wp_perform i).mpr h

theorem keeps_pure {α : Type} (a : α) : ordering.Keeps t k A (pure a : Act α).run := fun _ => id

theorem keeps_throw {α : Type} (e : String) : ordering.Keeps t k A (throw e : Act α).run :=
  fun _ => id

/-- The calls that need nothing to be known. -/
def Harmless : Call → Prop
  | .update _ _ now => now.status ≠ .sent
  | .post _ => False
  | _ => True

theorem Harmless.safe (h : Harmless i) (s : Table) : Safe s i := by
  cases i with
  | update n loaded now => exact fun hsent => absurd hsent h
  | post item => exact h.elim
  | _ => trivial

theorem keeps_harmless (hA : Stable A) (h : Harmless i) : ordering.Keeps t k A (perform i).run :=
  keeps_perform hA fun s _ => h.safe s

theorem keeps_then {α : Type} {f : Answer i → Act α} (hA : Stable A) (h : Harmless i)
    (hf : ∀ r, ordering.Keeps t k A (f r).run) : ordering.Keeps t k A (perform i >>= f).run :=
  (keeps_harmless hA h).task_bind hf

end calls

section sender

theorem keeps_recordFailure (hA : Stable A) (token : ℕ) (response : Option Response)
    (error : String) : ordering.Keeps t k A (recordFailure item token response error).run := by
  refine keeps_then hA trivial fun found => ?_
  cases found with
  | none => exact keeps_pure _
  | some loaded =>
    simp only
    split_ifs
    · exact keeps_pure _
    · refine keeps_then hA trivial fun now => ?_
      exact keeps_then hA nofun fun _ => keeps_pure _
    · refine keeps_then hA trivial fun jitter => ?_
      refine keeps_then hA trivial fun now => ?_
      split_ifs
      · exact keeps_throw _
      · exact keeps_then hA nofun fun _ => keeps_pure _

/-- The row becomes a sent one after a response below 300 only. -/
theorem keeps_recordSent (hA : Stable A) (token : ℕ) :
    ordering.Keeps t k (fun s => A s ∧ item.id ∈ s.answered) (recordSent item token).run := by
  have hA' := hA.answered item.id
  refine keeps_then hA' trivial fun found => ?_
  cases found with
  | none => exact keeps_pure _
  | some loaded =>
    simp only
    split_ifs
    · refine keeps_then hA' trivial fun now => ?_
      have hupdate : ordering.Keeps t k (fun s => A s ∧ item.id ∈ s.answered)
          (perform (.update item.id loaded (sentRow now loaded))).run :=
        keeps_perform hA' fun s hs _ => hs.2
      exact hupdate.task_bind fun _ => keeps_pure _
    · exact keeps_pure _

theorem answered_of_response {r : Response} (h : exec t (.response item.id) c s = some (s', .ok r))
    (hr : r.statusCode < 300) : item.id ∈ s'.answered := by
  simp only [exec] at h
  split at h
  · cases (Prod.mk.inj (Option.some.inj h)).2
  · split_ifs at h with hlt
    · obtain ⟨rfl, -⟩ := Prod.mk.inj (Option.some.inj h)
      exact List.mem_append_right _ (List.mem_singleton_self _)
    · obtain ⟨-, heq⟩ := Prod.mk.inj (Option.some.inj h)
      cases heq
      exact absurd hr hlt

/-- When no outcome comes of the response, it was one below 300. -/
theorem wp_awaitResponse (hA : Stable A) (token : ℕ) (hs : A s) :
    ordering.wp t k (awaitResponse item token).run
      (fun r s => A s ∧ (r = .ok none → item.id ∈ s.answered)) s := by
  have hfail : ∀ (response : Option Response) (error : String), ordering.Keeps t k A
      (do let outcome ← recordFailure item token response error; pure (some outcome) : Act _).run :=
    fun response error => (keeps_recordFailure hA token response error).task_bind fun _ =>
      keeps_pure _
  have hsome : ∀ (response : Option Response) (error : String) s, A s → ordering.wp t k
      (do let outcome ← recordFailure item token response error; pure (some outcome) : Act _).run
      (fun r s => A s ∧ (r = .ok none → item.id ∈ s.answered)) s := by
    intro response error s hs
    refine Protocol.wp_task_bind.mpr (Protocol.wp_mono (keeps_recordFailure hA token response
      error s hs) fun r s hs => ?_)
    cases r with
    | ok outcome => exact ⟨hs, nofun⟩
    | error e => exact ⟨hs, nofun⟩
  refine Protocol.wp_except.mpr (Protocol.wp_perform_bind _ |>.mpr ?_)
  refine wp_call hA (fun _ _ => trivial) (fun s₁ c s₂ r hi he hs₂ => ?_) hs
  cases r with
  | error e => exact hsome none e s₂ hs₂
  | ok response =>
    simp only
    split_ifs with hge
    · refine Protocol.wp_mono (hsome (some response) _ s₂ hs₂) fun r s hs => ?_
      cases r with
      | ok outcome => exact hs
      | error e => exact hsome none e s hs.1
    · exact ⟨hs₂, fun _ => answered_of_response he (not_le.mp hge)⟩

theorem keeps_attempt (hA : Stable A) (hready : ∀ s, A s → Ready s item) :
    ordering.Keeps t k A (attempt item).run := by
  refine keeps_then hA trivial fun token => ?_
  refine keeps_then hA trivial fun got => ?_
  split_ifs
  · have hpost : ordering.Keeps t k A (perform (.post item)).run := keeps_perform hA hready
    refine hpost.task_bind fun _ s hs => ?_
    refine Protocol.wp_task_bind.mpr (Protocol.wp_mono (wp_awaitResponse hA token hs)
      fun r s hs => ?_)
    cases r with
    | error e => exact hs.1
    | ok outcome =>
      cases outcome with
      | some outcome => exact hs.1
      | none =>
        have hsent := keeps_recordSent (t := t) (k := k) hA token s ⟨hs.1, hs.2 rfl⟩
        exact Protocol.wp_mono hsent fun _ _ h => h.1
  · exact keeps_pure _

theorem keeps_sendItems (hA : Stable A) (hready : ∀ s, A s → ∀ d ∈ items, Ready s d)
    (summary : Summary) : ordering.Keeps t k A (sendItems summary items).run := by
  induction items generalizing summary with
  | nil => exact keeps_pure _
  | cons item items ih =>
    have hfirst := keeps_attempt (t := t) (k := k) hA fun s hs => hready s hs item List.mem_cons_self
    exact hfirst.task_bind fun outcome =>
      ih (fun s hs d hd => hready s hs d (List.mem_cons_of_mem _ hd)) (summary.count outcome)

theorem keeps_releaseLease (hA : Stable A) (stream : ℕ × ℕ) :
    ordering.Keeps t k A (releaseLease stream).run := by
  refine keeps_then hA trivial fun held => ?_
  split_ifs
  · exact keeps_harmless hA trivial
  · exact keeps_pure _

theorem keeps_ensuring {α : Type} {x : Act α} {cleanup : Act Unit}
    (hx : ordering.Keeps t k A x.run) (hc : ordering.Keeps t k A cleanup.run) :
    ordering.Keeps t k A (x.ensuring cleanup).run := by
  intro s hs
  refine Protocol.wp_ensuring.mpr (Protocol.wp_mono (hx s hs) fun r s hs => ?_)
  refine Protocol.wp_mono (hc s hs) fun e s hs => ?_
  cases e with
  | ok u => exact hs
  | error e => exact hs

theorem keeps_sendGroups (hA : Stable A) {groups : List Group}
    (hready : ∀ s, A s → ∀ g ∈ groups, ∀ d ∈ g.2, Ready s d) (summary : Summary) :
    ordering.Keeps t k A (sendGroups summary groups).run := by
  induction groups generalizing summary with
  | nil => exact keeps_pure _
  | cons g groups ih =>
    have htail := fun s hs g hg => hready s hs g (List.mem_cons_of_mem _ hg)
    refine keeps_then hA trivial fun acquired => ?_
    split_ifs
    · have hitems := keeps_sendItems (t := t) (k := k) hA
        (fun s hs => hready s hs g List.mem_cons_self) summary
      exact (keeps_ensuring hitems (keeps_releaseLease hA g.1)).task_bind fun summary =>
        ih htail summary
    · exact ih htail summary

theorem keeps_purge (hA : Stable A) (moment : ℕ) : ordering.Keeps t k A (purge moment).run := by
  refine keeps_then hA trivial fun rows => ?_
  exact keeps_then hA trivial fun _ => keeps_pure _

/-- The rows before one that is ready were answered, skipped or purged by the time of the query. -/
theorem ready_of_selected {moment : ℕ} (hi : Inv s)
    (hd : item ∈ readyDeliveries (selectOpen s.rows) moment) : Ready s item := by
  obtain ⟨hmem, hfirst⟩ := ready_first hd
  refine ⟨hi.rows item hmem, fun e he hst hlt _ => ?_⟩
  rcases hi.present e he with hp | ⟨d, hd, hs⟩
  · exact Or.inr (Or.inr hp)
  · have hclosed := hfirst d hd (hs.stream.symm.trans hst) (hs.sequence ▸ hlt)
    unfold WebhookDelivery.isOpen at hclosed
    rw [Done, hs.id]
    cases hstatus : d.status with
    | sent => exact Or.inl (hi.sent d hd hstatus)
    | skipped => exact Or.inr (Or.inl (hi.skipped d hd hstatus))
    | pending | retry | dead => simp [hstatus] at hclosed

theorem wp_runOnce : ordering.wp t k runOnce.run (fun _ _ => True) s := by
  refine Protocol.wp_perform_bind _ |>.mpr ?_
  refine wp_call stable_true (fun _ _ => trivial) (fun s₁ c s₂ moment _ _ _ => ?_) trivial
  refine Protocol.wp_perform_bind _ |>.mpr ?_
  refine wp_call stable_true (fun _ _ => trivial) (fun s₁ c s₂ rows hi he _ => ?_) trivial
  obtain ⟨rfl, rfl⟩ := Prod.mk.inj (Option.some.inj he)
  generalize hready : readyDeliveries (selectOpen s₁.rows) moment = ready
  have hA := stable_ready ready
  have hs : ∀ d ∈ ready, Ready s₁ d := fun d hd => ready_of_selected hi (hready ▸ hd)
  have hsend : ∀ s, (∀ d ∈ ready, Ready s d) → ∀ g ∈ groupByStream ready, ∀ d ∈ g.2, Ready s d :=
    fun s hs g hg d hd => hs d ((grouped_groupByStream ready).sound g hg d hd).1
  have hgroups := keeps_sendGroups (t := t) (k := k) hA hsend {}
  have hrest := hgroups.task_bind fun summary => (keeps_purge hA moment).task_bind fun purged =>
    keeps_pure { summary with purged := purged }
  exact Protocol.wp_mono (hrest s₁ hs) fun _ _ _ => trivial

end sender

section others

theorem keeps_replayDelivery (n : ℕ) :
    ordering.Keeps t k (fun _ => True) (replayDelivery n).run := by
  refine keeps_then stable_true trivial fun found => ?_
  cases found with
  | none => exact keeps_pure _
  | some loaded =>
    refine keeps_then stable_true trivial fun now => ?_
    exact keeps_then stable_true nofun fun _ => keeps_pure _

theorem keeps_skipDelivery (n : ℕ) :
    ordering.Keeps t k (fun _ => True) (skipDelivery n).run := by
  refine keeps_then stable_true trivial fun found => ?_
  cases found with
  | none => exact keeps_pure _
  | some loaded =>
    refine keeps_then stable_true trivial fun now => ?_
    exact keeps_then stable_true nofun fun _ => keeps_pure _

theorem keeps_emitEvents (payloads : List Payload) :
    ordering.Keeps t k (fun _ => True) (emitEvents payloads).run := by
  induction payloads with
  | nil => exact keeps_harmless stable_true trivial
  | cons payload payloads ih => exact keeps_then stable_true trivial fun _ => ih

theorem wp_prog (op : Op) : ordering.wp t k op.prog (fun _ _ => True) s := by
  have hact : ordering.wp t k op.act.run (fun _ _ => True) s := by
    cases op with
    | runOnce =>
      refine Protocol.wp_task_bind.mpr (Protocol.wp_mono wp_runOnce fun r _ _ => ?_)
      cases r <;> trivial
    | replay n => exact (keeps_replayDelivery n).task_bind (fun _ => keeps_pure ()) s trivial
    | skip n => exact (keeps_skipDelivery n).task_bind (fun _ => keeps_pure ()) s trivial
    | emit payloads => exact keeps_emitEvents payloads s trivial
  exact Protocol.wp_bind.mpr hact

end others

theorem sound : ordering.Sound where
  idle _ h := h
  final _ h := h
  start hi _ _ hb := by
    cases Option.some.inj hb
    exact ⟨(Steps.refl hi).allowed, wp_prog _⟩
  kill {t s} hi _ := by
    refine ⟨?_, trivial⟩
    simp only [dispatch]
    split_ifs
    · exact (steps_rollback hi).allowed
    · exact (Steps.refl hi).allowed
  env {e s s'} hi _ he := by
    have hsteps : Steps s s' := by
      cases e with
      | subscribe w =>
        cases Option.some.inj he
        exact steps_of_same hi rfl rfl (fun _ => id) rfl rfl rfl (effect_of_posted rfl)
      | unsubscribe n =>
        simp only [dispatch, World.step] at he
        split_ifs at he
        cases Option.some.inj he
        exact steps_of_same hi rfl rfl (fun _ => id) rfl rfl rfl (effect_of_posted rfl)
      | expire stream =>
        cases Option.some.inj he
        exact steps_of_same hi rfl rfl (fun _ => id) rfl rfl rfl (effect_of_posted rfl)
    exact ⟨hsteps.inv, fun _ => hsteps.rely⟩

theorem inv_init : Inv {} := by
  constructor <;> simp

/-- Along every run, when the POST of a delivery starts. -/
theorem delivered_in_order {es : List (Event Op Outcome World)} {σ σ' : dispatch.State}
    (hr : dispatch.run (dispatch.init {}) es = some σ) (hs : dispatch.step σ (.step t c) = some σ')
    (hp : σ'.shared.posted = σ.shared.posted ++ [item]) : Cleared σ.shared item := by
  have hfree := dispatch.free_meets (dispatch.init {}) (es ++ [.step t c])
  have hholds := sound.run (Protocol.holds_init inv_init fun _ => trivial)
    (dispatch.free_meets _ es) hr
  have hadmits : ordering.cond.Admits σ (.step t c) := (hfree.of_append hr).2.1
  exact hholds.effect hadmits hs item hp

section runs

instance (s : Table) (n : ℕ) : Decidable (Done s n) := inferInstanceAs (Decidable (_ ∨ _))

def calls (t : ℕ) (cs : List Outcome) : List (Event Op Outcome World) := cs.map (.step t)

/-- Two events of one bot under one subscription. -/
def emitTwo : List (Event Op Outcome World) :=
  [.env (.subscribe ⟨7, "https://hooks.example/a"⟩),
    .start 0 (.emit [.statusChanged 0 .queued 20, .statusChanged 0 .joining 21])] ++
  calls 0 [{ ids := [10] }, { ids := [11] }, {}]

/-- The first one is answered, and the sender comes back for the second. -/
def sentFirst : List (Event Op Outcome World) :=
  emitTwo ++ .start 1 .runOnce :: calls 1 (List.replicate 13 {}) ++
    .start 2 .runOnce :: calls 2 (List.replicate 5 {})

/-- A month and a day. -/
def later : ℕ := 31 * 86400 * SECOND

/-- A sender stalls before the POST of the second delivery. Meanwhile it is skipped like the first,
both are purged, and the next event is the first of its stream again. -/
def purgedMeanwhile : List (Event Op Outcome World) :=
  emitTwo ++ .start 1 (.skip 10) :: calls 1 (List.replicate 3 {}) ++
    .start 2 .runOnce :: calls 2 (List.replicate 5 {}) ++
    .start 3 (.skip 11) :: calls 3 (List.replicate 3 {}) ++
    .start 4 .runOnce :: calls 4 ({ number := later } :: List.replicate 3 {}) ++
    .start 5 (.emit [.statusChanged 0 .joined 22]) :: calls 5 [{ ids := [12] }, {}]

/-- A POST starts although a row of the stream with a smaller sequence is not done with. -/
def Overtakes (s s' : Table) : Prop :=
  ∃ item ∈ s'.posted, s'.posted = s.posted ++ [item] ∧ ∃ e ∈ s.emitted,
    e.row.stream = item.stream ∧ e.row.sequence < item.sequence ∧ ¬Done s e.row.id

def PostsSecond (s s' : Table) : Prop :=
  ∃ item ∈ s'.posted, s'.posted = s.posted ++ [item] ∧ item.sequence = 2

instance : DecidableRel Overtakes := fun s s' =>
  inferInstanceAs (Decidable (∃ item ∈ s'.posted, _ ∧ ∃ e ∈ s.emitted, _ ∧ _ ∧ ¬_))

instance : DecidableRel PostsSecond := fun _ s' =>
  inferInstanceAs (Decidable (∃ item ∈ s'.posted, _ ∧ _))

theorem exists_step (es : List (Event Op Outcome World)) (P : Table → Table → Prop)
    [DecidableRel P] (h : ((dispatch.run (dispatch.init {}) es).bind fun σ =>
      (dispatch.step σ (.step t c)).map fun σ' => decide (P σ.shared σ'.shared)) = some true) :
    ∃ σ σ', dispatch.run (dispatch.init {}) es = some σ ∧
      dispatch.step σ (.step t c) = some σ' ∧ P σ.shared σ'.shared := by
  obtain ⟨σ, hr, h⟩ := Option.bind_eq_some_iff.mp h
  obtain ⟨σ', hs, h⟩ := Option.map_eq_some_iff.mp h
  exact ⟨σ, σ', hr, hs, of_decide_eq_true h⟩

theorem delivered_in_order_sentFirst : ∃ σ σ' item,
    dispatch.run (dispatch.init {}) sentFirst = some σ ∧
      dispatch.step σ (.step 2 {}) = some σ' ∧ σ'.shared.posted = σ.shared.posted ++ [item] ∧
        item.sequence = 2 ∧ Cleared σ.shared item := by
  obtain ⟨σ, σ', hr, hs, item, -, hp, hseq⟩ :=
    exists_step (t := 2) (c := {}) sentFirst PostsSecond (by decide +kernel)
  exact ⟨σ, σ', item, hr, hs, hp, hseq, delivered_in_order hr hs hp⟩

/-- Sequences start again once a stream has no rows left. -/
theorem not_delivered_in_order : ¬∀ es σ σ' t c item,
    dispatch.run (dispatch.init {}) es = some σ → dispatch.step σ (.step t c) = some σ' →
      σ'.shared.posted = σ.shared.posted ++ [item] → ∀ e ∈ σ.shared.emitted,
        e.row.stream = item.stream → e.row.sequence < item.sequence → Done σ.shared e.row.id := by
  intro h
  obtain ⟨σ, σ', hr, hs, item, -, hp, e, he, hst, hlt, hdone⟩ :=
    exists_step (t := 2) (c := {}) purgedMeanwhile Overtakes (by decide +kernel)
  exact hdone (h purgedMeanwhile σ σ' 2 {} item hr hs hp e he hst hlt)

end runs

end Fakery.Dispatch
