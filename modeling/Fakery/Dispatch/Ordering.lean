import Fakery.Dispatch.Selection
import Fakery.Dispatch.Sender

/-! A delivery is not sent before those that come before it in its stream are done with. -/
namespace Fakery.Dispatch
open Fakery.Bots Fakery.Concurrent WebhookDelivery

/-- Answered with a status below 300, skipped or purged. -/
def Done (s : Table) (id : ℕ) : Prop := id ∈ s.answered ∨ id ∈ s.skipped ∨ id ∈ s.purged

/-- Every row of the stream with a smaller sequence is done with, those apart that were emitted
after the row itself had been purged. -/
def Cleared (s : Table) (item : WebhookDelivery) : Prop :=
  ∀ e ∈ s.emitted, e.row.stream = item.stream → e.row.sequence < item.sequence →
    item.id ∉ e.removed → Done s e.row.id

/-- Two versions of one row. -/
structure Same (d e : WebhookDelivery) : Prop where
  id : d.id = e.id
  stream : d.stream = e.stream
  sequence : d.sequence = e.sequence

structure Ready (s : Table) (item : WebhookDelivery) : Prop where
  known : ∃ e ∈ s.emitted, Same e.row item
  cleared : Cleared s item

structure Inv (s : Table) : Prop where
  rows : ∀ d ∈ s.rows, ∃ e ∈ s.emitted, Same e.row d
  present : ∀ e ∈ s.emitted, e.row.id ∈ s.purged ∨ ∃ d ∈ s.rows, Same e.row d
  sent : ∀ d ∈ s.rows, d.status = .sent → d.id ∈ s.answered
  skipped : ∀ d ∈ s.rows, d.status = .skipped → d.id ∈ s.skipped
  staged : ∀ f ∈ s.staged, f.row.status = .pending ∧ ∀ e ∈ s.emitted,
    e.row.stream = f.row.stream → e.row.id ∉ f.removed → e.row.sequence < f.row.sequence

structure Rely (s s' : Table) : Prop where
  ready : ∀ item, Ready s item → Ready s' item
  answered : ∀ id ∈ s.answered, id ∈ s'.answered

/-- What a thread has to know before a call. -/
def Safe (s : Table) : Call → Prop
  | .update n _ now => now.status = .sent → n ∈ s.answered
  | .post item => Ready s item
  | _ => True

/-- What is known of a delivery whose POST starts. -/
def Effect (s s' : Table) : Prop := ∀ item, s'.posted = s.posted ++ [item] → Cleared s item

def ordering : Protocol dispatch where
  inv := Inv
  rely _ := Rely
  effect _ := Effect
  rely_refl _ _ := ⟨fun _ => id, fun _ => id⟩
  rely_trans _ _ _ _ h h' := ⟨fun item hi => h'.ready item (h.ready item hi),
    fun id hi => h'.answered id (h.answered id hi)⟩

variable {t : ℕ} {k : Op} {i : Call} {c : Outcome} {s s' : Table} {d item : WebhookDelivery}

section steps

theorem Same.refl (d : WebhookDelivery) : Same d d := ⟨rfl, rfl, rfl⟩

theorem Same.trans {e f : WebhookDelivery} (h : Same d e) (h' : Same e f) : Same d f :=
  ⟨h.id.trans h'.id, h.stream.trans h'.stream, h.sequence.trans h'.sequence⟩

theorem same_store (loaded now row : WebhookDelivery) : Same row (store loaded now row) :=
  ⟨rfl, rfl, rfl⟩

theorem Done.mono (h : Done s d.id) (ha : ∀ id ∈ s.answered, id ∈ s'.answered)
    (hs : ∀ id ∈ s.skipped, id ∈ s'.skipped) (hp : ∀ id ∈ s.purged, id ∈ s'.purged) :
    Done s' d.id := h.imp (ha _) fun h => h.imp (hs _) (hp _)

/-- A step that emits nothing and takes nothing back. -/
theorem rely_of_emitted (he : s'.emitted = s.emitted)
    (ha : ∀ id ∈ s.answered, id ∈ s'.answered) (hs : ∀ id ∈ s.skipped, id ∈ s'.skipped)
    (hp : ∀ id ∈ s.purged, id ∈ s'.purged) : Rely s s' := by
  refine ⟨fun item h => ⟨he ▸ h.known, fun e hmem hst hlt hrem => ?_⟩, ha⟩
  exact (h.cleared e (he ▸ hmem) hst hlt hrem).mono ha hs hp

theorem effect_of_posted (h : s'.posted = s.posted) : Effect s s' := by
  intro item hp
  have hlen := congrArg List.length (h.symm.trans hp)
  simp at hlen

/-- A step on the rows that keeps each row what it was and gives no status without its cause. -/
theorem Inv.setRow (h : Inv s) {id : ℕ} {f : WebhookDelivery → WebhookDelivery}
    {skipped : List ℕ} (hf : ∀ d ∈ s.rows, Same d (f d)) (hsub : ∀ id ∈ s.skipped, id ∈ skipped)
    (hsent : ∀ d ∈ s.rows, d.id = id → (f d).status = .sent → d.status = .sent ∨ id ∈ s.answered)
    (hskip : ∀ d ∈ s.rows, d.id = id → (f d).status = .skipped →
      d.status = .skipped ∨ id ∈ skipped) :
    Inv { s.setRow id f with skipped := skipped } := by
  refine ⟨fun d hd => ?_, fun e he => ?_, fun d hd hst => ?_, fun d hd hst => ?_, h.staged⟩
  · obtain ⟨x, hx, rfl⟩ := List.mem_map.mp hd
    obtain ⟨e, he, hs⟩ := h.rows x hx
    split_ifs
    · exact ⟨e, he, hs.trans (hf x hx)⟩
    · exact ⟨e, he, hs⟩
  · refine (h.present e he).imp_right fun ⟨x, hx, hs⟩ => ⟨_, List.mem_map_of_mem hx, ?_⟩
    split_ifs
    · exact hs.trans (hf x hx)
    · exact hs
  · obtain ⟨x, hx, rfl⟩ := List.mem_map.mp hd
    split_ifs at hst ⊢ with hid
    · rw [← (hf x hx).id]
      rcases hsent x hx hid hst with hst | hans
      · exact h.sent x hx hst
      · exact hid ▸ hans
    · exact h.sent x hx hst
  · obtain ⟨x, hx, rfl⟩ := List.mem_map.mp hd
    split_ifs at hst ⊢ with hid
    · rw [← (hf x hx).id]
      rcases hskip x hx hid hst with hst | hans
      · exact hsub _ (h.skipped x hx hst)
      · exact hid ▸ hans
    · exact hsub _ (h.skipped x hx hst)

/-- What a step keeps. -/
structure Steps (s s' : Table) : Prop where
  inv : Inv s'
  rely : Rely s s'
  effect : Effect s s'

theorem steps_of_same (h : Inv s) (hr : s'.rows = s.rows) (he : s'.emitted = s.emitted)
    (ha : ∀ id ∈ s.answered, id ∈ s'.answered) (hs : s'.skipped = s.skipped)
    (hp : s'.purged = s.purged) (hst : s'.staged = s.staged) (hpo : Effect s s') :
    Steps s s' := by
  refine ⟨⟨?_, ?_, ?_, ?_, ?_⟩, rely_of_emitted he ha (hs ▸ fun _ h => h) (hp ▸ fun _ h => h), hpo⟩
  · rw [hr, he]
    exact h.rows
  · rw [hr, he, hp]
    exact h.present
  · rw [hr]
    exact fun d hd hst => ha _ (h.sent d hd hst)
  · rw [hr, hs]
    exact h.skipped
  · rw [hst, he]
    exact h.staged

theorem Steps.refl (h : Inv s) : Steps s s :=
  ⟨h, rely_of_emitted rfl (fun _ => id) (fun _ => id) fun _ => id, effect_of_posted rfl⟩

theorem find_isSome (hd : d ∈ s.rows) : (s.find d.id).isSome := by
  rw [Table.find, List.find?_isSome]
  exact ⟨d, hd, by simp⟩

theorem status_leased {token now : ℕ} (d : WebhookDelivery) :
    Same d ((leased token now d).getD d) ∧ ((leased token now d).getD d).status = d.status := by
  unfold leased
  split_ifs
  · exact ⟨Same.refl d, rfl⟩
  · exact ⟨Same.refl d, rfl⟩
  · exact ⟨⟨rfl, rfl, rfl⟩, rfl⟩

theorem steps_lease {n token now : ℕ} (h : Inv s) :
    Steps s (s.setRow n fun d => (leased token now d).getD d) := by
  have hinv := @Inv.setRow s h n (fun d => (leased token now d).getD d) s.skipped
    (fun d _ => (status_leased d).1) (fun _ h => h)
    (fun d _ _ hst => Or.inl ((status_leased d).2.symm.trans hst))
    (fun d _ _ hst => Or.inl ((status_leased d).2.symm.trans hst))
  exact ⟨hinv, rely_of_emitted rfl (fun _ => id) (fun _ => id) fun _ => id, effect_of_posted rfl⟩

theorem status_store {loaded now : WebhookDelivery} (d : WebhookDelivery) :
    (store loaded now d).status = d.status ∨ (store loaded now d).status = now.status := by
  simp only [store, changed]
  split_ifs
  · exact Or.inl rfl
  · exact Or.inr rfl

theorem steps_update {n : ℕ} {loaded now : WebhookDelivery} (h : Inv s)
    (hsafe : now.status = .sent → n ∈ s.answered) : Steps s (s.update n loaded now) := by
  have hsub : ∀ x ∈ s.skipped, x ∈ if now.status = .skipped ∧ (s.find n).isSome then
      s.skipped ++ [n] else s.skipped := by
    intro x hx
    split_ifs
    · exact List.mem_append_left _ hx
    · exact hx
  have hinv : Inv (s.update n loaded now) := by
    refine h.setRow (fun d _ => same_store loaded now d) hsub (fun d _ _ hst => ?_)
      fun d hd hid hst => ?_
    · exact (status_store d).imp (fun he => he.symm.trans hst) fun he => hsafe (he.symm.trans hst)
    · refine (status_store d).imp (fun he => he.symm.trans hst) fun he => ?_
      have hfound : (s.find n).isSome := hid ▸ find_isSome hd
      rw [if_pos ⟨he.symm.trans hst, hfound⟩]
      exact List.mem_append_right _ (List.mem_singleton_self n)
  exact ⟨hinv, rely_of_emitted rfl (fun _ => id) hsub fun _ => id, effect_of_posted rfl⟩

theorem steps_delete {ids : List ℕ} (h : Inv s) : Steps s (s.delete ids) := by
  have hsub : ∀ x ∈ s.purged, x ∈ (s.delete ids).purged := fun x hx => List.mem_append_left _ hx
  refine ⟨⟨fun d hd => h.rows d (List.mem_of_mem_filter hd), fun e he => ?_,
    fun d hd => h.sent d (List.mem_of_mem_filter hd),
    fun d hd => h.skipped d (List.mem_of_mem_filter hd), h.staged⟩,
    rely_of_emitted rfl (fun _ => id) (fun _ => id) hsub, effect_of_posted rfl⟩
  rcases h.present e he with hp | ⟨d, hd, hs⟩
  · exact Or.inl (hsub _ hp)
  · by_cases hid : d.id ∈ ids
    · refine Or.inl (List.mem_append_right _ (List.mem_map.mpr ⟨d, ?_, hs.id.symm⟩))
      exact List.mem_filter.mpr ⟨hd, decide_eq_true hid⟩
    · exact Or.inr ⟨d, List.mem_filter.mpr ⟨hd, decide_eq_true hid⟩, hs⟩

end steps

section emission

theorem sequence_le_highest {rows : List WebhookDelivery} (hd : d ∈ rows) :
    d.sequence ≤ ((Db.highest rows).map WebhookDelivery.sequence).getD 0 := by
  induction rows using List.reverseRecOn with
  | nil => cases hd
  | append_singleton rows e ih =>
    unfold Db.highest at ih ⊢
    rw [List.foldl_append, List.foldl_cons, List.foldl_nil]
    generalize rows.foldl _ none = best at ih ⊢
    rcases List.mem_append.mp hd with hd | hd
    · have hle := ih hd
      cases best with
      | none =>
        have hzero : d.sequence ≤ 0 := hle
        omega
      | some b =>
        have hb : d.sequence ≤ b.sequence := hle
        simp only
        split_ifs
        · simp
          omega
        · simpa using hb
    · obtain rfl := List.mem_singleton.mp hd
      cases best with
      | none => simp
      | some b =>
        simp only
        split_ifs with hlt
        · simp
        · simpa using hlt

/-- Only `staged` and `emitter` differ. -/
structure Stages (s s' : Table) : Prop where
  rows : s'.rows = s.rows
  emitted : s'.emitted = s.emitted
  answered : s'.answered = s.answered
  skipped : s'.skipped = s.skipped
  purged : s'.purged = s.purged
  posted : s'.posted = s.posted

theorem stages_addDelivery {payload : Payload} {now id : ℕ} {w : WebhookSubscription} :
    Stages s (s.addDelivery payload now w id) := ⟨rfl, rfl, rfl, rfl, rfl, rfl⟩

theorem Stages.trans {s'' : Table} (h : Stages s s') (h' : Stages s' s'') : Stages s s'' :=
  ⟨h'.rows.trans h.rows, h'.emitted.trans h.emitted, h'.answered.trans h.answered,
    h'.skipped.trans h.skipped, h'.purged.trans h.purged, h'.posted.trans h.posted⟩

theorem inv_addDelivery (payload : Payload) (now id : ℕ) (w : WebhookSubscription) (h : Inv s) :
    Inv (s.addDelivery payload now w id) := by
  refine ⟨h.rows, h.present, h.sent, h.skipped, fun f hf => ?_⟩
  rcases List.mem_append.mp hf with hf | hf
  · exact h.staged f hf
  · obtain rfl := List.mem_singleton.mp hf
    refine ⟨rfl, fun e he hst hrem => ?_⟩
    obtain ⟨d, hd, hs⟩ := (h.present e he).resolve_left hrem
    have hmem : d ∈ (s.rows ++ s.staged.map Emission.row).filter fun d =>
        d.stream = (payload.botId, w.id) :=
      List.mem_filter.mpr ⟨List.mem_append_left _ hd, decide_eq_true (hs.stream.symm.trans hst)⟩
    have hle := sequence_le_highest hmem
    rw [hs.sequence]
    exact Nat.lt_succ_of_le hle

theorem inv_storeInSession (payload : Payload) (now : ℕ) (ids : List ℕ) (h : Inv s) :
    Inv (s.storeInSession payload now ids) ∧ Stages s (s.storeInSession payload now ids) := by
  unfold Table.storeInSession
  generalize s.subscriptions.zip ids = pairs
  induction pairs generalizing s with
  | nil => exact ⟨h, rfl, rfl, rfl, rfl, rfl, rfl⟩
  | cons x pairs ih =>
    obtain ⟨hi, hs⟩ := ih (inv_addDelivery payload now x.2 x.1 h)
    exact ⟨hi, stages_addDelivery.trans hs⟩

theorem steps_emit {payload : Payload} {now : ℕ} {ids : List ℕ} {emitter : Option ℕ}
    (h : Inv s) : Steps s { s.storeInSession payload now ids with emitter := emitter } := by
  obtain ⟨hi, hs⟩ := inv_storeInSession payload now ids h
  refine ⟨⟨hi.rows, hi.present, hi.sent, hi.skipped, hi.staged⟩, rely_of_emitted hs.emitted
    (fun _ hx => ?_) (fun _ hx => ?_) (fun _ hx => ?_), effect_of_posted hs.posted⟩
  · exact hs.answered ▸ hx
  · exact hs.skipped ▸ hx
  · exact hs.purged ▸ hx

/-- A row that is emitted later has a higher sequence, unless the earlier one was purged first. -/
theorem steps_commit (h : Inv s) : Steps s s.commit := by
  refine ⟨⟨fun d hd => ?_, fun e he => ?_, fun d hd hst => ?_, fun d hd hst => ?_,
      by simp [Table.commit]⟩,
    ⟨fun item hi => ⟨?_, fun e he hst hlt hrem => ?_⟩, fun _ => id⟩, effect_of_posted rfl⟩
  · rcases List.mem_append.mp hd with hd | hd
    · obtain ⟨e, he, hs⟩ := h.rows d hd
      exact ⟨e, List.mem_append_left _ he, hs⟩
    · obtain ⟨f, hf, rfl⟩ := List.mem_map.mp hd
      exact ⟨f, List.mem_append_right _ hf, Same.refl _⟩
  · rcases List.mem_append.mp he with he | he
    · refine (h.present e he).imp_right fun ⟨d, hd, hs⟩ => ⟨d, List.mem_append_left _ hd, hs⟩
    · exact Or.inr ⟨e.row, List.mem_append_right _ (List.mem_map_of_mem he), Same.refl _⟩
  · rcases List.mem_append.mp hd with hd | hd
    · exact h.sent d hd hst
    · obtain ⟨f, hf, rfl⟩ := List.mem_map.mp hd
      cases hst.symm.trans (h.staged f hf).1
  · rcases List.mem_append.mp hd with hd | hd
    · exact h.skipped d hd hst
    · obtain ⟨f, hf, rfl⟩ := List.mem_map.mp hd
      cases hst.symm.trans (h.staged f hf).1
  · obtain ⟨e, he, hs⟩ := hi.known
    exact ⟨e, List.mem_append_left _ he, hs⟩
  · rcases List.mem_append.mp he with he | he
    · exact hi.cleared e he hst hlt hrem
    · obtain ⟨e₀, he₀, hs⟩ := hi.known
      have hlater := (h.staged e he).2 e₀ he₀ (hs.stream.trans hst.symm) (hs.id ▸ hrem)
      have heq := hs.sequence
      omega

theorem steps_rollback (h : Inv s) : Steps s s.rollback :=
  ⟨⟨h.rows, h.present, h.sent, h.skipped, by simp [Table.rollback]⟩,
    rely_of_emitted rfl (fun _ => id) (fun _ => id) fun _ => id, effect_of_posted rfl⟩

end emission

/-- What a call does when it is safe. -/
theorem steps_of_exec {r : Answer i} (h : Inv s) (hsafe : Safe s i)
    (he : exec t i c s = some (s', r)) : Steps s s' := by
  cases i with
  | leaseRow id token =>
    simp only [exec] at he
    split at he
    · obtain ⟨rfl, -⟩ := Prod.mk.inj (Option.some.inj he)
      exact Steps.refl h
    · obtain ⟨rfl, -⟩ := Prod.mk.inj (Option.some.inj he)
      exact steps_lease h
  | post item =>
    obtain ⟨rfl, -⟩ := Prod.mk.inj (Option.some.inj he)
    refine steps_of_same h rfl rfl (fun _ => id) rfl rfl rfl fun d hp => ?_
    obtain rfl := List.singleton_inj.mp (List.append_cancel_left hp)
    exact hsafe.cleared
  | response id =>
    simp only [exec] at he
    split at he
    · obtain ⟨rfl, -⟩ := Prod.mk.inj (Option.some.inj he)
      exact Steps.refl h
    · split_ifs at he
      · obtain ⟨rfl, -⟩ := Prod.mk.inj (Option.some.inj he)
        exact steps_of_same h rfl rfl (fun _ => List.mem_append_left _) rfl rfl rfl
          (effect_of_posted rfl)
      · obtain ⟨rfl, -⟩ := Prod.mk.inj (Option.some.inj he)
        exact Steps.refl h
  | update id loaded now =>
    obtain ⟨rfl, -⟩ := Prod.mk.inj (Option.some.inj he)
    exact steps_update h hsafe
  | delete ids =>
    obtain ⟨rfl, -⟩ := Prod.mk.inj (Option.some.inj he)
    exact steps_delete h
  | emit payload =>
    simp only [exec] at he
    split_ifs at he
    obtain ⟨rfl, -⟩ := Prod.mk.inj (Option.some.inj he)
    exact steps_emit h
  | commit =>
    simp only [exec] at he
    split_ifs at he
    · obtain ⟨rfl, -⟩ := Prod.mk.inj (Option.some.inj he)
      exact steps_commit h
    · obtain ⟨rfl, -⟩ := Prod.mk.inj (Option.some.inj he)
      exact Steps.refl h
  | acquireLease stream =>
    simp only [exec] at he
    split_ifs at he
    · obtain ⟨rfl, -⟩ := Prod.mk.inj (Option.some.inj he)
      exact Steps.refl h
    · obtain ⟨rfl, -⟩ := Prod.mk.inj (Option.some.inj he)
      exact steps_of_same h rfl rfl (fun _ => id) rfl rfl rfl (effect_of_posted rfl)
  | deleteLease stream =>
    obtain ⟨rfl, -⟩ := Prod.mk.inj (Option.some.inj he)
    exact steps_of_same h rfl rfl (fun _ => id) rfl rfl rfl (effect_of_posted rfl)
  | uniform bound =>
    simp only [exec] at he
    split_ifs at he
    obtain ⟨rfl, -⟩ := Prod.mk.inj (Option.some.inj he)
    exact Steps.refl h
  | utcnow | uuid4 | selectOpen | getLease | get | selectPurgeable =>
    obtain ⟨rfl, -⟩ := Prod.mk.inj (Option.some.inj he)
    exact Steps.refl h

theorem Steps.allowed (h : Steps s s') : ordering.Allowed t s s' := ⟨h.inv, fun _ _ => h.rely, h.effect⟩

end Fakery.Dispatch
