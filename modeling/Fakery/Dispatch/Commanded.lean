import Fakery.Dispatch.Commands

/-! No command is undone where no commit and no purge comes upon a row that has changed under it. -/
namespace Fakery.Dispatch
open Fakery.Bots Fakery.Concurrent WebhookDelivery

namespace Commands

variable {t : ℕ} {k : Op} {i : Call} {c : Outcome} {s s' : Table × History}
  {item : WebhookDelivery} {n token : ℕ} {A : Table × History → Prop}

section emission

def emittedIds (s : Table) : List ℕ := s.emitted.map fun e => e.row.id

theorem inv_addDelivery (payload : Payload) (now : ℕ) (w : WebhookSubscription) (h : Inv s)
    (hn : n ∉ emittedIds s.1) : Inv (s.1.addDelivery payload now w n, s.2) := by
  refine ⟨h.skip, h.replay, h.emitted, h.rows, fun f hf => ?_, h.tokens⟩
  rcases List.mem_append.mp hf with hf | hf
  · exact h.staged f hf
  · obtain rfl := List.mem_singleton.mp hf
    exact ⟨rfl, hn⟩

theorem inv_storeEach (payload : Payload) (now : ℕ) (pairs : List (WebhookSubscription × ℕ))
    (h : Inv s) (hids : ∀ x ∈ pairs, x.2 ∉ emittedIds s.1) :
    Inv (pairs.foldl (fun s x => s.addDelivery payload now x.1 x.2) s.1, s.2) := by
  induction pairs generalizing s with
  | nil => exact h
  | cons x pairs ih =>
    have hfirst := inv_addDelivery payload now x.1 h (hids x List.mem_cons_self)
    have hrest : ∀ y ∈ pairs, y.2 ∉ emittedIds (s.1.addDelivery payload now x.1 x.2) :=
      fun y hy => hids y (List.mem_cons_of_mem _ hy)
    exact ih hfirst hrest

theorem steps_emit {payload : Payload} {now : ℕ} {ids : List ℕ} {emitter : Option ℕ} (h : Inv s)
    (hids : ∀ n ∈ ids, n ∉ s.1.used) :
    Steps t s ({ s.1.storeInSession payload now ids with emitter := emitter }, s.2) := by
  have hfresh : ∀ x ∈ s.1.subscriptions.zip ids, x.2 ∉ emittedIds s.1 := by
    intro x hx hmem
    have hused : x.2 ∈ s.1.used := by
      unfold Table.used
      rw [List.map_append]
      exact List.mem_append_left _ hmem
    exact hids x.2 (List.of_mem_zip hx).2 hused
  have hi := inv_storeEach payload now _ h hfresh
  have hrows : (s.1.storeInSession payload now ids).rows = s.1.rows := by
    unfold Table.storeInSession
    generalize s.1.subscriptions.zip ids = pairs
    generalize s.1 = table
    induction pairs generalizing table with
    | nil => rfl
    | cons x pairs ih => exact ih (table.addDelivery payload now x.1 x.2)
  constructor
  · exact ⟨hi.skip, hi.replay, hi.emitted, hi.rows, hi.staged, hi.tokens⟩
  · exact fun _ => id
  · exact fun u _ => Rely.of_same hrows rfl

theorem steps_commit (h : Inv s) : Steps t s (s.1.commit, s.2) := by
  have hsub : ∀ n ∈ emittedIds s.1, n ∈ emittedIds s.1.commit := by
    intro n hn
    unfold emittedIds Table.commit
    rw [List.map_append]
    exact List.mem_append_left _ hn
  have hold : ∀ n, s.2.command n ≠ none → ∀ d ∈ s.1.commit.rows, d.id = n → d ∈ s.1.rows := by
    intro n hn d hd hdn
    rcases List.mem_append.mp hd with hd | hd
    · exact hd
    · obtain ⟨f, hf, rfl⟩ := List.mem_map.mp hd
      exact absurd (hdn ▸ h.emitted n hn) (h.staged f hf).2
  constructor
  · constructor
    · intro n hn d hd hdn
      exact h.skip n hn d (hold n (Option.ne_none_iff_exists'.mpr ⟨_, hn⟩) d hd hdn) hdn
    · intro n hn
      obtain ⟨⟨x, hx, hxn⟩, hall⟩ := h.replay n hn
      refine ⟨⟨x, List.mem_append_left _ hx, hxn⟩, fun d hd hdn => ?_⟩
      exact hall d (hold n (Option.ne_none_iff_exists'.mpr ⟨_, hn⟩) d hd hdn) hdn
    · exact fun n hn => hsub n (h.emitted n hn)
    · intro d hd
      rcases List.mem_append.mp hd with hd | hd
      · exact hsub _ (h.rows d hd)
      · obtain ⟨f, hf, rfl⟩ := List.mem_map.mp hd
        exact List.mem_map.mpr ⟨f, List.mem_append_right _ hf, rfl⟩
    · simp [Table.commit]
    · exact h.tokens
  · exact fun _ => id
  · intro u _
    constructor
    · exact fun _ => id
    · intro n own _ d hd hdn hdt
      rcases List.mem_append.mp hd with hd | hd
      · exact ⟨⟨d, hd, hdn, hdt⟩, Or.inr ⟨rfl, id⟩⟩
      · obtain ⟨f, hf, rfl⟩ := List.mem_map.mp hd
        cases (h.staged f hf).1.symm.trans hdt

theorem inv_rollback (h : Inv s) : Inv (s.1.rollback, s.2) :=
  ⟨h.skip, h.replay, h.emitted, h.rows, by simp [Table.rollback], h.tokens⟩

end emission

/-- What a call does when the thread is entitled to it and nothing has come in between. -/
theorem steps_of_exec {r : Answer i} (h : Inv s) (hcond : Undisturbed s.1 i)
    (hsafe : Entitled t s i) (he : commanded.exec t i c s = some (s', r)) : Steps t s s' := by
  obtain ⟨table, history⟩ := s'
  have hx : exec t i c s.1 = some (table, r) := (Machine.exec_observed he).1
  have ho : observe t i c s.1 s.2 = some history := (Machine.exec_observed he).2
  cases i with
  | uuid4 =>
    obtain ⟨rfl, -⟩ := Prod.mk.inj (Option.some.inj hx)
    simp only [observe] at ho
    split_ifs at ho with hfresh
    cases Option.some.inj ho
    exact steps_uuid4 h hfresh
  | leaseRow n token =>
    cases Option.some.inj ho
    simp only [exec] at hx
    split at hx
    · obtain ⟨rfl, -⟩ := Prod.mk.inj (Option.some.inj hx)
      exact Steps.of_same h rfl rfl rfl rfl
    · obtain ⟨rfl, -⟩ := Prod.mk.inj (Option.some.inj hx)
      exact steps_lease h hsafe
  | post item =>
    cases Option.some.inj ho
    obtain ⟨rfl, -⟩ := Prod.mk.inj (Option.some.inj hx)
    exact steps_post h
  | update n loaded now =>
    cases Option.some.inj ho
    obtain ⟨rfl, -⟩ := Prod.mk.inj (Option.some.inj hx)
    by_cases hfound : (s.1.find n).isSome
    · rw [if_pos hfound]
      exact steps_update h hcond hsafe (find_isSome_iff.mp hfound)
    · rw [if_neg hfound]
      refine Steps.of_same h ?_ rfl rfl rfl
      have hnone : ∀ d ∈ s.1.rows, d.id ≠ n := fun d hd hdn =>
        hfound (find_isSome_iff.mpr ⟨d, hd, hdn⟩)
      have hmap : s.1.rows.map (fun d => if d.id = n then store loaded now d else d) =
          s.1.rows.map fun d => d := List.map_congr_left fun d hd => if_neg (hnone d hd)
      rw [List.map_id'] at hmap
      exact hmap
  | delete ids =>
    cases Option.some.inj ho
    obtain ⟨rfl, -⟩ := Prod.mk.inj (Option.some.inj hx)
    exact steps_delete h hcond
  | emit payload =>
    cases Option.some.inj ho
    simp only [exec] at hx
    split_ifs at hx with _ hids
    obtain ⟨rfl, -⟩ := Prod.mk.inj (Option.some.inj hx)
    exact steps_emit h hids.2.2
  | commit =>
    cases Option.some.inj ho
    simp only [exec] at hx
    split_ifs at hx
    · obtain ⟨rfl, -⟩ := Prod.mk.inj (Option.some.inj hx)
      exact steps_commit h
    · obtain ⟨rfl, -⟩ := Prod.mk.inj (Option.some.inj hx)
      exact Steps.of_same h rfl rfl rfl rfl
  | response n =>
    cases Option.some.inj ho
    simp only [exec] at hx
    split at hx
    · obtain ⟨rfl, -⟩ := Prod.mk.inj (Option.some.inj hx)
      exact steps_posted s.1.answered h
    · split_ifs at hx <;> obtain ⟨rfl, -⟩ := Prod.mk.inj (Option.some.inj hx)
      · exact steps_posted (s.1.answered ++ [n]) h
      · exact steps_posted s.1.answered h
  | acquireLease stream =>
    cases Option.some.inj ho
    simp only [exec] at hx
    split_ifs at hx <;> obtain ⟨rfl, -⟩ := Prod.mk.inj (Option.some.inj hx) <;>
      exact Steps.of_same h rfl rfl rfl rfl
  | uniform bound =>
    cases Option.some.inj ho
    simp only [exec] at hx
    split_ifs at hx
    obtain ⟨rfl, -⟩ := Prod.mk.inj (Option.some.inj hx)
    exact Steps.of_same h rfl rfl rfl rfl
  | utcnow | selectOpen | getLease | deleteLease | get | selectPurgeable =>
    cases Option.some.inj ho
    obtain ⟨rfl, -⟩ := Prod.mk.inj (Option.some.inj hx)
    exact Steps.of_same h rfl rfl rfl rfl

section programs

theorem wp_call {Q : Answer i → Table × History → Prop}
    (stable : ∀ s s', Rely t s s' → A s → A s') (hsafe : ∀ s, A s → Entitled t s i)
    (hQ : ∀ s₁ c s₂ r, Inv s₁ → A s₁ → commanded.exec t i c s₁ = some (s₂, r) → Q r s₂)
    (hs : A s) : commanding.wp t k (Prog.ask i) Q s := by
  intro s₁ hr hi hcond c s₂ r he
  have hA := stable s s₁ hr hs
  have hstep := steps_of_exec hi hcond (hsafe s₁ hA) he
  exact ⟨⟨hstep.inv, hstep.others, trivial⟩, hQ s₁ c s₂ r hi hA he⟩

/-- Calls to which every thread is entitled. -/
def Common : Call → Prop
  | .update _ _ now => now.leaseToken = none ∧ (now.status = .pending ∨ now.status = .skipped)
  | .leaseRow _ _ => False
  | _ => True

theorem Common.entitled (h : Common i) (s : Table × History) : Entitled t s i := by
  cases i with
  | update n loaded now => exact ⟨h.1, h.2.imp_right Or.inl⟩
  | leaseRow n token => exact h.elim
  | _ => trivial

/-- A program that makes common calls only. -/
theorem wp_common {α : Type} {p : Prog Call Answer α} (h : p.Uses Common) :
    commanding.wp t k p (fun _ _ => True) s := by
  refine Protocol.wp_frame (A := fun _ => True) h trivial (fun _ _ _ _ _ => trivial) ?_
  intro i c s s' r hi hinv hcond _ he
  have hstep := steps_of_exec hinv hcond (hi.entitled s) he
  exact ⟨⟨hstep.inv, hstep.others, trivial⟩, trivial⟩

/-- The thread has drawn the token, and nothing is commanded on the row under it. -/
structure Sent (t n token : ℕ) (s : Table × History) : Prop where
  drawn : (t, token) ∈ s.2.tokens
  spent : Spent n token s

theorem Sent.rely (hr : Rely t s s') (h : Sent t n token s) : Sent t n token s' :=
  ⟨hr.tokens _ h.drawn, hr.spent h.drawn h.spent⟩

/-- Calls that leave the rows and the history as they are. -/
def Reads : Call → Prop
  | .utcnow | .uniform _ | .get _ => True
  | _ => False

theorem Sent.reads {r : Answer i} (hi : Reads i) (h : Sent t n token s)
    (he : commanded.exec t i c s = some (s', r)) : Sent t n token s' := by
  obtain ⟨table, history⟩ := s'
  have hx : exec t i c s.1 = some (table, r) := (Machine.exec_observed he).1
  have ho : observe t i c s.1 s.2 = some history := (Machine.exec_observed he).2
  have hrows : table.rows = s.1.rows := by
    cases i with
    | uniform bound =>
      simp only [exec] at hx
      split_ifs at hx
      obtain ⟨rfl, -⟩ := Prod.mk.inj (Option.some.inj hx)
      rfl
    | utcnow | get =>
      obtain ⟨rfl, -⟩ := Prod.mk.inj (Option.some.inj hx)
      rfl
    | _ => exact hi.elim
  have hhistory : history = s.2 := by
    cases i with
    | uniform bound | utcnow | get =>
      cases Option.some.inj ho
      rfl
    | _ => exact hi.elim
  subst hhistory
  refine ⟨h.drawn, ?_⟩
  unfold Spent
  rw [hrows]
  exact h.spent

theorem wp_reads {Q : Answer i → Table × History → Prop} (hi : Reads i)
    (hQ : ∀ s r, Sent t n token s → Q r s) (hs : Sent t n token s) :
    commanding.wp t k (Prog.ask i) Q s := by
  have hsafe : ∀ s, Sent t n token s → Entitled t s i := by
    intro s _
    cases i with
    | utcnow | uniform | get => trivial
    | _ => exact hi.elim
  exact wp_call (fun _ _ hr h => h.rely hr) hsafe
    (fun s₁ c s₂ r _ h he => hQ s₂ r (h.reads hi he)) hs

theorem wp_sender_update {loaded now : WebhookDelivery} {Q : Unit → Table × History → Prop}
    (hnow : now.leaseToken = none) (hp : now.status ≠ .pending) (hk : now.status ≠ .skipped)
    (hloaded : loaded.leaseToken = some token) (hQ : ∀ s, Q () s) (hs : Sent t n token s) :
    commanding.wp t k (Prog.ask (.update n loaded now)) Q s := by
  have hsafe : ∀ s, Sent t n token s → Entitled t s (.update n loaded now) := fun s h =>
    ⟨hnow, Or.inr (Or.inr ⟨⟨hp, hk⟩, token, hloaded, h.drawn, h.spent⟩)⟩
  exact wp_call (fun _ _ hr h => h.rely hr) hsafe (fun _ _ s₂ _ _ _ _ => hQ s₂) hs

/-- An exception comes before the row is written. -/
theorem wp_recordFailure (response : Option Response) (error : String)
    (hs : Sent t item.id token s) :
    commanding.wp t k (recordFailure item token response error).run (fun r s => match r with
      | .ok _ => True
      | .error _ => Sent t item.id token s) s := by
  refine (Protocol.wp_perform_bind _).mpr (wp_reads trivial (fun s₁ found h => ?_) hs)
  cases found with
  | none => exact (Protocol.wp_pure _).mpr trivial
  | some loaded =>
    simp only
    split_ifs with hother hdead
    · exact (Protocol.wp_pure _).mpr trivial
    · refine (Protocol.wp_perform_bind _).mpr (wp_reads trivial (fun s₂ now h => ?_) h)
      refine (Protocol.wp_perform_bind _).mpr ?_
      exact wp_sender_update rfl nofun nofun (not_not.mp hother)
        (fun _ => (Protocol.wp_pure _).mpr trivial) h
    · refine (Protocol.wp_perform_bind _).mpr (wp_reads trivial (fun s₂ jitter h => ?_) h)
      refine (Protocol.wp_perform_bind _).mpr (wp_reads trivial (fun s₃ now h => ?_) h)
      split_ifs
      · exact (Protocol.wp_throw _).mpr h
      · refine (Protocol.wp_perform_bind _).mpr ?_
        exact wp_sender_update rfl nofun nofun (not_not.mp hother)
          (fun _ => (Protocol.wp_pure _).mpr trivial) h

theorem wp_recordSent (hs : Sent t item.id token s) :
    commanding.wp t k (recordSent item token).run (fun _ _ => True) s := by
  refine (Protocol.wp_perform_bind _).mpr (wp_reads trivial (fun s₁ found h => ?_) hs)
  cases found with
  | none => exact (Protocol.wp_pure _).mpr trivial
  | some loaded =>
    simp only
    split_ifs with hown
    · refine (Protocol.wp_perform_bind _).mpr (wp_reads trivial (fun s₂ now h => ?_) h)
      refine (Protocol.wp_perform_bind _).mpr ?_
      exact wp_sender_update rfl nofun nofun hown
        (fun _ => (Protocol.wp_pure _).mpr trivial) h
    · exact (Protocol.wp_pure _).mpr trivial

/-- The thread has drawn the token, and its POST of the row has started. -/
structure Posted (t n token : ℕ) (s : Table × History) : Prop where
  drawn : (t, token) ∈ s.2.tokens
  posting : Posting t n token s

theorem Posted.rely (hr : Rely t s s') (h : Posted t n token s) : Posted t n token s' :=
  ⟨hr.tokens _ h.drawn, hr.posting h.drawn h.posting⟩

theorem Posted.response {r : Except String Response} (h : Posted t n token s)
    (he : commanded.exec t (.response n) c s = some (s', r)) : Sent t n token s' := by
  obtain ⟨table, history⟩ := s'
  have hx : exec t (.response n) c s.1 = some (table, r) := (Machine.exec_observed he).1
  have ho : observe t (.response n) c s.1 s.2 = some history := (Machine.exec_observed he).2
  cases Option.some.inj ho
  have htokens : (t, token) ∈ (s.2.posted t n).tokens := by
    rw [posted_tokens]
    exact h.drawn
  simp only [exec] at hx
  split at hx
  · obtain ⟨rfl, -⟩ := Prod.mk.inj (Option.some.inj hx)
    exact ⟨htokens, spent_posted s.1.answered h.posting⟩
  · split_ifs at hx <;> obtain ⟨rfl, -⟩ := Prod.mk.inj (Option.some.inj hx)
    · exact ⟨htokens, spent_posted (s.1.answered ++ [n]) h.posting⟩
    · exact ⟨htokens, spent_posted s.1.answered h.posting⟩

/-- After a response below 300 the row is still to be written. -/
theorem wp_awaitResponse (hs : Posted t item.id token s) :
    commanding.wp t k (awaitResponse item token).run (fun r s => match r with
      | .ok none => Sent t item.id token s
      | _ => True) s := by
  have hfail : ∀ (response : Option Response) (error : String) s, Sent t item.id token s →
      commanding.wp t k
        (do let outcome ← recordFailure item token response error; pure (some outcome) : Act _).run
        (fun r s => match r with
          | .ok outcome => outcome ≠ none
          | .error _ => Sent t item.id token s) s := by
    intro response error s hs
    refine Protocol.wp_task_bind.mpr (Protocol.wp_mono (wp_recordFailure response error hs) ?_)
    intro r s h
    cases r with
    | ok outcome => exact (Protocol.wp_pure _).mpr nofun
    | error e => exact h
  have hlast : ∀ e s, Sent t item.id token s → commanding.wp t k
      (do let outcome ← recordFailure item token none e; pure (some outcome) : Act _).run
      (fun r s => match r with
        | .ok none => Sent t item.id token s
        | _ => True) s := by
    intro e s hs
    refine Protocol.wp_mono (hfail none e s hs) fun r s h => ?_
    cases r with
    | error e => trivial
    | ok outcome =>
      cases outcome with
      | none => exact absurd rfl h
      | some outcome => trivial
  refine Protocol.wp_except.mpr ((Protocol.wp_perform_bind _).mpr ?_)
  refine wp_call (fun _ _ hr h => Posted.rely hr h) (fun _ _ => trivial) ?_ hs
  intro s₀ c s₁ response _ hposted he
  have h := hposted.response he
  cases response with
  | error e => exact hlast e s₁ h
  | ok response =>
    simp only
    split_ifs
    · refine Protocol.wp_mono (hfail (some response) _ s₁ h) fun r s h => ?_
      cases r with
      | error e => exact hlast e s h
      | ok outcome =>
        cases outcome with
        | none => exact absurd rfl h
        | some outcome => trivial
    · exact h

theorem wp_attempt : commanding.wp t k (attempt item).run (fun _ _ => True) s := by
  refine (Protocol.wp_perform_bind _).mpr ?_
  refine wp_call (A := fun _ => True) (fun _ _ _ _ => trivial) (fun _ _ => trivial) ?_ trivial
  intro s₁ c s₂ token _ _ he
  have hdrawn : (t, token) ∈ s₂.2.tokens := by
    obtain ⟨table, history⟩ := s₂
    have hx : exec t .uuid4 c s₁.1 = some (table, token) := (Machine.exec_observed he).1
    have ho : observe t .uuid4 c s₁.1 s₁.2 = some history := (Machine.exec_observed he).2
    obtain ⟨-, rfl⟩ := Prod.mk.inj (Option.some.inj hx)
    simp only [observe] at ho
    split_ifs at ho
    cases Option.some.inj ho
    exact List.mem_cons_self
  have stable : ∀ s s', Rely t s s' → (t, token) ∈ s.2.tokens → (t, token) ∈ s'.2.tokens :=
    fun s s' hr h => hr.tokens _ h
  refine (Protocol.wp_perform_bind _).mpr (wp_call stable (fun _ h => h) ?_ hdrawn)
  intro s₃ c' s₄ got hinv h he'
  have hdrawn' : (t, token) ∈ s₄.2.tokens := by
    obtain ⟨table, history⟩ := s₄
    have ho : observe t (.leaseRow item.id token) c' s₃.1 s₃.2 = some history :=
      (Machine.exec_observed he').2
    cases Option.some.inj ho
    exact h
  split_ifs
  · refine (Protocol.wp_perform_bind _).mpr (wp_call stable (fun _ _ => trivial) ?_ hdrawn')
    intro s₅ c'' s₆ _ hinv₅ h₅ he''
    have hposted : Posted t item.id token s₆ := by
      obtain ⟨table, history⟩ := s₆
      have hx : exec t (.post item) c'' s₅.1 = some (table, ()) := (Machine.exec_observed he'').1
      have ho : observe t (.post item) c'' s₅.1 s₅.2 = some history :=
        (Machine.exec_observed he'').2
      obtain ⟨rfl, -⟩ := Prod.mk.inj (Option.some.inj hx)
      cases Option.some.inj ho
      exact ⟨h₅, posting_post hinv₅⟩
    refine Protocol.wp_task_bind.mpr (Protocol.wp_mono (wp_awaitResponse hposted) fun r s h => ?_)
    cases r with
    | error e => trivial
    | ok outcome =>
      cases outcome with
      | some outcome => exact (Protocol.wp_pure _).mpr trivial
      | none => exact wp_recordSent h
  · exact (Protocol.wp_pure _).mpr trivial

end programs

end Commands

end Fakery.Dispatch
