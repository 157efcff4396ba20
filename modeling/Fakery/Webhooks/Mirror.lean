import Fakery.Webhooks.Emission

/-! Every operation of the service keeps the outbox a mirror of the committed history. -/
namespace Fakery.Webhooks
open Fakery.Concurrent Fakery.Core Fakery.Postgres Fakery.Bots

variable {t u w b : ℕ} {k : Op} {i : Stmt} {c : ℕ} {s s' : Db}

/-- A write that the drafts do not account for yet. -/
theorem Balanced.log {p : Payload} {xs : List (ℕ × BotStatus)} {gs : List TranscriptSegment}
    (h : Balanced w t [] s) (hd : (s'.session t).deliveries = (s.session t).deliveries)
    (hx : (s'.session t).statuses = (s.session t).statuses ++ xs)
    (hg : (s'.session t).segments = (s.session t).segments ++ gs) (hn : s'.notes = s.notes)
    (hp : Accounts [p] xs gs fun _ => false) : Balanced w t [p] s' := by
  unfold Balanced drafts at h ⊢
  rw [hd, hx, hg, hn]
  rw [List.append_nil] at h
  exact h.append hp fun b => (Nat.add_zero _).symm

theorem accounts_status (b : ℕ) (τ : BotStatus) (e : ℕ) :
    Accounts [.statusChanged b τ e] [(b, τ)] [] fun _ => false := ⟨rfl, rfl, fun _ => rfl⟩

theorem accounts_segment (g : TranscriptSegment) (e : ℕ) :
    Accounts [.transcriptSegment g e] [] [g] fun _ => false := ⟨rfl, rfl, fun _ => rfl⟩

/-- The flush that writes the target, after which the event is owed. -/
theorem flush_target {o : Obj} (hi : Inv w s) (hb : Balanced w t [] s)
    (ho : (s.session t).objs b = some o) (hne : o.now.status ≠ o.loaded.status)
    (hc : ∀ b' x, b' ≠ b → (s.session t).objs b' = some x → x.now.status = x.loaded.status)
    (he : exec t (.flush b) c s = some (s', ())) : (mirror w).Allowed t s s' ∧
      (∀ e, Balanced w t [.statusChanged b o.now.status e] s') ∧ Clean t s' := by
  obtain ⟨u, hu, he'⟩ := Option.map_eq_some_iff.mp he
  obtain ⟨rfl, -⟩ := Prod.mk.inj he'
  have hno : o.now ≠ o.loaded := fun h => hne (congrArg BotRun.status h)
  obtain ⟨-, hf, -, hobjs⟩ := flush_changed ho hno hu
  obtain ⟨hx, hd, hg, hn, hw, hl⟩ := flush_log ho hu
  rw [if_neg hne] at hx
  refine ⟨allowed_of_eq hi hf hd hn hw hl, fun e => ?_, fun b' x hx' => ?_⟩
  · exact hb.log hd hx (hg.trans (List.append_nil _).symm) hn (accounts_status b _ e)
  · rw [hobjs] at hx'
    by_cases hb' : b' = b
    · subst hb'
      rw [Function.update_self] at hx'
      cases hx'
      rfl
    · rw [Function.update_of_ne hb'] at hx'
      exact hc b' x hb' hx'

theorem wp_write {α : Type} {f : Txn α} {Q : Except TwinError α → Db → Prop} {τ : BotStatus}
    {o : Obj} {moment : ℕ} (h : Steady w t s) (ho : (s.session t).objs b = some o)
    (hc : canTransition o.now.status τ = true)
    (hf : ∀ s', (∀ e, Balanced w t [.statusChanged b τ e] s') → Clean t s' →
      (mirror w).wp t k f.run Q s') :
    (mirror w).wp t k (do
      perform (.assign b (BotRun.advanced τ moment))
      perform (.flush b)
      f : Txn α).run Q s := by
  refine wp_perform_bind.mpr fun s₁ hr₁ hi₁ _ c₁ s₂ a₁ he₁ => ?_
  have h₁ := h.rely hr₁
  have ho₁ : (s₁.session t).objs b = some o := hr₁.session ▸ ho
  have hs₂ : s₂ = s₁.setObj t b ⟨o.loaded, o.now.advanced τ moment⟩ := by
    simp only [exec, ho₁] at he₁
    exact (Prod.mk.inj (Option.some.inj he₁)).1.symm
  subst hs₂
  refine ⟨allowed_aside hi₁ frame_setSession (aside_setObj _),
    wp_perform_bind.mpr fun s₃ hr₃ hi₃ _ c₃ s₄ a₃ he₃ => ?_⟩
  have hobjs := hr₃.session ▸ setObj_objs (s := s₁) (t := t) (b := b)
    ⟨o.loaded, o.now.advanced τ moment⟩
  have hne : (o.now.advanced τ moment).status ≠ o.loaded.status := fun he => by
    rw [h₁.clean b o ho₁, ← he] at hc
    exact absurd (rank_lt_of_canTransition hc) (Nat.lt_irrefl _)
  obtain ⟨hal, hb, hcl⟩ := flush_target hi₃ ((h₁.balanced.aside (aside_setObj _)).rely hr₃)
    (by rw [hobjs, Function.update_self]) hne (fun b' x hb' hx => by
      rw [hobjs, Function.update_of_ne hb'] at hx
      exact h₁.clean b' x hx) he₃
  exact ⟨hal, hf s₄ hb hcl⟩

theorem wp_getForUpdate (h : Steady w t s) :
    (mirror w).wp t k (getForUpdate b).run (fun r s' => Steady w t s' ∧
      ∃ a, r = .ok a ∧ ∀ run, a = some run →
        ∃ o, (s'.session t).objs b = some o ∧ o.now = run) s := by
  refine wp_perform_bind.mpr fun s₁ hr₁ hi₁ _ c₁ s₂ a₁ he₁ => ?_
  obtain ⟨hal₁, h₂⟩ := (h.rely hr₁).plain (i := .flush b) trivial hi₁ he₁
  refine ⟨hal₁, wp_perform.mpr fun s₃ hr₃ hi₃ _ c₃ s₄ a₃ he₃ => ?_⟩
  obtain ⟨hal₃, h₄⟩ := (h₂.rely hr₃).plain (i := .selectForUpdate b) trivial hi₃ he₃
  exact ⟨hal₃, h₄, a₃, rfl, fun run => selectForUpdate_obj he₃⟩

theorem keeps_advance (b : ℕ) (τ : BotStatus) :
    (mirror w).Keeps t k (Steady w t) (advance b τ).run := by
  intro s h
  refine Protocol.wp_task_bind.mpr (Protocol.wp_mono (wp_getForUpdate h) ?_)
  rintro _ s₁ ⟨h₁, a, rfl, ha⟩
  have hthrow : ∀ e : TwinError, (mirror w).wp t k (throw e : Txn BotRun).run
      (fun _ s' => Steady w t s') s₁ := fun e => (Protocol.wp_throw e).mpr h₁
  cases a with
  | none => exact hthrow _
  | some run =>
    dsimp only
    split
    · split
      · exact (Protocol.wp_pure _).mpr h₁
      · exact hthrow _
    · split
      · exact hthrow _
      · rename_i hreq
        have hcan : canTransition run.status τ = true := by
          by_contra hc
          simp [requireTransition, hc] at hreq
        refine wp_unchanged (fun _ _ _ _ he => (Prod.mk.inj (Option.some.inj he)).1.symm)
          fun s₂ hr₂ _ _ moment _ => ?_
        obtain ⟨o, ho, rfl⟩ := ha run rfl
        refine wp_write (h₁.rely hr₂) (hr₂.session ▸ ho) hcan fun s₃ hb hc => ?_
        refine Protocol.wp_task_bind.mpr (Protocol.wp_mono (wp_statusChanged hb hc) ?_)
        intro r s₄ h₄
        cases r with
        | ok _ => exact (Protocol.wp_pure _).mpr h₄
        | error e => exact h₄

theorem keeps_body {α : Type} {x : Txn α} {goal : Option BotStatus} (h : Body Stmt.Plain goal x) :
    (mirror w).Keeps t k (Steady w t) x.run := by
  induction h with
  | uses h => exact keeps_plain h
  | advance _ _ => exact keeps_advance _ _
  | bind _ _ hx hf => exact hx.task_bind hf

theorem keeps_perform (hi : i.Plain) : (mirror w).Keeps t k (Steady w t) (perform i).run :=
  keeps_plain (Task.uses_perform hi)

theorem keeps_pure {α : Type} (a : α) :
    (mirror w).Keeps t k (Steady w t) (pure a : Txn α).run := fun _ h => h

theorem keeps_throw {α : Type} (e : TwinError) :
    (mirror w).Keeps t k (Steady w t) (throw e : Txn α).run := fun _ h => h

theorem keeps_insertRun {α : Type} {run : BotRun} {a : α} {e : TwinError} :
    (mirror w).Keeps t k (Steady w t) (do
      if ← perform (.insertRun run) then do
        statusChanged run.id run.status
        pure a
      else throw e : Txn α).run := by
  refine fun s h => wp_perform_bind.mpr fun s₁ hr₁ hi₁ _ c s₂ ok he => ?_
  have h₁ := h.rely hr₁
  have hf := (exec_touches (i := .insertRun run) trivial he).toFrame
  rcases insertRun_log he with ⟨rfl, rfl⟩ | ⟨rfl, hx, hobjs, hd, hg, hn, hw, hl⟩
  · exact ⟨allowed_aside hi₁ hf (.refl t s₂), h₁⟩
  · refine ⟨allowed_of_eq hi₁ hf hd hn hw hl, ?_⟩
    refine Protocol.wp_task_bind.mpr (Protocol.wp_mono (wp_statusChanged (fun e => ?_) ?_) ?_)
    · exact h₁.balanced.log hd hx (hg.trans (List.append_nil _).symm) hn (accounts_status _ _ e)
    · intro b o ho
      rw [hobjs] at ho
      by_cases hb : b = run.id
      · subst hb
        rw [Function.update_self] at ho
        cases ho
        rfl
      · rw [Function.update_of_ne hb] at ho
        exact h₁.clean b o ho
    · intro r s₃ h₃
      cases r <;> exact h₃

theorem keeps_createOrGet (meetingUrl meetingKey : String)
    (displayName idempotencyKey : Option String) : (mirror w).Keeps t k (Steady w t)
      (createOrGet meetingUrl meetingKey displayName idempotencyKey).run := by
  refine Protocol.Keeps.task_bind ?_ fun existing => ?_
  · split
    · exact keeps_perform trivial
    · exact keeps_pure none
  split
  · split
    · exact keeps_pure _
    · exact keeps_throw _
  · refine (keeps_perform (i := .findActiveMeeting meetingKey) trivial).task_bind fun active => ?_
    split
    · exact keeps_throw _
    · exact (keeps_perform (i := .uuid4) trivial).task_bind fun id =>
        (keeps_perform (i := .utcnow) trivial).task_bind fun createdAt =>
        (keeps_perform (i := .utcnow) trivial).task_bind fun updatedAt => keeps_insertRun

theorem keeps_ingestSegment (b : ℕ) (segment : Segment) :
    (mirror w).Keeps t k (Steady w t) (ingestSegment b segment).run := by
  refine (keeps_perform (i := .findSegment b segment) trivial).task_bind fun found => ?_
  split
  · exact keeps_pure _
  refine (keeps_perform (i := .uuid4) trivial).task_bind fun id =>
    (keeps_perform (i := .utcnow) trivial).task_bind fun createdAt => ?_
  refine fun s h => wp_perform_bind.mpr fun s₁ hr₁ hi₁ _ c s₂ _ he => ?_
  have h₁ := h.rely hr₁
  have hf := (exec_touches (i := .insertSegment _) trivial he).toFrame
  obtain ⟨rfl, -⟩ := Prod.mk.inj (Option.some.inj he)
  refine ⟨allowed_of_eq hi₁ hf (by simp [Db.setSession]) rfl rfl rfl,
    wp_emit (fun e => ?_) (by simpa [Clean, Db.setSession] using h₁.clean) (keeps_pure _)⟩
  exact h₁.balanced.log (by simp [Db.setSession]) (by simp [Db.setSession])
    (by simp [Db.setSession]) rfl (accounts_segment _ e)

theorem insertNote_eq {note : MeetingNote} {a : Bool} (hi : Inv w s)
    (h : exec t (.insertNote note) c s = some (s', a)) : (a = false ∧ s' = s) ∨ a = true ∧
      (s.notes note.botRunId).holder = none ∧ (s.notes note.botRunId).committed = none ∧
      s' = s.setNote note.botRunId ⟨none, some t, some note⟩ := by
  simp only [exec] at h
  split at h
  · obtain ⟨rfl, rfl⟩ := Prod.mk.inj (Option.some.inj h)
    exact Or.inl ⟨rfl, rfl⟩
  · rename_i hv
    obtain ⟨r, hr, he⟩ := Option.map_eq_some_iff.mp h
    obtain ⟨rfl, rfl⟩ := Prod.mk.inj he
    obtain ⟨hf, rfl⟩ := Row.update_eq hr
    have hne : (s.notes note.botRunId).holder ≠ some t := fun hh => by
      have hw := (hi.noted _ t hh).2
      rw [← Row.visible_of_holder hh, hv] at hw
      cases hw
    rw [Row.visible_of_not_holder hne] at hv
    exact Or.inr ⟨rfl, hf.resolve_right hne, hv, by rw [hv]⟩

theorem setNote_notes {r : Row (Option MeetingNote)} (b b' : ℕ) :
    (s.setNote b r).notes b' = if b' = b then r else s.notes b' :=
  Function.update_apply _ _ _ _

theorem allowed_insertNote {note : MeetingNote} (hi : Inv w s)
    (hh : (s.notes note.botRunId).holder = none) (hc : (s.notes note.botRunId).committed = none) :
    (mirror w).Allowed t s (s.setNote note.botRunId ⟨none, some t, some note⟩) := by
  refine ⟨⟨hi.subscribed, hi.nodup, ?_, hi.numbered, hi.drafted, hi.locked, fun b u hu => ?_⟩,
    fun u hu => ⟨rfl, fun b => ?_, fun h => ⟨h, rfl⟩⟩, trivial⟩
  · have hcom : ∀ b, ((s.setNote note.botRunId ⟨none, some t, some note⟩).notes b).committed =
        (s.notes b).committed := fun b => by
      rw [setNote_notes]
      split_ifs with hb
      · rw [hb, hc]
      · rfl
    simp only [hcom]
    exact hi.accounts
  · rw [setNote_notes] at hu ⊢
    split_ifs at hu ⊢
    · exact ⟨rfl, rfl⟩
    · exact hi.noted b u hu
  · rw [setNote_notes]
    split_ifs with hb
    · rw [hb, hh]
      exact ⟨fun h => absurd (Option.some.inj h).symm hu, nofun⟩
    · rfl

theorem balanced_insertNote {note : MeetingNote} (h : Balanced w t [] s)
    (hh : (s.notes note.botRunId).holder = none) (e : ℕ) :
    Balanced w t [.notesCompleted note.botRunId e]
      (s.setNote note.botRunId ⟨none, some t, some note⟩) := by
  unfold Balanced at h
  rw [List.append_nil] at h
  obtain ⟨hx, hg, hn⟩ := h
  refine ⟨?_, ?_, fun b => ?_⟩
  · rw [List.filterMap_append]
    exact (congrArg (· ++ _) hx).trans (List.append_nil _)
  · rw [List.filterMap_append]
    exact (congrArg (· ++ _) hg).trans (List.append_nil _)
  · rw [List.countP_append]
    refine (congrArg (· + _) (hn b)).trans ?_
    rw [setNote_notes]
    by_cases hb : b = note.botRunId
    · subst hb
      simp [hh, Payload.isNotesOf]
    · simp [hb, Ne.symm hb, Payload.isNotesOf]

theorem keeps_storeNotes (b : ℕ) (notes : MeetingNotes) :
    (mirror w).Keeps t k (Steady w t) (storeNotes b notes).run := by
  refine (keeps_perform (i := .utcnow) trivial).task_bind fun createdAt => ?_
  refine fun s h => wp_perform_bind.mpr fun s₁ hr₁ hi₁ _ c s₂ ok he => ?_
  have h₁ := h.rely hr₁
  rcases insertNote_eq hi₁ he with ⟨rfl, rfl⟩ | ⟨rfl, hh, hc, rfl⟩
  · exact ⟨allowed_aside hi₁ (.refl t s₂) (.refl t s₂), h₁⟩
  · exact ⟨allowed_insertNote hi₁ hh hc, wp_emit (balanced_insertNote h₁.balanced hh) h₁.clean
      (keeps_pure _)⟩

/-- Of two sessions with drafts for `w`, neither exists. -/
theorem Inv.drafts_eq_nil (hi : Inv w s) (ht : drafts w t s ≠ []) (hu : u ≠ t) :
    drafts w u s = [] :=
  of_not_not fun h => hu (Option.some.inj ((hi.locked u h).symm.trans (hi.locked t ht)))

theorem outbox_commit (w t : ℕ) (s : Db) : outbox w (s.commit t) = outbox w s ++ drafts w t s :=
  List.filter_append _ _

/-- A session that has ended has no drafts. -/
theorem drafts_end (hs : s'.session = Function.update s.session t {}) (u : ℕ) :
    drafts w u s' = if u = t then [] else drafts w u s := by
  unfold drafts
  rw [hs]
  split_ifs with hu
  · subst hu
    simp
  · rw [Function.update_of_ne hu]

theorem release_eq {lock : ℕ → Option ℕ} (hu : u ≠ t) (h : lock w = some u) :
    Db.release t lock w = some u := by
  unfold Db.release
  rw [if_neg (fun ht => hu (Option.some.inj (h.symm.trans ht))), h]

theorem locked_end (hi : Inv w s) (hs : s'.session = Function.update s.session t {})
    (hl : s'.subscriptionLock = Db.release t s.subscriptionLock) (u : ℕ)
    (h : drafts w u s' ≠ []) : s'.subscriptionLock w = some u := by
  rw [drafts_end hs] at h
  split_ifs at h with hu
  · exact absurd rfl h
  · rw [hl]
    exact release_eq hu (hi.locked u h)

theorem noted_commit (hi : Inv w s) (b : ℕ) :
    ((s.notes b).commit t).committed.isSome.toNat =
      (s.notes b).committed.isSome.toNat + (decide ((s.notes b).holder = some t)).toNat := by
  by_cases hh : (s.notes b).holder = some t
  · obtain ⟨hc, hw⟩ := hi.noted b t hh
    simp [Row.commit_of_holder hh, Row.new, hh, hc, hw]
  · simp [Row.commit_of_not_holder hh, hh]

theorem allowed_commit (hi : Inv w s) (h : Balanced w t [] s) :
    (mirror w).Allowed t s (s.commit t) := by
  have ho := outbox_commit w t s
  have hs : (s.commit t).session = Function.update s.session t {} := rfl
  refine ⟨⟨hi.subscribed, hi.nodup, ?_, fun b => ?_, fun u b => ?_, locked_end hi hs rfl, ?_⟩,
    fun u hu => ⟨Function.update_of_ne hu _ _, fun b => Row.commit_holder_iff _ hu,
      fun hl => ⟨release_eq hu hl, ?_⟩⟩, trivial⟩
  · rw [ho, List.map_append]
    unfold Balanced at h
    rw [List.append_nil] at h
    exact hi.accounts.append h fun b => noted_commit hi b
  · have hd := hi.drafted t b
    rw [ho]
    unfold ofBot sequences at hd ⊢
    rw [List.filter_append, List.map_append, hd, List.length_append, ← List.range'_append_1,
      Nat.add_comm _ 1]
    exact congrArg (· ++ _) (hi.numbered b)
  · rw [drafts_end hs, ho]
    split_ifs with hu
    · rfl
    · by_cases ht : drafts w t s = []
      · rw [ht, List.append_nil]
        exact hi.drafted u b
      · rw [hi.drafts_eq_nil ht hu]
        rfl
  · intro b u hu
    dsimp only [Db.commit] at hu ⊢
    by_cases hh : (s.notes b).holder = some t
    · rw [Row.commit_of_holder hh] at hu
      cases hu
    · rw [Row.commit_of_not_holder hh] at hu ⊢
      exact hi.noted b u hu
  · have ht : drafts w t s = [] :=
      of_not_not fun hn => hu (Option.some.inj (hl.symm.trans (hi.locked t hn)))
    rw [ho, ht, List.append_nil]

/-- A transaction that rolls back leaves no event. -/
theorem allowed_rollback (hi : Inv w s) : (mirror w).Allowed t s (s.rollback t) := by
  have hs : (s.rollback t).session = Function.update s.session t {} := rfl
  refine ⟨⟨hi.subscribed, hi.nodup, ?_, hi.numbered, fun u b => ?_, locked_end hi hs rfl, ?_⟩,
    fun u hu => ⟨Function.update_of_ne hu _ _, fun b => Row.rollback_holder_iff _ hu,
      fun hl => ⟨release_eq hu hl, rfl⟩⟩, trivial⟩
  · have hn : ∀ b, ((s.rollback t).notes b).committed = (s.notes b).committed :=
      fun b => Row.rollback_committed _ _
    simp only [hn]
    exact hi.accounts
  · rw [drafts_end hs]
    split_ifs
    · rfl
    · exact hi.drafted u b
  · intro b u hu
    dsimp only [Db.rollback] at hu ⊢
    by_cases hh : (s.notes b).holder = some t
    · rw [Row.rollback_of_holder hh] at hu
      cases hu
    · rw [Row.rollback_of_not_holder hh] at hu ⊢
      exact hi.noted b u hu

theorem wp_sessionScope_steady {α : Type} {x : Txn α} {Q : Except TwinError α → Db → Prop}
    (hx : (mirror w).Keeps t k (Steady w t) x.run) (h : Steady w t s) (hQ : ∀ r s', Q r s') :
    (mirror w).wp t k (sessionScope x) Q s := by
  refine wp_sessionScope.mpr (Protocol.wp_mono (hx s h) fun r s₁ h₁ => ?_)
  cases r with
  | ok a =>
    refine wp_issue.mpr fun s₂ hr hi _ c s₃ _ he => ?_
    obtain ⟨rfl, rfl⟩ := Prod.mk.inj (Option.some.inj he)
    exact ⟨allowed_commit hi (h₁.rely hr).balanced, hQ _ _⟩
  | error e =>
    refine wp_issue.mpr fun s₂ hr hi _ c s₃ _ he => ?_
    obtain ⟨rfl, rfl⟩ := Prod.mk.inj (Option.some.inj he)
    exact ⟨allowed_rollback hi, hQ _ _⟩

theorem wp_transaction {α : Type} {x : Txn α}
    (hx : (mirror w).Keeps t k (Steady w t) x.run) (h : Steady w t s) :
    (mirror w).wp t k (transaction x) (fun _ _ => True) s :=
  Protocol.wp_bind.mpr (wp_sessionScope_steady hx h fun _ _ => trivial)

theorem wp_attend (b : ℕ) (h : Steady w t s) :
    (mirror w).wp t k (attend b) (fun _ _ => True) s := by
  refine Protocol.wp_bind.mpr (wp_sessionScope_steady (keeps_advance b .joining) h fun r s₁ => ?_)
  cases r with
  | error e => trivial
  | ok run =>
    refine wp_issue.mpr fun s₂ _ hi _ c s₃ _ he => ?_
    obtain ⟨rfl, rfl⟩ := Prod.mk.inj (Option.some.inj he)
    exact ⟨⟨hi.of_eq rfl rfl rfl rfl rfl (fun _ => rfl) fun _ h => h,
      fun u _ => ⟨rfl, fun _ => Iff.rfl, fun h => ⟨h, rfl⟩⟩, trivial⟩, trivial⟩

theorem steady_begin (h : ∀ b, (s.notes b).holder ≠ some t) :
    Steady w t (s.setSession t {}) := by
  refine ⟨?_, by simp [Clean, Db.setSession]⟩
  unfold Balanced
  rw [drafts_end (s := s) rfl, if_pos rfl]
  refine ⟨?_, ?_, fun b => ?_⟩
  · simp [Db.setSession]
  · simp [Db.setSession]
  · have hb : ((s.setSession t {}).notes b).holder ≠ some t := h b
    simp [hb]

theorem allowed_begin (hi : Inv w s) : (mirror w).Allowed t s (s.setSession t {}) := by
  have hs : (s.setSession t {}).session = Function.update s.session t {} := rfl
  refine ⟨⟨hi.subscribed, hi.nodup, hi.accounts, hi.numbered, fun u b => ?_, fun u hu => ?_,
    hi.noted⟩, fun u hu => ⟨Function.update_of_ne hu _ _, fun b => Iff.rfl, fun h => ⟨h, rfl⟩⟩,
    trivial⟩
  · rw [drafts_end hs]
    split_ifs
    · rfl
    · exact hi.drafted u b
  · rw [drafts_end hs] at hu
    split_ifs at hu
    · exact absurd rfl hu
    · exact hi.locked u hu

theorem Inv.subscribe {v : WebhookSubscription} (hi : Inv w s)
    (hv : v.id ∉ s.subscriptions.map WebhookSubscription.id) :
    Inv w { s with subscriptions := s.subscriptions ++ [v] } := by
  refine ⟨?_, ?_, hi.accounts, hi.numbered, hi.drafted, hi.locked, hi.noted⟩
  · rw [List.map_append]
    exact List.mem_append_left _ hi.subscribed
  · rw [List.map_append]
    refine List.nodup_append.mpr ⟨hi.nodup, by simp, fun a ha c hc hac => hv ?_⟩
    exact List.mem_singleton.mp hc ▸ hac ▸ ha

theorem Inv.unsubscribe {id : ℕ} (hi : Inv w s) (hid : id ≠ w) :
    Inv w { s with subscriptions := s.subscriptions.filter fun v => v.id ≠ id } := by
  refine ⟨?_, hi.nodup.sublist (List.filter_sublist.map _), hi.accounts, hi.numbered, hi.drafted,
    hi.locked, hi.noted⟩
  obtain ⟨v, hv, hw⟩ := List.mem_map.mp hi.subscribed
  exact List.mem_map.mpr ⟨v, List.mem_filter.mpr ⟨hv, by simpa [hw] using Ne.symm hid⟩, hw⟩

theorem sound (w : ℕ) : (mirror w).Sound where
  idle hr h b hb := h b ((hr.noting b).mp hb)
  start {t k s s'} hi hidle _ hb := by
    cases Option.some.inj hb
    refine ⟨allowed_begin hi, ?_⟩
    have h : Steady w t (s.setSession t {}) := steady_begin hidle
    cases k.shape with
    | changes hp hx =>
      have hw := wp_transaction (k := k) (keeps_body hx) h
      rwa [← hp] at hw
    | create => exact wp_transaction (keeps_createOrGet _ _ _ _) h
    | ingestSegment => exact wp_transaction (keeps_ingestSegment _ _) h
    | storeNotes => exact wp_transaction (keeps_storeNotes _ _) h
    | advance => exact wp_transaction (keeps_advance _ _) h
    | @attend b => exact wp_attend b h
  final _ _ := trivial
  kill hi _ := ⟨allowed_rollback hi, trivial⟩
  env {e s s'} hi hc he := by
    have hrely : s'.session = s.session → s'.notes = s.notes → s'.subscriptionLock =
        s.subscriptionLock → s'.deliveries = s.deliveries → ∀ u, (mirror w).rely u s s' :=
      fun hs hn hl hd u => ⟨by rw [hs], fun b => by rw [hn], fun h => ⟨hl ▸ h, outbox_of_eq hd⟩⟩
    cases e with
    | subscribe v =>
      have he : World.step (.subscribe v) s = some s' := he
      simp only [World.step] at he
      split_ifs at he with hv
      cases he
      exact ⟨hi.subscribe hv, hrely rfl rfl rfl rfl⟩
    | unsubscribe id =>
      have he : World.step (.unsubscribe id) s = some s' := he
      simp only [World.step] at he
      split_ifs at he
      cases he
      exact ⟨hi.unsubscribe fun h => hc (h ▸ rfl), hrely rfl rfl rfl rfl⟩
    | beat b =>
      cases Option.some.inj he
      exact ⟨hi.of_eq rfl rfl rfl rfl rfl (fun _ => rfl) fun _ h => h, hrely rfl rfl rfl rfl⟩
    | beatLost b =>
      cases Option.some.inj he
      exact ⟨hi.of_eq rfl rfl rfl rfl rfl (fun _ => rfl) fun _ h => h, hrely rfl rfl rfl rfl⟩

/-- The stream of a bot shows its committed history, without gaps and in the order of commits. -/
structure Mirrored (w b : ℕ) (s : Db) : Prop where
  sequences : sequences (ofBot b (outbox w s)) = List.range' 1 (ofBot b (outbox w s)).length
  statuses : ((ofBot b (outbox w s)).map WebhookDelivery.payload).filterMap Payload.toStatus =
    s.statusLog.filter fun x => x.1 = b
  segments : ((ofBot b (outbox w s)).map WebhookDelivery.payload).filterMap Payload.toSegment =
    s.segments.filter fun g => g.botRunId = b
  notes : ((ofBot b (outbox w s)).map WebhookDelivery.payload).countP (Payload.isNotesOf b) =
    (s.notes b).committed.isSome.toNat

/-- A projection of events that shows the bot can be filtered by bot before or after. -/
theorem filterMap_ofBot {α : Type} {f : Payload → Option α} {g : α → ℕ}
    (hf : ∀ p x, f p = some x → g x = p.botId) (b : ℕ) (ds : List WebhookDelivery) :
    ((ofBot b ds).map WebhookDelivery.payload).filterMap f =
      ((ds.map WebhookDelivery.payload).filterMap f).filter fun x => g x = b := by
  induction ds with
  | nil => rfl
  | cons d ds ih =>
    unfold ofBot at ih ⊢
    by_cases hb : d.payload.botId = b
    · cases hx : f d.payload with
      | none => simp [hb, hx, ih]
      | some x => simp [hb, hx, ih, hf _ _ hx]
    · cases hx : f d.payload with
      | none => simp [hb, hx, ih]
      | some x => simp [hb, hx, ih, hf _ _ hx]

theorem countP_ofBot (b : ℕ) (ds : List WebhookDelivery) :
    ((ofBot b ds).map WebhookDelivery.payload).countP (Payload.isNotesOf b) =
      (ds.map WebhookDelivery.payload).countP (Payload.isNotesOf b) := by
  unfold ofBot
  rw [List.countP_map, List.countP_map, List.countP_filter]
  refine List.countP_congr fun d _ => ?_
  cases hp : d.payload with
  | notesCompleted b' e =>
    by_cases hb : b' = b <;> simp [hp, hb, Payload.isNotesOf, Payload.botId]
  | _ => simp [hp, Payload.isNotesOf]

theorem Inv.mirrored (hi : Inv w s) (b : ℕ) : Mirrored w b s where
  sequences := hi.numbered b
  statuses := by
    rw [filterMap_ofBot (g := Prod.fst), hi.accounts.statuses]
    rintro (⟨_, _, _⟩ | _ | _) x ⟨⟩
    rfl
  segments := by
    rw [filterMap_ofBot (g := TranscriptSegment.botRunId), hi.accounts.segments]
    rintro (_ | _ | _) x ⟨⟩
    rfl
  notes := (countP_ofBot b _).trans (hi.accounts.notes b)

variable {ws : List WebhookSubscription} {v : WebhookSubscription} {es : List (Event Op ℕ World)}
  {σ : service.State}

theorem inv_init (hws : (ws.map WebhookSubscription.id).Nodup) (hv : v ∈ ws) :
    Inv v.id { subscriptions := ws } :=
  ⟨List.mem_map_of_mem hv, hws, ⟨rfl, rfl, fun _ => rfl⟩, fun _ => rfl, fun _ _ => rfl,
    fun _ h => absurd rfl h, fun _ _ h => by cases h⟩

/-- For a subscription that exists throughout, along every run. -/
theorem outbox_mirrors (hws : (ws.map WebhookSubscription.id).Nodup) (hv : v ∈ ws)
    (hr : service.run (service.init { subscriptions := ws }) es = some σ)
    (hc : (kept v.id).Meets (service.init { subscriptions := ws }) es) (b : ℕ) :
    Mirrored v.id b σ.shared :=
  ((sound v.id).run (Protocol.holds_init (inv_init hws hv) fun _ _ => nofun) hc hr).inv.mirrored b

instance (t : ℕ) (k : Op) (s : Db) : Decidable ((kept w).start t k s) := isTrue trivial

instance (t : ℕ) (k : Op) (i : Stmt) (s : Db) : Decidable ((kept w).call t k i s) := isTrue trivial

instance (t : ℕ) (s : Db) : Decidable ((kept w).kill t s) := isTrue trivial

instance (e : World) (s : Db) : Decidable ((kept w).env e s) :=
  inferInstanceAs (Decidable (e ≠ .unsubscribe w))

/-- A run is created and cancelled under one subscription; a transition is cut off in between. -/
def cancelledRun : List (Event Op ℕ World) :=
  whole 0 (.create "https://meet.google.com/abc-defg-hij" "abc-defg-hij" none none) 12 ++
  whole 1 (.advance 0 .joining) 11 ++ [.kill 1] ++ whole 2 (.cancel 0) 14

theorem outbox_mirrors_cancelled : ∃ σ : service.State,
    service.run (service.init { subscriptions := [⟨7, "https://hooks.example/a"⟩] }) cancelledRun =
      some σ ∧ Mirrored 7 0 σ.shared := by
  have h : (service.run (service.init { subscriptions := [⟨7, "https://hooks.example/a"⟩] })
      cancelledRun).isSome := by decide
  obtain ⟨σ, hs⟩ := Option.isSome_iff_exists.mp h
  exact ⟨σ, hs, outbox_mirrors (v := ⟨7, "https://hooks.example/a"⟩) (by decide) (by decide) hs
    (by decide) 0⟩

end Fakery.Webhooks
