import Fakery.Bots.Discipline

/-! Every operation of the service keeps the status discipline. -/
namespace Fakery.Bots.Discipline
open Fakery.Concurrent Fakery.Core Fakery.Postgres

variable {D : Discipline} {t u : ℕ} {k : Op} {i : Stmt} {c : ℕ} {s s' : Db} {b : ℕ} {τ : BotStatus}

/-- What a locked read of status `st` allows. `fresh` says that the read loaded the row. -/
structure Ready (D : Discipline) (t b : ℕ) (τ st : BotStatus) (fresh : Prop) (s : Db) : Prop where
  obj : ∃ o, (s.session t).objs b = some o ∧ o.now.status = st
  held : (s.bots b).holder = some t
  permits : canTransition st τ = true → ∃ x w, (s.bots b).committed = some x ∧
    (s.bots b).written = some w ∧ D.next x.status τ ∧ (fresh → canTransition x.status τ = true)

/-- The row that a call of `advance` leaves behind. -/
structure Moved (D : Discipline) (t b : ℕ) (τ : BotStatus) (fresh : Prop) (s : Db) : Prop where
  held : (s.bots b).holder = some t
  written : ∃ x w, (s.bots b).committed = some x ∧ (s.bots b).written = some w ∧ w.status = τ ∧
    (fresh → canTransition x.status τ = true)

theorem Ready.rely {st : BotStatus} {fresh : Prop} (hr : D.protocol.rely t s s')
    (h : Ready D t b τ st fresh s) : Ready D t b τ st fresh s' := by
  have hb := hr.held b h.held
  exact ⟨hr.session ▸ h.obj, hb ▸ h.held, hb ▸ h.permits⟩

theorem Moved.rely {fresh : Prop} (hr : D.protocol.rely t s s') (h : Moved D t b τ fresh s) :
    Moved D t b τ fresh s' := by
  have hb := hr.held b h.held
  exact ⟨hb ▸ h.held, hb ▸ h.written⟩

theorem Moved.quiet {fresh : Prop} {a : Answer i} (h : Moved D t b τ fresh s)
    (hk : D.Known t k s) (hinv : D.Inv s) (hi : i.Quiet k.target)
    (he : exec t i c s = some (s', a)) : Moved D t b τ fresh s' := by
  obtain ⟨held, x, w, hx, hw, hs, hf⟩ := h
  obtain ⟨-, hc, -, hh⟩ := (hk b).quiet ((exec_touches hi.inner he).touch b) hi (hinv b).legal
  obtain ⟨held', hw'⟩ := hh held (by rw [hw]; exact nofun)
  rw [hw] at hw'
  obtain ⟨w', hw', hs'⟩ := Option.map_eq_some_iff.mp hw'
  exact ⟨held', x, w', hc.trans hx, hw', hs'.trans hs, hf⟩

theorem ne_queued_of_mem_late (h : τ ∈ lateStatuses) : τ ≠ .queued := by
  rintro rfl
  exact absurd h (by decide)

/-- The locked read of a row that the session had not loaded shows the status to be changed. -/
theorem ready_absent {a : Answer (.selectForUpdate b)} {run : BotRun} (ht : k.target = some τ)
    (hk : D.Known t k s) (ho : (s.session t).objs b = none)
    (h : exec t (.selectForUpdate b) c s = some (s', a)) (ha : a = some run) (fresh : Prop) :
    Ready D t b τ run.status fresh s' := by
  rcases selectForUpdate_absent ho h with ⟨hn, -⟩ | ⟨run', hr, hv, ho', hb⟩
  · cases hn.symm.trans ha
  cases hr.symm.trans ha
  refine ⟨⟨_, ho', rfl⟩, by rw [hb], fun hc => ?_⟩
  have hcom : (s.bots b).committed.map BotRun.status = some run.status := by
    rcases (hk b).visible with hw | hw <;> rw [hv] at hw
    · exact hw.symm
    · cases hw.trans ht
      exact absurd (rank_lt_of_canTransition hc) (Nat.lt_irrefl _)
  obtain ⟨x, hx, hs⟩ := Option.map_eq_some_iff.mp hcom
  rw [hb]
  exact ⟨x, run, hx, rfl, hs ▸ D.next_of_canTransition hc, fun _ => hs ▸ hc⟩

theorem ready_present {a : Answer (.selectForUpdate b)} {run : BotRun} {o : Obj}
    (ht : k.target = some τ) (hl : τ ∈ lateStatuses) (hk : D.Known t k s) (hi : D.Inv s)
    (hc : D.cond.call t k (.selectForUpdate b) s) (ho : (s.session t).objs b = some o)
    (h : exec t (.selectForUpdate b) c s = some (s', a)) (ha : a = some run) {fresh : Prop}
    (hf : ¬fresh) : Ready D t b τ run.status fresh s' := by
  rcases selectForUpdate_present ho h with ⟨hn, -⟩ | ⟨hr, ⟨w, hv⟩, ho', hb⟩
  · cases hn.symm.trans ha
  cases hr.symm.trans ha
  refine ⟨⟨_, ho', rfl⟩, by rw [hb], fun hcan => ?_⟩
  rw [hb]
  obtain ⟨w', hw', hreach⟩ := (hk b).behind o ho
  cases hv.symm.trans hw'
  have hlegal := legal_visible (t := t) (hi b).legal
  rw [hv] at hlegal
  cases hx : (s.bots b).committed with
  | none =>
    rw [hx] at hlegal
    have hq : w.status = .queued := hlegal.elim nofun Option.some.inj
    rcases (hk b).visible with hs | hs <;> rw [hv] at hs
    · rw [hx] at hs
      cases hs
    · cases hs.trans ht
      exact absurd hq (ne_queued_of_mem_late hl)
  | some x =>
    refine ⟨x, w, rfl, hv, ?_, fun hfr => absurd hfr hf⟩
    rw [hx] at hlegal
    obtain ⟨st, hst, hn⟩ := hlegal
    rcases (hk b).visible with hs | hs <;> rw [hv] at hs
    · rw [hx] at hs
      have hs : w.status = x.status := Option.some.inj hs
      exact D.next_of_reread hc ht hl ho hx (hs ▸ hreach) hcan
    · cases hs.trans ht
      cases Option.some.inj hst
      exact hn

theorem wp_getForUpdate (ht : k.target = some τ) (hk : D.Known t k s)
    (hl : (s.session t).objs b = none ∨ τ ∈ lateStatuses) :
    D.protocol.wp t k (getForUpdate b).run (fun r s' => D.Known t k s' ∧
      ∃ a, r = .ok a ∧ ∀ run, a = some run →
        Ready D t b τ run.status ((s.session t).objs b = none) s') s := by
  unfold getForUpdate perform
  refine wp_perform_bind.mpr ?_
  intro s₁ hr₁ hi₁ _ c₁ s₂ a₁ he₁
  have hk₁ := Known.rely hr₁ hk
  obtain ⟨ha₁, hk₂⟩ := hk₁.quiet (i := .flush b) trivial hi₁ he₁
  refine ⟨ha₁, ?_⟩
  refine wp_perform.mpr ?_
  intro s₃ hr₃ hi₃ hc₃ c₃ s₄ a₃ he₃
  have hk₃ := Known.rely hr₃ hk₂
  obtain ⟨ha₃, hk₄⟩ := hk₃.quiet (i := .selectForUpdate b) trivial hi₃ he₃
  refine ⟨ha₃, hk₄, a₃, rfl, fun run hrun => ?_⟩
  obtain ⟨u, hu, he⟩ := Option.map_eq_some_iff.mp he₁
  obtain ⟨rfl, -⟩ := Prod.mk.inj he
  have hs₁ := hr₁.session
  have hs₃ := hr₃.session
  by_cases ho : (s.session t).objs b = none
  · have ho₁ : (s₁.session t).objs b = none := hs₁ ▸ ho
    cases flush_unchanged hu fun o h => by cases ho₁.symm.trans h
    exact ready_absent ht hk₃ (hs₃ ▸ ho₁) he₃ hrun _
  · cases ho₃ : (s₃.session t).objs b with
    | none => exact ready_absent ht hk₃ ho₃ he₃ hrun _
    | some o => exact ready_present ht (hl.resolve_left ho) hk₃ hi₃ hc₃ ho₃ he₃ hrun ho

/-- The flush that writes the target. -/
theorem flush_target {o : Obj} {x w : BotRun} {fresh : Prop} {a : Answer (.flush b)}
    (ht : k.target = some τ) (hi : D.Inv s) (ho : (s.session t).objs b = some o)
    (hne : o.now ≠ o.loaded) (hτ : o.now.status = τ) (hlτ : o.loaded.status ≠ τ)
    (held : (s.bots b).holder = some t) (hx : (s.bots b).committed = some x)
    (hw : (s.bots b).written = some w) (hn : D.next x.status τ)
    (hf : fresh → canTransition x.status τ = true)
    (others : ∀ b', b' ≠ b → D.Knows t k ((s.session t).objs b') (s.bots b'))
    (he : exec t (.flush b) c s = some (s', a)) :
    D.protocol.Allowed t s s' ∧ D.Known t k s' ∧ Moved D t b τ fresh s' := by
  obtain ⟨u, hu, he'⟩ := Option.map_eq_some_iff.mp he
  obtain ⟨rfl, -⟩ := Prod.mk.inj he'
  obtain ⟨-, -, hb, hobjs⟩ := flush_changed ho hne hu
  have hst : (BotRun.store o.loaded o.now c w).status = τ :=
    (if_neg fun h => hlτ (h.symm.trans hτ)).trans hτ
  have hrow : u.bots b = ⟨some x, some t, some (BotRun.store o.loaded o.now c w)⟩ := by
    rw [hb, Function.update_self, Row.visible_of_holder held, hx, hw, Option.map_some]
  have hrow' : ∀ b', b' ≠ b → u.bots b' = s.bots b' := fun b' hb' => by
    rw [hb, Function.update_of_ne hb']
  refine ⟨allowed_of_touches (exec_touches (i := .flush b) trivial he) hi fun b' => ?_, fun b' => ?_, ?_⟩
  · by_cases hb' : b' = b
    · subst hb'
      rw [hrow, hx]
      exact ⟨rfl, τ, congrArg some hst, hn⟩
    · rw [hrow' b' hb']
      exact ⟨rfl, (hi b').legal⟩
  · by_cases hb' : b' = b
    · subst hb'
      rw [hobjs, Function.update_self, hrow]
      refine ⟨?_, ?_, fun _ => Or.inr ?_⟩
      · rintro _ ⟨⟩
        rfl
      · rintro _ ⟨⟩
        refine ⟨_, Row.visible_of_holder rfl, ?_⟩
        rw [hst]
        exact hτ ▸ .refl
      · rw [ht, ← hst]
        rfl
    · rw [hobjs, Function.update_of_ne hb', hrow' b' hb']
      exact others b' hb'
  · exact ⟨by rw [hrow], x, _, by rw [hrow], by rw [hrow], hst, hf⟩

/-- The two statements of `advance` that write the target. -/
theorem wp_write {α : Type} {f : Txn α} {Q : Except TwinError α → Db → Prop} {st : BotStatus}
    {fresh : Prop} {moment : ℕ} (ht : k.target = some τ) (hc : canTransition st τ = true)
    (hk : D.Known t k s) (h : Ready D t b τ st fresh s)
    (hf : ∀ s', D.Known t k s' → Moved D t b τ fresh s' → D.protocol.wp t k f.run Q s') :
    D.protocol.wp t k (do
      perform (.assign b (BotRun.advanced τ moment))
      perform (.flush b)
      f : Txn α).run Q s := by
  refine wp_perform_bind.mpr ?_
  intro s₁ hr₁ hi₁ _ c₁ s₂ a₁ he₁
  have hk₁ := Known.rely hr₁ hk
  obtain ⟨⟨o, ho, hst⟩, held, permits⟩ := Ready.rely hr₁ h
  obtain ⟨x, w, hx, hw, hn, hfr⟩ := permits hc
  have hs₂ : s₂ = s₁.setObj t b ⟨o.loaded, o.now.advanced τ moment⟩ := by
    simp only [exec, ho] at he₁
    exact (Prod.mk.inj (Option.some.inj he₁)).1.symm
  have ha : D.protocol.Allowed t s₁ s₂ :=
    allowed_of_touches (exec_touches (i := .assign b _) trivial he₁) hi₁ fun b' => by
      subst hs₂
      exact ⟨rfl, (hi₁ b').legal⟩
  subst hs₂
  refine ⟨ha, ?_⟩
  refine wp_perform_bind.mpr ?_
  intro s₃ hr₃ hi₃ _ c₃ s₄ a₃ he₃
  have hb₃ : s₃.bots b = s₁.bots b := hr₃.held b held
  have hobj : (s₃.session t).objs b = some ⟨o.loaded, o.now.advanced τ moment⟩ := by
    rw [hr₃.session, setObj_objs, Function.update_self]
  have hlτ : o.loaded.status ≠ τ := by
    rintro rfl
    rw [← hst, (hk₁ b).clean o ho] at hc
    exact absurd (rank_lt_of_canTransition hc) (Nat.lt_irrefl _)
  have hne : o.now.advanced τ moment ≠ o.loaded := fun he =>
    hlτ (congrArg BotRun.status he).symm
  obtain ⟨ha₃, hk₄, hm₄⟩ := flush_target ht hi₃ hobj hne rfl hlτ (hb₃ ▸ held) (hb₃ ▸ hx)
    (hb₃ ▸ hw) hn hfr (fun b' hb' => Knows.rely hr₃ (by
      rw [setObj_objs, Function.update_of_ne hb']
      exact hk₁ b')) he₃
  exact ⟨ha₃, hf s₄ hk₄ hm₄⟩

theorem wp_statusChanged {fresh : Prop} (hk : D.Known t k s) (hm : Moved D t b τ fresh s) :
    D.protocol.wp t k (statusChanged b τ).run
      (fun _ s' => D.Known t k s' ∧ Moved D t b τ fresh s') s :=
  Protocol.wp_frame (A := fun s => D.Known t k s ∧ Moved D t b τ fresh s)
    (statusChanged_quiet b τ) ⟨hk, hm⟩
    (fun _ _ hr _ h => ⟨Known.rely hr h.1, Moved.rely hr h.2⟩)
    fun _ _ _ _ _ hi hinv _ h he =>
      have hq := h.1.quiet hi hinv he
      ⟨hq.1, hq.2, h.2.quiet h.1 hinv hi he⟩

theorem wp_advance (ht : k.target = some τ) (hk : D.Known t k s)
    (hl : (s.session t).objs b = none ∨ τ ∈ lateStatuses) :
    D.protocol.wp t k (advance b τ).run (fun r s' => D.Known t k s' ∧
      (τ.terminal = false → ∀ run, r = .ok run →
        Moved D t b τ ((s.session t).objs b = none) s')) s := by
  refine Protocol.wp_task_bind.mpr (Protocol.wp_mono (wp_getForUpdate ht hk hl) ?_)
  rintro _ s₁ ⟨hk₁, a, rfl, ha⟩
  have hthrow : ∀ e : TwinError, D.protocol.wp t k (throw e : Txn BotRun).run (fun r s' =>
      D.Known t k s' ∧ (τ.terminal = false → ∀ run, r = .ok run →
        Moved D t b τ ((s.session t).objs b = none) s')) s₁ := fun e =>
    (Protocol.wp_throw e).mpr ⟨hk₁, fun _ _ h => nomatch h⟩
  cases a with
  | none => exact hthrow _
  | some run =>
    dsimp only
    split
    · rename_i hterm
      split
      · rename_i heq
        refine (Protocol.wp_pure _).mpr ⟨hk₁, fun hn => ?_⟩
        rw [← heq, hterm] at hn
        cases hn
      · exact hthrow _
    · split
      · exact hthrow _
      · rename_i hreq
        have hcan : canTransition run.status τ = true := by
          by_contra hc
          simp [requireTransition, hc] at hreq
        refine wp_perform_bind.mpr fun s₂ hr₂ hi₂ _ moment s₃ a₃ he₃ => ?_
        have hk₂ := Known.rely hr₂ hk₁
        obtain ⟨ha₃, hk₃⟩ := hk₂.quiet (i := .utcnow) trivial hi₂ he₃
        obtain ⟨rfl, rfl⟩ := Prod.mk.inj (Option.some.inj he₃)
        refine ⟨ha₃, wp_write ht hcan hk₂ (Ready.rely hr₂ (ha run rfl)) fun s₄ hk₄ hm₄ => ?_⟩
        refine Protocol.wp_task_bind.mpr (Protocol.wp_mono (wp_statusChanged hk₄ hm₄) ?_)
        rintro r s₅ ⟨hk₅, hm₅⟩
        cases r with
        | ok _ => exact (Protocol.wp_pure _).mpr ⟨hk₅, fun _ _ _ => hm₅⟩
        | error e => exact ⟨hk₅, fun _ _ h => nomatch h⟩

theorem keeps_body {α : Type} {x : Txn α} (h : Body (Stmt.Quiet k.target) k.target x) :
    D.protocol.Keeps t k (D.Known t k) x.run := by
  induction h with
  | uses h => exact keeps_quiet h
  | advance ht hl =>
    exact fun s hs => Protocol.wp_mono (wp_advance ht hs (Or.inr hl)) fun _ _ h => h.1
  | bind _ _ hx hf => exact hx.task_bind hf

theorem exists_of_legal {x : BotStatus} {w : Option BotRun}
    (h : D.Legal (some x) (w.map BotRun.status)) : ∃ run, w = some run ∧ D.next x run.status := by
  obtain ⟨st, hs, hn⟩ := h
  obtain ⟨run, hr, rfl⟩ := Option.map_eq_some_iff.mp hs
  exact ⟨run, hr, hn⟩

theorem tracks_seen {h : List BotStatus} {x w : Option BotRun}
    (ht : Tracks (fun s τ => D.next s τ ∧ s ≠ τ) h (x.map BotRun.status))
    (hl : D.Legal (x.map BotRun.status) (w.map BotRun.status)) :
    Tracks (fun s τ => D.next s τ ∧ s ≠ τ) (Db.seen x w h) (w.map BotRun.status) := by
  cases x with
  | none =>
    have hh : h = [] := ht
    cases w with
    | none => exact hh
    | some w =>
      have hq : w.status = .queued := hl.elim nofun Option.some.inj
      subst hh
      simp [Db.seen, Tracks, hq]
  | some x =>
    obtain ⟨w, rfl, hn⟩ := exists_of_legal hl
    unfold Db.seen
    dsimp only [Option.map_some] at ht ⊢
    split_ifs with he
    · exact he ▸ ht
    · exact ht.snoc ⟨hn, fun hs => he (congrArg some hs)⟩

/-- What a commit of `t` shows of a row is legal next to what was committed before. -/
theorem legal_commit {r : Row (Option BotRun)}
    (h : D.Legal (r.committed.map BotRun.status) (r.written.map BotRun.status)) :
    D.Legal (r.committed.map BotRun.status) ((r.commit t).committed.map BotRun.status) ∧
      D.Legal ((r.commit t).committed.map BotRun.status)
        ((r.commit t).written.map BotRun.status) := by
  unfold Row.commit
  split_ifs
  · exact ⟨h, legal_refl _⟩
  · exact ⟨legal_refl _, h⟩

/-- A run that had left the queue before a commit has left it after. -/
theorem left_queue {x x' : Option BotRun}
    (hl : D.Legal (x.map BotRun.status) (x'.map BotRun.status))
    (h : ∃ run, x = some run ∧ run.status ≠ .queued) :
    ∃ run, x' = some run ∧ run.status ≠ .queued := by
  obtain ⟨run, rfl, hq⟩ := h
  obtain ⟨run', rfl, hn⟩ := exists_of_legal hl
  exact ⟨run', rfl, fun he => hq (D.next_queued (he ▸ hn))⟩

theorem not_joins {x : Option BotRun} {P : Prop} (h : ∃ run, x = some run ∧ run.status ≠ .queued) :
    ¬(x.map BotRun.status = some .queued ∧ P) := by
  obtain ⟨run, rfl, hq⟩ := h
  exact fun hc => hq (Option.some.inj hc.1)

theorem allowed_commit (hi : D.Inv s) : D.protocol.Allowed t s (s.commit t) := by
  refine ⟨fun b => ?_, fun u hu => ⟨apart_commit hu, fun b run hb => ?_, fun b hj => ?_⟩, trivial⟩
  · obtain ⟨tracks, legal, joined, opened⟩ := hi b
    obtain ⟨hl, hl'⟩ := legal_commit (t := t) legal
    refine ⟨tracks_seen tracks hl, hl', fun u hu => ?_, ?_⟩ <;> simp only [Db.commit] at *
    · split_ifs at hu with hj
      · obtain ⟨run, hr, hs⟩ := Option.map_eq_some_iff.mp hj.2
        exact ⟨run, hr, hs ▸ by decide⟩
      · exact left_queue hl (joined u hu)
    · split_ifs with hj
      · refine Or.inl (opened.resolve_right ?_)
        rintro ⟨u, hu, -⟩
        exact not_joins (joined u hu) hj
      · exact opened
  · have hl := (legal_commit (t := t) (hi b).legal).1
    rw [hb] at hl
    obtain ⟨run', hr, hn⟩ := exists_of_legal hl
    exact ⟨run', hr, .single hn⟩
  · exact ⟨(if_neg (not_joins ((hi b).joined u hj))).trans hj, rfl⟩

theorem allowed_rollback (hi : D.Inv s) : D.protocol.Allowed t s (s.rollback t) := by
  refine ⟨fun b => ?_, fun u hu => ⟨apart_rollback hu, fun b run hb => ?_, fun b hj => ⟨hj, rfl⟩⟩,
    trivial⟩
  · obtain ⟨tracks, legal, joined, opened⟩ := hi b
    refine ⟨?_, ?_, fun u hu => ?_, opened⟩ <;> dsimp only [Db.rollback] at *
    · rwa [Row.rollback_committed]
    · unfold Row.rollback
      split_ifs
      · exact legal_refl _
      · exact legal
    · rw [Row.rollback_committed]
      exact joined u hu
  · exact ⟨run, (Row.rollback_committed _ _).trans hb, .refl⟩

theorem wp_commit {Q : Unit → Db → Prop}
    (h : ∀ s', D.protocol.rely t s s' → D.Inv s' → Q () (s'.commit t)) :
    D.protocol.wp t k (issue .commit) Q s := by
  refine wp_issue.mpr fun s₁ hr hi _ c s₂ a he => ?_
  obtain ⟨rfl, rfl⟩ := Prod.mk.inj (Option.some.inj he)
  exact ⟨allowed_commit hi, h s₁ hr hi⟩

theorem wp_rollback {Q : Unit → Db → Prop} (h : ∀ s', Q () s') :
    D.protocol.wp t k (issue .rollback) Q s := by
  refine wp_issue.mpr fun s₁ hr hi _ c s₂ a he => ?_
  obtain ⟨rfl, rfl⟩ := Prod.mk.inj (Option.some.inj he)
  exact ⟨allowed_rollback hi, h _⟩

theorem wp_transaction {α : Type} {x : Txn α} {A : Db → Prop}
    (h : D.protocol.wp t k x.run (fun _ => A) s) :
    D.protocol.wp t k (transaction x) (fun _ _ => True) s := by
  refine Protocol.wp_bind.mpr (wp_sessionScope.mpr (Protocol.wp_mono h fun r s' _ => ?_))
  cases r with
  | ok a => exact wp_commit fun _ _ _ => trivial
  | error e => exact wp_rollback fun _ => trivial

/-- Only the transaction that took the run out of the queue goes on to open a browser. -/
theorem wp_attend (hk : D.Known t (.attend b) s) (ho : (s.session t).objs b = none) :
    D.protocol.wp t (.attend b) (attend b) (fun _ _ => True) s := by
  refine Protocol.wp_bind.mpr (wp_sessionScope.mpr
    (Protocol.wp_mono (wp_advance (k := .attend b) rfl hk (Or.inl ho)) ?_))
  rintro (e | run) s₁ ⟨-, hm⟩
  · exact wp_rollback fun _ => trivial
  · refine wp_commit fun s₂ hr hi => wp_issue.mpr fun s₃ hr₃ hi₃ _ c s₄ a he => ?_
    obtain ⟨held, x, w, hx, hw, hs, hf⟩ := Moved.rely hr (hm rfl run rfl)
    have hq := eq_queued_of_canTransition_joining (hf ho)
    have hj : (s₂.commit t).joinedBy b = some t := by
      refine if_pos ⟨by rw [hx, Option.map_some, hq], ?_⟩
      rw [Row.commit_of_holder held, ← hs]
      exact congrArg _ hw
    have hempty : s₂.openedBy b = [] := by
      refine (hi b).opened.resolve_right ?_
      rintro ⟨u, hu, -⟩
      exact not_joins ((hi b).joined u hu) ⟨by rw [hx, Option.map_some, hq], trivial⟩
    obtain ⟨hj₃, ho₃⟩ := hr₃.joined b hj
    have ho₃ : s₃.openedBy b = [] := ho₃.trans hempty
    obtain ⟨rfl, rfl⟩ := Prod.mk.inj (Option.some.inj he)
    refine ⟨⟨fun b' => ?_, fun u hu => ⟨⟨rfl, fun _ _ => rfl, fun _ h => h⟩,
      fun _ run h => ⟨run, h, .refl⟩, fun b' hj' => ⟨hj', ?_⟩⟩, trivial⟩, trivial⟩
    · obtain ⟨tracks, legal, joined, opened⟩ := hi₃ b'
      refine ⟨tracks, legal, joined, ?_⟩
      by_cases hb : b' = b
      · subst hb
        exact Or.inr ⟨t, hj₃, by simp [ho₃]⟩
      · simpa [Function.update_of_ne hb] using opened
    · refine Function.update_of_ne (fun hb => hu ?_) _ _
      exact Option.some.inj (hj'.symm.trans (hb ▸ hj₃))

theorem known_begin (h : ∀ b, (s.bots b).holder ≠ some t) : D.Known t k (s.setSession t {}) := by
  intro b
  have ho : ((s.setSession t {}).session t).objs b = none := by simp [Db.setSession]
  rw [ho]
  refine ⟨?_, ?_, fun hh => absurd hh (h b)⟩ <;>
    · intro x hx
      cases hx

theorem sound (D : Discipline) : D.protocol.Sound where
  idle hr h b hb := h b (hr.given b hb)
  start {t k s s'} hi hidle _ hb := by
    cases Option.some.inj hb
    refine ⟨⟨hi, fun u hu => ⟨⟨Function.update_of_ne hu _ _, fun _ _ => rfl, fun _ h => h⟩,
      fun _ run h => ⟨run, h, .refl⟩, fun _ h => ⟨h, rfl⟩⟩, trivial⟩, ?_⟩
    have hk : D.Known t k (s.setSession t {}) := known_begin hidle
    have ho : ∀ b, ((s.setSession t {}).session t).objs b = none := by simp [Db.setSession]
    cases k.shape with
    | changes hp hx =>
      have hw := wp_transaction (keeps_body (hx.mono fun _ => Stmt.Plain.quiet) _ hk)
      rwa [← hp] at hw
    | @create url key name idem =>
      exact wp_transaction (keeps_body (k := .create url key name idem)
        (createOrGet_body url key name idem) _ hk)
    | @ingestSegment b segment =>
      exact wp_transaction (keeps_body (k := .ingestSegment b segment)
        (ingestSegment_body b segment) _ hk)
    | @storeNotes b notes =>
      exact wp_transaction (keeps_body (k := .storeNotes b notes) (storeNotes_body b notes) _ hk)
    | @advance b τ =>
      exact wp_transaction (A := fun _ => True) (Protocol.wp_mono
        (wp_advance (k := .advance b τ) rfl hk (Or.inl (ho b))) fun _ _ _ => trivial)
    | @attend b => exact wp_attend hk (ho b)
  final _ _ := trivial
  kill hi _ := ⟨allowed_rollback hi, trivial⟩
  env {e s s'} hi _ he := by
    obtain ⟨hb, hs, hh, hj, ho⟩ := world_step he
    refine ⟨fun b => ?_, fun u => ⟨⟨by rw [hs], fun b _ => by rw [hb], fun b h => hb ▸ h⟩,
      fun b run h => ⟨run, hb ▸ h, .refl⟩, fun b h => ⟨hj ▸ h, by rw [ho]⟩⟩⟩
    rw [hb, hh, hj, ho]
    exact hi b

end Fakery.Bots.Discipline
