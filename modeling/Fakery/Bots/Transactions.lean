import Fakery.Bots.Service

/-! What one statement can do to the database, stated once for all proofs. -/
namespace Fakery.Bots
open Fakery.Concurrent Fakery.Postgres

variable {t u : ℕ} {i : Stmt} {c : ℕ} {s s' s₁ s₂ s₃ : Db} {b : ℕ}

/-- Every statement but the two that end a transaction and the call that opens a browser. -/
def Stmt.Inner : Stmt → Prop
  | commit | rollback | openBrowser _ => False
  | _ => True

/-- What an inner statement does to the row of `b` and to the object that the session of `t`
holds for it. -/
inductive Touch (t b : ℕ) (i : Stmt) :
    Option Obj → Row (Option BotRun) → Option Obj → Row (Option BotRun) → Prop where
  | same {o r} : Touch t b i o r o r
  | loaded {r run} (visible : r.visible t = some run) : Touch t b i none r (some ⟨run, run⟩) r
  | locked {o r} (free : r.Free t) : Touch t b i (some o) r (some o) ⟨r.committed, some t, r.visible t⟩
  | lockedLoaded {r run} (free : r.Free t) (visible : r.visible t = some run) :
      Touch t b i none r (some ⟨run, run⟩) ⟨r.committed, some t, some run⟩
  | assigned {x f r} (stmt : i = .assign b f) :
      Touch t b i (some x) r (some ⟨x.loaded, f x.now⟩) r
  | stored {x moment r} (free : r.Free t) :
      Touch t b i (some x) r (some ⟨x.now.touched moment, x.now.touched moment⟩)
        ⟨r.committed, some t, (r.visible t).map (BotRun.store x.loaded x.now moment)⟩
  | inserted {o r run} (stmt : i = .insertRun run) (free : r.Free t)
      (absent : r.visible t = none) :
      Touch t b i o r (some ⟨run, run⟩) ⟨r.committed, some t, some run⟩

/-- What no inner statement touches. -/
structure Frame (t : ℕ) (s s' : Db) : Prop where
  session : ∀ u, u ≠ t → s'.session u = s.session u
  history : s'.history = s.history
  statusLog : s'.statusLog = s.statusLog
  joinedBy : s'.joinedBy = s.joinedBy
  openedBy : s'.openedBy = s.openedBy
  deliveries : s'.deliveries = s.deliveries
  segments : s'.segments = s.segments

theorem Frame.refl (t : ℕ) (s : Db) : Frame t s s :=
  ⟨fun _ _ => rfl, rfl, rfl, rfl, rfl, rfl, rfl⟩

theorem Frame.trans (h : Frame t s₁ s₂) (k : Frame t s₂ s₃) : Frame t s₁ s₃ :=
  ⟨fun u hu => (k.session u hu).trans (h.session u hu), k.history.trans h.history,
    k.statusLog.trans h.statusLog, k.joinedBy.trans h.joinedBy, k.openedBy.trans h.openedBy,
    k.deliveries.trans h.deliveries, k.segments.trans h.segments⟩

theorem frame_setSession {x : Session} : Frame t s (s.setSession t x) :=
  ⟨fun _ hu => Function.update_of_ne hu _ _, rfl, rfl, rfl, rfl, rfl, rfl⟩

theorem frame_setBot {r : Row (Option BotRun)} : Frame t s (s.setBot b r) :=
  ⟨fun _ _ => rfl, rfl, rfl, rfl, rfl, rfl, rfl⟩

/-- What a statement that inserts and locks nothing leaves alone besides. -/
structure Aside (t : ℕ) (s s' : Db) : Prop where
  drafts : (s'.session t).deliveries = (s.session t).deliveries
  segments : (s'.session t).segments = (s.session t).segments
  statuses : (s'.session t).statuses = (s.session t).statuses
  notes : s'.notes = s.notes
  subscriptions : s'.subscriptions = s.subscriptions
  subscriptionLock : s'.subscriptionLock = s.subscriptionLock

theorem Aside.refl (t : ℕ) (s : Db) : Aside t s s := ⟨rfl, rfl, rfl, rfl, rfl, rfl⟩

theorem Aside.trans (h : Aside t s₁ s₂) (k : Aside t s₂ s₃) : Aside t s₁ s₃ :=
  ⟨k.drafts.trans h.drafts, k.segments.trans h.segments, k.statuses.trans h.statuses,
    k.notes.trans h.notes, k.subscriptions.trans h.subscriptions,
    k.subscriptionLock.trans h.subscriptionLock⟩

theorem aside_setObj (o : Obj) : Aside t s (s.setObj t b o) := by
  constructor <;> simp [Db.setObj, Db.setSession]

theorem aside_setBot (r : Row (Option BotRun)) : Aside t s (s.setBot b r) :=
  ⟨rfl, rfl, rfl, rfl, rfl, rfl⟩

theorem aside_load (run : BotRun) : Aside t s (s.load t b run).1 := by
  unfold Db.load
  split
  · exact .refl t s
  · exact aside_setObj _

/-- The inversion of an inner statement. -/
structure Touches (t : ℕ) (i : Stmt) (s s' : Db) : Prop extends Frame t s s' where
  touch : ∀ b, Touch t b i ((s.session t).objs b) (s.bots b) ((s'.session t).objs b) (s'.bots b)

theorem touches_of_eq (hf : Frame t s s') (hb : s'.bots = s.bots)
    (ho : (s'.session t).objs = (s.session t).objs) : Touches t i s s' :=
  ⟨hf, fun _ => hb ▸ ho ▸ .same⟩

theorem Touches.refl (t : ℕ) (i : Stmt) (s : Db) : Touches t i s s :=
  touches_of_eq (.refl t s) rfl rfl

/-- A statement that writes one row and one object. -/
theorem touches_update {o : Obj} {r : Row (Option BotRun)} (hf : Frame t s s')
    (hb : s'.bots = Function.update s.bots b r)
    (ho : (s'.session t).objs = Function.update (s.session t).objs b (some o))
    (h : Touch t b i ((s.session t).objs b) (s.bots b) (some o) r) : Touches t i s s' := by
  refine ⟨hf, fun b' => ?_⟩
  rw [hb, ho]
  by_cases hbb : b' = b
  · subst hbb
    simpa using h
  · simpa [Function.update_of_ne hbb] using Touch.same

theorem setObj_objs (o : Obj) :
    ((s.setObj t b o).session t).objs = Function.update (s.session t).objs b (some o) := by
  simp [Db.setObj, Db.setSession]

/-- A SELECT adds objects for rows that it sees to the session and does nothing else. -/
structure Loads (t : ℕ) (s s' : Db) : Prop extends Frame t s s' where
  bots : s'.bots = s.bots
  aside : Aside t s s'
  objs : ∀ b, (s'.session t).objs b = (s.session t).objs b ∨ (s.session t).objs b = none ∧
    ∃ run, (s.bots b).visible t = some run ∧ (s'.session t).objs b = some ⟨run, run⟩

theorem Loads.refl (t : ℕ) (s : Db) : Loads t s s := ⟨.refl t s, rfl, .refl t s, fun _ => Or.inl rfl⟩

theorem Loads.trans (h : Loads t s₁ s₂) (k : Loads t s₂ s₃) : Loads t s₁ s₃ := by
  refine ⟨h.toFrame.trans k.toFrame, k.bots.trans h.bots, h.aside.trans k.aside, fun b => ?_⟩
  rcases k.objs b with hk | ⟨hn, run, hv, hk⟩
  · rw [hk]
    exact h.objs b
  · rcases h.objs b with hh | ⟨-, run', -, hh⟩
    · exact Or.inr ⟨hh ▸ hn, run, h.bots ▸ hv, hk⟩
    · rw [hh] at hn
      cases hn

theorem loads_load {run : BotRun} (hv : (s.bots b).visible t = some run) :
    Loads t s (s.load t b run).1 := by
  unfold Db.load
  split
  · exact .refl t s
  · rename_i hn
    refine ⟨frame_setSession, rfl, aside_setObj _, fun b' => ?_⟩
    rw [setObj_objs]
    by_cases hb : b' = b
    · subst hb
      exact Or.inr ⟨hn, run, hv, Function.update_self _ _ _⟩
    · exact Or.inl (Function.update_of_ne hb _ _)

theorem loads_loadSome {x : Option (ℕ × BotRun)}
    (hx : ∀ y, x = some y → (s.bots y.1).visible t = some y.2) : Loads t s (s.loadSome t x).1 := by
  cases x with
  | none => exact .refl t s
  | some y => exact loads_load (hx y rfl)

theorem loads_loadAll {xs : List (ℕ × BotRun)}
    (hx : ∀ y ∈ xs, (s.bots y.1).visible t = some y.2) : Loads t s (Db.loadAll t s xs).1 := by
  induction xs generalizing s with
  | nil => exact .refl t s
  | cons x xs ih =>
    have hl : Loads t s (s.load t x.1 x.2).1 := loads_load (hx x List.mem_cons_self)
    exact hl.trans (ih fun y hy => hl.bots ▸ hx y (List.mem_cons_of_mem x hy))

theorem visible_of_mem_select {p : BotRun → Bool} {y : ℕ × BotRun} (h : y ∈ s.select t p) :
    (s.bots y.1).visible t = some y.2 := by
  obtain ⟨b, -, hb⟩ := List.mem_filterMap.mp h
  obtain ⟨run, hr, rfl⟩ := Option.map_eq_some_iff.mp hb
  exact (Option.filter_eq_some_iff.mp hr).1

theorem loads_select_head (p : BotRun → Bool) :
    Loads t s (s.loadSome t (s.select t p).head?).1 :=
  loads_loadSome fun _ hy => visible_of_mem_select (List.mem_of_head? hy)

theorem Loads.touches (h : Loads t s s') : Touches t i s s' := by
  refine ⟨h.toFrame, fun b => ?_⟩
  rcases h.objs b with ho | ⟨hn, run, hv, ho⟩
  · exact h.bots ▸ ho ▸ .same
  · rw [ho, hn, h.bots]
    exact .loaded hv

theorem touches_selectForUpdate {r : Answer (.selectForUpdate b)}
    (h : exec t (.selectForUpdate b) c s = some (s', r)) : Touches t i s s' := by
  simp only [exec] at h
  split at h
  · obtain ⟨rfl, -⟩ := Prod.mk.inj (Option.some.inj h)
    exact .refl t i s
  · rename_i run hv
    obtain ⟨q, hq, he⟩ := Option.map_eq_some_iff.mp h
    obtain ⟨hf, rfl⟩ := Row.lock_eq hq
    obtain ⟨rfl, -⟩ := Prod.mk.inj he
    simp only [Db.load]
    split
    · rename_i o ho
      have ho : (s.session t).objs b = some o := ho
      refine touches_update frame_setBot rfl (Function.update_eq_self_iff.mpr ho.symm).symm ?_
      rw [ho]
      exact .locked hf
    · rename_i ho
      have ho : (s.session t).objs b = none := ho
      refine touches_update (frame_setBot.trans frame_setSession) rfl (setObj_objs _) ?_
      rw [ho, hv]
      exact .lockedLoaded hf hv

theorem selectForUpdate_absent {a : Answer (.selectForUpdate b)}
    (ho : (s.session t).objs b = none)
    (h : exec t (.selectForUpdate b) c s = some (s', a)) :
    (a = none ∧ s' = s) ∨ ∃ run, a = some run ∧ (s.bots b).visible t = some run ∧
      (s'.session t).objs b = some ⟨run, run⟩ ∧
      s'.bots b = ⟨(s.bots b).committed, some t, some run⟩ := by
  simp only [exec] at h
  split at h
  · obtain ⟨rfl, rfl⟩ := Prod.mk.inj (Option.some.inj h)
    exact Or.inl ⟨rfl, rfl⟩
  · rename_i run hv
    obtain ⟨q, hq, he⟩ := Option.map_eq_some_iff.mp h
    obtain ⟨hf, rfl⟩ := Row.lock_eq hq
    have ho' : ((s.setBot b ⟨(s.bots b).committed, some t, (s.bots b).visible t⟩).session t).objs b
        = none := ho
    simp only [Db.loadSome, Db.load, ho'] at he
    obtain ⟨rfl, rfl⟩ := Prod.mk.inj he
    refine Or.inr ⟨run, rfl, hv, ?_, ?_⟩
    · simp [setObj_objs]
    · simp [Db.setObj, Db.setSession, Db.setBot, hv]

theorem selectForUpdate_present {a : Answer (.selectForUpdate b)} {o : Obj}
    (ho : (s.session t).objs b = some o)
    (h : exec t (.selectForUpdate b) c s = some (s', a)) :
    (a = none ∧ s' = s) ∨ a = some o.now ∧ (∃ run, (s.bots b).visible t = some run) ∧
      (s'.session t).objs b = some o ∧
      s'.bots b = ⟨(s.bots b).committed, some t, (s.bots b).visible t⟩ := by
  simp only [exec] at h
  split at h
  · obtain ⟨rfl, rfl⟩ := Prod.mk.inj (Option.some.inj h)
    exact Or.inl ⟨rfl, rfl⟩
  · rename_i run hv
    obtain ⟨q, hq, he⟩ := Option.map_eq_some_iff.mp h
    obtain ⟨hf, rfl⟩ := Row.lock_eq hq
    have ho' : ((s.setBot b ⟨(s.bots b).committed, some t, (s.bots b).visible t⟩).session t).objs b
        = some o := ho
    simp only [Db.loadSome, Db.load, ho'] at he
    obtain ⟨rfl, rfl⟩ := Prod.mk.inj he
    exact Or.inr ⟨rfl, ⟨run, hv⟩, ho, by simp [Db.setBot]⟩

/-- A locked read answers with the attributes of the object that the session then holds. -/
theorem selectForUpdate_obj {a : Answer (.selectForUpdate b)} {run : BotRun}
    (h : exec t (.selectForUpdate b) c s = some (s', a)) (ha : a = some run) :
    ∃ o, (s'.session t).objs b = some o ∧ o.now = run := by
  cases ho : (s.session t).objs b with
  | none =>
    rcases selectForUpdate_absent ho h with ⟨hn, -⟩ | ⟨run', hr, -, ho', -⟩
    · cases hn.symm.trans ha
    · cases hr.symm.trans ha
      exact ⟨_, ho', rfl⟩
  | some o =>
    rcases selectForUpdate_present ho h with ⟨hn, -⟩ | ⟨hr, -, ho', -⟩
    · cases hn.symm.trans ha
    · cases hr.symm.trans ha
      exact ⟨o, ho', rfl⟩

theorem flush_changed {o : Obj} (ho : (s.session t).objs b = some o) (hn : o.now ≠ o.loaded)
    (h : s.flush t b c = some s') : (s.bots b).Free t ∧ Frame t s s' ∧
      s'.bots = Function.update s.bots b ⟨(s.bots b).committed, some t,
        ((s.bots b).visible t).map (BotRun.store o.loaded o.now c)⟩ ∧
      (s'.session t).objs =
        Function.update (s.session t).objs b (some ⟨o.now.touched c, o.now.touched c⟩) := by
  unfold Db.flush at h
  simp only [ho, if_neg hn] at h
  obtain ⟨r, hr, rfl⟩ := Option.map_eq_some_iff.mp h
  obtain ⟨hf, rfl⟩ := Row.update_eq hr
  exact ⟨hf, frame_setBot.trans frame_setSession, rfl, by simp [Db.setSession]⟩

/-- A flush logs the status that it writes, and does nothing else to what is inserted. -/
theorem flush_log {o : Obj} (ho : (s.session t).objs b = some o) (h : s.flush t b c = some s') :
    (s'.session t).statuses = (s.session t).statuses ++
        (if o.now.status = o.loaded.status then [] else [(b, o.now.status)]) ∧
      (s'.session t).deliveries = (s.session t).deliveries ∧
      (s'.session t).segments = (s.session t).segments ∧ s'.notes = s.notes ∧
      s'.subscriptions = s.subscriptions ∧ s'.subscriptionLock = s.subscriptionLock := by
  by_cases hn : o.now = o.loaded
  · have hs : s' = s := by
      unfold Db.flush at h
      simp only [ho, if_pos hn] at h
      exact (Option.some.inj h).symm
    subst hs
    simp [hn]
  · unfold Db.flush at h
    simp only [ho, if_neg hn] at h
    obtain ⟨r, -, rfl⟩ := Option.map_eq_some_iff.mp h
    exact ⟨by simp [Db.setSession], by simp [Db.setSession], by simp [Db.setSession], rfl, rfl, rfl⟩

theorem flush_unchanged (h : s.flush t b c = some s')
    (ho : ∀ o, (s.session t).objs b = some o → o.now = o.loaded) : s' = s := by
  unfold Db.flush at h
  split at h
  · exact (Option.some.inj h).symm
  · rename_i o hb
    rw [if_pos (ho o hb)] at h
    exact (Option.some.inj h).symm

theorem touches_flush (h : s.flush t b c = some s') : Touches t i s s' := by
  by_cases ho : ∃ o, (s.session t).objs b = some o ∧ o.now ≠ o.loaded
  · obtain ⟨o, ho, hn⟩ := ho
    obtain ⟨hf, hframe, hb, hobjs⟩ := flush_changed ho hn h
    refine touches_update hframe hb hobjs ?_
    rw [ho]
    exact .stored hf
  · cases flush_unchanged h fun o hb => of_not_not fun hn => ho ⟨o, hb, hn⟩
    exact .refl t i s

theorem touches_insertRun {run : BotRun} {a : Bool} (h : s.insertRun t run = some (s', a)) :
    Touches t (.insertRun run) s s' := by
  unfold Db.insertRun at h
  split at h
  · cases h
  split at h
  · obtain ⟨rfl, -⟩ := Prod.mk.inj (Option.some.inj h)
    exact .refl t _ s
  · rename_i hn
    obtain ⟨r, hr, he⟩ := Option.map_eq_some_iff.mp h
    obtain ⟨rfl, -⟩ := Prod.mk.inj he
    obtain ⟨hf, rfl⟩ := Row.update_eq hr
    have ha : (s.bots run.id).visible t = none := by
      cases hv : (s.bots run.id).visible t with
      | none => rfl
      | some x => simp [hv] at hn
    exact touches_update ⟨fun _ hu => Function.update_of_ne hu _ _, rfl, rfl, rfl, rfl, rfl, rfl⟩
      rfl (by simp) (.inserted rfl hf ha)

/-- An insertion logs the status of the new run, unless a unique index refuses it. -/
theorem insertRun_log {run : BotRun} {a : Bool} (h : s.insertRun t run = some (s', a)) :
    (a = false ∧ s' = s) ∨ a = true ∧
      (s'.session t).statuses = (s.session t).statuses ++ [(run.id, run.status)] ∧
      (s'.session t).objs = Function.update (s.session t).objs run.id (some ⟨run, run⟩) ∧
      (s'.session t).deliveries = (s.session t).deliveries ∧
      (s'.session t).segments = (s.session t).segments ∧ s'.notes = s.notes ∧
      s'.subscriptions = s.subscriptions ∧ s'.subscriptionLock = s.subscriptionLock := by
  unfold Db.insertRun at h
  split at h
  · cases h
  split at h
  · obtain ⟨rfl, rfl⟩ := Prod.mk.inj (Option.some.inj h)
    exact Or.inl ⟨rfl, rfl⟩
  · obtain ⟨r, -, he⟩ := Option.map_eq_some_iff.mp h
    obtain ⟨rfl, rfl⟩ := Prod.mk.inj he
    exact Or.inr ⟨rfl, by simp, by simp, by simp, by simp, rfl, rfl, rfl⟩

theorem exec_touches {r : Answer i} (hi : i.Inner) (h : exec t i c s = some (s', r)) :
    Touches t i s s' := by
  cases i with
  | commit => exact hi.elim
  | rollback => exact hi.elim
  | openBrowser b => exact hi.elim
  | get b =>
    simp only [exec] at h
    split at h
    · obtain ⟨rfl, -⟩ := Prod.mk.inj (Option.some.inj h)
      exact .refl t _ s
    · obtain ⟨rfl, -⟩ := Prod.mk.inj (Option.some.inj h)
      refine (loads_loadSome fun y hy => ?_).touches
      obtain ⟨run, hr, rfl⟩ := Option.map_eq_some_iff.mp hy
      exact hr
  | selectForUpdate b => exact touches_selectForUpdate h
  | getByIdempotency key =>
    obtain ⟨rfl, -⟩ := Prod.mk.inj (Option.some.inj h)
    exact (loads_select_head _).touches
  | findActiveMeeting key =>
    obtain ⟨rfl, -⟩ := Prod.mk.inj (Option.some.inj h)
    exact (loads_select_head _).touches
  | selectStale cutoff =>
    obtain ⟨rfl, -⟩ := Prod.mk.inj (Option.some.inj h)
    exact (loads_loadAll fun y => visible_of_mem_select).touches
  | assign b f =>
    simp only [exec] at h
    split at h
    · obtain ⟨rfl, -⟩ := Prod.mk.inj (Option.some.inj h)
      exact .refl t _ s
    · rename_i o ho
      obtain ⟨rfl, -⟩ := Prod.mk.inj (Option.some.inj h)
      refine touches_update frame_setSession (Function.update_eq_self b s.bots).symm
        (setObj_objs _) ?_
      exact ho ▸ .assigned rfl
  | flush b =>
    obtain ⟨u, hu, he⟩ := Option.map_eq_some_iff.mp h
    obtain ⟨rfl, -⟩ := Prod.mk.inj he
    exact touches_flush hu
  | insertRun run => exact touches_insertRun h
  | lockSubscriptions =>
    simp only [exec, Db.lockSubscriptions] at h
    split_ifs at h
    obtain ⟨rfl, -⟩ := Prod.mk.inj (Option.some.inj h)
    exact touches_of_eq ⟨fun _ _ => rfl, rfl, rfl, rfl, rfl, rfl, rfl⟩ rfl rfl
  | addDelivery d =>
    obtain ⟨rfl, -⟩ := Prod.mk.inj (Option.some.inj h)
    exact touches_of_eq frame_setSession rfl (by simp [Db.setSession])
  | insertSegment g =>
    obtain ⟨rfl, -⟩ := Prod.mk.inj (Option.some.inj h)
    exact touches_of_eq frame_setSession rfl (by simp [Db.setSession])
  | insertNote note =>
    simp only [exec] at h
    split at h
    · obtain ⟨rfl, -⟩ := Prod.mk.inj (Option.some.inj h)
      exact .refl t _ s
    · obtain ⟨q, -, he⟩ := Option.map_eq_some_iff.mp h
      obtain ⟨rfl, -⟩ := Prod.mk.inj he
      exact touches_of_eq ⟨fun _ _ => rfl, rfl, rfl, rfl, rfl, rfl, rfl⟩ rfl rfl
  | _ =>
    obtain ⟨rfl, -⟩ := Prod.mk.inj (Option.some.inj h)
    exact .refl t _ s

/-- What the statements of other transactions leave alone. -/
structure Apart (u : ℕ) (s s' : Db) : Prop where
  session : s'.session u = s.session u
  held : ∀ b, (s.bots b).holder = some u → s'.bots b = s.bots b
  given : ∀ b, (s'.bots b).holder = some u → (s.bots b).holder = some u

theorem Apart.refl (u : ℕ) (s : Db) : Apart u s s := ⟨rfl, fun _ _ => rfl, fun _ h => h⟩

theorem Apart.trans (h : Apart u s₁ s₂) (k : Apart u s₂ s₃) : Apart u s₁ s₃ := by
  refine ⟨k.session.trans h.session, fun b hb => ?_, fun b hb => h.given b (k.given b hb)⟩
  rw [k.held b (h.held b hb ▸ hb), h.held b hb]

theorem Touch.apart {o o' : Option Obj} {r r' : Row (Option BotRun)} (h : Touch t b i o r o' r')
    (hu : u ≠ t) :
    (r.holder = some u → r' = r) ∧ (r'.holder = some u → r.holder = some u) := by
  have hne : some t ≠ some u := fun he => hu (Option.some.inj he).symm
  cases h with
  | same => exact ⟨fun _ => rfl, id⟩
  | loaded => exact ⟨fun _ => rfl, id⟩
  | assigned => exact ⟨fun _ => rfl, id⟩
  | locked free => exact ⟨fun h => absurd h (free.ne_holder hu), fun h => absurd h hne⟩
  | lockedLoaded free => exact ⟨fun h => absurd h (free.ne_holder hu), fun h => absurd h hne⟩
  | stored free => exact ⟨fun h => absurd h (free.ne_holder hu), fun h => absurd h hne⟩
  | inserted _ free => exact ⟨fun h => absurd h (free.ne_holder hu), fun h => absurd h hne⟩

theorem Touches.apart (h : Touches t i s s') (hu : u ≠ t) : Apart u s s' :=
  ⟨h.session u hu, fun b => ((h.touch b).apart hu).1, fun b => ((h.touch b).apart hu).2⟩

theorem apart_commit (hu : u ≠ t) : Apart u s (s.commit t) := by
  have hne : ∀ b, (s.bots b).holder = some u → (s.bots b).commit t = s.bots b := fun b hb =>
    Row.commit_of_not_holder fun ht => hu (Option.some.inj (hb.symm.trans ht))
  refine ⟨Function.update_of_ne hu _ _, hne, fun b hb => ?_⟩
  by_cases ht : (s.bots b).holder = some t
  · have hb : ((s.bots b).commit t).holder = some u := hb
    rw [Row.commit_of_holder ht] at hb
    cases hb
  · have hb : ((s.bots b).commit t).holder = some u := hb
    rwa [Row.commit_of_not_holder ht] at hb

theorem apart_rollback (hu : u ≠ t) : Apart u s (s.rollback t) := by
  have hne : ∀ b, (s.bots b).holder = some u → (s.bots b).rollback t = s.bots b := fun b hb =>
    Row.rollback_of_not_holder fun ht => hu (Option.some.inj (hb.symm.trans ht))
  refine ⟨Function.update_of_ne hu _ _, hne, fun b hb => ?_⟩
  by_cases ht : (s.bots b).holder = some t
  · have hb : ((s.bots b).rollback t).holder = some u := hb
    rw [Row.rollback_of_holder ht] at hb
    cases hb
  · have hb : ((s.bots b).rollback t).holder = some u := hb
    rwa [Row.rollback_of_not_holder ht] at hb

/-- The environment changes subscriptions and heartbeats only. -/
theorem world_step {e : World} (h : e.step s = some s') : s'.bots = s.bots ∧
    s'.session = s.session ∧ s'.history = s.history ∧ s'.joinedBy = s.joinedBy ∧
    s'.openedBy = s.openedBy := by
  cases e <;> simp only [World.step] at h
  case subscribe => split at h <;> cases h; exact ⟨rfl, rfl, rfl, rfl, rfl⟩
  case unsubscribe => split at h <;> cases h; exact ⟨rfl, rfl, rfl, rfl, rfl⟩
  all_goals
    cases h
    exact ⟨rfl, rfl, rfl, rfl, rfl⟩

section rules

variable {P : Protocol service} {k : Op} {α : Type}

theorem wp_issue {Q : Answer i → Db → Prop} : P.wp t k (issue i) Q s ↔
    ∀ s₁, P.rely t s s₁ → P.inv s₁ → P.cond.call t k i s₁ →
      ∀ c s₂ a, exec t i c s₁ = some (s₂, a) → P.Allowed t s₁ s₂ ∧ Q a s₂ := Iff.rfl

theorem wp_perform {Q : Except Core.TwinError (Answer i) → Db → Prop} :
    P.wp t k (perform i).run Q s ↔ ∀ s₁, P.rely t s s₁ → P.inv s₁ → P.cond.call t k i s₁ →
      ∀ c s₂ a, exec t i c s₁ = some (s₂, a) → P.Allowed t s₁ s₂ ∧ Q (.ok a) s₂ := Iff.rfl

theorem wp_perform_bind {f : Answer i → Txn α} {Q : Except Core.TwinError α → Db → Prop} :
    P.wp t k (perform i >>= f).run Q s ↔
      ∀ s₁, P.rely t s s₁ → P.inv s₁ → P.cond.call t k i s₁ → ∀ c s₂ a,
        exec t i c s₁ = some (s₂, a) → P.Allowed t s₁ s₂ ∧ P.wp t k (f a).run Q s₂ :=
  Protocol.wp_perform_bind i

theorem wp_sessionScope {x : Txn α} {Q : Except Core.TwinError α → Db → Prop} :
    P.wp t k (sessionScope x) Q s ↔ P.wp t k x.run (fun r s => match r with
      | .ok a => P.wp t k (issue .commit) (fun _ => Q (.ok a)) s
      | .error e => P.wp t k (issue .rollback) (fun _ => Q (.error e)) s) s := by
  refine Protocol.wp_bind.trans ?_
  constructor <;> intro h <;> refine Protocol.wp_mono h fun r s hr => ?_ <;> cases r <;> exact hr

end rules

end Fakery.Bots
