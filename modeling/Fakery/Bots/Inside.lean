import Fakery.Bots.Edits
import Fakery.Concurrent.Alone

/-! The database in a transaction that has nothing beside it: what the transaction has made of the
table of runs, statement by statement. -/
namespace Fakery.Bots
open Fakery.Concurrent Fakery.Core Fakery.Postgres

variable {t b c : ℕ} {s seen : Runs} {beats : ℕ → Bool} {db db' : Db} {run x y z : BotRun}
  {k : Op} {i : Stmt} {α β : Type} {f g : BotRun → BotRun} {target : BotStatus}

section states

/-- The database between two transactions. -/
structure Serial (s : Runs) (db : Db) : Prop where
  ids : db.ids = s.ids
  rows : ∀ b, db.bots b = .new (s.rows b)
  history : db.history = s.history

/-- The database in a transaction of `t`: `s` is committed, and `seen` is what `t` has made of
it. -/
structure Inside (t : ℕ) (s seen : Runs) (beats : ℕ → Bool) (db : Db) : Prop where
  ids : db.ids = seen.ids
  rows : ∀ b, db.bots b = .new (s.rows b) ∧ seen.rows b = s.rows b ∨
    db.bots b = ⟨s.rows b, some t, seen.rows b⟩
  history : db.history = s.history
  shown : ∀ b, seen.history b = Db.seen (s.rows b) (seen.rows b) (s.history b)
  heartbeat : db.heartbeat = beats

theorem seen_self (row : Option BotRun) (history : List BotStatus) :
    Db.seen row row history = history := by
  cases row with
  | none => rfl
  | some run => exact if_pos rfl

theorem Serial.inside (h : Serial s db) (t : ℕ) : Inside t s s db.heartbeat db :=
  ⟨h.ids, fun b => Or.inl ⟨h.rows b, rfl⟩, h.history, fun _ => (seen_self _ _).symm, rfl⟩

theorem Inside.visible (h : Inside t s seen beats db) (b : ℕ) :
    (db.bots b).visible t = seen.rows b := by
  rcases h.rows b with ⟨hrow, hsame⟩ | hrow
  · rw [hrow, hsame]
    rfl
  · rw [hrow]
    exact if_pos rfl

theorem Inside.committed (h : Inside t s seen beats db) (b : ℕ) :
    (db.bots b).committed = s.rows b := by
  rcases h.rows b with ⟨hrow, -⟩ | hrow <;> rw [hrow]
  rfl

theorem Inside.free (h : Inside t s seen beats db) (b : ℕ) : (db.bots b).Free t := by
  rcases h.rows b with ⟨hrow, -⟩ | hrow <;> rw [hrow]
  · exact Or.inl rfl
  · exact Or.inr rfl

theorem Inside.commit (h : Inside t s seen beats db) : Serial seen (db.commit t) := by
  have hrow : ∀ b, (db.bots b).commit t = .new (seen.rows b) := by
    intro b
    rcases h.rows b with ⟨hrow, hsame⟩ | hrow <;> rw [hrow]
    · rw [hsame]
      exact if_neg nofun
    · exact if_pos rfl
  refine ⟨h.ids, hrow, funext fun b => ?_⟩
  change Db.seen (db.bots b).committed ((db.bots b).commit t).committed (db.history b) = _
  rw [h.committed, hrow, h.history, h.shown]
  rfl

theorem Inside.rollback (h : Inside t s seen beats db) (hids : seen.ids = s.ids) :
    Serial s (db.rollback t) := by
  refine ⟨h.ids.trans hids, fun b => ?_, h.history⟩
  change (db.bots b).rollback t = _
  rcases h.rows b with ⟨hrow, -⟩ | hrow <;> rw [hrow]
  · exact if_neg nofun
  · exact if_pos rfl

/-- A row that a transaction works on, as it has found it. -/
structure Site (s seen : Runs) where
  b : ℕ
  run : BotRun
  committed : s.rows b = some run
  row : seen.rows b = some run
  history : seen.history b = s.history b
  id : run.id = b

/-- The row of the site written as `z`. -/
def Site.put (site : Site s seen) (z : BotRun) : Runs := seen.put site.b site.run z

theorem Site.put_run (site : Site s seen) : site.put site.run = seen := by
  have hrows : Function.update seen.rows site.b (some site.run) = seen.rows :=
    Function.update_eq_self_iff.mpr site.row.symm
  have hhistory : Function.update seen.history site.b
      (Db.seen (some site.run) (some site.run) (seen.history site.b)) = seen.history := by
    rw [seen_self, Function.update_eq_self]
  simp only [Site.put, Runs.put, hrows, hhistory]

/-- The row is locked, and written as `z`. -/
theorem Inside.write {site : Site s seen} (h : Inside t s (site.put x) beats db)
    (hbots : db'.bots = Function.update db.bots site.b ⟨some site.run, some t, some z⟩)
    (hids : db'.ids = db.ids) (hhistory : db'.history = db.history)
    (hbeats : db'.heartbeat = db.heartbeat) : Inside t s (site.put z) beats db' := by
  refine ⟨hids.trans h.ids, fun c => ?_, hhistory.trans h.history, fun c => ?_,
    hbeats.trans h.heartbeat⟩
  · rw [hbots]
    by_cases hc : c = site.b
    · subst hc
      rw [Function.update_self, site.committed]
      simp [Site.put, Runs.put]
    · have hrow := h.rows c
      simp only [Site.put, Runs.put, Function.update_of_ne hc] at hrow ⊢
      exact hrow
  · by_cases hc : c = site.b
    · subst hc
      simp [Site.put, Runs.put, site.committed, site.history]
    · have hshown := h.shown c
      simp only [Site.put, Runs.put, Function.update_of_ne hc] at hshown ⊢
      exact hshown

/-- The transaction has made `y` of the row, as far as it is flushed, and is about to make `g` of
that. `others` are the objects of its session besides. -/
structure Working (t : ℕ) (site : Site s seen) (beats : ℕ → Bool) (others : ℕ → Option Obj)
    (y : BotRun) (g : BotRun → BotRun) (db : Db) : Prop where
  flushed : ∃ m, Inside t s (site.put (BotRun.flushed site.run m y)) beats db ∧
    (db.session t).objs site.b =
      some ⟨BotRun.flushed site.run m y, g (BotRun.flushed site.run m y)⟩
  others : ∀ c, c ≠ site.b → (db.session t).objs c = others c

end states

section statements

/-- A statement that neither reads nor writes a run. -/
def Stmt.Aside : Stmt → Prop
  | .utcnow | .uuid4 | .heartbeat _ => True
  | .lockSubscriptions | .lastDelivery _ _ | .addDelivery _ => True
  | _ => False

/-- What such a statement leaves alone. -/
structure Alike (t : ℕ) (db db' : Db) : Prop where
  ids : db'.ids = db.ids
  bots : db'.bots = db.bots
  history : db'.history = db.history
  heartbeat : db'.heartbeat = db.heartbeat
  objs : (db'.session t).objs = (db.session t).objs

theorem alike_exec {a : Answer i} {n : ℕ} (hi : i.Aside) (h : exec t i n db = some (db', a)) :
    Alike t db db' := by
  cases i with
  | lockSubscriptions =>
    simp only [exec, Db.lockSubscriptions] at h
    split_ifs at h
    cases h
    exact ⟨rfl, rfl, rfl, rfl, rfl⟩
  | addDelivery d =>
    cases h
    exact ⟨rfl, rfl, rfl, rfl, by simp [Db.setSession]⟩
  | utcnow | uuid4 | heartbeat | lastDelivery =>
    cases h
    exact ⟨rfl, rfl, rfl, rfl, rfl⟩
  | _ => exact hi.elim

theorem Inside.alike (h : Inside t s seen beats db) (ha : Alike t db db') :
    Inside t s seen beats db' :=
  ⟨ha.ids.trans h.ids, ha.bots ▸ h.rows, ha.history.trans h.history, h.shown,
    ha.heartbeat.trans h.heartbeat⟩

theorem Working.alike {site : Site s seen} {others : ℕ → Option Obj}
    (h : Working t site beats others y g db) (ha : Alike t db db') :
    Working t site beats others y g db' := by
  obtain ⟨⟨m, hinside, hobj⟩, hothers⟩ := h
  exact ⟨⟨m, hinside.alike ha, ha.objs ▸ hobj⟩, fun c hc => ha.objs ▸ hothers c hc⟩

/-- What a statement leaves alone that works on the row of `b`. -/
structure Around (t b : ℕ) (db db' : Db) : Prop where
  ids : db'.ids = db.ids
  history : db'.history = db.history
  heartbeat : db'.heartbeat = db.heartbeat
  objs : ∀ c, c ≠ b → (db'.session t).objs c = (db.session t).objs c

theorem around_setObj (t b : ℕ) (db : Db) (o : Obj) : Around t b db (db.setObj t b o) := by
  refine ⟨rfl, rfl, rfl, fun c hc => ?_⟩
  rw [setObj_objs, Function.update_of_ne hc]

/-- The row that is written, or that has been found, with its object. -/
theorem Working.write {site : Site s seen} {others : ℕ → Option Obj} {m : ℕ}
    (h : Inside t s (site.put x) beats db) (ha : Around t site.b db db')
    (hothers : ∀ c, c ≠ site.b → (db.session t).objs c = others c)
    (hbots : db'.bots = Function.update db.bots site.b
      ⟨some site.run, some t, some (BotRun.flushed site.run m y)⟩)
    (hobj : (db'.session t).objs site.b =
      some ⟨BotRun.flushed site.run m y, BotRun.flushed site.run m y⟩) :
    Working t site beats others y id db' :=
  ⟨⟨m, h.write hbots ha.ids ha.history ha.heartbeat, hobj⟩,
    fun c hc => (ha.objs c hc).trans (hothers c hc)⟩

/-- The object of a row that is loaded. -/
theorem working_load (site : Site s seen) (h : Inside t s seen beats db) :
    Working t site beats (db.session t).objs site.run id
      (db.setObj t site.b ⟨site.run, site.run⟩) := by
  have ha := around_setObj t site.b db ⟨site.run, site.run⟩
  refine ⟨⟨0, ?_, ?_⟩, ha.objs⟩
  · rw [flushed_self, site.put_run]
    exact ⟨h.ids, h.rows, h.history, h.shown, h.heartbeat⟩
  · rw [flushed_self, setObj_objs]
    exact Function.update_self _ _ _

theorem exec_get_of_inside {a : Answer (.get b)} {n : ℕ} (h : Inside t s seen beats db)
    (hobj : (db.session t).objs b = none) (he : exec t (.get b) n db = some (db', a)) :
    a = seen.rows b ∧ match seen.rows b with
      | none => db' = db
      | some run => db' = db.setObj t b ⟨run, run⟩ := by
  simp only [exec, hobj, h.visible] at he
  cases hrow : seen.rows b with
  | none =>
    rw [hrow] at he
    cases he
    exact ⟨rfl, rfl⟩
  | some run =>
    rw [hrow] at he
    simp only [Option.map_some, Db.loadSome, Db.load, hobj] at he
    cases he
    exact ⟨rfl, rfl⟩

theorem exec_assign {o : Obj} {n : ℕ} (hobj : (db.session t).objs b = some o)
    (he : exec t (.assign b f) n db = some (db', ())) :
    db' = db.setObj t b ⟨o.loaded, f o.now⟩ := by
  simp only [exec, hobj] at he
  cases he
  rfl

/-- A locked read of a row answers with the object that the session has, or that it then has. -/
theorem exec_selectForUpdate {a : Answer (.selectForUpdate b)} {n : ℕ}
    (h : Inside t s seen beats db) (hrow : seen.rows b = some run)
    (he : exec t (.selectForUpdate b) n db = some (db', a)) :
    a = some (((db.session t).objs b).getD ⟨run, run⟩).now ∧ Around t b db db' ∧
      db'.bots = Function.update db.bots b ⟨s.rows b, some t, some run⟩ ∧
      (db'.session t).objs b = some (((db.session t).objs b).getD ⟨run, run⟩) := by
  simp only [exec, h.visible, hrow] at he
  obtain ⟨q, hq, he⟩ := Option.map_eq_some_iff.mp he
  obtain ⟨-, rfl⟩ := Row.lock_eq hq
  rw [h.visible, h.committed, hrow] at he
  cases hobj : (db.session t).objs b with
  | some o =>
    simp only [Db.loadSome, Db.load, Db.setBot, hobj] at he
    cases he
    exact ⟨rfl, ⟨rfl, rfl, rfl, fun _ _ => rfl⟩, rfl, hobj⟩
  | none =>
    simp only [Db.loadSome, Db.load, Db.setBot, hobj] at he
    cases he
    refine ⟨rfl, ⟨rfl, rfl, rfl, fun c hc => ?_⟩, rfl, ?_⟩
    · rw [setObj_objs]
      exact Function.update_of_ne hc _ _
    · rw [setObj_objs]
      exact Function.update_self _ _ _

theorem exec_selectForUpdate_absent {a : Answer (.selectForUpdate b)} {n : ℕ}
    (h : Inside t s seen beats db) (hrow : seen.rows b = none)
    (he : exec t (.selectForUpdate b) n db = some (db', a)) : a = none ∧ db' = db := by
  simp only [exec, h.visible, hrow] at he
  cases he
  exact ⟨rfl, rfl⟩

/-- A flush of an object whose attributes have changed. -/
theorem exec_flush {n : ℕ} (h : Inside t s seen beats db) (hrow : seen.rows b = some x)
    (hobj : (db.session t).objs b = some ⟨x, y⟩) (hne : y ≠ x) (hname : SameName x y)
    (he : db.flush t b n = some db') : Around t b db db' ∧
      db'.bots = Function.update db.bots b ⟨s.rows b, some t, some (y.touched n)⟩ ∧
      (db'.session t).objs b = some ⟨y.touched n, y.touched n⟩ := by
  simp only [Db.flush, hobj, if_neg hne] at he
  obtain ⟨q, hq, he⟩ := Option.map_eq_some_iff.mp he
  obtain ⟨-, rfl⟩ := Row.update_eq hq
  cases he
  rw [h.visible, h.committed, hrow, Option.map_some, store_loaded hname]
  refine ⟨⟨rfl, rfl, rfl, fun c hc => ?_⟩, rfl, ?_⟩
  · simp [Db.setSession, Function.update_of_ne hc]
  · simp [Db.setSession]

end statements

section programs

/-- A program of `t` that nothing is beside. -/
abbrev solo (t : ℕ) (k : Op) (p : Prog Stmt Answer α) (Q : α → Db → Prop) (db : Db) : Prop :=
  (Protocol.solo service t).wp t k p Q db

theorem statusChanged_aside (b : ℕ) (status : BotStatus) :
    (statusChanged b status).run.Uses Stmt.Aside := by
  have heach : ∀ payload now ws, (storeEach payload now ws).run.Uses Stmt.Aside := by
    intro payload now ws
    induction ws with
    | nil => trivial
    | cons w ws ih => exact ⟨trivial, fun _ => ⟨trivial, fun _ => ⟨trivial, fun _ => ih⟩⟩⟩
  exact ⟨trivial, fun _ => ⟨trivial, fun _ => ⟨trivial, fun _ => heach _ _ _⟩⟩⟩

theorem statusChanged_returns (b : ℕ) (status : BotStatus) :
    (statusChanged b status).run.Returns (· = .ok ()) := by
  have heach : ∀ payload now ws, (storeEach payload now ws).run.Returns (· = .ok ()) := by
    intro payload now ws
    induction ws with
    | nil => rfl
    | cons w ws ih => exact fun _ _ _ => ih
  exact fun _ _ _ => heach _ _ _

/-- The events of a change raise nothing, and leave the runs alone. -/
theorem wp_events {A : Db → Prop} (hA : ∀ db db', Alike t db db' → A db → A db') (h : A db)
    (b : ℕ) (status : BotStatus) :
    solo t k (statusChanged b status).run (fun r db => r = .ok () ∧ A db) db :=
  Protocol.wp_returns (statusChanged_returns b status)
    (Protocol.wp_solo_uses (statusChanged_aside b status) h
      fun _ _ _ _ _ hi hs he => hA _ _ (alike_exec hi he) hs)

variable {site : Site s seen} {others : ℕ → Option Obj}

theorem wp_assign {Q : Unit → Db → Prop} (h : Working t site beats others y id db)
    (f : BotRun → BotRun) (hQ : ∀ db, Working t site beats others y f db → Q () db) :
    solo t k (Prog.ask (.assign site.b f)) Q db := by
  obtain ⟨⟨m, hinside, hobj⟩, hothers⟩ := h
  refine Protocol.wp_solo_ask.mpr fun c db' r he => ?_
  obtain rfl := exec_assign (n := c) hobj he
  have ha := around_setObj t site.b db
    ⟨BotRun.flushed site.run m y, f (BotRun.flushed site.run m y)⟩
  refine hQ _ ⟨⟨m, ?_, ?_⟩, fun c hc => (ha.objs c hc).trans (hothers c hc)⟩
  · exact ⟨hinside.ids, hinside.rows, hinside.history, hinside.shown, hinside.heartbeat⟩
  · rw [setObj_objs]
    exact Function.update_self _ _ _

theorem wp_flush {Q : Unit → Db → Prop} (h : Working t site beats others y g db) (hg : Edit g)
    (hback : g y = site.run → y = site.run)
    (hQ : ∀ db, Working t site beats others (g y) id db → Q () db) :
    solo t k (Prog.ask (.flush site.b)) Q db := by
  obtain ⟨⟨m, hinside, hobj⟩, hothers⟩ := h
  refine Protocol.wp_solo_ask.mpr fun c db' r he => ?_
  obtain ⟨u, hu, he⟩ := Option.map_eq_some_iff.mp he
  cases he
  obtain ⟨last, hlast⟩ := flushed_flushed hg hback m c
  generalize BotRun.flushed site.run m y = z at hinside hobj hlast
  by_cases hsame : g z = z
  · rw [flush_unchanged hu fun o ho => by cases hobj.symm.trans ho; exact hsame]
    rw [hsame, flushed_self] at hlast
    refine hQ _ ⟨⟨last, hlast ▸ hinside, ?_⟩, hothers⟩
    rw [hobj, hsame, ← hlast]
    rfl
  · have hrow : (site.put z).rows site.b = some z := Function.update_self _ _ _
    obtain ⟨ha, hbots, hobj'⟩ := exec_flush hinside hrow hobj hsame (hg.name z) hu
    rw [BotRun.flushed, if_neg hsame] at hlast
    rw [hlast] at hbots hobj'
    rw [site.committed] at hbots
    exact hQ _ (Working.write hinside ha hothers hbots hobj')

/-- The locked read of a row, as `y` before it was locked. -/
def Locked (t : ℕ) (site : Site s seen) (beats : ℕ → Bool) (others : ℕ → Option Obj) (y : BotRun)
    (r : Except TwinError (Option BotRun)) (db : Db) : Prop :=
  ∃ m, r = .ok (some (BotRun.flushed site.run m y)) ∧ Working t site beats others y id db

theorem wp_getForUpdate (h : Working t site beats others y g db) (hg : Edit g)
    (hback : g y = site.run → y = site.run) :
    solo t k (getForUpdate site.b).run (Locked t site beats others (g y)) db := by
  refine (Protocol.wp_perform_bind _).mpr (wp_flush h hg hback fun db₁ h₁ => ?_)
  refine Protocol.wp_solo_ask.mpr fun c db₂ r he => ?_
  obtain ⟨⟨m, hinside, hobj⟩, hothers⟩ := h₁
  have hrow := Function.update_self site.b (some (BotRun.flushed site.run m (g y))) seen.rows
  obtain ⟨rfl, ha, hbots, hobj'⟩ := exec_selectForUpdate (n := c) hinside hrow he
  rw [hobj] at hobj' ⊢
  rw [site.committed] at hbots
  exact ⟨m, rfl, Working.write hinside ha hothers hbots hobj'⟩

/-- The row has not been read before. -/
theorem wp_getForUpdate_first (h : Inside t s seen beats db)
    (hobj : (db.session t).objs site.b = none) :
    solo t k (getForUpdate site.b).run
      (Locked t site beats (db.session t).objs site.run) db := by
  refine Protocol.wp_solo_perform_bind.mpr fun c db₁ r he => ?_
  obtain ⟨u, hu, he⟩ := Option.map_eq_some_iff.mp he
  cases he
  rw [flush_unchanged hu fun o ho => by cases hobj.symm.trans ho]
  refine Protocol.wp_solo_ask.mpr fun c db₂ r he => ?_
  obtain ⟨rfl, ha, hbots, hobj'⟩ := exec_selectForUpdate (n := c) h site.row he
  rw [hobj] at hobj' ⊢
  rw [site.committed] at hbots
  refine ⟨0, by rw [flushed_self]; rfl, ?_⟩
  refine Working.write (m := 0) (site.put_run.symm ▸ h) ha (fun _ _ => rfl) ?_ ?_
  · rw [flushed_self]
    exact hbots
  · rw [flushed_self]
    exact hobj'

/-- A transaction ends as a change of its row does at some moment: with the changed row, all
flushed, or with the error of the change. -/
def EndsAs (t : ℕ) (site : Site s seen) (beats : ℕ → Bool) (others : ℕ → Option Obj)
    (change : ℕ → Except TwinError BotRun) (r : Except TwinError α) (db : Db) : Prop :=
  ∃ now, match change now with
    | .ok y => (∃ a, r = .ok a) ∧ Working t site beats others y id db
    | .error e => r = .error e ∧ ∃ z, Inside t s (site.put z) beats db

theorem endsAs_ok {change : ℕ → Except TwinError BotRun} {m : ℕ} {a : α}
    (hf : change m = .ok y) (h : Working t site beats others y id db) :
    EndsAs t site beats others change (.ok a) db := by
  refine ⟨m, ?_⟩
  rw [hf]
  exact ⟨⟨a, rfl⟩, h⟩

theorem endsAs_error {change : ℕ → Except TwinError BotRun} {m : ℕ} {e : TwinError}
    (hf : change m = .error e) (h : Working t site beats others y g db) :
    EndsAs t site beats others change (.error e : Except TwinError α) db := by
  obtain ⟨⟨last, hinside, -⟩, -⟩ := h
  refine ⟨m, ?_⟩
  rw [hf]
  exact ⟨rfl, _, hinside⟩

theorem ne_of_canTransition {current : BotStatus} (hc : canTransition current target = true) :
    target ≠ current := by
  rintro rfl
  exact lt_irrefl _ (rank_lt_of_canTransition hc)

theorem wp_advance (hlocked : solo t k (getForUpdate site.b).run (Locked t site beats others y) db)
    (hid : y.id = site.b) (hstatus : y.status = site.run.status) (target : BotStatus) :
    solo t k (advance site.b target).run
      (EndsAs t site beats others fun now => y.advance target now) db := by
  refine Protocol.wp_task_bind.mpr (Protocol.wp_mono hlocked fun r db₁ h₁ => ?_)
  obtain ⟨m, rfl, h₁⟩ := h₁
  have hread : (BotRun.flushed site.run m y).status = y.status :=
    BotRun.flushed_column (g := BotRun.status) (fun _ _ => rfl) site.run m y
  dsimp only
  rw [hread]
  split_ifs with hover hsame
  · have hadv : y.advance target 0 = .ok y := by
      rw [BotRun.advance, if_pos hover, if_pos hsame]
    exact endsAs_ok hadv h₁
  · have hadv : y.advance target 0 =
        .error (makeError "conflict" s!"terminal bot {site.b} cannot transition") := by
      rw [BotRun.advance, if_pos hover, if_neg hsame, hid]
    exact endsAs_error hadv h₁
  · have hadv : ∀ now, y.advance target now =
        (requireTransition y.status target).map fun _ => y.advanced target now := by
      intro now
      rw [BotRun.advance, if_neg hover]
    unfold requireTransition at hadv ⊢
    split_ifs at hadv ⊢ with hc
    · refine Protocol.wp_solo_perform_bind.mpr fun now db₂ a he => ?_
      cases he
      refine (Protocol.wp_perform_bind _).mpr
        (wp_assign h₁ (BotRun.advanced target now) fun db₂ h₂ => ?_)
      refine (Protocol.wp_perform_bind _).mpr (wp_flush h₂ (edit_advanced target now)
        (fun h => absurd ((congrArg BotRun.status h).trans hstatus.symm) (ne_of_canTransition hc))
        fun db₃ h₃ => ?_)
      refine Protocol.wp_task_bind.mpr (Protocol.wp_mono
        (wp_events (fun _ _ ha h => Working.alike h ha) h₃ _ _) fun r db₄ h₄ => ?_)
      obtain ⟨rfl, h₄⟩ := h₄
      exact endsAs_ok (hadv now) h₄
    · exact endsAs_error (hadv 0) h₁

end programs

end Fakery.Bots
