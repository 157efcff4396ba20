import Fakery.Bots.Inside
import Fakery.Bots.Tabled
import Mathlib.Data.List.Nodup

/-! A transaction of the service that has nothing beside it does to the database what the table of
runs says of it, as one step. -/
namespace Fakery.Bots
open Fakery.Concurrent Fakery.Core Fakery.Postgres

variable {t b c : ℕ} {s seen : Runs} {beats : ℕ → Bool} {db db' : Db} {run y : BotRun}
  {k : Op} {α β : Type} {g : BotRun → BotRun} {target : BotStatus}

section transactions

variable {site : Site s seen} {others : ℕ → Option Obj}
  {change change' : ℕ → Except TwinError BotRun} {x : Txn α}

theorem wp_get_first (h : Inside t s seen beats db) (hobj : (db.session t).objs site.b = none) :
    solo t k (get site.b).run (fun r db' => r = .ok site.run ∧
      Working t site beats (db.session t).objs site.run id db') db := by
  refine Protocol.wp_solo_perform_bind.mpr fun c db₁ a he => ?_
  obtain ⟨rfl, hdb⟩ := exec_get_of_inside (n := c) h hobj he
  rw [site.row] at hdb ⊢
  subst hdb
  exact ⟨rfl, working_load site h⟩

theorem wp_get_absent (h : Inside t s seen beats db) (hobj : (db.session t).objs b = none)
    (hrow : seen.rows b = none) :
    solo t k (get b).run (fun r db' => r = .error (notFound b) ∧ db' = db) db := by
  refine Protocol.wp_solo_perform_bind.mpr fun c db₁ a he => ?_
  obtain ⟨rfl, hdb⟩ := exec_get_of_inside (n := c) h hobj he
  rw [hrow] at hdb ⊢
  exact ⟨rfl, hdb⟩

/-- A change that goes on with another one, and fails where that does. -/
theorem wp_then {f : α → Txn β} (hx : solo t k x.run (EndsAs t site beats others change) db)
    (herror : ∀ now e, change now = .error e → change' now = .error e)
    (hf : ∀ now a y db, change now = .ok y → Working t site beats others y id db →
      solo t k (f a).run (EndsAs t site beats others change') db) :
    solo t k (x >>= f).run (EndsAs t site beats others change') db := by
  refine Protocol.wp_task_bind.mpr (Protocol.wp_mono hx fun r db₁ h₁ => ?_)
  obtain ⟨now, h₁⟩ := h₁
  cases hchange : change now with
  | ok y =>
    rw [hchange] at h₁
    obtain ⟨⟨a, rfl⟩, hworking⟩ := h₁
    exact hf now a y db₁ hchange hworking
  | error e =>
    rw [hchange] at h₁
    obtain ⟨rfl, hinside⟩ := h₁
    refine ⟨now, ?_⟩
    rw [herror now e hchange]
    exact ⟨rfl, hinside⟩

/-- The row is read first. -/
theorem wp_read {f : BotRun → Txn α} (h : Inside t s seen beats db)
    (hobj : (db.session t).objs site.b = none)
    (hf : ∀ db', Working t site beats (db.session t).objs site.run id db' →
      solo t k (f site.run).run (EndsAs t site beats (db.session t).objs change) db') :
    solo t k (get site.b >>= f).run (EndsAs t site beats (db.session t).objs change) db := by
  refine Protocol.wp_task_bind.mpr (Protocol.wp_mono (wp_get_first h hobj) fun r db₁ h₁ => ?_)
  obtain ⟨rfl, hworking⟩ := h₁
  exact hf db₁ hworking

/-- An assignment and its flush. -/
theorem wp_edit {f : Unit → Txn α} (h : Working t site beats others y id db) (hg : Edit g)
    (hback : g y = site.run → y = site.run)
    (hf : ∀ db, Working t site beats others (g y) id db →
      solo t k (f ()).run (EndsAs t site beats others change) db) :
    solo t k (perform (.assign site.b g) >>= fun _ => perform (.flush site.b) >>= f).run
      (EndsAs t site beats others change) db := by
  refine (Protocol.wp_perform_bind _).mpr (wp_assign h g fun db₁ h₁ => ?_)
  exact (Protocol.wp_perform_bind _).mpr (wp_flush h₁ hg hback fun db₂ h₂ => hf db₂ h₂)

/-- An assignment whose flush is that of `advance`. -/
theorem wp_marked (h : Working t site beats others site.run g db) (hg : Edit g)
    (hstatus : (g site.run).status = site.run.status) (target : BotStatus) :
    solo t k (advance site.b target).run
      (EndsAs t site beats others fun now => (g site.run).advance target now) db :=
  wp_advance (wp_getForUpdate h hg fun _ => rfl) ((hg.name site.run).id.trans site.id) hstatus
    target

theorem wp_storeRecording (h : Inside t s seen beats db)
    (hobj : (db.session t).objs site.b = none) (artifact : RecordingArtifact) :
    solo t k (storeRecording site.b artifact).run (EndsAs t site beats (db.session t).objs
      fun _ => .ok (site.run.recorded artifact)) db := by
  refine wp_read h hobj fun db₁ h₁ => ?_
  exact wp_edit h₁ (edit_recorded artifact) (fun _ => rfl) fun db₂ h₂ =>
    endsAs_ok (m := 0) rfl h₂

theorem wp_cancel (h : Inside t s seen beats db) (hobj : (db.session t).objs site.b = none) :
    solo t k (cancel site.b).run (EndsAs t site beats (db.session t).objs
      fun now => site.run.cancel now) db := by
  refine wp_read h hobj fun db₁ h₁ => ?_
  unfold BotRun.cancel
  by_cases hover : site.run.status.terminal = true
  · simp only [if_pos hover]
    exact endsAs_ok (m := 0) rfl h₁
  · simp only [if_neg hover]
    exact (Protocol.wp_perform_bind _).mpr (wp_assign h₁ _ fun db₂ h₂ =>
      wp_marked h₂ edit_cancelling rfl .failed)

theorem wp_failRun (h : Inside t s seen beats db) (hobj : (db.session t).objs site.b = none)
    (code : String) :
    solo t k (failRun site.b code).run (EndsAs t site beats (db.session t).objs
      fun now => site.run.failRun code now) db := by
  refine wp_read h hobj fun db₁ h₁ => ?_
  unfold BotRun.failRun
  by_cases hover : site.run.status.terminal = true
  · simp only [if_pos hover]
    exact endsAs_ok (m := 0) rfl h₁
  · simp only [if_neg hover]
    refine (Protocol.wp_perform_bind _).mpr (wp_assign h₁ _ fun db₂ h₂ => ?_)
    exact wp_then (wp_marked h₂ (edit_failing code) rfl .failed) (fun _ _ he => he)
      fun now _ y db₃ hy h₃ => endsAs_ok hy h₃

/-- A row that is read, changed and flushed. -/
theorem wp_change (h : Inside t s seen beats db) (hobj : (db.session t).objs site.b = none)
    (hg : Edit g) :
    solo t k (get site.b >>= fun _ => perform (.assign site.b g) >>= fun _ =>
        perform (.flush site.b)).run
      (EndsAs t site beats (db.session t).objs fun _ => .ok (g site.run)) db := by
  refine wp_read h hobj fun db₁ h₁ => ?_
  refine (Protocol.wp_perform_bind _).mpr (wp_assign h₁ g fun db₂ h₂ => ?_)
  exact wp_flush h₂ hg (fun _ => rfl) fun db₃ h₃ => endsAs_ok (m := 0) rfl h₃

/-- What is recovered differs from what was recorded in nothing that a recording sets. -/
theorem recorded_of_recovered {artifact : RecordingArtifact}
    (h : (run.recorded artifact).recovered = run) : run.recorded artifact = run := by
  have hstatus : run.finalizationStatus = "recovered" :=
    (congrArg BotRun.finalizationStatus h).symm
  refine Eq.trans ?_ h
  unfold BotRun.recovered BotRun.recorded
  rw [hstatus]

theorem wp_storeRecovered (h : Inside t s seen beats db)
    (hobj : (db.session t).objs site.b = none) (artifact : RecordingArtifact) :
    solo t k (storeRecovered site.b artifact).run (EndsAs t site beats (db.session t).objs
      fun _ => .ok (site.run.recorded artifact).recovered) db := by
  refine wp_then (wp_storeRecording h hobj artifact) (fun _ _ he => by cases he) ?_
  intro now _ y db₁ hy h₁
  cases hy
  refine (Protocol.wp_perform_bind _).mpr (wp_assign h₁ _ fun db₂ h₂ => ?_)
  exact wp_flush h₂ edit_recovered recorded_of_recovered fun db₃ h₃ => endsAs_ok (m := 0) rfl h₃

theorem wp_persistRecording (h : Inside t s seen beats db)
    (hobj : (db.session t).objs site.b = none) (artifact : Option RecordingArtifact) :
    solo t k (persistRecording site.b artifact).run (EndsAs t site beats (db.session t).objs
      fun now => site.run.persisted artifact now) db := by
  cases artifact with
  | none =>
    exact wp_then (wp_advance (wp_getForUpdate_first h hobj) site.id rfl .processing)
      (fun _ _ he => he) fun now _ y db₁ hy h₁ => endsAs_ok hy h₁
  | some artifact =>
    refine wp_then (wp_storeRecording h hobj artifact) (fun _ _ he => by cases he) ?_
    intro now _ y db₁ hy h₁
    cases hy
    have hadvance := wp_advance (k := k) (wp_getForUpdate h₁ edit_id fun he => he) site.id rfl
      .processing
    exact wp_then hadvance (fun _ _ he => he) fun now _ y db₂ hy h₂ => endsAs_ok hy h₂

theorem withDuration_eq (run : BotRun) : run.withDuration =
    { run with recordingDurationMs := run.withDuration.recordingDurationMs } := by
  unfold BotRun.withDuration
  split <;> rfl

/-- Setting the duration takes back no assignment of `complete`. -/
theorem assign_of_withDuration {c : Completion} (h : (c.assign run).withDuration = run) :
    c.assign run = run := by
  have hduration : (c.assign run).recordingDurationMs = run.recordingDurationMs := by
    unfold Completion.assign
    split <;> split_ifs <;> rfl
  generalize c.assign run = y at h hduration
  have hset : y.recordingDurationMs = y.withDuration.recordingDurationMs := by rw [hduration, h]
  calc y = { y with recordingDurationMs := y.withDuration.recordingDurationMs } := by rw [← hset]
    _ = y.withDuration := (withDuration_eq y).symm
    _ = run := h

theorem wp_complete (h : Inside t s seen beats db) (hobj : (db.session t).objs site.b = none)
    (c : Completion) :
    solo t k (complete site.b c).run (EndsAs t site beats (db.session t).objs
      fun now => site.run.complete c now) db := by
  refine wp_read h hobj fun db₁ h₁ => ?_
  refine (Protocol.wp_perform_bind _).mpr (wp_assign h₁ _ fun db₂ h₂ => ?_)
  refine wp_then (wp_marked h₂ (edit_assign c) (c.assign_status _) .completed) ?_ ?_
  · intro now e he
    rw [BotRun.complete, he]
    rfl
  · intro now _ y db₃ hy h₃
    have hended : site.run.complete c now = .ok y.withDuration := by
      rw [BotRun.complete, hy]
      rfl
    refine (Protocol.wp_perform_bind _).mpr (wp_assign h₃ _ fun db₄ h₄ => ?_)
    refine wp_flush h₄ edit_withDuration (fun hsame => ?_) fun db₅ h₅ => endsAs_ok hended h₅
    rcases BotRun.advance_ok hy with ⟨rfl, -⟩ | ⟨rfl, hc⟩
    · exact assign_of_withDuration hsame
    · have hstatus := (withDuration_status _).symm.trans (congrArg BotRun.status hsame)
      exact absurd (hstatus.trans (c.assign_status _).symm) (ne_of_canTransition hc)

end transactions

section sweep

variable {runs : List BotRun} {xs : List (ℕ × BotRun)} {staleAfter moment : ℕ}
  {clock clock' : ℕ → ℕ} {p : BotRun → Bool}

/-- The rows that a sweep has still to look at, each as it was and with its object. -/
structure Queued (t : ℕ) (s seen : Runs) (db : Db) (runs : List BotRun) : Prop where
  nodup : (runs.map BotRun.id).Nodup
  row : ∀ run ∈ runs, s.rows run.id = some run ∧ seen.rows run.id = some run ∧
    seen.history run.id = s.history run.id ∧ (db.session t).objs run.id = some ⟨run, run⟩

theorem select_eq (h : Inside t s seen beats db) (p : BotRun → Bool) :
    (db.select t p).map Prod.snd = seen.select p := by
  unfold Db.select Runs.select
  rw [List.map_filterMap, h.ids]
  refine List.filterMap_congr fun b _ => ?_
  rw [h.visible, Option.map_map]
  exact congrFun Option.map_id _

theorem nodup_select (hnodup : db.ids.Nodup) (t : ℕ) (p : BotRun → Bool) :
    ((db.select t p).map Prod.fst).Nodup := by
  unfold Db.select
  rw [List.map_filterMap]
  refine List.Nodup.filterMap (fun b b' c hb hb' => ?_) hnodup
  rw [Option.map_map, Option.mem_def, Option.map_eq_some_iff] at hb hb'
  obtain ⟨_, -, rfl⟩ := hb
  obtain ⟨_, -, rfl⟩ := hb'
  rfl

theorem inside_setObj (h : Inside t s seen beats db) (b : ℕ) (o : Obj) :
    Inside t s seen beats (db.setObj t b o) :=
  ⟨h.ids, h.rows, h.history, h.shown, h.heartbeat⟩

theorem load_first (run : BotRun) (hobj : (db.session t).objs b = none) :
    db.load t b run = (db.setObj t b ⟨run, run⟩, run) := by
  simp only [Db.load, hobj]

/-- Rows of different identifiers that are loaded, none of them before. -/
theorem loadAll_spec (h : Inside t s seen beats db) (hnodup : (xs.map Prod.fst).Nodup)
    (hobjs : ∀ x ∈ xs, (db.session t).objs x.1 = none) :
    (Db.loadAll t db xs).2 = xs.map Prod.snd ∧ Inside t s seen beats (Db.loadAll t db xs).1 ∧
      (∀ x ∈ xs, ((Db.loadAll t db xs).1.session t).objs x.1 = some ⟨x.2, x.2⟩) ∧
      ∀ b, b ∉ xs.map Prod.fst →
        ((Db.loadAll t db xs).1.session t).objs b = (db.session t).objs b := by
  induction xs generalizing db with
  | nil => exact ⟨rfl, h, fun x hx => absurd hx List.not_mem_nil, fun _ _ => rfl⟩
  | cons x xs ih =>
    rw [List.map_cons, List.nodup_cons] at hnodup
    obtain ⟨hx, hnodup⟩ := hnodup
    have hload := load_first x.2 (hobjs x List.mem_cons_self)
    have hothers := (around_setObj t x.1 db ⟨x.2, x.2⟩).objs
    have hrest : ∀ y ∈ xs, ((db.setObj t x.1 ⟨x.2, x.2⟩).session t).objs y.1 = none := by
      intro y hy
      have hne : y.1 ≠ x.1 := fun he => hx (he ▸ List.mem_map_of_mem hy)
      rw [hothers y.1 hne]
      exact hobjs y (List.mem_cons_of_mem x hy)
    obtain ⟨hanswer, hinside, hloaded, hkept⟩ := ih (inside_setObj h x.1 _) hnodup hrest
    simp only [Db.loadAll, hload]
    refine ⟨by rw [hanswer, List.map_cons], hinside, fun y hy => ?_, fun b hb => ?_⟩
    · rcases List.mem_cons.mp hy with rfl | hy
      · rw [hkept y.1 hx, setObj_objs]
        exact Function.update_self _ _ _
      · exact hloaded y hy
    · obtain ⟨hne, hb⟩ := not_or.mp (mt List.mem_cons.mpr hb)
      rw [hkept b hb]
      exact hothers b hne

/-- What a change reads of the clock. -/
theorem change_congr {f : ℕ → BotRun → Except TwinError BotRun}
    (h : ∀ n < seen.readings + 2, clock' n = clock n) :
    seen.change clock' b f = seen.change clock b f := by
  have hnow : seen.now clock' = seen.now clock := h _ (by omega)
  have hflush : seen.tick.now clock' = seen.tick.now clock := h _ (by simp [Runs.tick])
  unfold Runs.change
  rw [hnow, hflush]

/-- A clock that is read as `now` after `n` readings, and as `m` from then on. -/
def readAs (clock : ℕ → ℕ) (n now m : ℕ) : ℕ → ℕ :=
  fun i => if i < n then clock i else if i = n then now else m

theorem change_readAs {f : ℕ → BotRun → Except TwinError BotRun} (hrow : seen.rows b = some run)
    (clock : ℕ → ℕ) (now m : ℕ) :
    seen.change (readAs clock seen.readings now m) b f =
      (f now run).map fun y => (seen.tick.put b run (BotRun.flushed run m y)).tick := by
  have hnow : seen.now (readAs clock seen.readings now m) = now := by
    simp [Runs.now, readAs]
  have hflush : seen.tick.now (readAs clock seen.readings now m) = m := by
    simp [Runs.now, Runs.tick, readAs]
  simp only [Runs.change, hrow, hnow, hflush]
  cases f now run with
  | ok y => rfl
  | error e => rfl

/-- What a transaction comes to, where the table of runs says `outcome`. -/
def Reaches (t : ℕ) (s : Runs) (beats : ℕ → Bool) (outcome : Except TwinError Runs)
    (r : Except TwinError α) (db : Db) : Prop :=
  match outcome with
  | .ok seen => (∃ a, r = .ok a) ∧ Inside t s seen beats db
  | .error e => r = .error e ∧ ∃ seen, seen.ids = s.ids ∧ Inside t s seen beats db

theorem Reaches.map {outcome : Except TwinError Runs} {r : Except TwinError α}
    (h : Reaches t s beats outcome r db) (f : α → β) : Reaches t s beats outcome (r.map f) db := by
  cases outcome with
  | ok seen =>
    obtain ⟨⟨a, rfl⟩, hinside⟩ := h
    exact ⟨⟨f a, rfl⟩, hinside⟩
  | error e =>
    obtain ⟨rfl, hinside⟩ := h
    exact ⟨rfl, hinside⟩

theorem Queued.tail (h : Queued t s seen db (run :: runs)) : Queued t s seen db runs :=
  ⟨(List.nodup_cons.mp h.nodup).2, fun mid hmid => h.row mid (List.mem_cons_of_mem run hmid)⟩

/-- The first row is written, and its object with it. -/
theorem Queued.put (h : Queued t s seen db (run :: runs)) (z : BotRun)
    (hobjs : ∀ c, c ≠ run.id → (db'.session t).objs c = (db.session t).objs c) :
    Queued t s (seen.tick.put run.id run z).tick db' runs := by
  refine ⟨(List.nodup_cons.mp h.nodup).2, fun mid hmid => ?_⟩
  have hne : mid.id ≠ run.id := by
    intro he
    have hmem : mid.id ∈ runs.map BotRun.id := List.mem_map_of_mem hmid
    exact (List.nodup_cons.mp h.nodup).1 (he ▸ hmem)
  obtain ⟨hcommitted, hrow, hhistory, hobj⟩ := h.row mid (List.mem_cons_of_mem run hmid)
  refine ⟨hcommitted, ?_, ?_, (hobjs mid.id hne).trans hobj⟩
  · exact (Function.update_of_ne hne _ _).trans hrow
  · exact (Function.update_of_ne hne _ _).trans hhistory

/-- The loop of the sweep, from some readings of the clock on. -/
theorem wp_sweepEach (h : Inside t s seen beats db) (hids : seen.ids = s.ids)
    (hq : Queued t s seen db runs) (clock : ℕ → ℕ) :
    solo t k (sweepEach moment staleAfter runs).run (fun r db' => ∃ clock',
      (∀ n < seen.readings, clock' n = clock n) ∧
        Reaches t s beats (Runs.sweepEach clock' staleAfter moment beats seen runs) r db') db := by
  induction runs generalizing seen db clock with
  | nil => exact ⟨clock, fun _ _ => rfl, ⟨0, rfl⟩, h⟩
  | cons run runs ih =>
    refine Protocol.wp_solo_perform_bind.mpr fun c db₁ a he => ?_
    cases he
    rw [h.heartbeat]
    obtain ⟨hcommitted, hrow, hhistory, hobj⟩ := hq.row run List.mem_cons_self
    simp only [Runs.sweepEach]
    split_ifs with hbeats horphan
    · exact ih h hids hq.tail clock
    · let site : Site s seen := ⟨run.id, run, hcommitted, hrow, hhistory, rfl⟩
      have hworking : Working t site beats (db.session t).objs run id db := by
        refine ⟨⟨0, ?_, ?_⟩, fun _ _ => rfl⟩
        · rw [flushed_self, site.put_run]
          exact h
        · rw [flushed_self]
          exact hobj
      refine (Protocol.wp_perform_bind _).mpr (wp_assign hworking _ fun db₁ h₁ => ?_)
      refine Protocol.wp_task_bind.mpr
        (Protocol.wp_mono (wp_marked h₁ edit_orphaned rfl .failed) fun r db₂ h₂ => ?_)
      obtain ⟨now, h₂⟩ := h₂
      cases hchange : run.orphaned.advance .failed now with
      | error e =>
        simp only [site, hchange] at h₂
        obtain ⟨rfl, z, hinside⟩ := h₂
        refine ⟨readAs clock seen.readings now 0, fun n hn => if_pos hn, ?_⟩
        rw [change_readAs hrow, hchange]
        exact ⟨rfl, site.put z, hids, hinside⟩
      | ok y =>
        simp only [site, hchange] at h₂
        obtain ⟨⟨a, rfl⟩, ⟨m, hinside, -⟩, hothers⟩ := h₂
        have hticked : Inside t s (seen.tick.put run.id run (BotRun.flushed run m y)).tick beats
            db₂ :=
          ⟨hinside.ids, hinside.rows, hinside.history, hinside.shown, hinside.heartbeat⟩
        have hnext := ih hticked hids (hq.put _ hothers) (readAs clock seen.readings now m)
        refine Protocol.wp_task_bind.mpr (Protocol.wp_mono hnext fun r db₃ h₃ => ?_)
        obtain ⟨clock', hagree, hreaches⟩ := h₃
        have hchanged : seen.change clock' run.id
            (fun now run => run.orphaned.advance .failed now) =
              .ok (seen.tick.put run.id run (BotRun.flushed run m y)).tick := by
          rw [change_congr hagree, change_readAs hrow, hchange]
          rfl
        have hbefore : ∀ n < seen.readings, clock' n = clock n := fun n hn =>
          (hagree n (Nat.lt_add_right 2 hn)).trans (if_pos hn)
        have hmapped := hreaches.map (· + 1)
        cases r with
        | ok a =>
          refine ⟨clock', hbefore, ?_⟩
          rw [hchanged]
          exact hmapped
        | error e =>
          refine ⟨clock', hbefore, ?_⟩
          rw [hchanged]
          exact hmapped
    · exact ih h hids hq.tail clock

theorem queued_select (hs : Tabled s) (hdb : Inside t s s beats db) (p : BotRun → Bool)
    (hobjs : ∀ x ∈ db.select t p, (db'.session t).objs x.1 = some ⟨x.2, x.2⟩) :
    Queued t s s db' (s.select p) := by
  have hid : ∀ x ∈ db.select t p, s.rows x.1 = some x.2 ∧ x.2.id = x.1 := by
    intro x hx
    have hrow : s.rows x.1 = some x.2 := (hdb.visible x.1).symm.trans (visible_of_mem_select hx)
    exact ⟨hrow, hs.id x.1 x.2 hrow⟩
  rw [← select_eq hdb p]
  constructor
  · have hkeys : (db.select t p).map (BotRun.id ∘ Prod.snd) = (db.select t p).map Prod.fst :=
      List.map_congr_left fun x hx => (hid x hx).2
    rw [List.map_map, hkeys]
    exact nodup_select (hdb.ids ▸ hs.nodup) t p
  · intro run hrun
    obtain ⟨x, hx, rfl⟩ := List.mem_map.mp hrun
    obtain ⟨hrow, hkey⟩ := hid x hx
    rw [hkey]
    exact ⟨hrow, hrow, rfl, hobjs x hx⟩

theorem exec_selectStale {cutoff n : ℕ} {a : List BotRun} (hs : Tabled s)
    (h : Inside t s s beats db) (hobjs : ∀ b, (db.session t).objs b = none)
    (he : exec t (.selectStale cutoff) n db = some (db', a)) :
    a = s.select (fun run => run.status ∈ liveStatuses && run.updatedAt < cutoff) ∧
      Inside t s s beats db' ∧ Queued t s s db' a := by
  have hspec := loadAll_spec h (nodup_select (h.ids ▸ hs.nodup) t
    fun run => run.status ∈ liveStatuses && run.updatedAt < cutoff) fun x _ => hobjs x.1
  rw [Option.some.inj he, select_eq h] at hspec
  obtain ⟨rfl, hinside, hloaded, -⟩ := hspec
  exact ⟨rfl, hinside, queued_select hs h _ hloaded⟩

theorem wp_sweepOrphans (hs : Tabled s) (h : Inside t s s beats db)
    (hobjs : ∀ b, (db.session t).objs b = none) (staleAfter : ℕ) :
    solo t k (sweepOrphans staleAfter).run
      (fun r db' => ∃ clock, Reaches t s beats (s.sweep clock staleAfter beats) r db') db := by
  refine Protocol.wp_solo_perform_bind.mpr fun moment db₁ a he => ?_
  cases he
  refine Protocol.wp_solo_perform_bind.mpr fun c db₁ a he => ?_
  obtain ⟨rfl, hinside, hqueued⟩ := exec_selectStale (n := c) hs h hobjs he
  have hticked : Inside t s s.tick beats db₁ :=
    ⟨hinside.ids, hinside.rows, hinside.history, hinside.shown, hinside.heartbeat⟩
  refine Protocol.wp_mono (wp_sweepEach hticked rfl ⟨hqueued.nodup, hqueued.row⟩ fun _ => moment)
    fun r db₂ h₂ => ?_
  obtain ⟨clock, hagree, hreaches⟩ := h₂
  have hmoment : s.now clock = moment := hagree s.readings (Nat.lt_succ_self _)
  refine ⟨clock, ?_⟩
  simp only [Runs.sweep, hmoment]
  exact hreaches

end sweep

section create

/-- The first of the rows that satisfy `p`. -/
theorem exec_select_head {p : BotRun → Bool} {a : Option BotRun} (h : Inside t s seen beats db)
    (hobjs : ∀ b, (db.session t).objs b = none)
    (he : db.loadSome t (db.select t p).head? = (db', a)) :
    a = (seen.select p).head? ∧ Inside t s seen beats db' ∧ (a = none → db' = db) := by
  rw [← select_eq h p, List.head?_map]
  cases hhead : (db.select t p).head? with
  | none =>
    rw [hhead] at he
    cases he
    exact ⟨rfl, h, fun _ => rfl⟩
  | some x =>
    rw [hhead] at he
    simp only [Db.loadSome, load_first x.2 (hobjs x.1)] at he
    cases he
    exact ⟨rfl, inside_setObj h _ _, fun ha => absurd ha (Option.some_ne_none _)⟩

/-- A run that is inserted, unless a unique index refuses it. -/
theorem exec_insertRun {a : Bool} (hs : Tabled s) (h : Inside t s s beats db)
    (he : db.insertRun t run = some (db', a)) :
    (a = !((s.rows run.id).isSome || s.ids.any fun b => Db.clashes run (s.rows b))) ∧
      Inside t s (if a then s.insert run else s) beats db' := by
  simp only [Db.insertRun, h.ids, h.visible] at he
  have hnew : ∀ hn : s.rows run.id = none, run.id ∉ s.ids := by
    intro hn
    rw [hs.mem, hn]
    exact Bool.false_ne_true
  split_ifs at he with hwait hrefused hmem
  · cases he
    rw [hrefused]
    exact ⟨rfl, h⟩
  all_goals
    have hnone : s.rows run.id = none := by
      simp only [Bool.or_eq_true, not_or, Option.not_isSome_iff_eq_none] at hrefused
      exact hrefused.1
  · exact absurd hmem (hnew hnone)
  · obtain ⟨q, hq, he⟩ := Option.map_eq_some_iff.mp he
    obtain ⟨-, rfl⟩ := Row.update_eq hq
    cases he
    rw [(Bool.not_eq_true _).mp hrefused]
    refine ⟨rfl, rfl, fun b => ?_, h.history, fun b => ?_, h.heartbeat⟩
    · by_cases hb : b = run.id
      · subst hb
        simp [Db.setBot, Runs.insert, h.committed]
      · have hrow := h.rows b
        simp only [Db.setBot, Runs.insert, if_true, Function.update_of_ne hb] at hrow ⊢
        exact hrow
    · by_cases hb : b = run.id
      · subst hb
        simp [Runs.insert, hnone, hs.fresh _ hnone, Db.seen]
      · have hshown := h.shown b
        simp only [Runs.insert, if_true, Function.update_of_ne hb] at hshown ⊢
        exact hshown

variable {meetingUrl meetingKey : String} {displayName idempotencyKey : Option String}

/-- The look-up of the key, which an empty one does not make. -/
theorem wp_lookUp (h : Inside t s s beats db) (hobjs : ∀ b, (db.session t).objs b = none) :
    solo t k (if idempotencyKey.any (· ≠ "") then
        perform (.getByIdempotency (idempotencyKey.getD ""))
      else pure none : Txn (Option BotRun)).run (fun r db' => ∃ found, r = .ok found ∧
        (if idempotencyKey.any (· ≠ "") then
          (s.select fun run => run.idempotencyKey = some (idempotencyKey.getD "")).head?
        else none) = found ∧ Inside t s s beats db' ∧ (found = none → db' = db)) db := by
  split_ifs
  · refine Protocol.wp_solo_ask.mpr fun c db₁ a he => ?_
    obtain ⟨ha, hinside, hsame⟩ := exec_select_head h hobjs (Option.some.inj he)
    exact ⟨a, rfl, ha.symm, hinside, hsame⟩
  · exact ⟨none, rfl, rfl, h, fun _ => rfl⟩

theorem wp_createOrGet (hs : Tabled s) (h : Inside t s s beats db)
    (hobjs : ∀ b, (db.session t).objs b = none) :
    solo t k (createOrGet meetingUrl meetingKey displayName idempotencyKey).run
      (fun r db' => ∃ clock id, Reaches t s beats
        (s.create clock id meetingUrl meetingKey displayName idempotencyKey) r db') db := by
  refine Protocol.wp_task_bind.mpr (Protocol.wp_mono (wp_lookUp h hobjs) fun r db₁ h₁ => ?_)
  obtain ⟨found, rfl, hfound, hinside, hsame⟩ := h₁
  simp only [Runs.create, hfound]
  cases found with
  | some run =>
    dsimp only
    split_ifs with hmeeting
    · exact ⟨fun _ => 0, 0, ⟨_, rfl⟩, hinside⟩
    · exact ⟨fun _ => 0, 0, rfl, s, rfl, hinside⟩
  | none =>
    obtain rfl := hsame rfl
    refine Protocol.wp_solo_perform_bind.mpr fun c db₂ a he => ?_
    obtain ⟨hactive, hinside₂, hsame₂⟩ := exec_select_head h hobjs (Option.some.inj he)
    rw [← hactive]
    cases a with
    | some run => exact ⟨fun _ => 0, 0, rfl, s, rfl, hinside₂⟩
    | none =>
      obtain rfl := hsame₂ rfl
      refine Protocol.wp_solo_perform_bind.mpr fun id db₃ a he => ?_
      cases he
      refine Protocol.wp_solo_perform_bind.mpr fun created db₃ a he => ?_
      cases he
      refine Protocol.wp_solo_perform_bind.mpr fun updated db₃ a he => ?_
      cases he
      refine Protocol.wp_solo_perform_bind.mpr fun c db₃ a he => ?_
      obtain ⟨ha, hinside₃⟩ := exec_insertRun hs h he
      have hcreated : s.now (readAs (fun _ => 0) s.readings created updated) = created := by
        simp [Runs.now, readAs]
      have hupdated : s.tick.now (readAs (fun _ => 0) s.readings created updated) = updated := by
        simp [Runs.now, Runs.tick, readAs]
      cases a with
      | false =>
        refine ⟨readAs (fun _ => 0) s.readings created updated, id, ?_⟩
        rw [hcreated, hupdated, if_pos ((Bool.not_eq_false' _).mp ha.symm)]
        exact ⟨rfl, s, rfl, hinside₃⟩
      | true =>
        refine Protocol.wp_task_bind.mpr (Protocol.wp_mono
          (wp_events (fun _ _ ha h => Inside.alike h ha) hinside₃ _ _) fun r db₄ h₄ => ?_)
        obtain ⟨rfl, hinside₄⟩ := h₄
        refine ⟨readAs (fun _ => 0) s.readings created updated, id, ?_⟩
        rw [hcreated, hupdated, if_neg (Bool.eq_false_iff.mp ((Bool.not_eq_true' _).mp ha.symm))]
        exact ⟨⟨_, rfl⟩, hinside₄.ids, hinside₄.rows, hinside₄.history, hinside₄.shown,
          hinside₄.heartbeat⟩

end create

section commit

variable {e : TwinError} {allows : Stmt → ℕ → Prop}

/-- The operation that runs the transaction; identifiers are drawn, and heartbeats are found. -/
def Transaction.op : Transaction → Op
  | .createOrGet _ meetingUrl meetingKey displayName idempotencyKey =>
    .create meetingUrl meetingKey displayName idempotencyKey
  | .advance b target _ => .advance b target
  | .setCheckpointManifest b uri => .setCheckpointManifest b uri
  | .setArtifactStatus b artifact status error => .setArtifactStatus b artifact status error
  | .persistRecording b artifact => .persistRecording b artifact
  | .complete b c => .complete b c
  | .cancel b => .cancel b
  | .storeRecovered b artifact => .storeRecovered b artifact
  | .failRun b code => .failRun b code
  | .sweepOrphans staleAfter _ => .sweepOrphans staleAfter

/-- The transaction with the identifier that it has drawn and the heartbeats that it has found. -/
def Transaction.found (id : ℕ) (beats : ℕ → Bool) : Transaction → Transaction
  | .createOrGet _ meetingUrl meetingKey displayName idempotencyKey =>
    .createOrGet id meetingUrl meetingKey displayName idempotencyKey
  | .sweepOrphans staleAfter _ => .sweepOrphans staleAfter beats
  | x => x

theorem wp_error_bind {x : Txn α} {f : α → Txn β}
    (h : solo t k x.run (fun r db' => r = .error e ∧ db' = db) db) :
    solo t k (x >>= f).run (fun r db' => r = .error e ∧ db' = db) db := by
  refine Protocol.wp_task_bind.mpr (Protocol.wp_mono h fun r db₁ h₁ => ?_)
  obtain ⟨rfl, rfl⟩ := h₁
  exact ⟨rfl, rfl⟩

theorem wp_advance_absent (h : Inside t s seen beats db) (hobj : (db.session t).objs b = none)
    (hrow : seen.rows b = none) (target : BotStatus) :
    solo t k (advance b target).run (fun r db' => r = .error (notFound b) ∧ db' = db) db := by
  refine Protocol.wp_task_bind.mpr ?_
  refine Protocol.wp_solo_perform_bind.mpr fun c db₁ r he => ?_
  obtain ⟨u, hu, he⟩ := Option.map_eq_some_iff.mp he
  cases he
  rw [flush_unchanged hu fun o ho => by cases hobj.symm.trans ho]
  refine Protocol.wp_solo_ask.mpr fun c db₂ r he => ?_
  obtain ⟨rfl, rfl⟩ := exec_selectForUpdate_absent (n := c) h hrow he
  exact ⟨rfl, rfl⟩

/-- How a transaction ends whose body comes to what the table of runs says. -/
theorem wp_transaction_of_reaches {x : Txn α} {O : Except TwinError Runs → Prop} (s : Runs)
    (beats : ℕ → Bool) (h : solo t k x.run
      (fun r db' => ∃ outcome, O outcome ∧ Reaches t s beats outcome r db') db) :
    solo t k (transaction x)
      (fun _ db' => ∃ outcome, O outcome ∧ Serial (outcome.toOption.getD s) db') db := by
  refine Protocol.wp_bind.mpr (Protocol.wp_bind.mpr (Protocol.wp_mono h fun r db₁ h₁ => ?_))
  obtain ⟨outcome, hO, hreaches⟩ := h₁
  cases outcome with
  | ok seen =>
    obtain ⟨⟨a, rfl⟩, hinside⟩ := hreaches
    refine Protocol.wp_bind.mpr (Protocol.wp_solo_ask.mpr fun c db₂ u he => ?_)
    cases he
    exact ⟨.ok seen, hO, hinside.commit⟩
  | error e =>
    obtain ⟨rfl, seen, hids, hinside⟩ := hreaches
    refine Protocol.wp_bind.mpr (Protocol.wp_solo_ask.mpr fun c db₂ u he => ?_)
    cases he
    exact ⟨.error e, hO, hinside.rollback hids⟩

/-- A body that changes the row of `b`, if there is one. -/
theorem wp_row {x : Txn α} {f : ℕ → BotRun → Except TwinError BotRun} (hs : Tabled s)
    (h : Inside t s s beats db) (b : ℕ)
    (hfound : ∀ site : Site s s, site.b = b →
      solo t k x.run (EndsAs t site beats (db.session t).objs fun now => f now site.run) db)
    (habsent : s.rows b = none →
      solo t k x.run (fun r db' => r = .error (notFound b) ∧ db' = db) db) :
    solo t k x.run (fun r db' => ∃ clock, Reaches t s beats (s.change clock b f) r db') db := by
  cases hrow : s.rows b with
  | none =>
    refine Protocol.wp_mono (habsent hrow) fun r db₁ h₁ => ⟨fun _ => 0, ?_⟩
    obtain ⟨rfl, rfl⟩ := h₁
    rw [Runs.change, hrow]
    exact ⟨rfl, s, rfl, h⟩
  | some run =>
    have hends := hfound ⟨b, run, hrow, hrow, rfl, hs.id b run hrow⟩ rfl
    refine Protocol.wp_mono hends fun r db₁ h₁ => ?_
    obtain ⟨now, h₁⟩ := h₁
    cases hchange : f now run with
    | error e =>
      simp only [hchange] at h₁
      obtain ⟨rfl, z, hinside⟩ := h₁
      refine ⟨readAs (fun _ => 0) s.readings now 0, ?_⟩
      rw [change_readAs hrow, hchange]
      exact ⟨rfl, s.put b run z, rfl, hinside⟩
    | ok y =>
      simp only [hchange] at h₁
      obtain ⟨hr, ⟨m, hinside, -⟩, -⟩ := h₁
      refine ⟨readAs (fun _ => 0) s.readings now m, ?_⟩
      rw [change_readAs hrow, hchange]
      exact ⟨hr, hinside.ids, hinside.rows, hinside.history, hinside.shown, hinside.heartbeat⟩

/-- What the program of an operation comes to. -/
theorem wp_op (x : Transaction) (hs : Tabled s) (h : Inside t s s beats db)
    (hobjs : ∀ b, (db.session t).objs b = none) :
    solo t k x.op.prog (fun _ db' => ∃ outcome,
      (∃ clock id, outcome = s.commit clock (x.found id beats)) ∧
        Serial (outcome.toOption.getD s) db') db := by
  have hread : ∀ {α : Type} {b : ℕ} {f : BotRun → Txn α}, s.rows b = none →
      solo t k (get b >>= f).run (fun r db' => r = .error (notFound b) ∧ db' = db) db :=
    fun hrow => wp_error_bind (wp_get_absent h (hobjs _) hrow)
  have hchange : ∀ {α : Type} {y : Txn α} {b : ℕ} {f : ℕ → BotRun → Except TwinError BotRun},
      (∀ clock, s.commit clock (x.found 0 beats) = s.change clock b f) →
      solo t k y.run (fun r db' => ∃ clock, Reaches t s beats (s.change clock b f) r db') db →
      solo t k y.run (fun r db' => ∃ outcome,
        (∃ clock id, outcome = s.commit clock (x.found id beats)) ∧
          Reaches t s beats outcome r db') db := by
    intro α y b f hcommit hy
    refine Protocol.wp_mono hy fun r db' hr => ?_
    obtain ⟨clock, hreaches⟩ := hr
    exact ⟨_, ⟨clock, 0, (hcommit clock).symm⟩, hreaches⟩
  cases x with
  | createOrGet _ meetingUrl meetingKey displayName idempotencyKey =>
    refine wp_transaction_of_reaches s beats
      (Protocol.wp_mono (wp_createOrGet hs h hobjs) fun r db' hr => ?_)
    obtain ⟨clock, id, hreaches⟩ := hr
    exact ⟨_, ⟨clock, id, rfl⟩, hreaches⟩
  | advance b target attending =>
    refine wp_transaction_of_reaches s beats (hchange (fun _ => rfl)
      (wp_row hs h b ?_ fun hrow => wp_advance_absent h (hobjs b) hrow target))
    rintro site rfl
    exact wp_advance (wp_getForUpdate_first h (hobjs _)) site.id rfl target
  | setCheckpointManifest b uri =>
    refine wp_transaction_of_reaches s beats (hchange (f := fun _ run => .ok (run.checkpointed uri))
      (fun _ => rfl) (wp_row hs h b ?_ hread))
    rintro site rfl
    exact wp_change h (hobjs _) (edit_checkpointed uri)
  | setArtifactStatus b artifact status error =>
    refine wp_transaction_of_reaches s beats
      (hchange (f := fun _ run => .ok (run.withArtifactStatus artifact status error))
        (fun _ => rfl) (wp_row hs h b ?_ hread))
    rintro site rfl
    exact wp_change h (hobjs _) (edit_withArtifactStatus artifact status error)
  | persistRecording b artifact =>
    refine wp_transaction_of_reaches s beats
      (hchange (fun _ => rfl) (wp_row hs h b ?_ fun hrow => ?_))
    · rintro site rfl
      exact wp_persistRecording h (hobjs _) artifact
    · cases artifact with
      | none => exact wp_error_bind (wp_advance_absent h (hobjs b) hrow .processing)
      | some artifact => exact wp_error_bind (hread hrow)
  | complete b c =>
    refine wp_transaction_of_reaches s beats (hchange (fun _ => rfl) (wp_row hs h b ?_ hread))
    rintro site rfl
    exact wp_complete h (hobjs _) c
  | cancel b =>
    refine wp_transaction_of_reaches s beats (hchange (fun _ => rfl) (wp_row hs h b ?_ hread))
    rintro site rfl
    exact wp_cancel h (hobjs _)
  | storeRecovered b artifact =>
    refine wp_transaction_of_reaches s beats
      (hchange (f := fun _ run => .ok (run.recorded artifact).recovered) (fun _ => rfl)
        (wp_row hs h b ?_ fun hrow => wp_error_bind (hread hrow)))
    rintro site rfl
    exact wp_storeRecovered h (hobjs _) artifact
  | failRun b code =>
    refine wp_transaction_of_reaches s beats (hchange (fun _ => rfl) (wp_row hs h b ?_ hread))
    rintro site rfl
    exact wp_failRun h (hobjs _) code
  | sweepOrphans staleAfter _ =>
    refine wp_transaction_of_reaches s beats
      (Protocol.wp_mono (wp_sweepOrphans hs h hobjs staleAfter) fun r db' hr => ?_)
    obtain ⟨clock, hreaches⟩ := hr
    exact ⟨_, ⟨clock, 0, rfl⟩, hreaches⟩

/-- A transaction that nothing comes between does to the database what the table of runs says of
it as one step, or nothing where that raises. -/
theorem serial_commit (x : Transaction) (hs : Tabled s) (hdb : Serial s db)
    (hrun : service.Alone t allows x.op.prog (db.setSession t {}) db' ()) :
    ∃ clock id, Serial ((s.commit clock (x.found id db.heartbeat)).toOption.getD s) db' := by
  have hbegun : Inside t s s db.heartbeat (db.setSession t {}) :=
    (⟨hdb.ids, hdb.rows, hdb.history⟩ : Serial s (db.setSession t {})).inside t
  have hobjs : ∀ b, ((db.setSession t {}).session t).objs b = none := by
    intro b
    simp [Db.setSession]
  obtain ⟨_, ⟨clock, id, rfl⟩, hserial⟩ :=
    Machine.Alone.of_wp (k := x.op) (wp_op x hs hbegun hobjs) hrun
  exact ⟨clock, id, hserial⟩

/-- Transactions in turn, each with a session of its own; heartbeats come and go between them. -/
inductive Turns (allows : Stmt → ℕ → Prop) : List Transaction → Db → Db → Prop
  | done (db : Db) : Turns allows [] db db
  | beat {xs : List Transaction} {db db' : Db} (beats : ℕ → Bool)
      (h : Turns allows xs { db with heartbeat := beats } db') : Turns allows xs db db'
  | next {t : ℕ} {x : Transaction} {xs : List Transaction} {db db₁ db' : Db}
      (hx : service.Alone t allows x.op.prog (db.setSession t {}) db₁ ())
      (h : Turns allows xs db₁ db') : Turns allows (x :: xs) db db'

/-- The table of runs under the same transactions. -/
inductive Commits : List Transaction → Runs → Runs → Prop
  | done (s : Runs) : Commits [] s s
  | next {x : Transaction} {xs : List Transaction} {s s' : Runs} (clock : ℕ → ℕ) (id : ℕ)
      (beats : ℕ → Bool)
      (h : Commits xs ((s.commit clock (x.found id beats)).toOption.getD s) s') :
      Commits (x :: xs) s s'

theorem tabled_getD {x : Transaction} {clock : ℕ → ℕ} (h : Tabled s) :
    Tabled ((s.commit clock x).toOption.getD s) := by
  cases hc : s.commit clock x with
  | ok s' => exact tabled_commit h hc
  | error e => exact h

theorem serial_turns {xs : List Transaction} (h : Turns allows xs db db') (hs : Tabled s)
    (hdb : Serial s db) : ∃ s', Commits xs s s' ∧ Tabled s' ∧ Serial s' db' := by
  induction h generalizing s with
  | done db => exact ⟨s, .done s, hs, hdb⟩
  | beat beats _ ih => exact ih hs ⟨hdb.ids, hdb.rows, hdb.history⟩
  | @next t x xs db db₁ db' hx _ ih =>
    obtain ⟨clock, id, hserial⟩ := serial_commit x hs hdb hx
    obtain ⟨s', hcommits, hs', hserial'⟩ := ih (tabled_getD hs) hserial
    exact ⟨s', .next clock id db.heartbeat hcommits, hs', hserial'⟩

/-- From the empty database. -/
theorem serial_turns_empty {xs : List Transaction} (h : Turns allows xs {} db) :
    ∃ s, Commits xs {} s ∧ Tabled s ∧ Serial s db :=
  serial_turns h tabled_empty ⟨rfl, fun _ => rfl, rfl⟩

end commit

end Fakery.Bots
