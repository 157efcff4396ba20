import Fakery.Bots.Bodies

/-! The status discipline of the service. A transaction acts on the status that its session has
loaded, which may be behind the committed one; what it may write is bounded by a relation. -/
namespace Fakery.Bots
open Fakery.Concurrent Fakery.Core Fakery.Postgres

/-- `next` bounds how a commit may change a status, on the runs that meet `cond`. -/
structure Discipline where
  cond : service.Condition
  next : BotStatus → BotStatus → Prop
  next_refl : ∀ s, next s s
  next_of_canTransition : ∀ {s τ}, canTransition s τ = true → next s τ
  next_queued : ∀ {s}, next s .queued → s = .queued
  next_of_reread : ∀ {t k b s o run τ}, cond.call t k (.selectForUpdate b) s → k.target = some τ →
    τ ∈ lateStatuses → (s.session t).objs b = some o → (s.bots b).committed = some run →
    Relation.ReflTransGen next o.now.status run.status → canTransition o.now.status τ = true →
    next run.status τ

variable {t u : ℕ} {k : Op} {i : Stmt} {c : ℕ} {s s' : Db} {b : ℕ} {τ : BotStatus}

namespace Discipline

variable (D : Discipline)

def Reaches : BotStatus → BotStatus → Prop := Relation.ReflTransGen D.next

/-- What may stand in a row next to what is committed. -/
def Legal : Option BotStatus → Option BotStatus → Prop
  | none, w => w = none ∨ w = some .queued
  | some c, w => ∃ s, w = some s ∧ D.next c s

structure RowInv (r : Row (Option BotRun)) (history : List BotStatus) (joinedBy : Option ℕ)
    (openedBy : List ℕ) : Prop where
  tracks : Tracks (fun s τ => D.next s τ ∧ s ≠ τ) history (r.committed.map BotRun.status)
  legal : D.Legal (r.committed.map BotRun.status) (r.written.map BotRun.status)
  joined : ∀ u, joinedBy = some u → ∃ run, r.committed = some run ∧ run.status ≠ .queued
  opened : openedBy = [] ∨ ∃ u, joinedBy = some u ∧ openedBy = [u]

def Inv (s : Db) : Prop :=
  ∀ b, D.RowInv (s.bots b) (s.history b) (s.joinedBy b) (s.openedBy b)

structure Rely (u : ℕ) (s s' : Db) : Prop extends Apart u s s' where
  reaches : ∀ b run, (s.bots b).committed = some run →
    ∃ run', (s'.bots b).committed = some run' ∧ D.Reaches run.status run'.status
  joined : ∀ b, s.joinedBy b = some u → s'.joinedBy b = some u ∧ s'.openedBy b = s.openedBy b

def protocol : Protocol service where
  cond := D.cond
  inv := D.Inv
  rely := D.Rely
  idle t s := ∀ b, (s.bots b).holder ≠ some t
  rely_refl t s := ⟨.refl t s, fun _ run h => ⟨run, h, .refl⟩, fun _ h => ⟨h, rfl⟩⟩
  rely_trans t _ _ _ h k := by
    refine ⟨h.toApart.trans k.toApart, fun b run hb => ?_, fun b hb => ?_⟩
    · obtain ⟨run', hb', hr⟩ := h.reaches b run hb
      obtain ⟨run'', hb'', hr'⟩ := k.reaches b run' hb'
      exact ⟨run'', hb'', hr.trans hr'⟩
    · obtain ⟨hj, ho⟩ := h.joined b hb
      exact ⟨(k.joined b hj).1, (k.joined b hj).2.trans ho⟩

/-- What a transaction with no status left to flush knows about a row: its object may be behind,
and all that it can have written is its target. -/
structure Knows (t : ℕ) (k : Op) (o : Option Obj) (r : Row (Option BotRun)) : Prop where
  clean : ∀ x, o = some x → x.now.status = x.loaded.status
  behind : ∀ x, o = some x →
    ∃ run, r.visible t = some run ∧ D.Reaches x.now.status run.status
  wrote : r.holder = some t → r.written.map BotRun.status = r.committed.map BotRun.status ∨
    r.written.map BotRun.status = k.target

def Known (t : ℕ) (k : Op) (s : Db) : Prop :=
  ∀ b, D.Knows t k ((s.session t).objs b) (s.bots b)

variable {D} {o o' : Option Obj} {r r' : Row (Option BotRun)}

theorem legal_refl (x : Option BotStatus) : D.Legal x x := by
  cases x with
  | none => exact Or.inl rfl
  | some s => exact ⟨s, rfl, D.next_refl s⟩

theorem legal_visible (h : D.Legal (r.committed.map BotRun.status) (r.written.map BotRun.status)) :
    D.Legal (r.committed.map BotRun.status) ((r.visible t).map BotRun.status) := by
  unfold Row.visible
  split_ifs
  · exact h
  · exact legal_refl _

theorem Knows.visible (h : D.Knows t k o r) :
    (r.visible t).map BotRun.status = r.committed.map BotRun.status ∨
      (r.visible t).map BotRun.status = k.target := by
  unfold Row.visible
  split_ifs with ht
  · exact h.wrote ht
  · exact Or.inl rfl

theorem store_status {l n x : BotRun} (h : n.status = l.status) (moment : ℕ) :
    (BotRun.store l n moment x).status = x.status := if_pos h

theorem map_store_status {l n : BotRun} (h : n.status = l.status) (moment : ℕ)
    (x : Option BotRun) :
    (x.map (BotRun.store l n moment)).map BotRun.status = x.map BotRun.status := by
  cases x with
  | none => rfl
  | some x => exact congrArg some (store_status h moment)

/-- The row `r'` after a statement that changes no status. -/
structure Kept (D : Discipline) (t : ℕ) (r r' : Row (Option BotRun)) : Prop where
  committed : r'.committed = r.committed
  legal : D.Legal (r.committed.map BotRun.status) (r'.written.map BotRun.status)
  held : r.holder = some t → r.written ≠ none →
    r'.holder = some t ∧ r'.written.map BotRun.status = r.written.map BotRun.status

theorem Kept.visible {w : Option BotRun}
    (hl : D.Legal (r.committed.map BotRun.status) (r.written.map BotRun.status))
    (hw : w.map BotRun.status = (r.visible t).map BotRun.status) :
    Kept D t r ⟨r.committed, some t, w⟩ := by
  refine ⟨rfl, ?_, fun ht _ => ⟨rfl, ?_⟩⟩
  · exact hw ▸ legal_visible hl
  · rw [← Row.visible_of_holder ht]
    exact hw

theorem Knows.quiet (h : Touch t b i o r o' r') (hi : i.Quiet k.target) (hk : D.Knows t k o r)
    (hl : D.Legal (r.committed.map BotRun.status) (r.written.map BotRun.status)) :
    D.Knows t k o' r' ∧ Kept D t r r' := by
  cases h with
  | same => exact ⟨hk, rfl, hl, fun h _ => ⟨h, rfl⟩⟩
  | @loaded _ run hv =>
    refine ⟨⟨?_, ?_, hk.wrote⟩, rfl, hl, fun h _ => ⟨h, rfl⟩⟩
    · rintro _ ⟨⟩
      rfl
    · rintro _ ⟨⟩
      exact ⟨run, hv, .refl⟩
  | @locked x _ hf =>
    refine ⟨⟨hk.clean, ?_, fun _ => hk.visible⟩, .visible hl rfl⟩
    rintro _ ⟨⟩
    obtain ⟨run, hv, hr⟩ := hk.behind x rfl
    exact ⟨run, (Row.visible_of_holder rfl).trans hv, hr⟩
  | @lockedLoaded _ run hf hv =>
    refine ⟨⟨?_, ?_, fun _ => hv ▸ hk.visible⟩, .visible hl (hv ▸ rfl)⟩
    · rintro _ ⟨⟩
      rfl
    · rintro _ ⟨⟩
      exact ⟨run, Row.visible_of_holder rfl, .refl⟩
  | @assigned x f _ stmt =>
    subst stmt
    have hs : ∀ run, (f run).status = run.status := hi
    refine ⟨⟨?_, ?_, hk.wrote⟩, rfl, hl, fun h _ => ⟨h, rfl⟩⟩
    · rintro _ ⟨⟩
      exact (hs _).trans (hk.clean x rfl)
    · rintro _ ⟨⟩
      obtain ⟨run, hv, hr⟩ := hk.behind x rfl
      exact ⟨run, hv, (hs _).symm ▸ hr⟩
  | @stored x moment _ hf =>
    have hs := map_store_status (hk.clean x rfl) moment (r.visible t)
    obtain ⟨run, hv, hr⟩ := hk.behind x rfl
    refine ⟨⟨?_, ?_, fun _ => hs ▸ hk.visible⟩, .visible hl hs⟩
    · rintro _ ⟨⟩
      rfl
    · rintro _ ⟨⟩
      refine ⟨BotRun.store x.loaded x.now moment run, ?_, ?_⟩
      · rw [Row.visible_of_holder rfl, hv, Option.map_some]
      · exact (store_status (hk.clean x rfl) moment).symm ▸ hr
  | @inserted _ _ run stmt hf hv =>
    subst stmt
    obtain ⟨hq, ht⟩ : run.status = .queued ∧ k.target = some .queued := hi
    have hw : some run.status = k.target := by rw [hq, ht]
    refine ⟨⟨?_, ?_, fun _ => Or.inr hw⟩, rfl, ?_, fun hh hn => ?_⟩
    · rintro _ ⟨⟩
      rfl
    · rintro _ ⟨⟩
      exact ⟨run, Row.visible_of_holder rfl, .refl⟩
    · have hlv := legal_visible (t := t) hl
      rw [hv] at hlv
      cases hc : r.committed with
      | none => exact Or.inr (congrArg some hq)
      | some x =>
        rw [hc] at hlv
        obtain ⟨_, hx, -⟩ := hlv
        cases hx
    · exact absurd ((Row.visible_of_holder hh).symm.trans hv) hn

theorem allowed_of_touches (h : Touches t i s s') (hi : D.Inv s)
    (hb : ∀ b, (s'.bots b).committed = (s.bots b).committed ∧
      D.Legal ((s.bots b).committed.map BotRun.status) ((s'.bots b).written.map BotRun.status)) :
    D.protocol.Allowed t s s' := by
  refine ⟨fun b => ?_, fun u hu => ⟨h.apart hu, fun b run hc => ?_, fun b hj => ?_⟩, trivial⟩
  · rw [h.history, h.joinedBy, h.openedBy]
    obtain ⟨tracks, -, joined, opened⟩ := hi b
    obtain ⟨hc, hl⟩ := hb b
    exact ⟨hc ▸ tracks, hc ▸ hl, hc ▸ joined, opened⟩
  · exact ⟨run, (hb b).1.trans hc, .refl⟩
  · rw [h.joinedBy, h.openedBy]
    exact ⟨hj, rfl⟩

theorem Known.quiet {a : Answer i} (hk : D.Known t k s) (hi : i.Quiet k.target) (hinv : D.Inv s)
    (he : exec t i c s = some (s', a)) : D.protocol.Allowed t s s' ∧ D.Known t k s' := by
  have h := exec_touches hi.inner he
  have hq := fun b => (hk b).quiet (h.touch b) hi (hinv b).legal
  exact ⟨allowed_of_touches h hinv fun b => ⟨(hq b).2.committed, (hq b).2.legal⟩,
    fun b => (hq b).1⟩

theorem Knows.rely (hr : D.protocol.rely t s s')
    (hk : D.Knows t k ((s.session t).objs b) (s.bots b)) :
    D.Knows t k ((s'.session t).objs b) (s'.bots b) := by
  rw [hr.session]
  by_cases hb : (s.bots b).holder = some t
  · rw [hr.held b hb]
    exact hk
  · have hb' : (s'.bots b).holder ≠ some t := fun h => hb (hr.given b h)
    refine ⟨hk.clean, fun x hx => ?_, fun h => absurd h hb'⟩
    obtain ⟨run, hv, hx⟩ := hk.behind x hx
    rw [Row.visible_of_not_holder hb] at hv
    obtain ⟨run', hv', hx'⟩ := hr.reaches b run hv
    exact ⟨run', (Row.visible_of_not_holder hb').trans hv', hx.trans hx'⟩

theorem Known.rely (hr : D.protocol.rely t s s') (hk : D.Known t k s) : D.Known t k s' :=
  fun b => (hk b).rely hr

theorem keeps_quiet {α : Type} {p : Prog Stmt Answer α} (hp : p.Uses (Stmt.Quiet k.target)) :
    D.protocol.Keeps t k (D.Known t k) p :=
  fun _ hs => Protocol.wp_frame hp hs (fun _ _ hr _ => Known.rely hr)
    fun _ _ _ _ _ hi hinv _ hk he => hk.quiet hi hinv he

end Discipline

end Fakery.Bots
