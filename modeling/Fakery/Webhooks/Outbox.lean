import Fakery.Bots.Bodies

/-! The outbox as a mirror of the history. Every event of a subscription is written while its row
is locked, in the transaction that makes the change, so that the outbox shows the committed
changes in the order of their commits. -/
namespace Fakery.Webhooks
open Fakery.Concurrent Fakery.Core Fakery.Postgres Fakery.Bots

variable {t u w b : ℕ} {k : Op} {i : Stmt} {c : ℕ} {s s' : Db}

/-- The events of a subscription, oldest first, and those that a session is about to add. -/
def outbox (w : ℕ) (s : Db) : List WebhookDelivery :=
  s.deliveries.filter fun d => d.subscriptionId = w

def drafts (w t : ℕ) (s : Db) : List WebhookDelivery :=
  (s.session t).deliveries.filter fun d => d.subscriptionId = w

def ofBot (b : ℕ) (ds : List WebhookDelivery) : List WebhookDelivery :=
  ds.filter fun d => d.payload.botId = b

def sequences (ds : List WebhookDelivery) : List ℕ := ds.map WebhookDelivery.sequence

/-- The events account for what was written: each status, each segment and each note. -/
structure Accounts (events : List Payload) (statuses : List (ℕ × BotStatus))
    (segments : List TranscriptSegment) (noted : ℕ → Bool) : Prop where
  statuses : events.filterMap Payload.toStatus = statuses
  segments : events.filterMap Payload.toSegment = segments
  notes : ∀ b, events.countP (Payload.isNotesOf b) = (noted b).toNat

theorem Accounts.append {es es' : List Payload} {xs xs' : List (ℕ × BotStatus)}
    {gs gs' : List TranscriptSegment} {n n' m : ℕ → Bool} (h : Accounts es xs gs n)
    (h' : Accounts es' xs' gs' n') (hm : ∀ b, (m b).toNat = (n b).toNat + (n' b).toNat) :
    Accounts (es ++ es') (xs ++ xs') (gs ++ gs') m := by
  refine ⟨?_, ?_, fun b => ?_⟩
  · rw [List.filterMap_append, h.statuses, h'.statuses]
  · rw [List.filterMap_append, h.segments, h'.segments]
  · rw [List.countP_append, h.notes, h'.notes, hm]

/-- The session of `t` accounts for its own writes once `owed` has been added to its drafts. -/
def Balanced (w t : ℕ) (owed : List Payload) (s : Db) : Prop :=
  Accounts ((drafts w t s).map WebhookDelivery.payload ++ owed) (s.session t).statuses
    (s.session t).segments fun b => (s.notes b).holder = some t

/-- No object has a status that is still to be flushed. -/
def Clean (t : ℕ) (s : Db) : Prop :=
  ∀ b o, (s.session t).objs b = some o → o.now.status = o.loaded.status

structure Inv (w : ℕ) (s : Db) : Prop where
  subscribed : w ∈ s.subscriptions.map WebhookSubscription.id
  nodup : (s.subscriptions.map WebhookSubscription.id).Nodup
  accounts : Accounts ((outbox w s).map WebhookDelivery.payload) s.statusLog s.segments
    fun b => (s.notes b).committed.isSome
  numbered : ∀ b, sequences (ofBot b (outbox w s)) = List.range' 1 (ofBot b (outbox w s)).length
  drafted : ∀ t b, sequences (ofBot b (drafts w t s)) =
    List.range' ((ofBot b (outbox w s)).length + 1) (ofBot b (drafts w t s)).length
  locked : ∀ t, drafts w t s ≠ [] → s.subscriptionLock w = some t
  noted : ∀ b t, (s.notes b).holder = some t →
    (s.notes b).committed = none ∧ (s.notes b).written.isSome

structure Rely (w u : ℕ) (s s' : Db) : Prop where
  session : s'.session u = s.session u
  noting : ∀ b, (s'.notes b).holder = some u ↔ (s.notes b).holder = some u
  lock : s.subscriptionLock w = some u → s'.subscriptionLock w = some u ∧ outbox w s' = outbox w s

/-- The subscription `w` is never deleted. -/
def kept (w : ℕ) : service.Condition where
  env e _ := e ≠ .unsubscribe w

def mirror (w : ℕ) : Protocol service where
  cond := kept w
  inv := Inv w
  rely := Rely w
  idle t s := ∀ b, (s.notes b).holder ≠ some t
  rely_refl _ _ := ⟨rfl, fun _ => Iff.rfl, fun h => ⟨h, rfl⟩⟩
  rely_trans _ _ _ _ h k := ⟨k.session.trans h.session,
    fun b => (k.noting b).trans (h.noting b), fun hl =>
      have hk := k.lock (h.lock hl).1
      ⟨hk.1, hk.2.trans (h.lock hl).2⟩⟩

theorem Balanced.rely {owed : List Payload} (hr : (mirror w).rely t s s')
    (h : Balanced w t owed s) : Balanced w t owed s' := by
  have hn : (fun b => decide ((s'.notes b).holder = some t)) =
      fun b => decide ((s.notes b).holder = some t) :=
    funext fun b => decide_eq_decide.mpr (hr.noting b)
  unfold Balanced drafts
  rw [hr.session, hn]
  exact h

theorem Clean.rely (hr : (mirror w).rely t s s') (h : Clean t s) : Clean t s' := by
  unfold Clean
  rw [hr.session]
  exact h

theorem clean_of_touch {o o' : Option Obj} {r r' : Row (Option BotRun)} (h : Touch t b i o r o' r')
    (hi : i.Plain) (hc : ∀ x, o = some x → x.now.status = x.loaded.status) :
    ∀ x, o' = some x → x.now.status = x.loaded.status := by
  cases h with
  | same => exact hc
  | locked => exact hc
  | @assigned x f _ stmt =>
    subst stmt
    have hf : ∀ run, (f run).status = run.status := hi
    rintro _ ⟨⟩
    exact (hf _).trans (hc x rfl)
  | inserted stmt =>
    subst stmt
    exact hi.elim
  | _ =>
    rintro _ ⟨⟩
    rfl

theorem Clean.plain {a : Answer i} (hc : Clean t s) (hi : i.Plain)
    (h : exec t i c s = some (s', a)) : Clean t s' :=
  fun b => clean_of_touch ((exec_touches hi.inner h).touch b) hi (hc b)

/-- A plain statement that takes no subscription lock leaves the outbox alone. -/
theorem aside_plain {a : Answer i} (hc : Clean t s) (hi : i.Plain) (hl : i ≠ .lockSubscriptions)
    (h : exec t i c s = some (s', a)) : Aside t s s' := by
  cases i with
  | get b =>
    simp only [exec] at h
    split at h
    · obtain ⟨rfl, -⟩ := Prod.mk.inj (Option.some.inj h)
      exact .refl t s
    · obtain ⟨rfl, -⟩ := Prod.mk.inj (Option.some.inj h)
      refine (loads_loadSome fun y hy => ?_).aside
      obtain ⟨run, hr, rfl⟩ := Option.map_eq_some_iff.mp hy
      exact hr
  | selectForUpdate b =>
    simp only [exec] at h
    split at h
    · obtain ⟨rfl, -⟩ := Prod.mk.inj (Option.some.inj h)
      exact .refl t s
    · obtain ⟨q, -, he⟩ := Option.map_eq_some_iff.mp h
      obtain ⟨rfl, -⟩ := Prod.mk.inj he
      exact (aside_setBot _).trans (aside_load _)
  | getByIdempotency key =>
    obtain ⟨rfl, -⟩ := Prod.mk.inj (Option.some.inj h)
    exact (loads_select_head _).aside
  | findActiveMeeting key =>
    obtain ⟨rfl, -⟩ := Prod.mk.inj (Option.some.inj h)
    exact (loads_select_head _).aside
  | selectStale cutoff =>
    obtain ⟨rfl, -⟩ := Prod.mk.inj (Option.some.inj h)
    exact (loads_loadAll fun y => visible_of_mem_select).aside
  | assign b f =>
    simp only [exec] at h
    split at h
    · obtain ⟨rfl, -⟩ := Prod.mk.inj (Option.some.inj h)
      exact .refl t s
    · obtain ⟨rfl, -⟩ := Prod.mk.inj (Option.some.inj h)
      exact aside_setObj _
  | flush b =>
    obtain ⟨u, hu, he⟩ := Option.map_eq_some_iff.mp h
    obtain ⟨rfl, -⟩ := Prod.mk.inj he
    cases ho : (s.session t).objs b with
    | none =>
      cases flush_unchanged hu fun o h => by cases ho.symm.trans h
      exact .refl t s
    | some o =>
      obtain ⟨hs, hd, hg, hn, hw, hk⟩ := flush_log ho hu
      rw [if_pos (hc b o ho), List.append_nil] at hs
      exact ⟨hd, hg, hs, hn, hw, hk⟩
  | lockSubscriptions => exact absurd rfl hl
  | insertRun | addDelivery | insertSegment | insertNote | commit | rollback | openBrowser =>
    exact hi.elim
  | _ =>
    obtain ⟨rfl, -⟩ := Prod.mk.inj (Option.some.inj h)
    exact .refl t s

theorem outbox_of_eq (h : s'.deliveries = s.deliveries) : outbox w s' = outbox w s := by
  unfold outbox
  rw [h]

theorem Inv.of_eq (h : Inv w s) (hw : s'.subscriptions = s.subscriptions)
    (hd : s'.deliveries = s.deliveries) (hx : s'.statusLog = s.statusLog)
    (hg : s'.segments = s.segments) (hn : s'.notes = s.notes)
    (hdrafts : ∀ u, drafts w u s' = drafts w u s)
    (hl : ∀ u, s.subscriptionLock w = some u → s'.subscriptionLock w = some u) : Inv w s' := by
  have ho := outbox_of_eq (w := w) hd
  constructor
  · exact hw ▸ h.subscribed
  · exact hw ▸ h.nodup
  · rw [ho, hx, hg, hn]
    exact h.accounts
  · rw [ho]
    exact h.numbered
  · intro t b
    rw [ho, hdrafts]
    exact h.drafted t b
  · intro t ht
    exact hl t (h.locked t (hdrafts t ▸ ht))
  · rw [hn]
    exact h.noted

theorem drafts_of_eq (hf : Frame t s s')
    (hd : (s'.session t).deliveries = (s.session t).deliveries) (u : ℕ) :
    drafts w u s' = drafts w u s := by
  unfold drafts
  by_cases hu : u = t
  · subst hu
    rw [hd]
  · rw [hf.session u hu]

/-- A step that adds no draft, writes no note and takes no lock is allowed. -/
theorem allowed_of_eq (hi : Inv w s) (hf : Frame t s s')
    (hd : (s'.session t).deliveries = (s.session t).deliveries) (hn : s'.notes = s.notes)
    (hw : s'.subscriptions = s.subscriptions) (hl : s'.subscriptionLock = s.subscriptionLock) :
    (mirror w).Allowed t s s' :=
  ⟨hi.of_eq hw hf.deliveries hf.statusLog hf.segments hn (drafts_of_eq hf hd) fun _ h => hl ▸ h,
    fun u hu => ⟨hf.session u hu, fun b => by rw [hn], fun h =>
      ⟨hl ▸ h, outbox_of_eq hf.deliveries⟩⟩, trivial⟩

theorem allowed_aside (hi : Inv w s) (hf : Frame t s s') (ha : Aside t s s') :
    (mirror w).Allowed t s s' :=
  allowed_of_eq hi hf ha.drafts ha.notes ha.subscriptions ha.subscriptionLock

theorem Balanced.aside {owed : List Payload} (h : Balanced w t owed s) (ha : Aside t s s') :
    Balanced w t owed s' := by
  unfold Balanced drafts
  rw [ha.drafts, ha.statuses, ha.segments, ha.notes]
  exact h

/-- Whoever takes the subscription locks waits for the transactions that hold them. -/
theorem lockSubscriptions_eq {a : List WebhookSubscription}
    (h : s.lockSubscriptions t = some (s', a)) :
    a = s.subscriptions ∧ (∀ v ∈ s.subscriptions.map WebhookSubscription.id,
      s.subscriptionLock v = none ∨ s.subscriptionLock v = some t) ∧
      s' = { s with subscriptionLock := fun v =>
        if v ∈ s.subscriptions.map WebhookSubscription.id then some t else s.subscriptionLock v } := by
  unfold Db.lockSubscriptions at h
  split_ifs at h with hall
  obtain ⟨rfl, rfl⟩ := Prod.mk.inj (Option.some.inj h)
  refine ⟨rfl, fun v hv => ?_, rfl⟩
  obtain ⟨x, hx, rfl⟩ := List.mem_map.mp hv
  simpa [Db.ownsSubscription] using List.all_eq_true.mp hall x hx

theorem allowed_lock {a : List WebhookSubscription} (hi : Inv w s)
    (h : s.lockSubscriptions t = some (s', a)) :
    (mirror w).Allowed t s s' ∧ s'.subscriptionLock w = some t := by
  obtain ⟨-, hfree, rfl⟩ := lockSubscriptions_eq h
  have hfree := hfree w hi.subscribed
  have ht : ∀ u, s.subscriptionLock w = some u → u = t := fun u hu => by
    rcases hfree with hn | hn <;> cases hn.symm.trans hu
    rfl
  have hlock : (if w ∈ s.subscriptions.map WebhookSubscription.id then some t
      else s.subscriptionLock w) = some t := if_pos hi.subscribed
  refine ⟨⟨hi.of_eq rfl rfl rfl rfl rfl (fun _ => rfl) fun u hu => ?_, fun u hu => ?_, trivial⟩,
    hlock⟩
  · rw [ht u hu]
    exact hlock
  · exact ⟨rfl, fun _ => Iff.rfl, fun h => absurd (ht u h) hu⟩

/-- Between two emissions a transaction keeps its accounts. -/
structure Steady (w t : ℕ) (s : Db) : Prop where
  balanced : Balanced w t [] s
  clean : Clean t s

theorem Steady.rely (hr : (mirror w).rely t s s') (h : Steady w t s) : Steady w t s' :=
  ⟨h.balanced.rely hr, h.clean.rely hr⟩

theorem Steady.plain {a : Answer i} (h : Steady w t s) (hi : i.Plain) (hinv : Inv w s)
    (he : exec t i c s = some (s', a)) : (mirror w).Allowed t s s' ∧ Steady w t s' := by
  by_cases hl : i = .lockSubscriptions
  · subst hl
    obtain ⟨hal, -⟩ := allowed_lock hinv he
    obtain ⟨-, -, rfl⟩ := lockSubscriptions_eq he
    exact ⟨hal, h.balanced, h.clean⟩
  · have ha := aside_plain h.clean hi hl he
    have hf := (exec_touches hi.inner he).toFrame
    exact ⟨allowed_aside hinv hf ha, h.balanced.aside ha, h.clean.plain hi he⟩

theorem keeps_plain {α : Type} {p : Prog Stmt Answer α} (hp : p.Uses Stmt.Plain) :
    (mirror w).Keeps t k (Steady w t) p :=
  fun _ hs => Protocol.wp_frame hp hs (fun _ _ hr _ => Steady.rely hr)
    fun _ _ _ _ _ hi hinv _ h he => h.plain hi hinv he

end Fakery.Webhooks
