import Fakery.Bots.Transactions
import Fakery.Concurrent.Along

/-! Any number of calls of `create_or_get` that retry one request. -/
namespace Fakery.Creates
open Fakery.Bots Fakery.Concurrent Fakery.Core Fakery.Postgres

/-- `returned` is what a call gives to its caller. -/
inductive Call where
  | stmt (i : Stmt)
  | returned (r : Except TwinError (BotRun × Bool))

abbrev Reply : Call → Type
  | .stmt i => Answer i
  | .returned _ => Unit

/-- The database, the calls that have looked for the key in vain and have not ended, and what has
been returned. -/
structure Scene where
  db : Db
  looking : List ℕ := []
  returned : List (Except TwinError (BotRun × Bool)) := []

def note (t : ℕ) : (i : Stmt) → Answer i → List ℕ → List ℕ
  | .getByIdempotency _, none, looking => t :: looking
  | .commit, _, looking | .rollback, _, looking => looking.filter (· ≠ t)
  | _, _, looking => looking

/-- `uuid4` does not give the id of a run that is there. -/
def fresh (db : Db) (c : ℕ) : Stmt → Bool
  | .uuid4 => c ∉ db.ids
  | _ => true

def exec (t : ℕ) : (i : Call) → ℕ → Scene → Option (Scene × Reply i)
  | .stmt i, c, s =>
    if fresh s.db c i then
      (Bots.exec t i c s.db).map fun x =>
        ({ s with db := x.1, looking := note t i x.2 s.looking }, x.2)
    else none
  | .returned r, _, s => some ({ s with returned := r :: s.returned }, ())

/-- What the retries may differ in. -/
structure Request where
  meetingUrl : String
  displayName : Option String

def create (key meetingKey : String) (q : Request) :
    Prog Stmt Answer (Except TwinError (BotRun × Bool)) :=
  sessionScope (createOrGet q.meetingUrl meetingKey q.displayName (some key))

def creates (key meetingKey : String) : Machine Call Reply Request Scene ℕ World where
  prog q := (create key meetingKey q).embed Call.stmt (fun _ r => r) >>= fun r =>
    Prog.ask (Call.returned r)
  begin t _ s := some { s with db := s.db.setSession t {} }
  exec := exec
  kill t s := { s with db := s.db.rollback t, looking := s.looking.filter (· ≠ t) }
  env w s := (w.step s.db).map fun db => { s with db := db }

variable {key meetingKey : String} {t u b : ℕ} {s s' : Scene}

section property

def Keyed (key : String) (run : BotRun) : Prop := run.idempotencyKey = some key

/-- Nobody is at work, no run has the key, and none is active for the meeting. -/
structure Ready (key meetingKey : String) (db : Db) : Prop where
  free : ∀ b, (db.bots b).holder = none
  rows : ∀ b run, (db.bots b).committed = some run → b ∈ db.ids ∧ run.id = b
  unused : ∀ b run, (db.bots b).committed = some run → ¬Keyed key run
  idle : ∀ b run, (db.bots b).committed = some run → run.meetingKey = meetingKey →
    Db.active run.status = false

/-- One run has the key, and it is what every call has returned. -/
structure Idempotent (key meetingKey : String) (s : Scene) : Prop where
  unique : ∀ b b' run run', (s.db.bots b).committed = some run →
    (s.db.bots b').committed = some run' → Keyed key run → Keyed key run' → b = b'
  returned : ∀ r ∈ s.returned, ∃ run created, r = .ok (run, created) ∧
    (s.db.bots run.id).committed = some run ∧ Keyed key run ∧ run.meetingKey = meetingKey

def Call.commits : Call → Bool
  | .stmt .commit => true
  | _ => false

/-- A call that has looked for the key in vain commits its run when no other such call is left. -/
def unrivalled (key meetingKey : String) : (creates key meetingKey).Condition where
  call t _ i s := i.commits = true → t ∈ s.looking → ∀ u ∈ s.looking, u = t

instance (t : ℕ) (q : Request) (i : Call) (s : Scene) :
    Decidable ((unrivalled key meetingKey).call t q i s) :=
  inferInstanceAs (Decidable (i.commits = true → t ∈ s.looking → ∀ u ∈ s.looking, u = t))

instance (t : ℕ) (q : Request) (s : Scene) : Decidable ((unrivalled key meetingKey).start t q s) :=
  isTrue trivial

instance (t : ℕ) (s : Scene) : Decidable ((unrivalled key meetingKey).kill t s) := isTrue trivial

instance (w : World) (s : Scene) : Decidable ((unrivalled key meetingKey).env w s) := isTrue trivial

end property

section invariant

structure Inv (key meetingKey : String) (s : Scene) : Prop where
  rows : ∀ b run, (s.db.bots b).committed = some run → b ∈ s.db.ids ∧ run.id = b
  meeting : ∀ b run, (s.db.bots b).committed = some run → Keyed key run →
    run.meetingKey = meetingKey
  active : ∀ b run, (s.db.bots b).committed = some run → run.meetingKey = meetingKey →
    Db.active run.status = true → Keyed key run
  looking : ∀ t ∈ s.looking, ∀ b run, (s.db.bots b).committed = some run → ¬Keyed key run
  held : ∀ b t, (s.db.bots b).holder = some t → t ∈ s.looking ∧ b ∈ s.db.ids ∧
    (s.db.bots b).committed = none ∧ ∃ run, (s.db.bots b).written = some run ∧ run.id = b ∧
      Keyed key run ∧ run.meetingKey = meetingKey
  single : ∀ b b' t t', (s.db.bots b).holder = some t → (s.db.bots b').holder = some t' → b = b'
  idempotent : Idempotent key meetingKey s

/-- What the others do between two statements of `t`. -/
structure Rely (key : String) (t : ℕ) (s s' : Scene) : Prop where
  apart : Apart t s.db s'.db
  committed : ∀ b run, (s.db.bots b).committed = some run → (s'.db.bots b).committed = some run
  keyed : ∀ b run, (s'.db.bots b).committed = some run →
    (s.db.bots b).committed = some run ∨ Keyed key run
  looking : t ∈ s'.looking ↔ t ∈ s.looking

theorem Rely.refl (key : String) (t : ℕ) (s : Scene) : Rely key t s s :=
  ⟨Apart.refl t s.db, fun _ _ => id, fun _ _ => Or.inl, Iff.rfl⟩

theorem Rely.trans {s'' : Scene} (h : Rely key t s s') (h' : Rely key t s' s'') :
    Rely key t s s'' := by
  refine ⟨h.apart.trans h'.apart, fun b run hc => h'.committed b run (h.committed b run hc),
    fun b run hc => ?_, h'.looking.trans h.looking⟩
  rcases h'.keyed b run hc with hc | hk
  · exact h.keyed b run hc
  · exact Or.inr hk

/-- `t` has no row. -/
def Bare (t : ℕ) (s : Scene) : Prop := ∀ b, (s.db.bots b).holder ≠ some t

theorem Bare.rely (h : Bare t s) (hr : Rely key t s s') : Bare t s' :=
  fun b hb => h b (hr.apart.given b hb)

/-- A call that has not begun, or has ended. -/
def Outside (t : ℕ) (s : Scene) : Prop := t ∉ s.looking ∧ Bare t s

theorem Outside.rely (h : Outside t s) (hr : Rely key t s s') : Outside t s' :=
  ⟨fun hl => h.1 (hr.looking.mp hl), h.2.rely hr⟩

def protocol (key meetingKey : String) : Protocol (creates key meetingKey) where
  cond := unrivalled key meetingKey
  inv := Inv key meetingKey
  rely := Rely key
  idle := Outside
  rely_refl := Rely.refl key
  rely_trans _ := Rely.trans

/-- The runs and what is noted stay as they are. -/
structure Same (s s' : Scene) : Prop where
  bots : s'.db.bots = s.db.bots
  ids : s'.db.ids = s.db.ids
  looking : s'.looking = s.looking
  returned : s'.returned = s.returned

theorem Inv.same (h : Inv key meetingKey s) (hs : Same s s') : Inv key meetingKey s' := by
  constructor
  · rw [hs.bots, hs.ids]
    exact h.rows
  · rw [hs.bots]
    exact h.meeting
  · rw [hs.bots]
    exact h.active
  · rw [hs.bots, hs.looking]
    exact h.looking
  · rw [hs.bots, hs.ids, hs.looking]
    exact h.held
  · rw [hs.bots]
    exact h.single
  · constructor
    · rw [hs.bots]
      exact h.idempotent.unique
    · rw [hs.bots, hs.returned]
      exact h.idempotent.returned

theorem Same.rely (hs : Same s s') (hu : s'.db.session u = s.db.session u) : Rely key u s s' := by
  constructor
  · exact ⟨hu, fun b _ => congrFun hs.bots b, fun b hb => by rwa [hs.bots] at hb⟩
  · rw [hs.bots]
    exact fun _ _ => id
  · rw [hs.bots]
    exact fun _ _ => Or.inl
  · rw [hs.looking]

end invariant

section statements

variable {i : Stmt} {c : ℕ} {db db' : Db}

/-- The statements that leave every run as it is. -/
def Still : Stmt → Prop
  | .utcnow | .uuid4 | .findActiveMeeting _ | .getByIdempotency _ | .lockSubscriptions
  | .lastDelivery _ _ | .addDelivery _ => True
  | _ => False

theorem still_load (run : BotRun) : (db.load t b run).1.bots = db.bots ∧
    (db.load t b run).1.ids = db.ids ∧
    ∀ u, u ≠ t → (db.load t b run).1.session u = db.session u := by
  unfold Db.load
  split
  · exact ⟨rfl, rfl, fun _ _ => rfl⟩
  · exact ⟨rfl, rfl, fun u hu => Function.update_of_ne hu _ _⟩

theorem still_loadSome (x : Option (ℕ × BotRun)) : (db.loadSome t x).1.bots = db.bots ∧
    (db.loadSome t x).1.ids = db.ids ∧
    ∀ u, u ≠ t → (db.loadSome t x).1.session u = db.session u := by
  cases x with
  | none => exact ⟨rfl, rfl, fun _ _ => rfl⟩
  | some x => exact still_load x.2

theorem still_exec {r : Answer i} (hi : Still i) (h : Bots.exec t i c db = some (db', r)) :
    db'.bots = db.bots ∧ db'.ids = db.ids ∧ ∀ u, u ≠ t → db'.session u = db.session u := by
  cases i with
  | getByIdempotency key | findActiveMeeting key =>
    obtain ⟨rfl, -⟩ := Prod.mk.inj (Option.some.inj h)
    exact still_loadSome _
  | lockSubscriptions =>
    simp only [Bots.exec, Db.lockSubscriptions] at h
    split_ifs at h
    obtain ⟨rfl, -⟩ := Prod.mk.inj (Option.some.inj h)
    exact ⟨rfl, rfl, fun _ _ => rfl⟩
  | addDelivery delivery =>
    obtain ⟨rfl, -⟩ := Prod.mk.inj (Option.some.inj h)
    exact ⟨rfl, rfl, fun u hu => Function.update_of_ne hu _ _⟩
  | utcnow | uuid4 | lastDelivery =>
    obtain ⟨rfl, -⟩ := Prod.mk.inj (Option.some.inj h)
    exact ⟨rfl, rfl, fun _ _ => rfl⟩
  | _ => exact hi.elim

theorem clashes_of_keyed {run r : BotRun} (h : Keyed key run) (h' : Keyed key r) :
    Db.clashes run (some r) = true := by
  unfold Keyed at h h'
  simp [Db.clashes, h, h']

theorem clashes_cases {run r : BotRun} (hk : Keyed key run) (h : Db.clashes run (some r) = true) :
    r.id = run.id ∨ Keyed key r ∨ r.meetingKey = run.meetingKey ∧ Db.active r.status = true := by
  unfold Keyed at hk ⊢
  simp only [Db.clashes, Bool.or_eq_true, Bool.and_eq_true, decide_eq_true_eq] at h
  rcases h with (h | ⟨-, h⟩) | ⟨⟨h, ha⟩, -⟩
  · exact Or.inl h
  · exact Or.inr (Or.inl (h.trans hk))
  · exact Or.inr (Or.inr ⟨h, ha⟩)

/-- While a call is looking nothing that is there stands in the way of its run. -/
theorem not_clashes {run r : BotRun} (hi : Inv key meetingKey s) (hl : t ∈ s.looking)
    (hk : Keyed key run) (hm : run.meetingKey = meetingKey)
    (hc : ∀ r, (s.db.bots run.id).committed = some r → Keyed key r)
    (hr : (s.db.bots b).committed = some r) : Db.clashes run (some r) = false := by
  rw [← Bool.not_eq_true]
  intro hclash
  have hnot := hi.looking t hl b r hr
  rcases clashes_cases hk hclash with hid | hkeyed | ⟨hmeeting, hactive⟩
  · have hb : run.id = b := hid.symm.trans (hi.rows b r hr).2
    exact hnot (hc r (hb ▸ hr))
  · exact hnot hkeyed
  · exact hnot (hi.active b r hr (hmeeting.trans hm) hactive)

/-- An insertion of a call that is looking waits for another one or succeeds. -/
theorem insertRun_eq {run : BotRun} {a : Bool} (hi : Inv key meetingKey s) (hb : Bare t s)
    (hl : t ∈ s.looking) (hk : Keyed key run) (hm : run.meetingKey = meetingKey)
    (hc : ∀ r, (s.db.bots run.id).committed = some r → Keyed key r)
    (h : s.db.insertRun t run = some (db', a)) : a = true ∧ (∀ b, (s.db.bots b).holder = none) ∧
      db'.bots = Function.update s.db.bots run.id ⟨none, some t, some run⟩ ∧
      (∀ b, b ∈ db'.ids ↔ b ∈ s.db.ids ∨ b = run.id) ∧
      ∀ u, u ≠ t → db'.session u = s.db.session u := by
  have hnone : (s.db.bots run.id).committed = none := by
    by_contra hne
    obtain ⟨r, hr⟩ := Option.ne_none_iff_exists'.mp hne
    exact hi.looking t hl _ r hr (hc r hr)
  unfold Db.insertRun at h
  split at h
  · cases h
  rename_i hwaits
  have hfree : ∀ b, (s.db.bots b).holder = none := by
    intro b
    by_contra hne
    obtain ⟨u, hu⟩ := Option.ne_none_iff_exists'.mp hne
    obtain ⟨-, hmem, -, run', hwritten, -, hkeyed, -⟩ := hi.held b u hu
    have hut : u ≠ t := fun heq => hb b (heq ▸ hu)
    apply hwaits
    refine List.any_eq_true.mpr ⟨b, hmem, ?_⟩
    rw [hu, hwritten, clashes_of_keyed hk hkeyed]
    simp [hut]
  have hvisible : ∀ b, (s.db.bots b).visible t = (s.db.bots b).committed :=
    fun b => Row.visible_of_not_holder (hb b)
  split at h
  · rename_i hrefused
    exfalso
    rw [hvisible, hnone] at hrefused
    simp only [Option.isSome_none, Bool.false_or] at hrefused
    obtain ⟨b, -, hclash⟩ := List.any_eq_true.mp hrefused
    rw [hvisible] at hclash
    cases hcommitted : (s.db.bots b).committed with
    | none =>
      rw [hcommitted] at hclash
      cases hclash
    | some r =>
      rw [hcommitted, not_clashes hi hl hk hm hc hcommitted] at hclash
      cases hclash
  · obtain ⟨r, hr, he⟩ := Option.map_eq_some_iff.mp h
    obtain ⟨rfl, rfl⟩ := Prod.mk.inj he
    obtain ⟨-, rfl⟩ := Row.update_eq hr
    refine ⟨rfl, hfree, ?_, fun b => ?_, fun u hu => Function.update_of_ne hu _ _⟩
    · rw [← hnone]
      rfl
    · dsimp only
      split_ifs with hmem
      · exact ⟨Or.inl, fun h => h.elim id fun heq => heq ▸ hmem⟩
      · simp

/-- A SELECT that finds nothing. -/
theorem select_none {p : BotRun → Bool} {run : BotRun} (h : (db.select t p).head? = none)
    (hb : b ∈ db.ids) (hv : (db.bots b).visible t = some run) : p run = false := by
  rw [List.head?_eq_none_iff] at h
  rw [← Bool.not_eq_true]
  intro hp
  have hmem : (b, run) ∈ db.select t p := by
    apply List.mem_filterMap.mpr
    exact ⟨b, hb, by simp [hv, Option.filter, hp]⟩
  rw [h] at hmem
  cases hmem

/-- A SELECT that finds something. -/
theorem select_some {p : BotRun → Bool} {x : ℕ × BotRun} (h : (db.select t p).head? = some x) :
    (db.bots x.1).visible t = some x.2 ∧ p x.2 = true := by
  have hmem := List.mem_of_head? h
  refine ⟨visible_of_mem_select hmem, ?_⟩
  obtain ⟨b, -, hb⟩ := List.mem_filterMap.mp hmem
  obtain ⟨run, hr, rfl⟩ := Option.map_eq_some_iff.mp hb
  exact (Option.filter_eq_some_iff.mp hr).2

end statements

end Fakery.Creates
