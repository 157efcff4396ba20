import Fakery.Creates.Retries

/-! Retries return the same run, unless the look-up of one falls into another one. -/
namespace Fakery.Creates
open Fakery.Bots Fakery.Concurrent Fakery.Core Fakery.Postgres

variable {key meetingKey : String} {t u b : ℕ} {s s' : Scene}

section programs

variable {k : Request} {i : Stmt} {α : Type}

abbrev inner (key meetingKey : String) := (protocol key meetingKey).along Call.stmt fun _ r => r

/-- The rule for one statement. -/
theorem wp_stmt {Q : Answer i → Scene → Prop}
    (h : ∀ s₁ c db' a, Rely key t s s₁ → Inv key meetingKey s₁ →
      (unrivalled key meetingKey).call t k (.stmt i) s₁ → fresh s₁.db c i = true →
      Bots.exec t i c s₁.db = some (db', a) → ∀ s₂, s₂.db = db' →
        s₂.looking = note t i a s₁.looking → s₂.returned = s₁.returned →
        Inv key meetingKey s₂ ∧ (∀ u, u ≠ t → Rely key u s₁ s₂) ∧ Q a s₂) :
    (inner key meetingKey).wp t k (Prog.ask i) Q s := by
  refine (Protocol.wp_ask i).mpr fun s₁ hr hi hc c s₂ a he => ?_
  obtain ⟨x, hx, heq⟩ := Option.map_eq_some_iff.mp he
  obtain ⟨rfl, rfl⟩ := Prod.mk.inj heq
  change (if fresh s₁.db c i then _ else none) = some x at hx
  split_ifs at hx with hfresh
  obtain ⟨y, hy, rfl⟩ := Option.map_eq_some_iff.mp hx
  obtain ⟨hinv, hothers, hQ⟩ := h s₁ c y.1 y.2 hr hi hc hfresh hy
    { s₁ with db := y.1, looking := note t i y.2 s₁.looking } rfl rfl rfl
  exact ⟨⟨hinv, hothers, trivial⟩, hQ⟩

/-- The still statements but the look-up of the key. -/
def Quiet : Stmt → Prop
  | .getByIdempotency _ => False
  | i => Still i

theorem quiet_same {a : Answer i} {c : ℕ} (hi : Quiet i) (s₁ s₂ : Scene)
    (h : Bots.exec t i c s₁.db = some (s₂.db, a)) (hl : s₂.looking = note t i a s₁.looking)
    (hr : s₂.returned = s₁.returned) :
    Same s₁ s₂ ∧ ∀ u, u ≠ t → s₂.db.session u = s₁.db.session u := by
  have hstill : Still i := by
    cases i <;> first | exact hi | exact hi.elim
  have hlooking : note t i a s₁.looking = s₁.looking := by
    cases i <;> first | rfl | exact hi.elim
  obtain ⟨hbots, hids, hsession⟩ := still_exec hstill h
  exact ⟨⟨hbots, hids, hl.trans hlooking, hr⟩, hsession⟩

/-- An assertion of `t` that neither the others nor its quiet statements break. -/
structure Stable (key : String) (t : ℕ) (A : Scene → Prop) : Prop where
  rely : ∀ {s s'}, Rely key t s s' → A s → A s'
  same : ∀ {s s'}, Same s s' → A s → A s'

theorem wp_quiet {A : Scene → Prop} (hA : Stable key t A) (hi : Quiet i) (hs : A s) :
    (inner key meetingKey).wp t k (Prog.ask i) (fun _ => A) s := by
  refine wp_stmt fun s₁ c db' a hr hinv _ _ he s₂ hdb hlooking hreturned => ?_
  subst hdb
  obtain ⟨hsame, hsession⟩ := quiet_same hi s₁ s₂ he hlooking hreturned
  exact ⟨hinv.same hsame, fun u hu => hsame.rely (hsession u hu), hA.same hsame (hA.rely hr hs)⟩

/-- A quiet statement and what follows. -/
theorem wp_step {A : Scene → Prop} {f : Answer i → Txn α} {Q : Except TwinError α → Scene → Prop}
    (hA : Stable key t A) (hi : Quiet i) (hs : A s)
    (hf : ∀ a s, A s → (inner key meetingKey).wp t k (f a).run Q s) :
    (inner key meetingKey).wp t k (perform i >>= f).run Q s :=
  (Protocol.wp_perform_bind i).mpr (Protocol.wp_mono (wp_quiet hA hi hs) hf)

/-- The call has looked for the key in vain, and has no row yet. -/
def Looking (t : ℕ) (s : Scene) : Prop := t ∈ s.looking ∧ Bare t s

theorem Looking.rely (h : Looking t s) (hr : Rely key t s s') : Looking t s' :=
  ⟨hr.looking.mpr h.1, h.2.rely hr⟩

theorem Looking.same (h : Looking t s) (hs : Same s s') : Looking t s' := by
  unfold Looking Bare
  rw [hs.looking, hs.bots]
  exact h

/-- The call has inserted `run`. -/
structure Holding (t : ℕ) (run : BotRun) (s : Scene) : Prop where
  looking : t ∈ s.looking
  holder : (s.db.bots run.id).holder = some t
  written : (s.db.bots run.id).written = some run

theorem Holding.rely {run : BotRun} (h : Holding t run s) (hr : Rely key t s s') :
    Holding t run s' := by
  have hbot := hr.apart.held _ h.holder
  constructor
  · exact hr.looking.mpr h.looking
  · rw [hbot]
    exact h.holder
  · rw [hbot]
    exact h.written

theorem Holding.same {run : BotRun} (h : Holding t run s) (hs : Same s s') : Holding t run s' := by
  constructor
  · rw [hs.looking]
    exact h.looking
  · rw [hs.bots]
    exact h.holder
  · rw [hs.bots]
    exact h.written

theorem stable_holding {run : BotRun} : Stable key t (Holding t run) :=
  ⟨fun hr h => h.rely hr, fun hs h => h.same hs⟩

/-- A look-up finds the run that everybody gets, or nobody has one yet. -/
theorem wp_lookUp {Q : Option BotRun → Scene → Prop} (hs : Outside t s)
    (hobjs : ∀ b, (s.db.session t).objs b = none)
    (hfound : ∀ run s, Outside t s → (s.db.bots run.id).committed = some run → Keyed key run →
      run.meetingKey = meetingKey → Q (some run) s)
    (hvain : ∀ s, Looking t s → Q none s) :
    (inner key meetingKey).wp t k (Prog.ask (.getByIdempotency key)) Q s := by
  refine wp_stmt fun s₁ c db' a hr hi _ _ he s₂ hdb hlooking hreturned => ?_
  have hout := hs.rely hr
  obtain ⟨hbots, hids, hsession⟩ := still_exec (i := .getByIdempotency key) trivial he
  rw [← hdb] at hbots hids hsession
  have hvisible : ∀ b, (s₁.db.bots b).visible t = (s₁.db.bots b).committed :=
    fun b => Row.visible_of_not_holder (hout.2 b)
  obtain ⟨-, ha⟩ := Prod.mk.inj (Option.some.inj he)
  cases hhead : (s₁.db.select t fun run => run.idempotencyKey = some key).head? with
  | some x =>
    obtain ⟨hsee, hkey⟩ := select_some hhead
    rw [hvisible] at hsee
    have hkeyed : x.2.idempotencyKey = some key := of_decide_eq_true hkey
    have hfresh : (s₁.db.session t).objs x.1 = none := by
      rw [hr.apart.session]
      exact hobjs x.1
    have hloaded : a = some x.2 := by
      rw [← ha, hhead]
      simp [Db.load, hfresh]
    subst hloaded
    have hsame : Same s₁ s₂ := ⟨hbots, hids, hlooking, hreturned⟩
    refine ⟨hi.same hsame, fun u hu => hsame.rely (hsession u hu), hfound x.2 s₂ ?_ ?_ hkeyed ?_⟩
    · unfold Outside Bare
      rw [hlooking, hbots]
      exact hout
    · rw [hbots, (hi.rows x.1 x.2 hsee).2]
      exact hsee
    · exact hi.meeting x.1 x.2 hsee hkeyed
  | none =>
    have hvain' : a = none := by rw [← ha, hhead]
    subst hvain'
    have hunused : ∀ b run, (s₁.db.bots b).committed = some run → ¬Keyed key run := by
      intro b run hb hkeyed
      have hnot : ¬run.idempotencyKey = some key :=
        of_decide_eq_false (select_none hhead (hi.rows b run hb).1 ((hvisible b).trans hb))
      exact hnot hkeyed
    have hlooking : s₂.looking = t :: s₁.looking := hlooking
    refine ⟨?_, fun u hu => ?_, hvain s₂ ⟨?_, ?_⟩⟩
    · constructor
      · rw [hbots, hids]
        exact hi.rows
      · rw [hbots]
        exact hi.meeting
      · rw [hbots]
        exact hi.active
      · rw [hbots]
        exact fun _ _ => hunused
      · rw [hbots, hids, hlooking]
        intro b u hb
        obtain ⟨hmem, hrest⟩ := hi.held b u hb
        exact ⟨List.mem_cons_of_mem t hmem, hrest⟩
      · rw [hbots]
        exact hi.single
      · constructor
        · rw [hbots]
          exact hi.idempotent.unique
        · rw [hbots, hreturned]
          exact hi.idempotent.returned
    · have hapart : Apart u s₁.db s₂.db :=
        ⟨hsession u hu, fun b _ => congrFun hbots b, fun b hb => by rwa [hbots] at hb⟩
      refine ⟨hapart, ?_, ?_, ?_⟩
      · rw [hbots]
        exact fun _ _ => id
      · rw [hbots]
        exact fun _ _ => Or.inl
      · rw [hlooking]
        exact ⟨fun h => (List.mem_cons.mp h).resolve_left hu, List.mem_cons_of_mem t⟩
    · rw [hlooking]
      exact List.mem_cons_self
    · unfold Bare
      rw [hbots]
      exact hout.2

/-- While a call is looking no run is active for the meeting. -/
theorem wp_findActive {Q : Option BotRun → Scene → Prop} (hs : Looking t s)
    (hnone : ∀ s, Looking t s → Q none s) :
    (inner key meetingKey).wp t k (Prog.ask (.findActiveMeeting meetingKey)) Q s := by
  refine wp_stmt fun s₁ c db' a hr hi _ _ he s₂ hdb hlooking hreturned => ?_
  subst hdb
  have hlook := hs.rely hr
  obtain ⟨hsame, hsession⟩ := quiet_same (i := .findActiveMeeting meetingKey) trivial s₁ s₂ he
    hlooking hreturned
  obtain ⟨-, ha⟩ := Prod.mk.inj (Option.some.inj he)
  cases hhead : (s₁.db.select t fun run =>
      run.meetingKey = meetingKey && Db.active run.status).head? with
  | some x =>
    obtain ⟨hsee, hactive⟩ := select_some hhead
    rw [Row.visible_of_not_holder (hlook.2 x.1)] at hsee
    simp only [Bool.and_eq_true, decide_eq_true_eq] at hactive
    exact absurd (hi.active x.1 x.2 hsee hactive.1 hactive.2) (hi.looking t hlook.1 x.1 x.2 hsee)
  | none =>
    have hvain : a = none := by rw [← ha, hhead]
    subst hvain
    exact ⟨hi.same hsame, fun u hu => hsame.rely (hsession u hu), hnone s₂ (hlook.same hsame)⟩

/-- A run with the id would have the key. -/
def Unseen (key : String) (id : ℕ) (s : Scene) : Prop :=
  ∀ r, (s.db.bots id).committed = some r → Keyed key r

/-- The call is looking and has an id for its run. -/
def Named (key : String) (t id : ℕ) (s : Scene) : Prop := Looking t s ∧ Unseen key id s

theorem Named.rely {id : ℕ} (h : Named key t id s) (hr : Rely key t s s') :
    Named key t id s' := by
  refine ⟨h.1.rely hr, fun r hc => ?_⟩
  rcases hr.keyed id r hc with hc | hk
  · exact h.2 r hc
  · exact hk

theorem Named.same {id : ℕ} (h : Named key t id s) (hs : Same s s') : Named key t id s' := by
  refine ⟨h.1.same hs, ?_⟩
  unfold Unseen
  rw [hs.bots]
  exact h.2

theorem stable_named {id : ℕ} : Stable key t (Named key t id) :=
  ⟨fun hr h => h.rely hr, fun hs h => h.same hs⟩

theorem wp_uuid4 {Q : ℕ → Scene → Prop} (hs : Looking t s)
    (hnamed : ∀ id s, Named key t id s → Q id s) :
    (inner key meetingKey).wp t k (Prog.ask .uuid4) Q s := by
  refine wp_stmt fun s₁ c db' a hr hi _ hfresh he s₂ hdb hlooking hreturned => ?_
  subst hdb
  obtain ⟨hsame, hsession⟩ := quiet_same (i := .uuid4) trivial s₁ s₂ he hlooking hreturned
  obtain ⟨-, rfl⟩ := Prod.mk.inj (Option.some.inj he)
  refine ⟨hi.same hsame, fun u hu => hsame.rely (hsession u hu), hnamed c s₂ ?_⟩
  have hnamed : Named key t c s₁ := by
    refine ⟨hs.rely hr, fun r hc => ?_⟩
    have hmem := (hi.rows c r hc).1
    have hnot : c ∉ s₁.db.ids := of_decide_eq_true hfresh
    exact absurd hmem hnot
  exact hnamed.same hsame

theorem inv_inserted {run : BotRun} {s₁ s₂ : Scene} (hi : Inv key meetingKey s₁)
    (hl : t ∈ s₁.looking) (hk : Keyed key run) (hm : run.meetingKey = meetingKey)
    (hnone : (s₁.db.bots run.id).committed = none) (hfree : ∀ b, (s₁.db.bots b).holder = none)
    (hbots : s₂.db.bots = Function.update s₁.db.bots run.id ⟨none, some t, some run⟩)
    (hids : ∀ b, b ∈ s₂.db.ids ↔ b ∈ s₁.db.ids ∨ b = run.id)
    (hlooking : s₂.looking = s₁.looking) (hreturned : s₂.returned = s₁.returned) :
    Inv key meetingKey s₂ ∧ ∀ b, (s₂.db.bots b).committed = (s₁.db.bots b).committed := by
  have hcommitted : ∀ b, (s₂.db.bots b).committed = (s₁.db.bots b).committed := by
    intro b
    rw [hbots]
    by_cases hb : b = run.id
    · rw [hb, Function.update_self, hnone]
    · rw [Function.update_of_ne hb]
  have hheld : ∀ b u, (s₂.db.bots b).holder = some u → b = run.id ∧ u = t := by
    intro b u hb
    rw [hbots] at hb
    by_cases hid : b = run.id
    · rw [hid, Function.update_self] at hb
      exact ⟨hid, (Option.some.inj hb).symm⟩
    · rw [Function.update_of_ne hid, hfree] at hb
      cases hb
  refine ⟨?_, hcommitted⟩
  constructor
  · intro b r hb
    rw [hcommitted] at hb
    exact ⟨(hids b).mpr (Or.inl (hi.rows b r hb).1), (hi.rows b r hb).2⟩
  · intro b r hb
    rw [hcommitted] at hb
    exact hi.meeting b r hb
  · intro b r hb
    rw [hcommitted] at hb
    exact hi.active b r hb
  · intro u hu b r hb
    rw [hlooking] at hu
    rw [hcommitted] at hb
    exact hi.looking u hu b r hb
  · intro b u hb
    obtain ⟨rfl, rfl⟩ := hheld b u hb
    refine ⟨hlooking ▸ hl, (hids run.id).mpr (Or.inr rfl), (hcommitted run.id).trans hnone, run, ?_,
      rfl, hk, hm⟩
    rw [hbots, Function.update_self]
  · intro b b' u u' hb hb'
    rw [(hheld b u hb).1, (hheld b' u' hb').1]
  · constructor
    · intro b b' r r' hb hb'
      rw [hcommitted] at hb hb'
      exact hi.idempotent.unique b b' r r' hb hb'
    · intro r hr
      rw [hreturned] at hr
      obtain ⟨run', created, heq, hrow, hrest⟩ := hi.idempotent.returned r hr
      exact ⟨run', created, heq, (hcommitted _).trans hrow, hrest⟩

theorem wp_insertRun {run : BotRun} {Q : Bool → Scene → Prop} (hs : Named key t run.id s)
    (hk : Keyed key run) (hm : run.meetingKey = meetingKey)
    (hheld : ∀ s, Holding t run s → Q true s) :
    (inner key meetingKey).wp t k (Prog.ask (.insertRun run)) Q s := by
  refine wp_stmt fun s₁ c db' a hr hi _ _ he s₂ hdb hlooking hreturned => ?_
  subst hdb
  have hnamed := hs.rely hr
  obtain ⟨rfl, hfree, hbots, hids, hsession⟩ :=
    insertRun_eq hi hnamed.1.2 hnamed.1.1 hk hm hnamed.2 he
  have hnone : (s₁.db.bots run.id).committed = none := by
    by_contra hne
    obtain ⟨r, hrow⟩ := Option.ne_none_iff_exists'.mp hne
    exact hi.looking t hnamed.1.1 _ r hrow (hnamed.2 r hrow)
  obtain ⟨hinv, hcommitted⟩ :=
    inv_inserted hi hnamed.1.1 hk hm hnone hfree hbots hids hlooking hreturned
  refine ⟨hinv, fun u hu => ?_, hheld s₂ ⟨?_, ?_, ?_⟩⟩
  · refine ⟨⟨hsession u hu, fun b hb => ?_, fun b hb => ?_⟩, fun b r hb => ?_, fun b r hb => ?_, ?_⟩
    · rw [hfree] at hb
      cases hb
    · rw [hbots] at hb
      by_cases hid : b = run.id
      · rw [hid, Function.update_self] at hb
        exact absurd (Option.some.inj hb).symm hu
      · rwa [Function.update_of_ne hid] at hb
    · rw [hcommitted]
      exact hb
    · rw [hcommitted] at hb
      exact Or.inl hb
    · rw [hlooking]
      rfl
  · rw [hlooking]
    exact hnamed.1.1
  · rw [hbots, Function.update_self]
  · rw [hbots, Function.update_self]

/-- What a call answers: a run that was there, or the one it has inserted. -/
def Answered (key meetingKey : String) (t : ℕ) (r : Except TwinError (BotRun × Bool))
    (s : Scene) : Prop :=
  ∃ run created, r = .ok (run, created) ∧ Keyed key run ∧ run.meetingKey = meetingKey ∧
    (Outside t s ∧ (s.db.bots run.id).committed = some run ∨ Holding t run s)

/-- The events of a new run raise nothing. -/
theorem wp_storeEach {A : Scene → Prop} (hA : Stable key t A) (payload : Payload) (now : ℕ)
    (ws : List WebhookSubscription) (hs : A s) :
    (inner key meetingKey).wp t k (storeEach payload now ws).run
      (fun r s => r = .ok () ∧ A s) s := by
  induction ws generalizing s with
  | nil => exact ⟨rfl, hs⟩
  | cons w ws ih =>
    refine wp_step hA trivial hs fun previous s₁ h₁ => ?_
    refine wp_step hA trivial h₁ fun id s₂ h₂ => ?_
    exact wp_step hA trivial h₂ fun _ s₃ h₃ => ih h₃

theorem wp_statusChanged {A : Scene → Prop} (hA : Stable key t A) (b : ℕ) (status : BotStatus)
    (hs : A s) : (inner key meetingKey).wp t k (statusChanged b status).run
      (fun r s => r = .ok () ∧ A s) s := by
  refine wp_step hA trivial hs fun eventId s₁ h₁ => ?_
  refine wp_step hA trivial h₁ fun subscriptions s₂ h₂ => ?_
  refine wp_step hA trivial h₂ fun now s₃ h₃ => ?_
  exact wp_storeEach hA _ now subscriptions h₃

theorem wp_createOrGet (hkey : key ≠ "") (hs : Outside t s)
    (hobjs : ∀ b, (s.db.session t).objs b = none) (q : Request) :
    (inner key meetingKey).wp t k
      (createOrGet q.meetingUrl meetingKey q.displayName (some key)).run
      (Answered key meetingKey t) s := by
  unfold createOrGet
  rw [if_pos (by simpa using hkey)]
  refine (Protocol.wp_perform_bind _).mpr (wp_lookUp hs hobjs ?_ ?_)
  · intro run s₁ hout hrow hkeyed hmeeting
    dsimp only
    rw [if_pos hmeeting]
    exact ⟨run, false, rfl, hkeyed, hmeeting, Or.inl ⟨hout, hrow⟩⟩
  · intro s₁ hlook
    refine (Protocol.wp_perform_bind _).mpr (wp_findActive hlook fun s₂ hlook => ?_)
    refine (Protocol.wp_perform_bind _).mpr (wp_uuid4 hlook fun id s₃ hnamed => ?_)
    refine wp_step stable_named trivial hnamed fun createdAt s₄ hnamed => ?_
    refine wp_step stable_named trivial hnamed fun updatedAt s₅ hnamed => ?_
    refine (Protocol.wp_perform_bind _).mpr (wp_insertRun hnamed rfl rfl fun s₆ hheld => ?_)
    rw [if_pos rfl]
    refine Protocol.wp_task_bind.mpr ?_
    refine Protocol.wp_mono (wp_statusChanged stable_holding id .queued hheld) fun r s₇ h => ?_
    obtain ⟨rfl, hheld⟩ := h
    exact ⟨_, true, rfl, rfl, rfl, Or.inr hheld⟩

/-- The commit of an inserted run, when no other call is looking. -/
theorem inv_committed {run : BotRun} {s₁ s₂ : Scene} (hi : Inv key meetingKey s₁)
    (hheld : Holding t run s₁) (halone : ∀ u ∈ s₁.looking, u = t)
    (hdb : s₂.db = s₁.db.commit t) (hlooking : s₂.looking = s₁.looking.filter (· ≠ t))
    (hreturned : s₂.returned = s₁.returned) :
    Inv key meetingKey s₂ ∧ (s₂.db.bots run.id).committed = some run ∧
      (∀ b, b ≠ run.id → s₂.db.bots b = s₁.db.bots b) ∧ (s₁.db.bots run.id).committed = none := by
  obtain ⟨-, hmem, hnone, run', hwritten, -, hkeyed, hmeeting⟩ := hi.held _ t hheld.holder
  cases hheld.written.symm.trans hwritten
  have hrow : s₂.db.bots run.id = Row.new (some run) := by
    rw [hdb]
    show (s₁.db.bots run.id).commit t = _
    rw [Row.commit_of_holder hheld.holder, hheld.written]
  have hother : ∀ b, b ≠ run.id → s₂.db.bots b = s₁.db.bots b := by
    intro b hb
    rw [hdb]
    exact Row.commit_of_not_holder fun hholder => hb (hi.single b run.id t t hholder hheld.holder)
  have hfree : ∀ b u, (s₂.db.bots b).holder ≠ some u := by
    intro b u hb
    by_cases hid : b = run.id
    · rw [hid, hrow] at hb
      cases hb
    · rw [hother b hid] at hb
      exact hid (hi.single b run.id u t hb hheld.holder)
  have hempty : s₂.looking = [] := by
    rw [hlooking, List.filter_eq_nil_iff]
    intro u hu
    simp [halone u hu]
  have hcommitted : ∀ {b r}, (s₂.db.bots b).committed = some r →
      b = run.id ∧ r = run ∨ (s₁.db.bots b).committed = some r := by
    intro b r hb
    by_cases hid : b = run.id
    · rw [hid, hrow] at hb
      exact Or.inl ⟨hid, (Option.some.inj hb).symm⟩
    · rw [hother b hid] at hb
      exact Or.inr hb
  have hunused : ∀ b r, (s₁.db.bots b).committed = some r → ¬Keyed key r :=
    hi.looking t hheld.looking
  have hids : s₂.db.ids = s₁.db.ids := by rw [hdb]; rfl
  refine ⟨?_, by rw [hrow]; rfl, hother, hnone⟩
  constructor
  · intro b r hb
    rw [hids]
    rcases hcommitted hb with ⟨rfl, rfl⟩ | hb
    · exact ⟨hmem, rfl⟩
    · exact hi.rows b r hb
  · intro b r hb hk
    rcases hcommitted hb with ⟨rfl, rfl⟩ | hb
    · exact hmeeting
    · exact absurd hk (hunused b r hb)
  · intro b r hb hm ha
    rcases hcommitted hb with ⟨rfl, rfl⟩ | hb
    · exact hkeyed
    · exact hi.active b r hb hm ha
  · intro u hu
    rw [hempty] at hu
    cases hu
  · intro b u hb
    exact absurd hb (hfree b u)
  · intro b b' u u' hb
    exact absurd hb (hfree b u)
  · constructor
    · intro b b' r r' hb hb' hk hk'
      rcases hcommitted hb with ⟨rfl, rfl⟩ | hb
      · rcases hcommitted hb' with ⟨rfl, rfl⟩ | hb'
        · rfl
        · exact absurd hk' (hunused b' r' hb')
      · exact absurd hk (hunused b r hb)
    · intro r hr
      rw [hreturned] at hr
      obtain ⟨r', created, -, hrow', hk, -⟩ := hi.idempotent.returned r hr
      exact absurd hk (hunused _ r' hrow')

/-- What a call returns is there when it is returned. -/
def Settled (key meetingKey : String) (r : Except TwinError (BotRun × Bool)) (s : Scene) : Prop :=
  ∃ run created, r = .ok (run, created) ∧ (s.db.bots run.id).committed = some run ∧
    Keyed key run ∧ run.meetingKey = meetingKey

theorem wp_create (hkey : key ≠ "") (hs : Outside t s)
    (hobjs : ∀ b, (s.db.session t).objs b = none) (q : Request) :
    (inner key meetingKey).wp t k (create key meetingKey q) (Settled key meetingKey) s := by
  refine Protocol.wp_bind.mpr (Protocol.wp_mono (wp_createOrGet hkey hs hobjs q) fun r s₁ h₁ => ?_)
  obtain ⟨run, created, rfl, hkeyed, hmeeting, hcase⟩ := h₁
  refine Protocol.wp_bind.mpr (wp_stmt fun s₂ c db' a hr hi hc _ he s₃ hdb hlooking hreturned => ?_)
  obtain ⟨rfl, -⟩ := Prod.mk.inj (Option.some.inj he)
  have hlooking : s₃.looking = s₂.looking.filter (· ≠ t) := hlooking
  rcases hcase with ⟨hout, hrow⟩ | hheld
  · have hout := hout.rely hr
    have hbots : s₃.db.bots = s₂.db.bots := by
      rw [hdb]
      funext b
      exact Row.commit_of_not_holder (hout.2 b)
    have hsame : Same s₂ s₃ := by
      refine ⟨hbots, by rw [hdb]; rfl, hlooking.trans ?_, hreturned⟩
      rw [List.filter_eq_self]
      intro u hu
      have hne : u ≠ t := fun heq => hout.1 (heq ▸ hu)
      simpa using hne
    refine ⟨hi.same hsame, fun u hu => hsame.rely ?_, run, created, rfl, ?_, hkeyed, hmeeting⟩
    · rw [hdb]
      exact Function.update_of_ne hu _ _
    · rw [hbots]
      exact hr.committed _ _ hrow
  · have hheld := hheld.rely hr
    obtain ⟨hinv, hrow, hother, hnone⟩ :=
      inv_committed hi hheld (hc rfl hheld.looking) hdb hlooking hreturned
    refine ⟨hinv, fun u hu => ?_, run, created, rfl, hrow, hkeyed, hmeeting⟩
    refine ⟨?_, fun b r hb => ?_, fun b r hb => ?_, ?_⟩
    · rw [hdb]
      exact apart_commit hu
    · have hid : b ≠ run.id := by
        rintro rfl
        cases hnone.symm.trans hb
      rw [hother b hid]
      exact hb
    · by_cases hid : b = run.id
      · rw [hid, hrow] at hb
        cases hb
        exact Or.inr hkeyed
      · rw [hother b hid] at hb
        exact Or.inl hb
    · rw [hlooking, List.mem_filter]
      simp [hu]

end programs

section runs

theorem Settled.rely {r : Except TwinError (BotRun × Bool)} (h : Settled key meetingKey r s)
    (hr : Rely key t s s') : Settled key meetingKey r s' := by
  obtain ⟨run, created, heq, hrow, hrest⟩ := h
  exact ⟨run, created, heq, hr.committed _ _ hrow, hrest⟩

theorem inv_killed (hi : Inv key meetingKey s) (t : ℕ) :
    Inv key meetingKey { s with db := s.db.rollback t, looking := s.looking.filter (· ≠ t) } := by
  have hcommitted : ∀ b, ((s.db.rollback t).bots b).committed = (s.db.bots b).committed :=
    fun b => Row.rollback_committed _ t
  have hheld : ∀ b u, ((s.db.rollback t).bots b).holder = some u →
      u ≠ t ∧ (s.db.rollback t).bots b = s.db.bots b := by
    intro b u hb
    have hb : ((s.db.bots b).rollback t).holder = some u := hb
    by_cases ht : (s.db.bots b).holder = some t
    · rw [Row.rollback_of_holder ht] at hb
      cases hb
    · rw [Row.rollback_of_not_holder ht] at hb
      exact ⟨fun heq => ht (heq ▸ hb), Row.rollback_of_not_holder ht⟩
  constructor
  · intro b r hb
    exact hi.rows b r ((hcommitted b).symm.trans hb)
  · intro b r hb
    exact hi.meeting b r ((hcommitted b).symm.trans hb)
  · intro b r hb
    exact hi.active b r ((hcommitted b).symm.trans hb)
  · intro u hu b r hb
    exact hi.looking u (List.mem_filter.mp hu).1 b r ((hcommitted b).symm.trans hb)
  · intro b u hb
    obtain ⟨hut, hsame⟩ := hheld b u hb
    dsimp only at hb ⊢
    rw [hsame] at hb ⊢
    obtain ⟨hmem, hrest⟩ := hi.held b u hb
    exact ⟨List.mem_filter.mpr ⟨hmem, by simpa using hut⟩, hrest⟩
  · intro b b' u u' hb hb'
    have hsame := (hheld b u hb).2
    have hsame' := (hheld b' u' hb').2
    dsimp only at hb hb'
    rw [hsame] at hb
    rw [hsame'] at hb'
    exact hi.single b b' u u' hb hb'
  · constructor
    · intro b b' r r' hb hb'
      exact hi.idempotent.unique b b' r r' ((hcommitted b).symm.trans hb)
        ((hcommitted b').symm.trans hb')
    · intro r hr
      obtain ⟨run, created, heq, hrow, hrest⟩ := hi.idempotent.returned r hr
      exact ⟨run, created, heq, (hcommitted _).trans hrow, hrest⟩

theorem world_ids {w : World} {db db' : Db} (h : w.step db = some db') : db'.ids = db.ids := by
  cases w with
  | subscribe | unsubscribe =>
    simp only [World.step] at h
    split at h <;> cases h
    rfl
  | beat | beatLost =>
    cases h
    rfl

/-- Each call keeps to the protocol. -/
theorem sound (hkey : key ≠ "") : (protocol key meetingKey).Sound where
  idle hr h := h.rely hr
  final _ h := h
  start {t q s s'} hi hout _ hb := by
    cases Option.some.inj hb
    have hsame : Same s { s with db := s.db.setSession t {} } := ⟨rfl, rfl, rfl, rfl⟩
    have hothers : ∀ u, u ≠ t → (s.db.setSession t {}).session u = s.db.session u :=
      fun u hu => Function.update_of_ne hu _ _
    refine ⟨⟨hi.same hsame, fun u hu => hsame.rely (hothers u hu), trivial⟩, ?_⟩
    have hbegun : Outside t { s with db := s.db.setSession t {} } := hout
    have hempty : ∀ b, ((s.db.setSession t {}).session t).objs b = none := by
      intro b
      simp [Db.setSession]
    have hcreate : (inner key meetingKey).wp t q (create key meetingKey q) (Settled key meetingKey)
        { s with db := s.db.setSession t {} } :=
      wp_create hkey hbegun hempty q
    refine Protocol.wp_bind.mpr (Protocol.wp_mono (Protocol.wp_embed hcreate) fun r s₁ h₁ => ?_)
    refine fun s₂ hr hi₂ _ c s₃ _ he => ?_
    obtain ⟨rfl, -⟩ := Prod.mk.inj (Option.some.inj he)
    refine ⟨⟨?_, fun u _ => ⟨Apart.refl u _, fun _ _ => id, fun _ _ => Or.inl, Iff.rfl⟩, trivial⟩,
      trivial⟩
    refine ⟨hi₂.rows, hi₂.meeting, hi₂.active, hi₂.looking, hi₂.held, hi₂.single, ?_⟩
    refine ⟨hi₂.idempotent.unique, fun r' hr' => ?_⟩
    rcases List.mem_cons.mp hr' with rfl | hr'
    · have hsettled : Settled key meetingKey r' s₂ := h₁.rely hr
      exact hsettled
    · exact hi₂.idempotent.returned r' hr'
  kill {t s} hi _ := by
    refine ⟨⟨inv_killed hi t, fun u hu => ?_, trivial⟩, trivial⟩
    refine ⟨apart_rollback hu, fun b r hb => ?_, fun b r hb => ?_, ?_⟩
    · exact (Row.rollback_committed _ t).trans hb
    · exact Or.inl ((Row.rollback_committed _ t).symm.trans hb)
    · show u ∈ s.looking.filter (· ≠ t) ↔ u ∈ s.looking
      rw [List.mem_filter]
      simp [hu]
  env {w s s'} hi _ he := by
    obtain ⟨db, hdb, rfl⟩ := Option.map_eq_some_iff.mp he
    obtain ⟨hbots, hsession, -⟩ := world_step hdb
    have hsame : Same s { s with db := db } := ⟨hbots, world_ids hdb, rfl, rfl⟩
    exact ⟨hi.same hsame, fun u => hsame.rely (congrFun hsession u)⟩

theorem holds_init {db : Db} (h : Ready key meetingKey db) :
    (protocol key meetingKey).Holds ((creates key meetingKey).init { db := db }) := by
  refine Protocol.holds_init ?_ fun t => ⟨List.not_mem_nil, fun b hb => ?_⟩
  · constructor
    · exact h.rows
    · exact fun b run hb hk => absurd hk (h.unused b run hb)
    · intro b run hb hm ha
      rw [h.idle b run hb hm] at ha
      cases ha
    · exact fun t ht => absurd ht List.not_mem_nil
    · intro b t hb
      rw [h.free] at hb
      cases hb
    · intro b b' t t' hb
      rw [h.free] at hb
      cases hb
    · exact ⟨fun b _ run _ hb _ hk => absurd hk (h.unused b run hb), fun r hr =>
        absurd hr List.not_mem_nil⟩
  · rw [h.free] at hb
    cases hb

end runs

/-- Retries are idempotent in every run in which a call that has not found the key commits its run
when no other such call is left. -/
theorem retries_idempotent (key meetingKey : String) (hkey : key ≠ "") (db : Db)
    (hdb : Ready key meetingKey db) (es : List (Event Request ℕ World))
    (s : (creates key meetingKey).State)
    (hmeets : (unrivalled key meetingKey).Meets ((creates key meetingKey).init { db := db }) es)
    (hrun : (creates key meetingKey).run ((creates key meetingKey).init { db := db }) es = some s) :
    Idempotent key meetingKey s.shared :=
  ((sound hkey).run (holds_init hdb) hmeets hrun).inv.idempotent

section races

abbrev Events := List (Event Request ℕ World)

def retry : Request := { meetingUrl := "https://meet.google.com/abc-defg-hij", displayName := none }

/-- `n` statements of a call; `c` is the id that they draw. -/
def statements (t c n : ℕ) : Events := List.replicate n (.step t c)

theorem ready_empty (key meetingKey : String) : Ready key meetingKey {} :=
  ⟨fun _ => rfl, fun _ _ => nofun, fun _ _ => nofun, fun _ _ => nofun⟩

def initial : (creates "req-1" "abc-defg-hij").State :=
  (creates "req-1" "abc-defg-hij").init { db := {} }

/-- Three calls at once: the last one is cut off after it has looked for the key in vain, and the
second one looks for it when the first one has committed and not yet returned. -/
def overlapped : Events := .start 0 retry :: .start 1 retry :: .start 2 retry ::
  statements 0 7 2 ++ statements 2 6 2 ++ statements 0 7 4 ++ .kill 2 :: statements 0 9 4 ++
  statements 1 8 1 ++ statements 0 9 1 ++ statements 1 8 2

theorem retries_idempotent_overlapped : ∃ s,
    (creates "req-1" "abc-defg-hij").run initial overlapped = some s ∧
      s.shared.returned.length = 2 ∧ Idempotent "req-1" "abc-defg-hij" s.shared := by
  have hsome : ((creates "req-1" "abc-defg-hij").run initial overlapped).any
      (fun s => s.shared.returned.length = 2) = true := by decide +kernel
  obtain ⟨s, hs, hlength⟩ := (Option.any_eq_true _ _).mp hsome
  exact ⟨s, hs, of_decide_eq_true hlength, retries_idempotent "req-1" "abc-defg-hij" (by decide) {}
    (ready_empty _ _) overlapped s (by decide +kernel) hs⟩

/-- The run of one call is committed after the other one has looked for the key in vain. -/
def raced : Events := .start 0 retry :: .start 1 retry :: statements 0 7 2 ++ statements 1 8 2 ++
  statements 0 7 4 ++ statements 0 9 5 ++ statements 1 8 6

theorem not_retries_idempotent : ¬∀ (key meetingKey : String) (db : Db) (es : Events)
    (s : (creates key meetingKey).State), key ≠ "" → Ready key meetingKey db →
      (creates key meetingKey).run ((creates key meetingKey).init { db := db }) es = some s →
        Idempotent key meetingKey s.shared := by
  intro h
  have hsome : ((creates "req-1" "abc-defg-hij").run initial raced).any (fun s =>
      s.shared.returned.any fun r => match r with
        | .ok _ => false
        | .error _ => true) = true := by decide +kernel
  obtain ⟨s, hs, hany⟩ := (Option.any_eq_true _ _).mp hsome
  obtain ⟨r, hr, hraised⟩ := List.any_eq_true.mp hany
  have hidempotent := h "req-1" "abc-defg-hij" {} raced s (by decide) (ready_empty _ _) hs
  obtain ⟨run, created, rfl, -⟩ := hidempotent.returned r hr
  cases hraised

end races

end Fakery.Creates
