import Fakery.Worker.Admission
import Fakery.Worker.Onward

/-! Several executions of one run: what one of them leaves to another that has made the run joining, and
which steps keep it so. -/
namespace Fakery.Worker
open Fakery.Bots Fakery.Capacity Fakery.Concurrent Fakery.Runtime

/-- An execution other than `t` has made the run joining, and the run is not over. -/
def Cluster.taken (s : Cluster) (b t : ℕ) : Bool := (s.joinedBy b).any (· ≠ t) && !s.terminal b

/-- An execution of a run that another one has taken does not come to the `except` clause of
`run_claim`, finds no cancellation where it decides about `fail_run` and finds the bot reserved. No
execution makes a run joining while another one of the bot is to call `fail_run`. What
`sweep_capacity` releases belongs to a bot without an execution between its reservation and its
release. -/
def undisturbed (S : Settings) : (cluster S).Condition where
  call t _ i s := match i with
    | .handling => ∀ c ∈ s.claims, c.thread = t → s.taken c.bot t = false
    | .isCancelled b true => s.taken b t = true → s.cancelKey b = false
    | .tryReserve b _ | .hasOtherReservation b _ => s.taken b t = true → s.reserved b = true
    | .attend b (.transaction tx) => tx.joins = true → s.queued b = true →
        ∀ c ∈ s.claims, c.bot = b → c.thread ≠ t → ∀ u ∈ s.failing, u ≠ c.thread
    | .sweepCapacity moment => ∀ r ∈ s.ledger.opened, isSwept r moment (s.status r.botId) = true →
        ∀ x ∈ s.inside, x.2 ≠ r.botId
    | _ => True

instance (S : Settings) (t : ℕ) (k : Role) (s : Cluster) :
    Decidable ((undisturbed S).start t k s) := isTrue trivial

instance (S : Settings) (t : ℕ) (k : Role) (s : Cluster) :
    (i : Call) → Decidable ((undisturbed S).call t k i s)
  | .handling =>
    inferInstanceAs (Decidable (∀ c ∈ s.claims, c.thread = t → s.taken c.bot t = false))
  | .isCancelled b true => inferInstanceAs (Decidable (s.taken b t = true → s.cancelKey b = false))
  | .tryReserve b _ => inferInstanceAs (Decidable (s.taken b t = true → s.reserved b = true))
  | .hasOtherReservation b _ =>
    inferInstanceAs (Decidable (s.taken b t = true → s.reserved b = true))
  | .attend b (.transaction tx) =>
    inferInstanceAs (Decidable (tx.joins = true → s.queued b = true →
      ∀ c ∈ s.claims, c.bot = b → c.thread ≠ t → ∀ u ∈ s.failing, u ≠ c.thread))
  | .sweepCapacity moment =>
    inferInstanceAs (Decidable (∀ r ∈ s.ledger.opened,
      isSwept r moment (s.status r.botId) = true → ∀ x ∈ s.inside, x.2 ≠ r.botId))
  | .attend _ .restoreProfile | .attend _ .persistProfile | .attend _ .getRun
  | .attend _ .createHeartbeat | .attend _ .cancelHeartbeat | .attend _ .clearBeat
  | .attend _ .openBrowser | .attend _ .closeBrowser | .attend _ .joinMeeting
  | .attend _ .waitAdmitted | .attend _ .pause | .attend _ .waitMeetingEnded
  | .attend _ .leaveMeeting | .attend _ .requestedStopReason | .attend _ .restorePrefix
  | .attended _ | .podEnded _ | .uuid4 | .utcnow | .shutdown _ | .sleep | .isCancelled _ false
  | .ack _ | .releaseCapacity _ | .acquireLease | .releaseLease | .launchRuntime | .prepareLaunch _
  | .getJob _ | .createJob _ | .waitTerminal _ | .deleteJob _ | .closeJobs | .selectStale _
  | .getBeat _ | .reap _ | .selectPending | .xadd _ | .storeDispatch _ | .cancel _
  | .requestCancel _ => isTrue trivial

instance (S : Settings) (t : ℕ) (s : Cluster) : Decidable ((undisturbed S).kill t s) := isTrue trivial

instance (S : Settings) (e : World) (s : Cluster) : Decidable ((undisturbed S).env e s) :=
  isTrue trivial

/-- What the execution `w` of `b` keeps: the status, the error code and the stop reason of the run, its
reservation, and, as long as the run is not over or `w` attends, the heartbeat and the directory. -/
structure Spared (w b : ℕ) (s s' : Cluster) : Prop where
  run : ∀ run, s.runs b = some run → ∃ run', s'.runs b = some run' ∧ SameOutcome run run'
  reservation : ∀ r ∈ s.ledger.opened, r.botId = b → r.owner = w → r ∈ s'.ledger.opened
  keys : s.terminal b = false ∨ (w, b) ∈ s.attends →
    s'.beatKey b = s.beatKey b ∧ s'.directory b = s.directory b

/-- The step of `t` does nothing to another execution of its bot that has made the run joining. -/
def Harmless (t : ℕ) (s s' : Cluster) : Prop := ∀ c ∈ s.claims, c.thread = t →
  ∀ w, s.joinedBy c.bot = some w → w ≠ t → Spared w c.bot s s'

variable {S : Settings} {t u w b : ℕ} {k : Role} {i : Call} {c : Outcome} {s s' v : Cluster}
  {E : ℕ → Prop}

theorem taken_iff :
    s.taken b t = true ↔ ∃ w, s.joinedBy b = some w ∧ w ≠ t ∧ s.terminal b = false := by
  simp only [Cluster.taken, Bool.and_eq_true, Option.any_eq_true, decide_eq_true_eq,
    Bool.not_eq_true']
  constructor
  · rintro ⟨⟨w, hw, hne⟩, hterminal⟩
    exact ⟨w, hw, hne, hterminal⟩
  · rintro ⟨w, hw, hne, hterminal⟩
    exact ⟨⟨w, hw, hne⟩, hterminal⟩

structure Undivided (S : Settings) (s : Cluster) : Prop where
  balanced : s.ledger.Balanced S.maxConcurrentRuns
  inside : ∀ x ∈ s.inside, s.ledger.Holds x.2 x.1
  attends : ∀ x ∈ s.attends, x ∈ s.inside
  joined : ∀ b w, s.joinedBy b = some w → (s.runs b).isSome ∧ s.queued b = false
  calm : ∀ c ∈ s.claims, s.taken c.bot c.thread = true →
    c.thread ∉ s.failing ∧ (c.thread, c.bot) ∉ s.inside
  jobs : ∀ b, s.job b ≠ some .waiting

structure Steady (t : ℕ) (s s' : Cluster) : Prop where
  claims : ∀ c : Claim, c.thread = t → (c ∈ s'.claims ↔ c ∈ s.claims)
  inside : Mine t s.inside s'.inside
  attends : Mine t s.attends s'.attends
  failing : t ∈ s'.failing ↔ t ∈ s.failing
  joined : ∀ b, s.joinedBy b = some t → s'.joinedBy b = some t
  holds : ∀ b, s'.ledger.Holds b t → s.ledger.Holds b t

/-- A thread that has not begun. -/
structure Fresh (t : ℕ) (s : Cluster) : Prop where
  claims : ∀ c ∈ s.claims, c.thread ≠ t
  inside : ∀ b, (t, b) ∉ s.inside
  failing : t ∉ s.failing
  holds : ∀ b, ¬s.ledger.Holds b t

def rivalry (S : Settings) : Protocol (cluster S) where
  cond := undisturbed S
  inv := Undivided S
  rely := Steady
  idle := Fresh
  effect := Harmless
  rely_refl _ _ :=
    ⟨fun _ _ => Iff.rfl, fun _ => Iff.rfl, fun _ => Iff.rfl, Iff.rfl, fun _ => id, fun _ => id⟩
  rely_trans _ _ _ _ h k := ⟨fun c hc => (k.claims c hc).trans (h.claims c hc),
    fun b => (k.inside b).trans (h.inside b), fun b => (k.attends b).trans (h.attends b),
    k.failing.trans h.failing, fun b hb => k.joined b (h.joined b hb),
    fun b hb => h.holds b (k.holds b hb)⟩

theorem Still.steady (h : Still s s') : Steady t s s' :=
  ⟨fun _ _ => h.claims ▸ Iff.rfl, fun _ => h.inside ▸ Iff.rfl, fun _ => h.attends ▸ Iff.rfl,
    h.failing ▸ Iff.rfl, fun _ hb => h.joinedBy ▸ hb, fun _ hb => h.ledger ▸ hb⟩

/-- A run that is taken has been so. -/
theorem taken_of_onward (ho : Onward E s s') (hj : s'.joinedBy = s.joinedBy)
    (ht : s'.taken b t = true) : s.taken b t = true := by
  obtain ⟨w, hw, hne, hterminal⟩ := taken_iff.mp ht
  refine taken_iff.mpr ⟨w, hj ▸ hw, hne, (Bool.not_eq_true _).mp fun hs => ?_⟩
  rw [ho.terminal hs] at hterminal
  cases hterminal

theorem Undivided.of_still (hi : Undivided S s) (h : Still s s') (ho : Onward E s s') :
    Undivided S s' where
  balanced := h.ledger ▸ hi.balanced
  inside := by rw [h.ledger, h.inside]; exact hi.inside
  attends := by rw [h.attends, h.inside]; exact hi.attends
  joined b w hw := ho.dequeued (hi.joined b w (h.joinedBy ▸ hw))
  calm := by
    rw [h.claims, h.failing, h.inside]
    exact fun c hc ht => hi.calm c hc (taken_of_onward ho h.joinedBy ht)
  jobs := h.job ▸ hi.jobs

theorem allowed_still (hi : Undivided S s) (h : Still s s') (ho : Onward E s s')
    (he : Harmless t s s') : (rivalry S).Allowed t s s' :=
  ⟨hi.of_still h ho, fun _ _ => h.steady, he⟩

section harmless

/-- All claims of `t` are of `b`. -/
def Owns (t b : ℕ) (s : Cluster) : Prop := ∀ c ∈ s.claims, c.thread = t → c.bot = b

/-- How the runs that are over have ended stays. -/
def Settled (s s' : Cluster) : Prop := ∀ b run, s.runs b = some run →
  run.status.terminal = true → ∃ run', s'.runs b = some run' ∧ SameOutcome run run'

theorem harmless_of_eq (hr : s'.runs = s.runs) (hl : ∀ r ∈ s.ledger.opened, r ∈ s'.ledger.opened)
    (hb : s'.beatKey = s.beatKey) (hd : s'.directory = s.directory) : Harmless t s s' := by
  intro c _ _ w _ _
  refine ⟨fun run hrun => ⟨run, hr ▸ hrun, rfl, rfl, rfl⟩, fun r hm _ _ => hl r hm, fun _ => ?_⟩
  exact ⟨congrFun hb _, congrFun hd _⟩

theorem harmless_joined (ho : Owns t b s) (hj : s.joinedBy b = some t) : Harmless t s s' := by
  intro c hc hct w hw hne
  rw [ho c hc hct, hj] at hw
  exact (hne (Option.some.inj hw).symm).elim

/-- An execution that holds the reservation of the bot meets no other one that attends. -/
theorem harmless_in (hi : Undivided S s) (ho : Owns t b s) (hin : (t, b) ∈ s.inside)
    (hs : Settled s s') : Harmless t s s' := by
  intro c hc hct w hw hne
  have hb : c.bot = b := ho c hc hct
  have hfree : s.taken c.bot t = false := by
    refine (Bool.not_eq_true _).mp fun ht => ?_
    have hin' : (c.thread, c.bot) ∈ s.inside := by rwa [hct, hb]
    exact (hi.calm c hc (hct ▸ ht)).2 hin'
  have hover : s.terminal c.bot = true := by
    by_contra hover
    have ht : s.taken c.bot t = true := taken_iff.mpr ⟨w, hw, hne, (Bool.not_eq_true _).mp hover⟩
    rw [ht] at hfree
    cases hfree
  have hholds : ∀ w, s.ledger.Holds c.bot w → w = t := fun w hh =>
    hi.balanced.eq_of_holds hh (hb ▸ hi.inside (t, b) hin)
  refine ⟨fun run hrun => hs c.bot run hrun ?_, fun r hr hrb hrw => ?_, fun hk => ?_⟩
  · unfold Cluster.terminal Cluster.status at hover
    rw [hrun] at hover
    exact hover
  · exact (hne (hholds w ⟨r, hr, hrb, hrw⟩)).elim
  · rcases hk with hk | hk
    · rw [hover] at hk
      cases hk
    · exact (hne (hholds w (hi.inside _ (hi.attends _ hk)))).elim

theorem harmless_failing (hi : Undivided S s) (hf : t ∈ s.failing) (hs : Settled s s')
    (hl : s'.ledger = s.ledger) (hb : s'.beatKey = s.beatKey) (hd : s'.directory = s.directory) :
    Harmless t s s' := by
  intro c hc hct w hw hne
  have hover : s.terminal c.bot = true := by
    by_contra hover
    have ht : s.taken c.bot c.thread = true :=
      taken_iff.mpr ⟨w, hw, hct ▸ hne, (Bool.not_eq_true _).mp hover⟩
    exact (hi.calm c hc ht).1 (hct ▸ hf)
  refine ⟨fun run hrun => hs c.bot run hrun ?_, fun r hr _ _ => hl ▸ hr, fun _ => ?_⟩
  · unfold Cluster.terminal Cluster.status at hover
    rw [hrun] at hover
    exact hover
  · exact ⟨congrFun hb _, congrFun hd _⟩

end harmless

section steps

variable (hi : Undivided S s)
include hi

/-- `t` is to call `fail_run`. -/
theorem allowed_failing (hn : ∀ c ∈ s.claims, c.thread = t → s.taken c.bot t = false) :
    (rivalry S).Allowed t s { s with failing := t :: s.failing } := by
  refine ⟨⟨hi.balanced, hi.inside, hi.attends, hi.joined, fun c hc ht => ?_, hi.jobs⟩,
    fun u hu => ?_, harmless_of_eq rfl (fun _ => id) rfl rfl⟩
  · obtain ⟨hf, hin⟩ := hi.calm c hc ht
    refine ⟨fun hm => ?_, hin⟩
    rcases List.mem_cons.mp hm with he | hm
    · have htaken : s.taken c.bot c.thread = true := ht
      rw [he, hn c hc he] at htaken
      cases htaken
    · exact hf hm
  · refine ⟨fun _ _ => Iff.rfl, fun _ => Iff.rfl, fun _ => Iff.rfl, ?_, fun _ => id, fun _ => id⟩
    simp [hu]

/-- More reservations of `t` do no harm. -/
theorem allowed_reserving {l : Ledger} (hb : l.Balanced S.maxConcurrentRuns)
    (hmem : ∀ r ∈ s.ledger.opened, r ∈ l.opened)
    (hnew : ∀ r ∈ l.opened, r ∈ s.ledger.opened ∨ r.owner = t) :
    (rivalry S).Allowed t s { s with ledger := l } := by
  refine ⟨⟨hb, fun x hx => ?_, hi.attends, hi.joined, hi.calm, hi.jobs⟩, fun u hu => ?_,
    harmless_of_eq rfl hmem rfl rfl⟩
  · obtain ⟨r, hr, hbot, hown⟩ := hi.inside x hx
    exact ⟨r, hmem r hr, hbot, hown⟩
  · refine ⟨fun _ _ => Iff.rfl, fun _ => Iff.rfl, fun _ => Iff.rfl, Iff.rfl, fun _ => id,
      fun b hb => ?_⟩
    obtain ⟨r, hr, hbot, hown⟩ := hb
    rcases hnew r hr with hr | hrt
    · exact ⟨r, hr, hbot, hown⟩
    · exact (hu (hown.symm.trans hrt)).elim

theorem allowed_inside (hh : s.ledger.Holds b t)
    (hn : ∀ c ∈ s.claims, c.thread = t → s.taken c.bot t = false) :
    (rivalry S).Allowed t s { s with inside := (t, b) :: s.inside } := by
  refine ⟨⟨hi.balanced, fun x hx => ?_, fun x hx => List.mem_cons_of_mem _ (hi.attends x hx),
    hi.joined, fun c hc ht => ?_, hi.jobs⟩, fun u hu => ?_, harmless_of_eq rfl (fun _ => id) rfl rfl⟩
  · rcases List.mem_cons.mp hx with rfl | hx
    · exact hh
    · exact hi.inside x hx
  · obtain ⟨hf, hin⟩ := hi.calm c hc ht
    refine ⟨hf, fun hm => ?_⟩
    rcases List.mem_cons.mp hm with he | hm
    · have hthread : c.thread = t := congrArg Prod.fst he
      have htaken : s.taken c.bot c.thread = true := ht
      rw [hthread, hn c hc hthread] at htaken
      cases htaken
    · exact hin hm
  · exact ⟨fun _ _ => Iff.rfl, Mine.cons_of_ne hu _ b, fun _ => Iff.rfl, Iff.rfl, fun _ => id,
      fun _ => id⟩

/-- The end of `attend`. -/
theorem allowed_attended :
    (rivalry S).Allowed t s { s with attends := drop t s.attends } := by
  refine ⟨⟨hi.balanced, hi.inside, fun x hx => ?_, hi.joined, hi.calm, hi.jobs⟩, fun u hu => ?_,
    harmless_of_eq rfl (fun _ => id) rfl rfl⟩
  · exact hi.attends x (mem_drop.mp hx).1
  · exact ⟨fun _ _ => Iff.rfl, fun _ => Iff.rfl, Mine.drop_of_ne hu _, Iff.rfl, fun _ => id,
      fun _ => id⟩

/-- `t` releases the reservation of its bot, or fails to. -/
theorem allowed_releasing {l : Ledger} (ho : Owns t b s) (hin : (t, b) ∈ s.inside)
    (hn : ∀ b, (t, b) ∉ s.attends)
    (hl : l = s.ledger ∨ ∃ moment, l = s.ledger.release b moment) :
    (rivalry S).Allowed t s { s with ledger := l, inside := drop t s.inside } := by
  have hb : l.Balanced S.maxConcurrentRuns := by
    rcases hl with rfl | ⟨moment, rfl⟩
    · exact hi.balanced
    · exact hi.balanced.release
  have hmem : ∀ r ∈ l.opened, r ∈ s.ledger.opened := by
    rcases hl with rfl | ⟨moment, rfl⟩
    · exact fun _ => id
    · exact fun r hr => ((Ledger.mem_opened_release hi.balanced).mp hr).1
  have hkept : ∀ r ∈ s.ledger.opened, r.botId ≠ b → r ∈ l.opened := by
    rcases hl with rfl | ⟨moment, rfl⟩
    · exact fun _ hr _ => hr
    · exact fun r hr hne => (Ledger.mem_opened_release hi.balanced).mpr ⟨hr, hne⟩
  have hsettled : Settled s { s with ledger := l, inside := drop t s.inside } :=
    fun _ run hrun _ => ⟨run, hrun, rfl, rfl, rfl⟩
  refine ⟨⟨hb, fun x hx => ?_, fun x hx => ?_, hi.joined, fun c hc ht => ?_, hi.jobs⟩, fun u hu => ?_,
    harmless_in hi ho hin hsettled⟩
  · obtain ⟨hx, hne⟩ := mem_drop.mp hx
    obtain ⟨r, hr, hbot, hown⟩ := hi.inside x hx
    refine ⟨r, hkept r hr fun hrb => hne ?_, hbot, hown⟩
    exact hi.balanced.eq_of_holds ⟨r, hr, hrb, hown⟩ (hi.inside (t, b) hin)
  · refine mem_drop.mpr ⟨hi.attends x hx, ?_⟩
    rintro rfl
    exact hn x.2 hx
  · obtain ⟨hf, hnot⟩ := hi.calm c hc ht
    exact ⟨hf, fun hm => hnot (mem_drop.mp hm).1⟩
  · refine ⟨fun _ _ => Iff.rfl, Mine.drop_of_ne hu _, fun _ => Iff.rfl, Iff.rfl, fun _ => id,
      fun b hb => ?_⟩
    obtain ⟨r, hr, hbot, hown⟩ := hb
    exact ⟨r, hmem r hr, hbot, hown⟩

theorem allowed_sweeping {moment : ℕ} (hc : (undisturbed S).call t k (.sweepCapacity moment) s)
    (hn : ∀ c ∈ s.claims, c.thread ≠ t) :
    (rivalry S).Allowed t s { s with ledger := s.ledger.sweep s.status moment } := by
  refine ⟨⟨hi.balanced.sweep, fun x hx => ?_, hi.attends, hi.joined, hi.calm, hi.jobs⟩, fun u _ => ?_,
    fun c hm hct => (hn c hm hct).elim⟩
  · obtain ⟨r, hr, hbot, hown⟩ := hi.inside x hx
    refine ⟨r, (Ledger.mem_opened_sweep hi.balanced).mpr ⟨hr, ?_⟩, hbot, hown⟩
    exact (Bool.not_eq_true _).mp fun hs => hc r hr hs x hx hbot.symm
  · refine ⟨fun _ _ => Iff.rfl, fun _ => Iff.rfl, fun _ => Iff.rfl, Iff.rfl, fun _ => id,
      fun b hb => ?_⟩
    obtain ⟨r, hr, hbot, hown⟩ := hb
    exact ⟨r, ((Ledger.mem_opened_sweep hi.balanced).mp hr).1, hbot, hown⟩

/-- A claim ends. -/
theorem allowed_acked : (rivalry S).Allowed t s
    { s with claims := s.claims.filter fun c => c.thread ≠ t } := by
  have hsub : ∀ c ∈ s.claims.filter fun c => c.thread ≠ t, c ∈ s.claims :=
    fun _ hc => List.mem_of_mem_filter hc
  refine ⟨⟨hi.balanced, hi.inside, hi.attends, hi.joined, fun c hc => hi.calm c (hsub c hc), hi.jobs⟩,
    fun u hu => ?_, harmless_of_eq rfl (fun _ => id) rfl rfl⟩
  refine ⟨fun c hc => ?_, fun _ => Iff.rfl, fun _ => Iff.rfl, Iff.rfl, fun _ => id, fun _ => id⟩
  have hne : c.thread ≠ t := fun he => hu (hc.symm.trans he)
  exact ⟨hsub c, fun hm => List.mem_filter.mpr ⟨hm, decide_eq_true hne⟩⟩

/-- The joining transition: no other execution of the bot holds its reservation, and none of them is
to fail the run. -/
theorem allowed_joining {run run' : BotRun} {moment : ℕ} (ho : Owns t b s) (hin : (t, b) ∈ s.inside)
    (hrun : s.runs b = some run) (hm : Moves run run') (hq : run.status = .queued)
    (hj : run'.status = .joining)
    (hn : ∀ c ∈ s.claims, c.bot = b → c.thread ≠ t → c.thread ∉ s.failing) :
    (rivalry S).Allowed t s ((s.setRun b (BotRun.flushed run moment run')).join t b) := by
  have honward : Onward (fun _ => False) s ((s.setRun b (BotRun.flushed run moment run')).join t b) :=
    (onward_moves hrun hm).trans (onward_of_runs rfl)
  have hqueued : s.queued b = true := by
    unfold Cluster.queued Cluster.status
    rw [hrun]
    exact decide_eq_true (congrArg some hq)
  have hnone : s.joinedBy b = none := by
    cases hw : s.joinedBy b with
    | none => rfl
    | some w =>
      have hnot := (hi.joined b w hw).2
      rw [hqueued] at hnot
      cases hnot
  refine ⟨⟨hi.balanced, hi.inside, fun x hx => ?_, fun b' w hw => ?_, fun c hc ht => ?_, hi.jobs⟩,
    fun u hu => ?_, ?_⟩
  · rcases List.mem_cons.mp hx with rfl | hx
    · exact hin
    · exact hi.attends x hx
  · by_cases hb : b' = b
    · subst hb
      have hset : ((s.setRun b' (BotRun.flushed run moment run')).join t b').runs b' =
          some (BotRun.flushed run moment run') := Function.update_self _ _ _
      refine ⟨hset ▸ rfl, ?_⟩
      unfold Cluster.queued Cluster.status
      rw [hset, Option.map_some, flushed_status, hj]
      rfl
    · have hw' : Function.update s.joinedBy b (some t) b' = some w := hw
      rw [Function.update_of_ne hb] at hw'
      exact honward.dequeued (hi.joined b' w hw')
  · by_cases hb : c.bot = b
    · have hne : c.thread ≠ t := by
        intro he
        obtain ⟨w, hw, hwne, -⟩ := taken_iff.mp ht
        have hw' : Function.update s.joinedBy b (some t) c.bot = some w := hw
        rw [hb, Function.update_self] at hw'
        exact hwne ((Option.some.inj hw').symm.trans he.symm)
      refine ⟨hn c hc hb hne, fun hm => hne ?_⟩
      exact hi.balanced.eq_of_holds (hb ▸ hi.inside _ hm) (hi.inside (t, b) hin)
    · refine hi.calm c hc ?_
      obtain ⟨w, hw, hwne, hterminal⟩ := taken_iff.mp ht
      have hw' : Function.update s.joinedBy b (some t) c.bot = some w := hw
      rw [Function.update_of_ne hb] at hw'
      refine taken_iff.mpr ⟨w, hw', hwne, (Bool.not_eq_true _).mp fun hs => ?_⟩
      rw [honward.terminal hs] at hterminal
      cases hterminal
  · refine ⟨fun _ _ => Iff.rfl, fun _ => Iff.rfl, Mine.cons_of_ne hu _ b, Iff.rfl, fun b' hb' => ?_,
      fun _ => id⟩
    by_cases hb : b' = b
    · subst hb
      rw [hnone] at hb'
      cases hb'
    · exact (Function.update_of_ne hb _ _).trans hb'
  · intro c hc hct w hw _
    rw [ho c hc hct, hnone] at hw
    cases hw

end steps

end Fakery.Worker
