import Fakery.Heartbeat.Attendance

/-! The orphan sweep reaps a run that nobody executes, provided that whoever executes it is still
beating when the sweep looks. -/
namespace Fakery.Heartbeat
open Fakery.Bots Fakery.Concurrent Fakery.Redis Fakery.Runtime

/-- A loop of the run is running and has written the key. -/
def Store.Beating (s : Store) : Prop := ∃ l ∈ s.loops, l.last.isSome

instance (s : Store) : Decidable s.Beating :=
  inferInstanceAs (Decidable (∃ l ∈ s.loops, l.last.isSome))

/-- Whenever a sweep looks for the heartbeat of the run that it has selected, either no execution
is unfinished or a loop is beating. The key is cleared only when no loop of the run is running. No
execution starts between a sweep that finds no heartbeat and what it commits. -/
def beating (b : ℕ) : (attendance b).Condition where
  start _ k s := match k with
    | .execution _ _ _ => s.inHand = []
    | .sweepOrphans _ => True
  call _ _ i s := match i with
    | .getBeat => s.unfinished ≠ [] → s.Beating
    | .attend .clearBeat => s.loops = []
    | _ => True

instance (b t : ℕ) (k : Role) (s : Store) : Decidable ((beating b).start t k s) :=
  match k with
  | .execution _ _ _ => inferInstanceAs (Decidable (s.inHand = []))
  | .sweepOrphans _ => isTrue trivial

instance (b t : ℕ) (k : Role) (i : Call) (s : Store) : Decidable ((beating b).call t k i s) := by
  cases i with
  | getBeat => exact inferInstanceAs (Decidable (s.unfinished ≠ [] → s.Beating))
  | attend i =>
    cases i
    case clearBeat => exact inferInstanceAs (Decidable (s.loops = []))
    all_goals exact isTrue trivial
  | _ => exact isTrue trivial

instance (b t : ℕ) (s : Store) : Decidable ((beating b).kill t s) := isTrue trivial

instance (b : ℕ) (e : World) (s : Store) : Decidable ((beating b).env e s) := isTrue trivial

variable {b t u : ℕ} {k : Role} {i : Call} {c : Outcome} {s s' s₁ s₂ : Store} {α : Type}

structure Inv (b : ℕ) (s : Store) : Prop where
  caught : s.caught = []
  free : s.inHand ≠ [] → s.unfinished = []
  beats : ∀ l ∈ s.loops, ∀ last, l.last = some last → last ≤ s.keys.now ∧
    s.keys.now ≤ last + HEARTBEAT_INTERVAL_S ∧
    s.keys.LastsUntil (heartbeatKey b) "1" (last + HEARTBEAT_TTL_S)

def watched (b : ℕ) : Protocol (attendance b) where
  cond := beating b
  inv := Inv b
  rely t s s' := t ∈ s.inHand → t ∈ s'.inHand
  rely_refl _ _ := id
  rely_trans _ _ _ _ h k := k ∘ h

/-- Steps that leave the key and the sweeps alone, and only end things. -/
structure Quiet (s s' : Store) : Prop where
  keys : s'.keys = s.keys
  caught : s'.caught = s.caught
  inHand : s'.inHand = s.inHand
  loops : ∀ l ∈ s'.loops, l ∈ s.loops ∨ l.last = none
  unfinished : ∀ v ∈ s'.unfinished, v ∈ s.unfinished

theorem Quiet.refl (s : Store) : Quiet s s :=
  ⟨rfl, rfl, rfl, fun _ => Or.inl, fun _ => id⟩

theorem settle_cases {a : α} {r : Except Raised α} (h : c.settle s s' a = (s₂, r)) :
    s₂ = s ∨ s₂ = s' := by
  unfold Outcome.settle at h
  split at h
  · exact Or.inr (Prod.mk.inj h).1.symm
  · have hs := (Prod.mk.inj h).1
    split at hs
    · exact Or.inr hs.symm
    · exact Or.inl hs.symm

theorem Quiet.settle {a : α} {r : Except Raised α} (hq : Quiet s s')
    (h : c.settle s s' a = (s₂, r)) : Quiet s s₂ := by
  rcases settle_cases h with rfl | rfl
  · exact .refl s₂
  · exact hq

theorem quiet_stopLoop (s : Store) (t : ℕ) : Quiet s (s.stopLoop t) :=
  ⟨rfl, rfl, rfl, fun _ hl => Or.inl (List.mem_of_mem_filter hl), fun _ => id⟩

theorem quiet_finish (s : Store) (t : ℕ) : Quiet s (s.finish t) :=
  ⟨rfl, rfl, rfl, fun _ => Or.inl, fun _ hv => List.mem_of_mem_filter hv⟩

theorem attendExec_quiet {i : Runtime.Call} {r : Except Raised (Runtime.Reply i)}
    (hclear : i ≠ .clearBeat) (he : attendExec b t i c s = (s', r)) : Quiet s s' := by
  cases i with
  | clearBeat => exact (hclear rfl).elim
  | transaction tx =>
    simp only [attendExec] at he
    split at he
    · rename_i run _
      have hrow : Quiet s { s with run := BotRun.flushed s.run c.now run } :=
        ⟨rfl, rfl, rfl, fun _ => Or.inl, fun _ => id⟩
      exact hrow.settle he
    · obtain ⟨rfl, -⟩ := Prod.mk.inj he
      exact .refl s
  | createHeartbeat =>
    obtain ⟨rfl, -⟩ := Prod.mk.inj he
    refine ⟨rfl, rfl, rfl, fun l hl => ?_, fun _ => id⟩
    rcases List.mem_cons.mp hl with rfl | hl
    · exact Or.inr rfl
    · exact Or.inl hl
  | cancelHeartbeat =>
    obtain ⟨rfl, -⟩ := Prod.mk.inj he
    exact quiet_stopLoop s t
  | _ => exact (Quiet.refl s).settle he

theorem Inv.of_quiet (h : Inv b s) (hq : Quiet s s') : Inv b s' := by
  refine ⟨hq.caught.trans h.caught, fun hin => ?_, fun l hl last hlast => ?_⟩
  · have hnil := h.free (hq.inHand ▸ hin)
    refine List.eq_nil_iff_forall_not_mem.mpr fun v hv => ?_
    have hmem := hq.unfinished v hv
    rw [hnil] at hmem
    exact List.not_mem_nil hmem
  · rcases hq.loops l hl with hl | hnone
    · rw [hq.keys]
      exact h.beats l hl last hlast
    · cases hlast.symm.trans hnone

theorem Quiet.allowed (hq : Quiet s s') (h : Inv b s) : (watched b).Allowed t s s' :=
  ⟨h.of_quiet hq, fun _ _ hu => hq.inHand ▸ hu, trivial⟩

/-- Without a loop there is nothing that the key has to show. -/
theorem allowed_clearBeat {r : Except Raised Unit} (h : Inv b s) (hloops : s.loops = [])
    (he : attendExec b t .clearBeat c s = (s', r)) : (watched b).Allowed t s s' := by
  rcases settle_cases he with rfl | rfl
  · exact (Quiet.refl s').allowed h
  · refine ⟨⟨h.caught, h.free, fun l hl => ?_⟩, fun _ _ hu => hu, trivial⟩
    rw [hloops] at hl
    cases hl

/-- The calls of an execution. -/
def Call.Attending : Call → Prop
  | .attend _ | .finished => True
  | _ => False

theorem allowed_attending {r : Answer i} (hi : i.Attending) (h : Inv b s)
    (hc : (beating b).call t k i s) (he : exec b t i c s = some (s', r)) :
    (watched b).Allowed t s s' := by
  cases i with
  | selectStale => exact hi.elim
  | getBeat => exact hi.elim
  | reap => exact hi.elim
  | finished =>
    obtain ⟨rfl, -⟩ := Prod.mk.inj (Option.some.inj he)
    exact (quiet_finish s t).allowed h
  | attend i =>
    have he := Option.some.inj he
    by_cases hclear : i = .clearBeat
    · subst hclear
      exact allowed_clearBeat h hc he
    · exact (attendExec_quiet hclear he).allowed h

/-- The key is there while a loop is beating. -/
theorem Inv.get_isSome (h : Inv b s) (hb : s.Beating) :
    s.keys.get (heartbeatKey b) = some "1" := by
  obtain ⟨l, hl, hsome⟩ := hb
  obtain ⟨last, hlast⟩ := Option.isSome_iff_exists.mp hsome
  obtain ⟨-, hle, hkey⟩ := h.beats l hl last hlast
  have hlt : s.keys.now < last + HEARTBEAT_TTL_S := by
    unfold HEARTBEAT_INTERVAL_S at hle
    unfold HEARTBEAT_TTL_S
    omega
  exact hkey.get hlt

theorem inv_tick {d : ℕ} (h : Inv b s)
    (hd : ∀ l ∈ s.loops, ∀ last ∈ l.last, s.keys.now + d ≤ last + HEARTBEAT_INTERVAL_S) :
    Inv b { s with keys := s.keys.elapse d } := by
  refine ⟨h.caught, h.free, fun l hl last hlast => ?_⟩
  obtain ⟨hle, -, hkey⟩ := h.beats l hl last hlast
  exact ⟨Nat.le_add_right_of_le hle, hd l hl last hlast, hkey⟩

theorem inv_beat (h : Inv b s) : Inv b { s with
    keys := s.keys.set (heartbeatKey b) "1" HEARTBEAT_TTL_S
    loops := s.loops.map fun l =>
      if l.thread = t then { l with last := some s.keys.now } else l } := by
  refine ⟨h.caught, h.free, fun l hl last hlast => ?_⟩
  have hnow : last ≤ s.keys.now ∧ s.keys.now ≤ last + HEARTBEAT_INTERVAL_S := by
    obtain ⟨l₀, hl₀, rfl⟩ := List.mem_map.mp hl
    split at hlast
    · cases hlast
      exact ⟨le_refl _, Nat.le_add_right _ _⟩
    · obtain ⟨hle, hlt, -⟩ := h.beats l₀ hl₀ last hlast
      exact ⟨hle, hlt⟩
  exact ⟨hnow.1, hnow.2, Keys.lastsUntil_set (Nat.add_le_add_right hnow.1 _)⟩

theorem inv_step {e : World} (h : Inv b s) (he : e.step b s = some s') :
    Inv b s' ∧ ∀ u, (watched b).rely u s s' := by
  cases e with
  | tick d =>
    simp only [World.step] at he
    split at he
    · rename_i hd
      cases he
      exact ⟨inv_tick h hd, fun _ hu => hu⟩
    · cases he
  | beat t =>
    simp only [World.step] at he
    split at he
    · cases he
      exact ⟨inv_beat h, fun _ hu => hu⟩
    · cases he
  | write run =>
    cases he
    exact ⟨⟨h.caught, h.free, h.beats⟩, fun _ hu => hu⟩

theorem wp_perform {Q : Except Raised (Reply i) → Store → Prop} :
    (watched b).wp t k (perform i).run Q s ↔ ∀ s₁, (watched b).rely t s s₁ → Inv b s₁ →
      (beating b).call t k i s₁ → ∀ c s₂ r, exec b t i c s₁ = some (s₂, r) →
        (watched b).Allowed t s₁ s₂ ∧ Q r s₂ := Iff.rfl

/-- A sweep that finds no heartbeat holds the run, and no execution is unfinished. -/
theorem exec_getBeat {r : Answer .getBeat} (h : Inv b s) (hc : s.unfinished ≠ [] → s.Beating)
    (he : exec b t .getBeat c s = some (s', r)) :
    (watched b).Allowed t s s' ∧ (r = .ok none → t ∈ s'.inHand) := by
  simp only [exec] at he
  split at he
  · obtain ⟨rfl, rfl⟩ := Prod.mk.inj (Option.some.inj he)
    exact ⟨(Quiet.refl s).allowed h, nofun⟩
  · split at he
    · obtain ⟨rfl, rfl⟩ := Prod.mk.inj (Option.some.inj he)
      exact ⟨(Quiet.refl s).allowed h, nofun⟩
    · rename_i hnone
      obtain ⟨rfl, rfl⟩ := Prod.mk.inj (Option.some.inj he)
      have hfree : s.unfinished = [] := by
        by_contra hne
        cases hnone.symm.trans (h.get_isSome (hc hne))
      exact ⟨⟨⟨h.caught, fun _ => hfree, h.beats⟩, fun _ _ hu => List.mem_cons_of_mem _ hu, trivial⟩,
        fun _ => List.mem_cons_self⟩

theorem mem_letGo (hu : u ≠ t) (h : u ∈ s.inHand) : u ∈ (s.letGo t).inHand :=
  List.mem_filter.mpr ⟨h, decide_eq_true hu⟩

theorem free_letGo (h : Inv b s) (hin : (s.letGo t).inHand ≠ []) : s.unfinished = [] := by
  obtain ⟨u, hu⟩ := List.exists_mem_of_ne_nil _ hin
  exact h.free (List.ne_nil_of_mem (List.mem_of_mem_filter hu))

theorem allowed_letGo (h : Inv b s) : (watched b).Allowed t s (s.letGo t) :=
  ⟨⟨h.caught, free_letGo h, h.beats⟩, fun _ hu => mem_letGo hu, trivial⟩

theorem allowed_reap (loaded : BotRun) (now : ℕ) (h : Inv b s) (ht : t ∈ s.inHand) :
    (watched b).Allowed t s (s.reap loaded now t) := by
  have hfree := h.free (List.ne_nil_of_mem ht)
  unfold Store.reap
  split
  · refine ⟨⟨?_, free_letGo h, h.beats⟩, fun _ hu => mem_letGo hu, trivial⟩
    show s.caught ++ s.unfinished = []
    rw [h.caught, hfree]
    rfl
  · exact allowed_letGo h

theorem wp_reap (loaded : BotRun) (ht : t ∈ s.inHand) :
    (watched b).wp t k (perform (.reap loaded)).run (fun _ _ => True) s := by
  refine wp_perform.mpr fun s₁ hr hi _ c s₂ r he => ⟨?_, trivial⟩
  rcases settle_cases (Option.some.inj he) with rfl | rfl
  · exact allowed_letGo hi
  · exact allowed_reap loaded c.now hi (hr ht)

theorem wp_sweepOrphans (staleAfter : ℕ) :
    (watched b).wp t k (sweepOrphans staleAfter).run (fun _ _ => True) s := by
  refine Protocol.wp_task_bind.mpr (wp_perform.mpr fun s₁ _ hi₁ _ c s₂ r he => ?_)
  have hs₂ : Quiet s₁ s₂ := (Quiet.refl s₁).settle (Option.some.inj he)
  refine ⟨hs₂.allowed hi₁, ?_⟩
  match r with
  | .error _ => trivial
  | .ok (_, none) => trivial
  | .ok (moment, some run) =>
    refine Protocol.wp_task_bind.mpr (wp_perform.mpr fun s₃ _ hi₃ hc₃ c₃ s₄ r₃ he₃ => ?_)
    obtain ⟨ha, hin⟩ := exec_getBeat hi₃ hc₃ he₃
    refine ⟨ha, ?_⟩
    match r₃ with
    | .error _ => trivial
    | .ok (some _) => trivial
    | .ok none =>
      simp only
      split
      · exact wp_reap run (hin rfl)
      · trivial

theorem uses_call (i : Runtime.Call) : (call i).run.Uses Call.Attending :=
  ⟨trivial, fun _ => trivial⟩

theorem uses_execution (hasBlob : Bool) (m : Meeting) (errorCode : Option String → String) :
    (execution hasBlob m errorCode).run.Uses Call.Attending :=
  Task.uses_rescue (uses_attend (fun i _ => uses_call i) (uses_call _)) fun _ =>
    uses_failRun (fun i _ => uses_call i) _

theorem wp_attending {p : Prog Call Answer α} (hp : p.Uses Call.Attending) :
    (watched b).wp t k p (fun _ _ => True) s :=
  Protocol.wp_frame hp trivial (fun _ _ _ _ _ => trivial) fun _ _ _ _ _ hi h hc _ he =>
    ⟨allowed_attending hi h hc he, trivial⟩

theorem sound (b : ℕ) : (watched b).Sound where
  idle _ _ := trivial
  final _ _ := trivial
  start {t k s s'} hi _ hc hb := by
    cases k with
    | execution hasBlob errorCode m =>
      obtain rfl := Option.some.inj hb
      refine ⟨⟨⟨hi.caught, fun hin => (hin hc).elim, hi.beats⟩, fun _ _ hu => hu, trivial⟩, ?_⟩
      refine wp_attending (Prog.Uses.bind (uses_execution hasBlob m errorCode) fun _ => ?_)
      exact ⟨trivial, fun _ => trivial⟩
    | sweepOrphans staleAfter =>
      obtain rfl := Option.some.inj hb
      exact ⟨(Quiet.refl s).allowed hi,
        Protocol.wp_bind.mpr (Protocol.wp_mono (wp_sweepOrphans staleAfter) fun _ _ _ => trivial)⟩
  kill {t s} hi _ := by
    have hstop : Inv b ((s.stopLoop t).finish t) :=
      (hi.of_quiet (quiet_stopLoop s t)).of_quiet (quiet_finish _ t)
    exact ⟨⟨(allowed_letGo hstop).inv, fun _ hu hin => mem_letGo hu hin, trivial⟩, trivial⟩
  env hi _ he := inv_step hi he

theorem inv_init (b : ℕ) (run : BotRun) (keys : Keys String String) :
    Inv b { run := run, keys := keys } :=
  ⟨rfl, fun h => (h rfl).elim, fun _ hl => by cases hl⟩

/-- In every run that meets the condition, no sweep reaps the run under an execution that has not
finished. -/
theorem only_orphans_reaped {b : ℕ} {run : BotRun} {keys : Keys String String}
    {es : List (Event Role Outcome World)} {s : (attendance b).State}
    (hm : (beating b).Meets ((attendance b).init { run := run, keys := keys }) es)
    (hr : (attendance b).run ((attendance b).init { run := run, keys := keys }) es = some s) :
    s.shared.caught = [] := by
  have hinit : (watched b).Holds ((attendance b).init { run := run, keys := keys }) :=
    Protocol.holds_init (inv_init b run keys) fun _ => trivial
  exact ((sound b).run hinit hm hr).inv.caught

section runs

def queuedRun : BotRun :=
  { id := 0, meetingUrl := "https://meet.google.com/abc-defg-hij", meetingKey := "abc-defg-hij"
    idempotencyKey := none, displayName := none, status := .queued, createdAt := 0, updatedAt := 0 }

abbrev Events := List (Event Role Outcome World)

/-- The first `n` calls of thread `t`, all well, at `now`. -/
def calls (t n now : ℕ) : Events := List.replicate n (.step t { now := now })

/-- A bot that records at once and has been beating for five and a half minutes. -/
def fiveMinutes : Events :=
  .start 0 (.execution true (fun code => code.getD "internal") {}) :: calls 0 3 0 ++
    .env (.beat 0) :: calls 0 5 0 ++
    (List.replicate 11 [.env (.tick HEARTBEAT_INTERVAL_S), .env (.beat 0)]).flatten

def sweep (t now : ℕ) : Events := .start t (.sweepOrphans 300) :: calls t 3 now

def initial : (attendance 0).State := (attendance 0).init { run := queuedRun }

/-- One sweep finds the heartbeat. The process dies, and the next sweep does not. -/
def dead : Events := fiveMinutes ++ [.start 1 (.sweepOrphans 300)] ++ calls 1 2 330 ++
  .kill 0 :: .env (.tick 90) :: sweep 2 420

theorem only_orphans_reaped_dead : ∃ s, (attendance 0).run initial dead = some s ∧
    s.shared.run.errorCode = some "orphaned" ∧ s.shared.caught = [] := by
  have hsome : ((attendance 0).run initial dead).any
      (fun s => s.shared.run.errorCode = some "orphaned") = true := by decide +kernel
  obtain ⟨s, hs, hcode⟩ := (Option.any_eq_true _ _).mp hsome
  exact ⟨s, hs, of_decide_eq_true hcode, only_orphans_reaped (by decide +kernel) hs⟩

/-- The meeting raises, and a sweep comes between `clear_beat` and the profile. -/
def raising : Events := fiveMinutes ++ .step 0 { raises := some (.exception none) } ::
  calls 0 3 330 ++ sweep 1 330

theorem not_only_orphans_reaped : ¬∀ (b : ℕ) (run : BotRun) (keys : Keys String String)
    (es : Events) (s : (attendance b).State),
    (attendance b).run ((attendance b).init { run := run, keys := keys }) es = some s →
      s.shared.caught = [] := by
  intro h
  have hsome : ((attendance 0).run initial raising).any (fun s => s.shared.caught = [0]) = true := by
    decide +kernel
  obtain ⟨s, hs, hcaught⟩ := (Option.any_eq_true _ _).mp hsome
  cases (h 0 queuedRun {} raising s hs).symm.trans (of_decide_eq_true hcaught)

end runs

end Fakery.Heartbeat
