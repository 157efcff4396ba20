import Fakery.Bots.Soundness

/-! Terminal statuses. A commit follows the status machine as long as no transaction acts on an
object that was loaded before another transaction ended the run. -/
namespace Fakery.Bots
open Fakery.Concurrent

variable {es fs : List (Event Op ℕ World)} {s s' : service.State} {b : ℕ}

/-- Every run has gone through the status machine, one allowed transition for each commit that
changed its status. -/
def FollowsAllowed (s : Db) : Prop := ∀ b,
  Tracks (fun current target => canTransition current target = true) (s.history b)
    ((s.bots b).committed.map BotRun.status)

/-- The run that a statement reads and locks. -/
def Stmt.lockedRead : Stmt → Option ℕ
  | selectForUpdate b => some b
  | _ => none

/-- At the locked read of a run that the session has loaded, the committed status is not a
terminal one that the loaded status hides. -/
def rereads : service.Condition where
  call t k i s := ∀ b ∈ i.lockedRead, ∀ target ∈ k.target, ∀ o ∈ (s.session t).objs b,
    ∀ run ∈ (s.bots b).committed, canTransition o.now.status target = true →
      run.status.terminal = true → run.status = target

instance (t : ℕ) (k : Op) (s : Db) : Decidable (rereads.start t k s) := isTrue trivial

instance (t : ℕ) (k : Op) (i : Stmt) (s : Db) : Decidable (rereads.call t k i s) :=
  inferInstanceAs (Decidable (∀ b ∈ i.lockedRead, _))

instance (t : ℕ) (s : Db) : Decidable (rereads.kill t s) := isTrue trivial

instance (e : World) (s : Db) : Decidable (rereads.env e s) := isTrue trivial

def next (current target : BotStatus) : Prop :=
  current = target ∨ canTransition current target = true

theorem rank_le_of_reaches {st x : BotStatus} (h : Relation.ReflTransGen next st x) :
    rank st ≤ rank x := by
  induction h with
  | refl => exact Nat.le_refl _
  | tail _ hs ih =>
    rcases hs with rfl | hs
    · exact ih
    · exact Nat.le_trans ih (Nat.le_of_lt (rank_lt_of_canTransition hs))

theorem reread_allowed {st x τ : BotStatus} (hl : τ ∈ lateStatuses) (hc : canTransition st τ = true)
    (hr : rank st ≤ rank x) (ht : x.terminal = true → x = τ) : next x τ := by
  by_cases hx : x.terminal = true
  · exact Or.inl (ht hx)
  cases τ with
  | failed =>
    refine Or.inr ?_
    cases x <;> first | rfl | exact absurd rfl hx
  | processing =>
    have hst : st = .recording := by cases st <;> first | rfl | exact absurd hc (by decide)
    subst hst
    cases x <;>
      first | exact absurd hr (by decide) | exact Or.inl rfl | exact Or.inr rfl | exact absurd rfl hx
  | completed =>
    have hst : st = .processing := by cases st <;> first | rfl | exact absurd hc (by decide)
    subst hst
    cases x <;>
      first | exact absurd hr (by decide) | exact Or.inl rfl | exact Or.inr rfl | exact absurd rfl hx
  | _ => exact absurd hl (by decide)

def statusMachine : Discipline where
  cond := rereads
  next := next
  next_refl _ := Or.inl rfl
  next_of_canTransition := Or.inr
  next_queued {s} h := h.resolve_right fun hc => by
    rw [not_canTransition_queued] at hc
    cases hc
  next_of_reread {t k b s o run τ} hc ht hl ho hx hr hcan := by
    exact reread_allowed hl hcan (rank_le_of_reaches hr) (hc b rfl τ ht o ho run hx hcan)

theorem follows_of_inv {s : Db} (h : statusMachine.Inv s) : FollowsAllowed s :=
  fun b => (h b).tracks.imp fun _ _ hn => hn.1.resolve_left hn.2

theorem exec_history {t c : ℕ} {i : Stmt} {s s' : Db} {a : Answer i}
    (h : exec t i c s = some (s', a)) : s.history b <+: s'.history b := by
  by_cases hi : i.Inner
  · exact (exec_touches hi h).history ▸ List.prefix_rfl
  · cases i with
    | commit =>
      obtain ⟨rfl, -⟩ := Prod.mk.inj (Option.some.inj h)
      dsimp only [Db.commit, Db.seen]
      split
      · exact List.prefix_rfl
      · split_ifs
        · exact List.prefix_rfl
        · exact List.prefix_append _ _
    | rollback =>
      obtain ⟨rfl, -⟩ := Prod.mk.inj (Option.some.inj h)
      exact List.prefix_rfl
    | openBrowser =>
      obtain ⟨rfl, -⟩ := Prod.mk.inj (Option.some.inj h)
      exact List.prefix_rfl
    | _ => exact absurd trivial hi

theorem step_history {e : Event Op ℕ World} (h : service.step s e = some s') :
    s.shared.history b <+: s'.shared.history b := by
  cases Machine.step_cases h with
  | start _ hb =>
    cases Option.some.inj hb
    exact List.prefix_rfl
  | step _ he => exact exec_history he
  | kill _ => exact List.prefix_rfl
  | env he =>
    obtain ⟨-, -, hh, -⟩ := world_step he
    exact hh ▸ List.prefix_rfl

/-- No run takes back what a run was seen in. -/
theorem run_history (h : service.run s es = some s') :
    s.shared.history b <+: s'.shared.history b := by
  induction es generalizing s with
  | nil =>
    cases Option.some.inj h
    exact List.prefix_rfl
  | cons e es ih =>
    obtain ⟨u, hu, hr⟩ := Option.bind_eq_some_iff.mp h
    exact (step_history hu).trans (ih hr)

theorem inv_init : statusMachine.Inv {} := fun _ => ⟨rfl, Or.inl rfl, nofun, Or.inl rfl⟩

def created : List (Event Op ℕ World) :=
  whole 0 (.create "https://meet.google.com/abc-defg-hij" "abc-defg-hij" none none) 9

/-- Along every run in which no locked read is overtaken, statuses follow the status machine,
and nothing after the commit of a terminal status changes it. -/
theorem terminal_absorbing (hr : service.run (service.init {}) es = some s)
    (hr' : service.run s fs = some s') (hc : rereads.Meets (service.init {}) (es ++ fs)) :
    FollowsAllowed s'.shared ∧ ∀ b run, (s.shared.bots b).committed = some run →
      run.status.terminal = true →
      (s'.shared.bots b).committed.map BotRun.status = some run.status ∧
        s'.shared.history b = s.shared.history b := by
  obtain ⟨hc₁, hc₂⟩ := hc.of_append hr
  have hinit : statusMachine.protocol.Holds (service.init {}) :=
    Protocol.holds_init inv_init fun _ _ => nofun
  have hs := statusMachine.sound.run hinit hc₁ hr
  have hs' := statusMachine.sound.run hs hc₂ hr'
  have hf := follows_of_inv hs.inv
  have hf' := follows_of_inv hs'.inv
  refine ⟨hf', fun b run hb ht => ?_⟩
  have hs := hf b
  rw [hb] at hs
  exact (hs.eq_of_prefix (hf' b) (run_history hr') fun τ hτ => by
    rw [not_canTransition_of_terminal τ ht] at hτ
    cases hτ).symm

/-- A cancelled run that `fail_run` comes to late. -/
theorem terminal_absorbing_cancelled : ∃ s s',
    service.run (service.init {}) (created ++ whole 1 (.cancel 0) 11) = some s ∧
    service.run s (whole 2 (.failRun 0 "internal") 2) = some s' ∧
    FollowsAllowed s'.shared ∧ ∀ b run, (s.shared.bots b).committed = some run →
      run.status.terminal = true →
      (s'.shared.bots b).committed.map BotRun.status = some run.status ∧
        s'.shared.history b = s.shared.history b := by
  have h : (service.run (service.init {}) ((created ++ whole 1 (.cancel 0) 11) ++
      whole 2 (.failRun 0 "internal") 2)).isSome := by decide
  obtain ⟨s', hs⟩ := Option.isSome_iff_exists.mp h
  obtain ⟨s, hr, hr'⟩ := Option.bind_eq_some_iff.mp (Machine.run_append _ _ _ _ ▸ hs)
  exact ⟨s, s', hr, hr', terminal_absorbing hr hr' (by decide)⟩

/-- A run is brought to processing; `fail_run` reads it and is overtaken by `_complete`. -/
def overtaken : List (Event Op ℕ World) :=
  created ++ whole 1 (.advance 0 .joining) 9 ++ whole 2 (.advance 0 .joined) 9 ++
  whole 3 (.advance 0 .recording) 9 ++ whole 4 (.persistRecording 0 none) 9 ++
  whole 5 (.failRun 0 "internal") 1 ++ whole 6 (.complete 0 { cancelled := false }) 13 ++ calls 5 10

theorem overtaken_history : (service.run (service.init {}) overtaken).map
    (fun s => (s.shared.history 0, (s.shared.bots 0).committed.map BotRun.status)) =
    some ([.queued, .joining, .joined, .recording, .processing, .completed, .failed],
      some .failed) := by
  decide

/-- Without the condition a completed run is failed. -/
theorem not_follows_allowed : ¬∀ es (s : service.State),
    service.run (service.init {}) es = some s → FollowsAllowed s.shared := by
  intro h
  obtain ⟨s, hs, he⟩ := Option.map_eq_some_iff.mp overtaken_history
  obtain ⟨hh, hc⟩ := Prod.mk.inj he
  have hf := h overtaken s hs 0
  rw [hh, hc] at hf
  exact absurd hf.2.1 (by decide)

end Fakery.Bots
