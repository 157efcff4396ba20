import Fakery.Spawn.Runtimes

/-! A spawn that returns leaves a run that is over, and a run that is over stays as it ended. -/
namespace Fakery.Spawn
open Fakery.Bots Fakery.Concurrent Fakery.Runtime

variable {b t u : ℕ} {s s' : Scene} {α : Type}

/-- The run is over. -/
def Over (s : Scene) : Prop := s.run.status.terminal = true

/-- A run that is over stays as it ended. -/
def Kept (s s' : Scene) : Prop := Over s → SameOutcome s.run s'.run

/-- What the others do between two calls of `t`. -/
structure Rely (t : ℕ) (s s' : Scene) : Prop where
  kept : Kept s s'
  joined : ∀ u, s.joinedBy = some u → s'.joinedBy = some u
  completed : s.joinedBy = some t → s'.run.status = .completed → s.run.status = .completed

structure Inv (s : Scene) : Prop where
  joined : s.joinedBy.isSome = true → s.run.status ≠ .queued
  returned : s.returned ≠ [] → Over s

theorem Kept.over (h : Kept s s') (ho : Over s) : Over s' := by
  unfold Over
  rw [(h ho).status]
  exact ho

theorem Kept.refl (s : Scene) : Kept s s := fun _ => SameOutcome.refl s.run

theorem Kept.trans {s'' : Scene} (h : Kept s s') (h' : Kept s' s'') : Kept s s'' :=
  fun ho => (h ho).trans (h' (h.over ho))

theorem Rely.refl (t : ℕ) (s : Scene) : Rely t s s := ⟨Kept.refl s, fun _ => id, fun _ => id⟩

theorem Rely.trans {s'' : Scene} (h : Rely t s s') (h' : Rely t s' s'') : Rely t s s'' :=
  ⟨h.kept.trans h'.kept, fun u hu => h'.joined u (h.joined u hu),
    fun ht hs => h.completed ht (h'.completed (h.joined t ht) hs)⟩

def protocol (b : ℕ) : Protocol (runtimes b) where
  inv := Inv
  rely := Rely
  effect _ := Kept
  rely_refl := Rely.refl
  rely_trans _ := Rely.trans

/-- `t` has made the run joining, and has not completed it. -/
def Joined (t : ℕ) (s : Scene) : Prop := s.joinedBy = some t ∧ s.run.status ≠ .completed

theorem Joined.rely (h : Joined t s) (hr : Rely t s s') : Joined t s' :=
  ⟨hr.joined t h.1, fun hs => h.2 (hr.completed h.1 hs)⟩

section rows

variable {tx : Tx} {run run' : BotRun} {now moment : ℕ}

/-- The run ends in no other way, and is not made queued. -/
structure Follows (run run' : BotRun) : Prop where
  kept : run.status.terminal = true → SameOutcome run run'
  queued : run'.status = .queued → run.status = .queued

theorem Follows.refl (run : BotRun) : Follows run run := ⟨fun _ => SameOutcome.refl run, id⟩

theorem follows_apply (hc : tx.completes = true → run.status ≠ .completed)
    (h : tx.apply now run = .ok run') : Follows run run' :=
  ⟨fun ht => sameOutcome_apply ht hc h, (moves_apply h).queued⟩

/-- A run that is not over fails. -/
theorem follows_fails {marked : BotRun} (h : marked.advance .failed now = .ok run')
    (hm : marked.status = run.status) (hl : run.status.terminal = false) :
    Follows run run' ∧ (run'.status = .completed → run.status = .completed) := by
  constructor
  · constructor
    · intro ht
      cases hl.symm.trans ht
    · intro hq
      exact hm.symm.trans ((moves_advance h).queued hq)
  · intro hs
    exact hm.symm.trans (completed_of_advance (by decide) h hs)

theorem terminal_of_live (h : run.status ∈ liveStatuses) : run.status.terminal = false := by
  cases hs : run.status <;> simp_all [liveStatuses, BotStatus.terminal]

/-- Neither a cancel nor a sweep completes a run. -/
theorem follows_world {w : World} (h : w.apply run = .ok run') :
    Follows run run' ∧ (run'.status = .completed → run.status = .completed) := by
  cases w with
  | cancel now moment =>
    have hcancel : run.cancel now = .ok run' := h
    unfold BotRun.cancel at hcancel
    split_ifs at hcancel with ht
    · cases Except.ok.inj hcancel
      exact ⟨Follows.refl run, id⟩
    · exact follows_fails hcancel rfl (by simpa using ht)
  | sweep heartbeat staleAfter now moment =>
    have hsweep : run.swept heartbeat staleAfter now = .ok run' := h
    unfold BotRun.swept at hsweep
    split_ifs at hsweep with hlive
    · exact follows_fails hsweep rfl (terminal_of_live hlive.1)
    · cases Except.ok.inj hsweep
      exact ⟨Follows.refl run, id⟩

theorem kept_stored (h : Follows s.run run) : Kept s (s.stored moment run) :=
  fun ho => (h.kept ho).flushed

theorem inv_stored (hi : Inv s) (h : Follows s.run run) : Inv (s.stored moment run) := by
  constructor
  · intro hj hq
    have hqueued : run.status = .queued := flushed_status.symm.trans hq
    exact hi.joined hj (h.queued hqueued)
  · intro hr
    exact (kept_stored h).over (hi.returned hr)

theorem rely_stored (h : Follows s.run run)
    (hc : s.joinedBy = some u → run.status = .completed → s.run.status = .completed) :
    Rely u s (s.stored moment run) := by
  refine ⟨kept_stored h, fun _ => id, fun hj hs => hc hj ?_⟩
  exact flushed_status.symm.trans hs

/-- A commit that does not take the run from another thread. -/
theorem allowed_commit (hi : Inv s) (c : Outcome)
    (hc : tx.completes = true → Joined t s) :
    (protocol b).Allowed t s (commit t tx c s).1 := by
  unfold commit
  cases h : tx.apply c.now s.run with
  | error e => exact ⟨hi, fun u _ => Rely.refl u s, Kept.refl s⟩
  | ok run =>
    have hf : Follows s.run run := follows_apply (fun hcompletes => (hc hcompletes).2) h
    have hothers : ∀ u, u ≠ t → Rely u s (s.stored c.moment run) := by
      intro u hu
      refine rely_stored hf fun hj hs => ?_
      cases hcompletes : tx.completes with
      | false => exact completed_of_apply hcompletes h hs
      | true =>
        have hsame : some t = some u := (hc hcompletes).1.symm.trans hj
        exact absurd (Option.some.inj hsame).symm hu
    cases hj : tx.joins with
    | false => exact ⟨inv_stored hi hf, hothers, kept_stored hf⟩
    | true =>
      obtain ⟨hqueued, hjoining⟩ := queued_of_joins hj h
      have hnone : s.joinedBy = none := by
        by_contra hne
        exact hi.joined (Option.isSome_iff_ne_none.mpr hne) hqueued
      refine ⟨⟨fun _ hq => ?_, (inv_stored hi hf).returned⟩, fun u hu => ⟨kept_stored hf, ?_, ?_⟩,
        kept_stored hf⟩
      · have hq' : run.status = .queued := flushed_status.symm.trans hq
        rw [hjoining] at hq'
        cases hq'
      · intro v hv
        cases hnone.symm.trans hv
      · intro hu
        cases hnone.symm.trans hu

end rows

section calls

variable {k : Role} {i : Worker.Call} {A : Scene → Prop}

/-- The protocol, as far as the calls of the runtimes go. -/
abbrev inner (b : ℕ) := (protocol b).along Call.run fun _ r => r

/-- A call of `attend` or `fail_run` that neither makes the run joining nor completes it, or any
other call of a runtime. -/
def Harmless : Worker.Call → Prop
  | .attend _ i => i.ongoing = true
  | _ => True

/-- What a call does: it raises and has no effect, or has its effect. -/
theorem exec_inner {c : Outcome} {r : Worker.Answer i}
    (h : ((runtimes b).along Call.run fun _ r => r).exec t i c s = some (s', r)) :
    (s' = s ∧ ∃ e, r = .error e) ∨
      s' = (answered t i c s).1 ∧ (r = (answered t i c s).2 ∨ ∃ e, r = .error e) := by
  obtain ⟨⟨s₁, r₁⟩, he, heq⟩ := Option.map_eq_some_iff.mp h
  obtain ⟨rfl, rfl⟩ := Prod.mk.inj heq
  obtain ⟨now, moment, raised, answer⟩ := c
  apply raised_cases raised
  rw [← he]
  cases raised <;> rfl

theorem allowed_still (hi : Inv s) : (inner b).Allowed t s s :=
  ⟨hi, fun u _ => Rely.refl u s, Kept.refl s⟩

/-- Every call but a transaction leaves the scene as it is. -/
theorem answered_eq (c : Outcome) (h : ∀ b' tx, i ≠ .attend b' (.transaction tx)) :
    (answered t i c s).1 = s := by
  cases i with
  | attend b' j =>
    cases j with
    | transaction tx => exact absurd rfl (h b' tx)
    | _ => rfl
  | _ => rfl

theorem allowed_answered (hi : Inv s) (c : Outcome)
    (h : ∀ b' tx, i = .attend b' (.transaction tx) → tx.completes = true → Joined t s) :
    (inner b).Allowed t s (answered t i c s).1 := by
  by_cases htx : ∃ b' tx, i = .attend b' (.transaction tx)
  · obtain ⟨b', tx, rfl⟩ := htx
    exact Protocol.allowed_along.mpr (allowed_commit hi c (h b' tx rfl))
  · rw [answered_eq c fun b' tx heq => htx ⟨b', tx, heq⟩]
    exact allowed_still hi

theorem joined_answered (h : Joined t s) (c : Outcome) (hi : Harmless i) :
    Joined t (answered t i c s).1 := by
  by_cases htx : ∃ b' tx, i = .attend b' (.transaction tx)
  · obtain ⟨b', tx, rfl⟩ := htx
    have hj : tx.joins = false := joins_of_ongoing hi
    have hc : tx.completes = false := completes_of_ongoing hi
    show Joined t (commit t tx c s).1
    unfold commit
    cases hrun : tx.apply c.now s.run with
    | error e => exact h
    | ok run =>
      simp only [hj]
      refine ⟨h.1, fun hs => h.2 (completed_of_apply hc hrun ?_)⟩
      exact flushed_status.symm.trans hs
  · rw [answered_eq c fun b' tx heq => htx ⟨b', tx, heq⟩]
    exact h

/-- What the calls of a program that is harmless keep. -/
theorem wp_harmless {p : Prog Worker.Call Worker.Answer α} (hp : p.Uses Harmless) (hs : A s)
    (hr : ∀ s s', Rely t s s' → A s → A s')
    (ha : ∀ i c s, Harmless i → A s → A (answered t i c s).1) :
    (inner b).wp t k p (fun _ => A) s := by
  refine Protocol.wp_frame hp hs (fun u u' h _ => hr u u' h) fun i c u u' r hi hinv _ hA he => ?_
  rcases exec_inner he with ⟨rfl, -⟩ | ⟨rfl, -⟩
  · exact ⟨allowed_still hinv, hA⟩
  · refine ⟨allowed_answered hinv c fun b' tx heq hc => ?_, ha i c u hi hA⟩
    subst heq
    have hnot : tx.completes = false := completes_of_ongoing hi
    cases hnot.symm.trans hc

theorem wp_joined {p : Prog Worker.Call Worker.Answer α} (hp : p.Uses Harmless)
    (hs : Joined t s) : (inner b).wp t k p (fun _ => Joined t) s :=
  wp_harmless hp hs (fun _ _ h hj => hj.rely h) fun _ c _ hi hj => joined_answered hj c hi

theorem wp_any {p : Prog Worker.Call Worker.Answer α} (hp : p.Uses Harmless) :
    (inner b).wp t k p (fun _ _ => True) s :=
  wp_harmless hp trivial (fun _ _ _ => id) fun _ _ _ _ => id

/-- What a single call comes to. -/
theorem wp_call {Q : Worker.Answer i → Scene → Prop}
    (hc : ∀ b' tx, i = .attend b' (.transaction tx) → tx.completes = true → Joined t s)
    (herror : ∀ e s, Q (.error e) s)
    (hok : ∀ s₁ c, Q (answered t i c s₁).2 (answered t i c s₁).1) :
    (inner b).wp t k (Prog.ask i) Q s := by
  refine Protocol.wp_ask i |>.mpr fun s₁ hr hi _ c s' r he => ?_
  rcases exec_inner he with ⟨rfl, e, rfl⟩ | ⟨rfl, rfl | ⟨e, rfl⟩⟩
  · exact ⟨allowed_still hi, herror e _⟩
  · refine ⟨allowed_answered hi c fun b' tx heq hcompletes => ?_, hok s₁ c⟩
    exact (hc b' tx heq hcompletes).rely hr
  · refine ⟨allowed_answered hi c fun b' tx heq hcompletes => ?_, herror e _⟩
    exact (hc b' tx heq hcompletes).rely hr

end calls

section programs

variable {S : Worker.Settings} {p : Worker.Plan} {m : Meeting} {k : Role} {hasBlob : Bool}

/-- The run is over if nothing was raised. -/
def Ended (r : Except Raised α) (s : Scene) : Prop := (∃ a, r = .ok a) → Over s

theorem ended_error {e : Raised} : Ended (.error e : Except Raised α) s := by
  rintro ⟨a, ha⟩
  cases ha

theorem uses_perform {i : Worker.Call} (h : Harmless i) :
    (Worker.perform i).run.Uses Harmless :=
  ⟨h, fun _ => trivial⟩

/-- What does not touch the run leaves it over. -/
theorem wp_after {q : Prog Worker.Call Worker.Answer α} {A : Prop}
    (hq : q.Uses Harmless) (h : A → Over s) :
    (inner b).wp t k q (fun _ s => A → Over s) s := by
  refine Protocol.wp_frame hq h (fun u u' hr _ hA ha => hr.kept.over (hA ha))
    fun i c u u' r hi hinv _ hA he => ?_
  rcases exec_inner he with ⟨rfl, -⟩ | ⟨rfl, -⟩
  · exact ⟨allowed_still hinv, hA⟩
  · have hallowed : (inner b).Allowed t u (answered t i c u).1 := by
      refine allowed_answered hinv c fun b' tx heq hc => ?_
      subst heq
      have hnot : tx.completes = false := completes_of_ongoing hi
      cases hnot.symm.trans hc
    exact ⟨hallowed, fun ha => hallowed.effect.over (hA ha)⟩

/-- A transaction that ends the run. -/
theorem wp_ends {tx : Tx} (hc : tx.completes = true → Joined t s)
    (h : ∀ now run run', tx.apply now run = .ok run' → run'.status.terminal = true) :
    (inner b).wp t k (Worker.call b (.transaction tx)).run Ended s := by
  refine wp_call (fun b' tx' heq hc' => ?_) (fun e s => ended_error) fun s₁ c => ?_
  · cases heq
    exact hc hc'
  · rintro ⟨a, ha⟩
    change (commit t tx c s₁).2 = .ok a at ha
    show Over (commit t tx c s₁).1
    unfold commit at ha ⊢
    cases hrun : tx.apply c.now s₁.run with
    | error e =>
      simp only [hrun] at ha
      cases ha
    | ok run =>
      have hterminal := h _ _ _ hrun
      simp only [Over, Scene.stored]
      rw [flushed_status, hterminal]

/-- A part that raises nothing is followed by the rest. -/
theorem wp_seq {β : Type} {x : Worker.Act α} {f : α → Worker.Act β} {A : Scene → Prop}
    (hx : (inner b).wp t k x.run (fun _ => A) s)
    (hf : ∀ a s, A s → (inner b).wp t k (f a).run Ended s) :
    (inner b).wp t k (x >>= f).run Ended s := by
  refine Protocol.wp_task_bind.mpr (Protocol.wp_mono hx fun r s₁ h₁ => ?_)
  cases r with
  | error e => exact ended_error
  | ok a => exact hf a s₁ h₁

theorem uses_call {i : Runtime.Call} (h : i.ongoing = true) :
    (Worker.call b i).run.Uses Harmless := uses_perform h

theorem wp_failRun (code : String) :
    (inner b).wp t k (failRun (Worker.call b) hasBlob code).run Ended s := by
  have hrecover : (recoverCheckpoint (Worker.call b) hasBlob).run.Uses Harmless :=
    uses_recoverCheckpoint fun i hi => uses_call (ongoing_of_settles hi)
  apply wp_seq (wp_any hrecover)
  intro _ s₁ _
  exact wp_ends nofun fun _ _ _ h => terminal_of_failRun h

/-- The end of the meeting of the thread that has made the run joining. -/
theorem wp_finish (cancelled : Bool) (hs : Joined t s) :
    (inner b).wp t k (finish (Worker.call b) m cancelled).run Ended s := by
  apply wp_seq (wp_joined (uses_call rfl) hs)
  intro _ s₁ h₁
  apply wp_seq (wp_joined (uses_call rfl) h₁)
  intro _ s₂ h₂
  apply wp_seq (wp_joined (uses_activities (fun i hi => uses_call hi.2) _) h₂)
  intro _ s₃ h₃
  apply wp_seq (wp_joined (uses_call rfl) h₃)
  intro stopReason s₄ h₄
  refine wp_ends (fun _ => h₄) fun _ _ _ h => ?_
  rw [completed_of_complete h]
  rfl

theorem wp_attendMeeting (hs : Joined t s) :
    (inner b).wp t k (attendMeeting (Worker.call b) hasBlob m).run Ended s := by
  apply wp_seq (wp_joined (uses_attendAndRecord fun i hi => uses_call hi.2) hs)
  intro cancelled s₁ h₁
  cases cancelled with
  | false => exact wp_finish false h₁
  | true =>
    rw [if_pos rfl]
    apply wp_seq (wp_joined (uses_call rfl) h₁)
    intro run s₂ h₂
    split
    · apply wp_seq (wp_joined (uses_call rfl) h₂)
      intro stopReason s₃ _
      exact wp_failRun _
    · exact wp_finish true h₂

/-- What follows, and touches no run, leaves it over. -/
theorem wp_ensuring {x : Worker.Act α} {c : Worker.Act Unit} (hc : c.run.Uses Harmless)
    (hx : (inner b).wp t k x.run Ended s) : (inner b).wp t k (x.ensuring c).run Ended s := by
  refine Protocol.wp_ensuring.mpr (Protocol.wp_mono hx fun r s₁ h₁ => ?_)
  refine Protocol.wp_mono (wp_after hc h₁) fun q s₂ h₂ => ?_
  cases q with
  | ok u => exact h₂
  | error e => exact ended_error

theorem wp_afterJoining (hs : Joined t s) :
    (inner b).wp t k (afterJoining (Worker.call b) hasBlob m).run Ended s := by
  apply wp_seq (wp_joined (uses_call rfl) hs)
  intro _ s₁ h₁
  have hopen : ((Worker.call b .openBrowser).rescue fun code => do
      Worker.call b .closeBrowser
      throw (.exception code)).run.Uses Harmless := by
    apply Task.uses_rescue (uses_call rfl)
    intro code
    exact Task.uses_bind (uses_call rfl) fun _ => trivial
  apply wp_seq (wp_joined hopen h₁)
  intro _ s₂ h₂
  exact wp_ensuring (uses_call rfl) (wp_attendMeeting h₂)

/-- The transaction that makes the run joining. -/
theorem wp_joining : (inner b).wp t k (Worker.call b (.transaction (.advance .joining))).run
    (fun r s => r = .ok () → Joined t s) s := by
  refine wp_call (fun b' tx heq hc => ?_) (fun e s => nofun) fun s₁ c ha => ?_
  · cases heq
    cases hc
  · change (commit t (.advance .joining) c s₁).2 = .ok () at ha
    show Joined t (commit t (.advance .joining) c s₁).1
    unfold commit at ha ⊢
    cases hrun : (Tx.advance .joining).apply c.now s₁.run with
    | error e =>
      simp only [hrun] at ha
      cases ha
    | ok run =>
      refine ⟨rfl, fun hcompleted => ?_⟩
      have hstatus : run.status = .completed := flushed_status.symm.trans hcompleted
      rw [(queued_of_joins rfl hrun).2] at hstatus
      cases hstatus

theorem uses_cleanUp : (cleanUp (Worker.call b)).run.Uses Harmless := by
  refine Task.uses_bind (uses_call rfl) fun _ => ?_
  refine Task.uses_bind (Task.uses_rescue (uses_call rfl) fun _ => trivial) fun _ => ?_
  exact uses_call rfl

/-- `attend` raises, or ends with a run that is over. -/
theorem wp_attend : (inner b).wp t k (attend (Worker.call b) hasBlob m).run Ended s := by
  apply wp_seq (wp_any (uses_call rfl))
  intro _ s₁ _
  refine wp_ensuring uses_cleanUp (Protocol.wp_task_bind.mpr ?_)
  refine Protocol.wp_mono wp_joining fun r s₂ h₂ => ?_
  cases r with
  | error e => exact ended_error
  | ok u => exact wp_afterJoining (h₂ rfl)

end programs

section runtimes

variable {S : Worker.Settings} {p : Worker.Plan} {k : Role}

/-- What has been read of the run holds. -/
def Seen (r : Except Raised Bool) (s : Scene) : Prop := r = .ok true → Over s

theorem wp_dbTerminal : (inner b).wp t k (dbTerminal (Worker.call b)).run Seen s := by
  refine Protocol.wp_task_bind.mpr ?_
  refine wp_call (fun b' tx heq => ?_) (fun e s => nofun) fun s₁ c hr => ?_
  · cases heq
  · exact Except.ok.inj hr

theorem wp_waitForDbTerminal (n : ℕ) :
    (inner b).wp t k (waitForDbTerminal (Worker.call b) (Worker.perform .sleep) n).run Seen s := by
  induction n generalizing s with
  | zero => exact wp_dbTerminal
  | succ n ih =>
    refine Protocol.wp_task_bind.mpr (Protocol.wp_mono wp_dbTerminal fun r s₁ h₁ => ?_)
    match r with
    | .error e => exact nofun
    | .ok true => exact fun _ => h₁ rfl
    | .ok false =>
      show (inner b).wp t k (do
        Worker.perform .sleep
        waitForDbTerminal (Worker.call b) (Worker.perform .sleep) n : Worker.Act Bool).run Seen s₁
      refine Protocol.wp_task_bind.mpr
        (Protocol.wp_mono (wp_any (uses_perform trivial)) fun r s₂ _ => ?_)
      cases r with
      | error e => exact nofun
      | ok u => exact ih

theorem wp_dbTerminalAfter (result : Worker.JobResult) :
    (inner b).wp t k (Worker.dbTerminalAfter (Worker.call b) (Worker.perform .sleep) p.polls
      result).run Seen s := by
  unfold Worker.dbTerminalAfter
  split_ifs
  · exact wp_waitForDbTerminal _
  · exact wp_dbTerminal

/-- The run is over, or it fails. -/
theorem wp_decides {x : Worker.Act Bool} {f : Bool → Worker.Act Unit}
    (hx : (inner b).wp t k x.run Seen s)
    (htrue : ∀ s, Over s → (inner b).wp t k (f true).run Ended s)
    (hfalse : ∀ s, (inner b).wp t k (f false).run Ended s) :
    (inner b).wp t k (x >>= f).run Ended s := by
  refine Protocol.wp_task_bind.mpr (Protocol.wp_mono hx fun r s₁ h₁ => ?_)
  match r with
  | .error e => exact ended_error
  | .ok true => exact htrue s₁ (h₁ rfl)
  | .ok false => exact hfalse s₁

theorem uses_supervise : (Worker.supervise b).run.Uses Harmless := by
  refine Task.uses_bind (uses_perform (i := .getJob b) trivial) fun existing => ?_
  have hwait := uses_perform (i := .waitTerminal b) trivial
  cases existing with
  | true => exact hwait
  | false => exact Task.uses_bind (uses_perform (i := .createJob b) trivial) fun _ => hwait

theorem wp_spawnJob : (inner b).wp t k (Worker.spawnJob S b p).run Ended s := by
  have hsupervise : ((Worker.supervise b).ensuring
      ((Worker.perform .closeJobs).rescue fun _ => pure ())).run.Uses Harmless :=
    Task.uses_ensuring uses_supervise (Task.uses_rescue (uses_perform trivial) fun _ => trivial)
  apply wp_seq (wp_any hsupervise)
  intro result s₁ _
  unfold Worker.settleJob
  split_ifs
  · have hdelete : ((Worker.perform (.deleteJob b)).rescue fun _ => pure ()).run.Uses Harmless :=
      Task.uses_rescue (uses_perform trivial) fun _ => trivial
    apply wp_seq (wp_any hdelete)
    intro _ s₂ _
    exact wp_decides (wp_waitForDbTerminal _) (fun s ho _ => ho) fun s => wp_failRun _
  · refine wp_decides (wp_dbTerminalAfter result) (fun s ho _ => ho) fun s => ?_
    obtain ⟨code, hcode⟩ := Worker.resolveJobOutcome_some result
    rw [hcode]
    exact wp_failRun code

theorem wp_spawnAttend : (inner b).wp t k (Worker.spawnAttend S b p).run Ended s :=
  wp_ensuring (uses_perform (i := .attended b) trivial) wp_attend

theorem wp_spawn : (inner b).wp t k (Worker.spawn S b p).run Ended s := by
  unfold Worker.spawn
  cases S.botRuntime with
  | process =>
    apply wp_seq (wp_any (uses_call rfl))
    intro _ s₁ _
    apply wp_seq (wp_any (uses_perform (i := .prepareLaunch b) trivial))
    intro _ s₂ _
    exact wp_spawnAttend
  | job => exact wp_spawnJob

/-- A bot process attends, and fails the run if it cannot. -/
theorem wp_botRun (errorCode : Option String → String) :
    (inner b).wp t k (Worker.botRun S b p errorCode).run (fun _ _ => True) s := by
  have hattend : (inner b).wp t k (do
      Worker.perform (.prepareLaunch b)
      let _ ← Worker.call b .getRun
      Worker.spawnAttend S b p : Worker.Act Unit).run Ended s := by
    apply wp_seq (wp_any (uses_perform (i := .prepareLaunch b) trivial))
    intro _ s₁ _
    apply wp_seq (wp_any (uses_call rfl))
    intro _ s₂ _
    exact wp_spawnAttend
  have hhandled : ∀ code s, (inner b).wp t k ((failRun (Worker.call b) S.hasBlob
      (errorCode code)).rescue fun _ => pure ()).run (fun _ _ => True) s := by
    intro code s
    refine Protocol.wp_rescue.mpr (Protocol.wp_mono (wp_failRun _) fun r s₁ _ => ?_)
    match r with
    | .ok _ | .error (.exception _) | .error .cancelled => trivial
  refine Protocol.wp_ensuring.mpr (Protocol.wp_mono (Q := fun _ _ => True) ?_ fun r s₁ _ => ?_)
  · refine Protocol.wp_rescue.mpr (Protocol.wp_mono hattend fun r s₁ _ => ?_)
    match r with
    | .ok _ | .error .cancelled => trivial
    | .error (.exception code) => exact hhandled code s₁
  · refine Protocol.wp_mono (wp_any (uses_perform (i := .podEnded b) trivial)) fun c s₂ _ => ?_
    cases c <;> trivial

end runtimes

section runs

/-- Each thread keeps to the protocol. -/
theorem sound (b : ℕ) : (protocol b).Sound where
  idle _ h := h
  final _ h := h
  start {t k s s'} hi _ _ hb := by
    cases Option.some.inj hb
    refine ⟨⟨hi, fun u _ => Rely.refl u _, Kept.refl _⟩, ?_⟩
    cases k with
    | spawn S p =>
      refine Protocol.wp_bind.mpr (Protocol.wp_mono (Protocol.wp_embed wp_spawn) fun r s₁ h₁ => ?_)
      cases r with
      | error e => trivial
      | ok a =>
        refine fun s₂ hr hi₂ _ c s₃ _ he => ?_
        obtain ⟨rfl, -⟩ := Prod.mk.inj (Option.some.inj he)
        have hover : Over s₂ := hr.kept.over (h₁ ⟨a, rfl⟩)
        have hkept : Kept s₂ { s₂ with returned := t :: s₂.returned } :=
          fun _ => SameOutcome.refl _
        exact ⟨⟨⟨hi₂.joined, fun _ => hover⟩, fun u _ => ⟨hkept, fun _ => id, fun _ => id⟩, hkept⟩,
          trivial⟩
    | botRun S p errorCode =>
      have hrun := Protocol.wp_embed (wp_botRun (b := b) (s := s) (t := t) (S := S) (p := p)
        (k := .botRun S p errorCode) errorCode)
      exact Protocol.wp_bind.mpr (Protocol.wp_mono hrun fun _ _ _ => trivial)
  kill hi _ := ⟨⟨hi, fun u _ => Rely.refl u _, Kept.refl _⟩, trivial⟩
  env {w s s'} hi _ he := by
    obtain ⟨run, hrun, rfl⟩ := Option.map_eq_some_iff.mp he
    cases happly : w.apply s.run with
    | error e =>
      rw [happly] at hrun
      cases hrun
    | ok run' =>
      rw [happly] at hrun
      cases hrun
      obtain ⟨hfollows, hcompleted⟩ := follows_world happly
      exact ⟨inv_stored hi hfollows, fun u => rely_stored hfollows fun _ => hcompleted⟩

theorem holds_init (b : ℕ) (run : BotRun) :
    (protocol b).Holds ((runtimes b).init { run := run }) :=
  Protocol.holds_init ⟨nofun, fun h => absurd rfl h⟩ fun _ => trivial

end runs

/-- Once a spawn has returned the run is over, and a run that is over stays as it ended. -/
theorem spawn_ends (b : ℕ) (run : BotRun) (es es' : List (Event Role Outcome World))
    (s s' : (runtimes b).State)
    (hrun : (runtimes b).run ((runtimes b).init { run := run }) es = some s)
    (hrest : (runtimes b).run s es' = some s') :
    (s.shared.returned ≠ [] → s.shared.run.status.terminal = true) ∧
      (s.shared.run.status.terminal = true → SameOutcome s.shared.run s'.shared.run) := by
  have hholds := (sound b).run (holds_init b run) (Machine.free_meets _ _) hrun
  constructor
  · exact hholds.inv.returned
  · have hkept : Kept s.shared s'.shared :=
      (sound b).run_relates Kept.refl (fun h h' => h.trans h') (fun h => h)
        (fun h => (h 0).kept) hholds (Machine.free_meets _ _) hrest
    exact hkept

section runs

def queuedRun : BotRun :=
  { id := 0, meetingUrl := "https://meet.google.com/abc-defg-hij", meetingKey := "abc-defg-hij"
    idempotencyKey := none, displayName := none, status := .queued, createdAt := 0, updatedAt := 0 }

/-- A bot that is let in stays to the end of its meeting, and its job is gone by then. -/
def answers : (i : Worker.Call) → Worker.Answer i
  | .attend _ .waitAdmitted => .ok true
  | .attend _ .waitMeetingEnded => .ok false
  | .attend _ .requestedStopReason => .ok none
  | .attend _ .restoreProfile | .attend _ .persistProfile | .attend _ .createHeartbeat
  | .attend _ .cancelHeartbeat | .attend _ .clearBeat | .attend _ .openBrowser
  | .attend _ .closeBrowser | .attend _ .joinMeeting | .attend _ .leaveMeeting => .ok ()
  | .attended _ | .podEnded _ | .prepareLaunch _ | .createJob _ | .closeJobs => .ok ()
  | .getJob _ => .ok false
  | .waitTerminal _ => .ok .missing
  | _ => .error (.exception none)

abbrev Events := List (Event Role Outcome World)

def steps (t n : ℕ) : Events := List.replicate n (.step t { answer := answers })

def jobs : Worker.Settings := { maxConcurrentRuns := 1, botRuntime := .job }

/-- The bot process attends from its first call to its last while `spawn` waits for its job. -/
def attended : Events :=
  .start 0 (.spawn jobs {}) :: steps 0 2 ++
    .start 1 (.botRun jobs {} fun code => code.getD "internal") :: steps 1 21 ++ steps 0 4

theorem spawn_ends_attended : ∃ s,
    (runtimes 0).run ((runtimes 0).init { run := queuedRun }) attended = some s ∧
      s.shared.returned = [0] ∧ s.shared.run.status = .completed ∧
      s.shared.run.status.terminal = true := by
  have hsome : ((runtimes 0).run ((runtimes 0).init { run := queuedRun }) attended).any (fun s =>
      s.shared.returned = [0] ∧ s.shared.run.status = .completed) = true := by
    decide +kernel
  obtain ⟨s, hs, hended⟩ := (Option.any_eq_true _ _).mp hsome
  obtain ⟨hreturned, hcompleted⟩ := of_decide_eq_true hended
  refine ⟨s, hs, hreturned, hcompleted, (spawn_ends 0 queuedRun attended [] s s hs rfl).1 ?_⟩
  rw [hreturned]
  exact List.cons_ne_nil 0 []

end runs

end Fakery.Spawn
