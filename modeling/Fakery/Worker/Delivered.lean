import Fakery.Worker.Attending
import Fakery.Worker.Guarded

/-! No queued run is lost: whatever an execution ends with, its run has left the queue, or another
reservation has turned the execution away. -/
namespace Fakery.Worker
open Fakery.Bots Fakery.Concurrent Fakery.Runtime

variable {S : Settings} {t b : ℕ} {k : Role} {i : Call} {c : Outcome} {s s' v : Cluster} {x : Claim}
  {h : Prop} {α β : Type} {p : Plan}

section transactions

variable {tx : Tx} {run run' : BotRun} {now : ℕ}

theorem status_of_dequeues (hd : dequeues tx = true) (ha : tx.apply now run = .ok run') :
    run'.status ≠ .queued := by
  intro hq
  match tx with
  | .advance .joining =>
    have hjoining : run'.status = .joining := status_of_advance ha
    cases hjoining.symm.trans hq
  | .failRun code =>
    have hterminal : run'.status.terminal = true := terminal_of_failRun ha
    rw [hq] at hterminal
    cases hterminal

/-- Such a transaction does not fail on a queued run. -/
theorem apply_ne_error {e : Core.TwinError} (hd : dequeues tx = true) (hq : run.status = .queued) :
    tx.apply now run ≠ .error e := by
  intro ha
  match tx with
  | .advance .joining =>
    have hc : canTransition run.status .joining = false := BotRun.advance_error ha
    rw [hq] at hc
    cases hc
  | .failRun code =>
    have hf : run.failRun code now = .error e := ha
    unfold BotRun.failRun at hf
    split_ifs at hf with ht
    have hc : canTransition (run.failing code).status .failed = false := BotRun.advance_error hf
    have hs : (run.failing code).status = .queued := hq
    rw [hs] at hc
    cases hc

theorem dequeued_of_run (hrun : s.runs b = some run) (hs : run.status ≠ .queued) :
    s.Dequeued b := by
  refine ⟨Option.isSome_iff_exists.mpr ⟨run, hrun⟩, ?_⟩
  unfold Cluster.queued Cluster.status
  rw [hrun]
  exact decide_eq_false fun hq => hs (Option.some.inj hq)

theorem effect_dequeues {r : Answer (.attend b (.transaction tx))} (hd : dequeues tx = true)
    (he : effect S t (.attend b (.transaction tx)) c s = some (v, r)) :
    (∀ a, r = .ok a → v.Dequeued b) ∧
      (∀ e, r = .error e → (s.runs b).isSome = true → s.Dequeued b ∧ v = s) := by
  rcases transaction_cases (Option.some.inj he) with
    ⟨rfl, rfl, herror⟩ | ⟨run, run', hrun, ha, rfl, rfl⟩
  · refine ⟨nofun, fun e _ hsome => ⟨?_, rfl⟩⟩
    obtain ⟨run, hrun⟩ := Option.isSome_iff_exists.mp hsome
    obtain ⟨e, ha⟩ := herror run hrun
    exact dequeued_of_run hrun fun hq => apply_ne_error hd hq ha
  · refine ⟨fun _ _ => ?_, nofun⟩
    have hset : s.setRun b (BotRun.flushed run c.now run') |>.Dequeued b := by
      refine dequeued_of_run (Function.update_self _ _ _) ?_
      rw [flushed_status]
      exact status_of_dequeues hd ha
    split
    · exact hset
    · exact hset

end transactions

section calls

/-- What a call raises by itself is no cancellation. -/
theorem effect_error {r : Answer i} {e : Raised} (he : effect S t i c s = some (v, r))
    (hr : r = .error e) : cancels e = false := by
  subst hr
  cases i with
  | attend b j =>
    have hattend : attendEffect S t b j c s = (v, .error e) := Option.some.inj he
    cases j with
    | transaction tx =>
      rcases transaction_cases hattend with ⟨-, hr, -⟩ | ⟨_, _, _, _, hr, -⟩
      · cases hr
        rfl
      · cases hr
    | getRun =>
      simp only [attendEffect] at hattend
      split at hattend
      · cases (Prod.mk.inj hattend).2
        rfl
      · cases (Prod.mk.inj hattend).2
    | _ => cases (Prod.mk.inj hattend).2
  | createJob b =>
    simp only [effect] at he
    split at he
    · cases (Prod.mk.inj (Option.some.inj he)).2
      rfl
    · cases (Prod.mk.inj (Option.some.inj he)).2
  | deleteJob b =>
    simp only [effect] at he
    split at he
    · cases (Prod.mk.inj (Option.some.inj he)).2
      rfl
    · cases (Prod.mk.inj (Option.some.inj he)).2
  | waitTerminal b =>
    simp only [effect] at he
    split at he
    · cases (Prod.mk.inj (Option.some.inj he)).2
    · cases he
  | cancel b =>
    simp only [effect] at he
    split at he
    · cases (Prod.mk.inj (Option.some.inj he)).2
      rfl
    · split at he
      · cases (Prod.mk.inj (Option.some.inj he)).2
        rfl
      · cases (Prod.mk.inj (Option.some.inj he)).2
  | _ => cases (Prod.mk.inj (Option.some.inj he)).2

/-- What a part of an execution leaves: if it raises what nothing catches any more, or returns what
`P` tells of, the execution has been released. `h` tells whether it is in the `except` clause. -/
structure Leaves (x : Claim) (h : Prop) (P : α → Prop) (r : Except Raised α) (s : Cluster) :
    Prop where
  held : Held x h s
  error : ∀ e, r = .error e → cancels e = true ∨ h → Released x s
  ok : ∀ a, r = .ok a → P a → Released x s

theorem Leaves.of_released {P : α → Prop} {r : Except Raised α} (hh : Held x h s)
    (ho : Released x s) : Leaves x h P r s := ⟨hh, fun _ _ _ => ho, fun _ _ _ => ho⟩

/-- An execution that has not been released does not abandon its run. -/
theorem not_abandons (hh : Held x h s) (hc : (unbroken S).call x.thread k i s)
    (ho : ¬Released x s) : s.abandons x.thread x.bot i = false := by
  have hout : x.thread ∉ s.leaving := fun hl => ho (Or.inr hl)
  refine hc x hh.mem rfl hout ?_
  by_contra hq
  exact ho (Or.inl ⟨hh.run, (Bool.not_eq_true _).mp hq⟩)

/-- A call that raises leaves the execution released, or something still catches what it raises. -/
theorem released_of_raising {r₀ : Answer i} {e : Raised} {reached : Bool} (hh : Held x h s)
    (hc : (unbroken S).call x.thread k i s) (he : effect S x.thread i c s = some (v, r₀))
    (hv : Released x s → Released x v) (hraising : s.raising x.thread = some (e, reached))
    (hi : i.raises = true) (hcatch : cancels e = true ∨ h) :
    Released x (if reached then v else s) := by
  have hkeep : Released x s → Released x (if reached then v else s) := by
    intro ho
    split
    · exact hv ho
    · exact ho
  by_cases ho : Released x s
  · exact hkeep ho
  · have habandons := not_abandons hh hc ho
    simp only [Cluster.abandons, Bool.or_eq_false_iff] at habandons
    have hescapes : s.escapes x.thread x.bot i = false := habandons.1
    have hcaught : (cancels e || decide (x.thread ∈ s.handling)) = true := by
      rcases hcatch with hcancel | hhandling
      · rw [hcancel, Bool.true_or]
      · rw [decide_eq_true (hh.handling.mpr hhandling), Bool.or_true]
    have hcommitted : reached = true ∧ i.dequeues x.bot = true := by
      simpa [Cluster.escapes, hi, hraising, hcaught] using hescapes
    obtain ⟨rfl, hdequeues⟩ := hcommitted
    rw [if_pos rfl]
    match i, hdequeues with
    | .attend b' (.transaction tx), hdequeues =>
      simp only [Call.dequeues, Bool.and_eq_true, decide_eq_true_eq] at hdequeues
      obtain ⟨rfl, htx⟩ := hdequeues
      obtain ⟨hok, herror⟩ := effect_dequeues htx he
      cases r₀ with
      | ok a => exact Or.inl (hok a rfl)
      | error e₀ =>
        obtain ⟨hd, rfl⟩ := herror e₀ rfl hh.run
        exact Or.inl hd

theorem exec_leaves {P : Reply i → Prop} {r : Answer i} (hn : i.Neutral) (hh : Held x h s)
    (hc : (unbroken S).call x.thread k i s) (he : exec S x.thread i c s = some (s', r))
    (hans : ∀ c v r, effect S x.thread i c s = some (v, r) →
      (∀ e, r = .error e → h → Released x s) ∧ ∀ a, r = .ok a → P a → Released x v) :
    Leaves x h P r s' := by
  have hkeeps := (keeps_of_neutral hn).1
  have hheld : Held x h s' := hh.keeping (exec_keeping hkeeps he)
  obtain ⟨v, r₀, heffect, ⟨rfl, rfl, -⟩ | ⟨e, reached, hraising, hi, rfl, rfl⟩⟩ := exec_cases he
  · have hnote : ∀ {s}, Released x s → Released x (note x.thread i r s) := fun ho =>
      ho.keeping (keeping_note (E := fun _ => False) hkeeps r _)
    obtain ⟨herror, hok⟩ := hans c v r heffect
    refine ⟨hheld, fun e hr hcatch => ?_, fun a hr ha => hnote (hok a hr ha)⟩
    rcases hcatch with hcancel | hhandling
    · rw [effect_error heffect hr] at hcancel
      cases hcancel
    · exact hnote ((herror e hr hhandling).keeping (effect_keeping hkeeps heffect))
  · refine ⟨hheld, fun e' hr hcatch => ?_, nofun⟩
    obtain rfl := Except.error.inj hr
    have hv : Released x s → Released x v := fun ho => ho.keeping (effect_keeping hkeeps heffect)
    have ho := released_of_raising hh hc heffect hv hraising hi hcatch
    have hraised : Keeping (fun _ => False) (if reached then v else s)
        { if reached then v else s with raising := Function.update s.raising x.thread none } :=
      keeping_of_eq rfl rfl rfl rfl rfl rfl
    exact (ho.keeping hraised).keeping (keeping_note (E := fun _ => False) hkeeps _ _)

end calls

section rules

variable {P : α → Prop} {Q : β → Prop} {y : Act α} {f : α → Act β} {q : Prog Call Answer α}

theorem wp_neutral {P : Reply i → Prop} (hn : i.Neutral) (hh : Held x h s)
    (hans : ∀ c s v r, Accounted s → Held x h s → (unbroken S).call x.thread k i s →
      effect S x.thread i c s = some (v, r) →
        (∀ e, r = .error e → h → Released x s) ∧ ∀ a, r = .ok a → P a → Released x v) :
    (accounting S).wp x.thread k (perform i).run (Leaves x h P) s := by
  refine (Protocol.wp_ask i).mpr fun s₁ hu hi hc c s₂ r he => ⟨allowed_neutral hi hn he, ?_⟩
  have hh₁ : Held x h s₁ := hh.guarding hu
  exact exec_leaves hn hh₁ hc he fun c v r => hans c s₁ v r hi hh₁ hc

/-- A call of which nothing is expected. -/
theorem wp_plainly (i : Call) (hn : i.Neutral) (hh : Held x False s) :
    (accounting S).wp x.thread k (perform i).run (Leaves x False fun _ => False) s :=
  wp_neutral hn hh fun _ _ _ _ _ _ _ _ => ⟨fun _ _ => False.elim, fun _ _ => False.elim⟩

/-- Once released, an execution may do whatever leaves the stream alone. -/
theorem wp_gone (hq : q.Uses Call.Neutral) (hh : Held x h s) (ho : Released x s) :
    (accounting S).wp x.thread k q (fun _ s => Held x h s ∧ Released x s) s := by
  refine Protocol.wp_frame (A := fun s => Held x h s ∧ Released x s) hq ⟨hh, ho⟩
    (fun s s' hu _ hA => ⟨hA.1.guarding hu, hA.2.guarding hu⟩) fun i c s s' r hn hi _ hA he => ?_
  have hk := exec_keeping (keeps_of_neutral hn).1 he
  exact ⟨allowed_neutral hi hn he, hA.1.keeping hk, hA.2.keeping hk⟩

theorem wp_released (hq : y.run.Uses Call.Neutral) (hh : Held x h s) (ho : Released x s) :
    (accounting S).wp x.thread k y.run (Leaves x h P) s :=
  Protocol.wp_mono (wp_gone hq hh ho) fun _ _ hA => .of_released hA.1 hA.2

theorem wp_leaves (a : α) (hh : Held x h s) (ha : P a → Released x s) :
    (accounting S).wp x.thread k (pure a : Act α).run (Leaves x h P) s :=
  ⟨hh, nofun, fun _ hr hP => ha (Except.ok.inj hr ▸ hP)⟩

theorem wp_then (hy : (accounting S).wp x.thread k y.run (Leaves x h P) s)
    (hf : ∀ a s, Held x h s → (P a → Released x s) →
      (accounting S).wp x.thread k (f a).run (Leaves x h Q) s) :
    (accounting S).wp x.thread k (y >>= f).run (Leaves x h Q) s := by
  refine Protocol.wp_task_bind.mpr (Protocol.wp_mono hy fun r s₁ h₁ => ?_)
  cases r with
  | ok a => exact hf a s₁ h₁.held (h₁.ok a rfl)
  | error e => exact ⟨h₁.held, fun e' hr => h₁.error e' (congrArg _ (Except.error.inj hr)), nofun⟩

theorem wp_caught {g : Option String → Act α}
    (hy : (accounting S).wp x.thread k y.run (Leaves x h P) s)
    (hg : ∀ code s, Held x h s → (accounting S).wp x.thread k (g code).run (Leaves x h P) s) :
    (accounting S).wp x.thread k (y.rescue g).run (Leaves x h P) s := by
  refine Protocol.wp_rescue.mpr (Protocol.wp_mono hy fun r s₁ h₁ => ?_)
  match r with
  | .ok _ | .error .cancelled => exact h₁
  | .error (.exception code) => exact hg code s₁ h₁.held

/-- A `finally` does not take back that an execution has been released. -/
theorem wp_finally {z : Act Unit} (hy : (accounting S).wp x.thread k y.run (Leaves x h P) s)
    (hz : z.run.Uses Call.Neutral)
    (hl : ∀ s, Held x h s → (accounting S).wp x.thread k z.run (Leaves x h fun _ => False) s) :
    (accounting S).wp x.thread k (y.ensuring z).run (Leaves x h P) s := by
  refine Protocol.wp_ensuring.mpr (Protocol.wp_mono hy fun r s₁ h₁ => ?_)
  by_cases ho : Released x s₁
  · refine Protocol.wp_mono (wp_gone hz h₁.held ho) fun c s₂ h₂ => ?_
    cases c with
    | ok _ => exact .of_released h₂.1 h₂.2
    | error _ => exact .of_released h₂.1 h₂.2
  · refine Protocol.wp_mono (hl s₁ h₁.held) fun c s₂ h₂ => ?_
    cases c with
    | ok _ =>
      refine ⟨h₂.held, fun e hr hcatch => ?_, fun a hr ha => ?_⟩
      · exact absurd (h₁.error e hr hcatch) ho
      · exact absurd (h₁.ok a hr ha) ho
    | error e => exact ⟨h₂.held, fun e' hr => h₂.error e' (congrArg _ (Except.error.inj hr)), nofun⟩

end rules

section programs

theorem neutral_of_looks (hi : i.Looks) : i.Neutral := by
  unfold Call.Looks at hi
  split at hi
  all_goals first | exact hi.elim | trivial

/-- A transaction after which the run is not queued. -/
theorem wp_dequeuing {tx : Tx} (hd : dequeues tx = true) (hh : Held x h s) :
    (accounting S).wp x.thread k (call x.bot (.transaction tx)).run
      (Leaves x h fun _ => True) s := by
  refine wp_neutral trivial hh fun c s v r _ hh _ he => ?_
  obtain ⟨hok, herror⟩ := effect_dequeues hd he
  exact ⟨fun e hr _ => Or.inl (herror e hr hh.run).1, fun a hr _ => Or.inl (hok a hr)⟩

theorem wp_getRun (hh : Held x h s) : (accounting S).wp x.thread k (call x.bot .getRun).run
    (Leaves x h fun run => run.status ≠ .queued) s := by
  refine wp_neutral trivial hh fun c s v r _ hh _ he => ?_
  obtain ⟨run, hrun⟩ := Option.isSome_iff_exists.mp hh.run
  simp only [effect, attendEffect, hrun, Option.some.injEq, Prod.mk.injEq] at he
  obtain ⟨rfl, rfl⟩ := he
  constructor
  · intro e hr
    cases hr
  · intro a hr hs
    obtain rfl := Except.ok.inj hr
    exact Or.inl (dequeued_of_run hrun hs)

theorem wp_recoverCheckpoint (hh : Held x h s) :
    (accounting S).wp x.thread k (recoverCheckpoint (call x.bot) S.hasBlob).run
      (Leaves x h fun _ => False) s := by
  unfold recoverCheckpoint
  split
  · apply wp_then (wp_getRun hh)
    intro run s₁ h₁ _
    split
    · exact wp_leaves _ h₁ False.elim
    · have hrestore : (accounting S).wp x.thread k (call x.bot .restorePrefix).run
          (Leaves x h fun _ => False) s₁ := by
        refine wp_neutral trivial h₁ fun c s v r _ _ _ he => ?_
        obtain ⟨rfl, rfl⟩ := Prod.mk.inj (Option.some.inj he)
        exact ⟨nofun, fun _ _ => False.elim⟩
      apply wp_then (wp_caught hrestore fun _ s h₂ => wp_leaves _ h₂ False.elim)
      intro artifact s₂ h₂ _
      split
      · exact wp_leaves _ h₂ False.elim
      · refine wp_neutral trivial h₂ fun c s v r _ hh _ he =>
          ⟨fun e hr _ => ?_, fun _ _ => False.elim⟩
        rcases transaction_cases (Option.some.inj he) with ⟨-, -, herror⟩ | ⟨_, _, _, _, hok, -⟩
        · obtain ⟨run, hrun⟩ := Option.isSome_iff_exists.mp hh.run
          obtain ⟨e, ha⟩ := herror run hrun
          cases ha
        · cases hok.symm.trans hr
  · exact wp_leaves _ hh False.elim

/-- `fail_run` takes the run out of the queue, or raises what something still catches. -/
theorem wp_failRun (code : String) (hh : Held x h s) :
    (accounting S).wp x.thread k (failRun (call x.bot) S.hasBlob code).run
      (Leaves x h fun _ => True) s := by
  apply wp_then (wp_recoverCheckpoint hh)
  intro _ s₁ h₁ _
  exact wp_dequeuing rfl h₁

theorem wp_cleaned (hh : Held x False s) : (accounting S).wp x.thread k (cleanUp (call x.bot)).run
    (Leaves x False fun _ => False) s := by
  apply wp_then (wp_plainly (.attend x.bot .cancelHeartbeat) trivial hh)
  intro _ s₁ h₁ _
  apply wp_then (wp_caught (wp_plainly (.attend x.bot .clearBeat) trivial h₁)
    fun _ s h₂ => wp_leaves _ h₂ False.elim)
  intro _ s₂ h₂ _
  exact wp_plainly (.attend x.bot .persistProfile) trivial h₂

theorem uses_neutral (j : Runtime.Call) : (call b j).run.Uses Call.Neutral := uses_call trivial

/-- `attend` returns only after it has made the run joining. -/
theorem wp_attended (hh : Held x False s) :
    (accounting S).wp x.thread k (attend (call x.bot) S.hasBlob p.meeting).run
      (Leaves x False fun _ => True) s := by
  apply wp_then (wp_plainly (.attend x.bot .restoreProfile) trivial hh)
  intro _ s₁ h₁ _
  refine wp_finally ?_ (uses_cleanUp fun j _ => uses_neutral j) fun s h₂ => wp_cleaned h₂
  apply wp_then (wp_dequeuing rfl h₁)
  intro _ s₂ h₂ ho
  exact wp_released (uses_afterJoining fun j _ => uses_neutral j) h₂ (ho trivial)

theorem wp_attending (hh : Held x False s) :
    (accounting S).wp x.thread k (spawnAttend S x.bot p).run (Leaves x False fun _ => True) s :=
  wp_finally (wp_attended hh) (uses_call (i := .attended x.bot) trivial) fun _ h₁ =>
    wp_plainly (.attended x.bot) trivial h₁

theorem wp_terminal (hh : Held x False s) :
    (accounting S).wp x.thread k (dbTerminal (call x.bot)).run (Leaves x False fun r => r = true) s := by
  apply wp_then (wp_getRun hh)
  intro run s₁ h₁ ho
  refine wp_leaves _ h₁ fun hterminal => ho fun hq => ?_
  rw [hq] at hterminal
  cases hterminal

theorem wp_sleeping (hh : Held x False s) :
    (accounting S).wp x.thread k (perform .sleep).run (Leaves x False fun _ => False) s :=
  wp_plainly .sleep trivial hh

theorem wp_waitTerminal (n : ℕ) (hh : Held x False s) :
    (accounting S).wp x.thread k (waitForDbTerminal (call x.bot) (perform .sleep) n).run
      (Leaves x False fun r => r = true) s := by
  induction n generalizing s with
  | zero => exact wp_terminal hh
  | succ n ih =>
    apply wp_then (wp_terminal hh)
    intro r s₁ h₁ ho
    cases r with
    | true => exact wp_leaves true h₁ ho
    | false =>
      apply wp_then (wp_sleeping h₁)
      intro _ s₂ h₂ _
      exact ih h₂

theorem wp_terminalAfter (result : JobResult) (hh : Held x False s) :
    (accounting S).wp x.thread k (dbTerminalAfter (call x.bot) (perform .sleep) p.polls result).run
      (Leaves x False fun r => r = true) s := by
  unfold dbTerminalAfter
  split
  · exact wp_waitTerminal _ hh
  · exact wp_terminal hh

theorem wp_supervised (hh : Held x False s) :
    (accounting S).wp x.thread k (supervise x.bot).run (Leaves x False fun _ => False) s := by
  have hwait : ∀ {s}, Held x False s → (accounting S).wp x.thread k
      (perform (.waitTerminal x.bot)).run (Leaves x False fun _ => False) s :=
    fun h₁ => wp_plainly (.waitTerminal x.bot) trivial h₁
  apply wp_then (wp_plainly (.getJob x.bot) trivial hh)
  intro r s₁ h₁ _
  cases r with
  | true => exact hwait h₁
  | false => exact wp_then (wp_plainly (.createJob x.bot) trivial h₁) fun _ _ h₂ _ => hwait h₂

/-- The runtime of a job returns only when it has read that the run is over, or has failed it. -/
theorem wp_spawnedJob (hh : Held x False s) :
    (accounting S).wp x.thread k (spawnJob S x.bot p).run (Leaves x False fun _ => True) s := by
  have hclose : ((perform .closeJobs).rescue fun _ => pure ()).run.Uses Call.Neutral :=
    Task.uses_rescue (uses_call trivial) fun _ => trivial
  apply wp_then (wp_finally (wp_supervised hh) hclose fun s h₁ =>
    wp_caught (wp_plainly .closeJobs trivial h₁) fun _ s h₂ => wp_leaves _ h₂ False.elim)
  intro result s₁ h₁ _
  unfold settleJob
  split
  · apply wp_then (wp_caught (wp_plainly (.deleteJob x.bot) trivial h₁) fun _ s h₂ =>
      wp_leaves _ h₂ False.elim)
    intro _ s₂ h₂ _
    apply wp_then (wp_waitTerminal p.polls h₂)
    intro r s₃ h₃ ho
    cases r with
    | true => exact wp_leaves () h₃ fun _ => ho rfl
    | false => exact wp_failRun _ h₃
  · apply wp_then (wp_terminalAfter result h₁)
    intro r s₂ h₂ ho
    cases r with
    | true => exact wp_leaves () h₂ fun _ => ho rfl
    | false =>
      obtain ⟨code, hcode⟩ := resolveJobOutcome_some result
      rw [hcode]
      exact wp_failRun code h₂

theorem wp_spawning (hh : Held x False s) :
    (accounting S).wp x.thread k (spawn S x.bot p).run (Leaves x False fun _ => True) s := by
  unfold spawn
  split
  · apply wp_then (wp_getRun hh)
    intro _ s₁ h₁ _
    apply wp_then (wp_plainly (.prepareLaunch x.bot) trivial h₁)
    intro _ s₂ h₂ _
    exact wp_attending h₂
  · exact wp_spawnedJob hh

theorem wp_leasing (hh : Held x False s) :
    (accounting S).wp x.thread k (profileBusy S).run (Leaves x False fun _ => False) s := by
  unfold profileBusy
  split
  · refine Protocol.wp_bind.mpr
      (Protocol.wp_mono (wp_plainly .acquireLease trivial hh) fun r s₁ h₁ => ?_)
    cases r with
    | ok _ => exact ⟨h₁.held, nofun, fun _ _ => False.elim⟩
    | error e => exact ⟨h₁.held, fun e' hr => h₁.error e' (congrArg _ (Except.error.inj hr)), nofun⟩
  · exact wp_leaves _ hh False.elim

theorem wp_attempting (hh : Held x False s) :
    (accounting S).wp x.thread k (attempt S x.bot p).run (Leaves x False fun _ => True) s := by
  apply wp_then (wp_leasing hh)
  intro busy s₁ h₁ _
  cases busy with
  | true => exact wp_failRun _ h₁
  | false =>
    apply wp_then (wp_plainly .launchRuntime trivial h₁)
    intro _ s₂ h₂ _
    refine wp_finally (wp_spawning h₂) (uses_releaseLease fun _ => neutral_of_looks) fun s h₃ => ?_
    split
    · exact wp_caught (wp_plainly .releaseLease trivial h₃) fun _ s h₄ => wp_leaves _ h₄ False.elim
    · exact wp_leaves _ h₃ False.elim

theorem wp_waitCapacity (owner n : ℕ) (hh : Held x False s) :
    (accounting S).wp x.thread k (reserveCapacity x.bot owner n).run
      (Leaves x False fun _ => False) s := by
  have htry : ∀ {s}, Held x False s → (accounting S).wp x.thread k
      (perform (.tryReserve x.bot owner)).run (Leaves x False fun _ => False) s :=
    fun h₁ => wp_plainly (.tryReserve x.bot owner) trivial h₁
  induction n generalizing s with
  | zero => exact htry hh
  | succ n ih =>
    apply wp_then (htry hh)
    intro r s₁ h₁ _
    cases r with
    | true => exact wp_leaves true h₁ False.elim
    | false =>
      apply wp_then (wp_sleeping h₁)
      intro _ s₂ h₂ _
      exact ih h₂

/-- An execution that another reservation turns away is not the last one. -/
theorem wp_turnedAway (owner : ℕ) (hh : Held x False s) :
    (accounting S).wp x.thread k (perform (.hasOtherReservation x.bot owner)).run
      (Leaves x False fun r => r = true) s := by
  refine (Protocol.wp_ask _).mpr fun s₁ hu hi hc c s₂ r he => ?_
  have hh₁ : Held x False s₁ := hh.guarding hu
  obtain ⟨v, r₀, heffect,
    ⟨rfl, rfl, hnone⟩ | ⟨e, reached, hraising, hraises, rfl, rfl⟩⟩ := exec_cases he
  · obtain ⟨rfl, rfl⟩ := Prod.mk.inj (Option.some.inj heffect)
    cases hother : s₁.ledger.hasOther x.bot owner with
    | true =>
      have hleave := allowed_leaving (S := S) hi hh₁ fun hl hq => by
        have habandons := hc x hh₁.mem rfl hl hq
        simp only [Cluster.abandons, hnone rfl, hother, Option.isNone_none, Bool.true_and,
          Bool.or_eq_false_iff, Bool.not_eq_false', decide_eq_true_eq] at habandons
        exact habandons.2
      refine ⟨hleave, ⟨⟨hh₁.claims, hh₁.handling, hh₁.run⟩, nofun, fun _ _ _ => ?_⟩⟩
      exact Or.inr List.mem_cons_self
    | false =>
      have hkeep : Keeping (fun _ => False) s₁ { s₁ with failing := x.thread :: s₁.failing } :=
        keeping_of_eq rfl rfl rfl rfl rfl rfl
      refine ⟨allowed_keeping hi hkeep fun _ => False.elim, ⟨hh₁.keeping hkeep, nofun, ?_⟩⟩
      intro a hr ha
      cases (Except.ok.inj hr).trans ha
  · have hkeep : Keeping (fun _ => False) (if reached then v else s₁)
        { if reached then v else s₁ with raising := Function.update s₁.raising x.thread none } :=
      keeping_of_eq rfl rfl rfl rfl rfl rfl
    obtain ⟨rfl, -⟩ := Prod.mk.inj (Option.some.inj heffect)
    have hall : Keeping (fun _ => False) s₁ { if reached then s₁ else s₁ with
        raising := Function.update s₁.raising x.thread none } := by
      refine Keeping.trans ?_ hkeep
      rw [ite_self]
      exact .refl s₁
    refine ⟨allowed_keeping hi hall fun _ => False.elim, hh₁.keeping hall,
      fun e' hr hcatch => ?_, nofun⟩
    obtain rfl := Except.error.inj hr
    exact (released_of_raising hh₁ hc heffect id hraising hraises hcatch).keeping hkeep

theorem wp_cancelled (deciding : Bool) (hh : Held x False s) :
    (accounting S).wp x.thread k (perform (.isCancelled x.bot deciding)).run
      (Leaves x False fun r => r = true) s := by
  refine wp_neutral trivial hh fun c s v r hi _ _ he => ⟨fun _ _ => False.elim, fun a hr ha => ?_⟩
  obtain ⟨rfl, rfl⟩ := Prod.mk.inj (Option.some.inj he)
  have hkey : s.cancelKey x.bot = true := (Except.ok.inj hr).trans ha
  exact Or.inl (hi.cancelled x.bot hkey)

theorem wp_stopping (worker : ℕ) (hh : Held x False s) :
    (accounting S).wp x.thread k (stopped worker x.bot).run
      (Leaves x False fun r => r = true) s := by
  have hshutdown : (accounting S).wp x.thread k (perform (.shutdown worker)).run
      (Leaves x False fun r => r = true) s := by
    refine wp_neutral trivial hh fun c s v r _ hh hc he =>
      ⟨fun _ _ => False.elim, fun a hr ha => ?_⟩
    obtain ⟨rfl, rfl⟩ := Prod.mk.inj (Option.some.inj he)
    have hsigterm : s.sigterm worker = true := (Except.ok.inj hr).trans ha
    by_contra ho
    have habandons := not_abandons hh hc ho
    simp only [Cluster.abandons, hsigterm, Bool.or_true] at habandons
    cases habandons
  apply wp_then hshutdown
  intro r s₁ h₁ ho
  cases r with
  | true => exact wp_leaves true h₁ ho
  | false => exact wp_cancelled false h₁

theorem wp_pacing (worker n : ℕ) (hh : Held x False s) :
    (accounting S).wp x.thread k (pace worker x.bot n).run
      (Leaves x False fun r => r = false) s := by
  induction n generalizing s with
  | zero => exact wp_leaves true hh nofun
  | succ n ih =>
    apply wp_then (wp_stopping worker hh)
    intro r s₁ h₁ ho
    cases r with
    | true => exact wp_leaves false h₁ fun _ => ho rfl
    | false =>
      apply wp_then (wp_sleeping h₁)
      intro _ s₂ h₂ _
      exact ih h₂

theorem wp_executing (hh : Held x False s) :
    (accounting S).wp x.thread k (executeRun S x.bot p).run (Leaves x False fun _ => True) s := by
  apply wp_then (wp_cancelled true hh)
  intro cancelled s₁ h₁ _
  cases cancelled with
  | true => exact wp_failRun _ h₁
  | false =>
    apply wp_then (wp_getRun h₁)
    intro run s₂ h₂ ho
    split
    · rename_i hs
      exact wp_leaves () h₂ fun _ => ho hs
    · apply wp_then (wp_plainly .uuid4 trivial h₂)
      intro owner s₃ h₃ _
      apply wp_then (wp_waitCapacity owner p.attempts h₃)
      intro reserved s₄ h₄ _
      cases reserved with
      | true =>
        exact wp_finally (wp_attempting h₄) (uses_call (i := .releaseCapacity x.bot) trivial)
          fun s h₅ => wp_plainly (.releaseCapacity x.bot) trivial h₅
      | false =>
        apply wp_then (wp_turnedAway owner h₄)
        intro other s₅ h₅ ho
        cases other with
        | true => exact wp_leaves () h₅ fun _ => ho rfl
        | false => exact wp_failRun _ h₅

theorem wp_claiming (worker : ℕ) (hh : Held x False s) :
    (accounting S).wp x.thread k (claimed S worker x.bot p).run
      (Leaves x False fun _ => True) s := by
  apply wp_then (wp_stopping worker hh)
  intro r s₁ h₁ ho
  cases r with
  | true => exact wp_leaves () h₁ fun _ => ho rfl
  | false =>
    apply wp_then (wp_pacing worker p.pacing h₁)
    intro r s₂ h₂ ho
    cases r with
    | true => exact wp_executing h₂
    | false => exact wp_leaves () h₂ fun _ => ho rfl

theorem wp_handling (hh : Held x False s) : (accounting S).wp x.thread k (perform .handling).run
    (fun r s => r = .ok () ∧ Held x True s) s := by
  refine (Protocol.wp_ask _).mpr fun s₁ hu hi _ c s₂ r he => ?_
  obtain ⟨v, r₀, heffect, ⟨rfl, rfl, -⟩ | ⟨_, _, _, hraises, -⟩⟩ := exec_cases he
  · obtain ⟨rfl, rfl⟩ := Prod.mk.inj (Option.some.inj heffect)
    have hh₁ : Held x False s₁ := hh.guarding hu
    exact ⟨allowed_handling hi, rfl, hh₁.claims, iff_of_true List.mem_cons_self trivial, hh₁.run⟩
  · cases hraises

theorem wp_acknowledge (hh : Held x h s) (ho : Released x s) :
    (accounting S).wp x.thread k (perform (.ack x.entry)).run (fun _ _ => True) s := by
  refine (Protocol.wp_ask _).mpr fun s₁ hu hi _ c s₂ r he => ⟨?_, trivial⟩
  have hh₁ := hh.guarding hu
  have ho₁ := ho.guarding hu
  have hmark := fun g => allowed_acknowledge (S := S) (g := g) hi hh₁ ho₁
    (f := fun e => if e.id = x.entry then { e with acked := true } else e)
    (fun e => by split <;> exact ⟨rfl, rfl⟩) fun e hne => if_neg hne
  obtain ⟨v, r₀, heffect, hcase⟩ := exec_cases he
  obtain ⟨rfl, rfl⟩ := Prod.mk.inj (Option.some.inj heffect)
  rcases hcase with ⟨rfl, rfl, -⟩ | ⟨e, reached, -, -, rfl, rfl⟩
  · exact hmark s₁.raising
  · cases reached with
    | true => exact hmark _
    | false =>
      have hnone := allowed_acknowledge (S := S) (f := id)
        (g := Function.update s₁.raising x.thread none) hi hh₁ ho₁ (fun _ => ⟨rfl, rfl⟩)
        fun _ _ => rfl
      rw [List.map_id] at hnone
      exact hnone

/-- `run_claim` acknowledges its entry when it has been released. -/
theorem wp_running (hh : Held x False s) :
    (accounting S).wp x.thread k (runClaim S x.worker x.bot p x.entry).run (fun _ _ => True) s := by
  refine Protocol.wp_ensuring.mpr
    (Protocol.wp_mono (Q := fun _ s => ∃ h, Held x h s ∧ Released x s) ?_ fun r s₁ h₁ => ?_)
  · refine Protocol.wp_rescue.mpr (Protocol.wp_mono (wp_claiming x.worker hh) fun r s₁ h₁ => ?_)
    match r with
    | .ok _ => exact ⟨False, h₁.held, h₁.ok () rfl trivial⟩
    | .error .cancelled => exact ⟨False, h₁.held, h₁.error _ rfl (Or.inl rfl)⟩
    | .error (.exception code) =>
      refine Protocol.wp_task_bind.mpr (Protocol.wp_mono (wp_handling h₁.held) fun r s₂ h₂ => ?_)
      obtain ⟨rfl, hh₂⟩ := h₂
      refine Protocol.wp_mono (wp_failRun (errorCode code) hh₂) fun r s₃ h₃ => ?_
      cases r with
      | ok _ => exact ⟨True, h₃.held, h₃.ok () rfl trivial⟩
      | error e => exact ⟨True, h₃.held, h₃.error e rfl (Or.inr trivial)⟩
  · obtain ⟨h, hh₁, ho⟩ := h₁
    refine Protocol.wp_mono (wp_acknowledge hh₁ ho) fun c s₂ _ => ?_
    cases c with
    | ok _ => trivial
    | error _ => trivial

end programs

section daemons

/-- The runs of the relay are there, and those that it has added to the stream are guarded. -/
structure Relaying (results : List (ℕ × Bool)) (bots : List ℕ) (s : Cluster) : Prop where
  runs : ∀ b ∈ bots, (s.runs b).isSome = true
  added : ∀ b, (b, true) ∈ results → (s.runs b).isSome = true ∧ (s.queued b = true → s.Guarded b)

variable {results : List (ℕ × Bool)} {bots : List ℕ} {u : ℕ}

theorem Relaying.guarding (hs : Relaying results bots s) (hu : Guarding u s s') :
    Relaying results bots s' := by
  refine ⟨fun b hb => hu.onward.isSome (hs.runs b hb), fun b hb => ?_⟩
  obtain ⟨hsome, hg⟩ := hs.added b hb
  exact ⟨hu.onward.isSome hsome, hu.guarded b hsome hg⟩

theorem wp_aside {q : Prog Call Answer α} (hq : q.Uses Call.Neutral) :
    (accounting S).wp t k q (fun _ _ => True) s :=
  Protocol.wp_frame (A := fun _ => True) hq trivial (fun _ _ _ _ _ => trivial)
    fun _ _ _ _ _ hn hi _ _ he => ⟨allowed_neutral hi hn he, trivial⟩

theorem wp_adding (hs : Relaying results (b :: bots) s) :
    (accounting S).wp t k (perform (.xadd b)).run (fun r s => Relaying results (b :: bots) s ∧
      ∀ a, r = .ok a → s.Guarded b) s := by
  refine (Protocol.wp_ask _).mpr fun s₁ hu hi _ c s₂ r he => ?_
  have hs₁ := hs.guarding hu
  obtain ⟨ha, hg⟩ := allowed_added (S := S) (t := t) hi (hs₁.runs b List.mem_cons_self)
  have hothers : ∀ {s₂}, (accounting S).Allowed t s₁ s₂ → Relaying results (b :: bots) s₂ :=
    fun ha => hs₁.guarding (ha.others (t + 1) (Nat.succ_ne_self t))
  obtain ⟨v, r₀, heffect, hcase⟩ := exec_cases he
  obtain ⟨rfl, rfl⟩ := Prod.mk.inj (Option.some.inj heffect)
  rcases hcase with ⟨rfl, rfl, -⟩ | ⟨e, reached, -, -, rfl, rfl⟩
  · exact ⟨ha, hothers ha, fun _ _ => hg⟩
  · have hraised : (accounting S).Allowed t s₁ (note t (.xadd b) (.error e)
        { if reached then s₁.added b else s₁ with raising := Function.update s₁.raising t none }) := by
      have hkeep : ∀ v : Cluster, Keeping (fun _ => False) v
          { v with raising := Function.update s₁.raising t none } := fun v =>
        keeping_of_eq rfl rfl rfl rfl rfl rfl
      cases reached with
      | true => exact allowed_then ha (hkeep _)
      | false => exact allowed_keeping hi (hkeep s₁) fun _ => False.elim
    exact ⟨hraised, hothers hraised, nofun⟩

theorem wp_relayEach (hs : Relaying results bots s) :
    (accounting S).wp t k (relayEach results bots).run (fun _ _ => True) s := by
  induction bots generalizing results s with
  | nil =>
    refine (Protocol.wp_ask _).mpr fun s₁ hu hi _ c s₂ r he => ⟨?_, trivial⟩
    have hk := exec_keeping (i := .storeDispatch results) trivial he
    exact allowed_keeping hi hk fun b hb => ((hs.guarding hu).added b hb).2
  | cons b bots ih =>
    have hnext : ∀ ok s, Relaying results (b :: bots) s → (ok = true → s.Guarded b) →
        (accounting S).wp t k (relayEach (results ++ [(b, ok)]) bots).run (fun _ _ => True) s := by
      intro ok s hs hok
      refine ih ⟨fun b' hb' => hs.runs b' (List.mem_cons_of_mem _ hb'), fun b' hb' => ?_⟩
      rcases List.mem_append.mp hb' with hb' | hb'
      · exact hs.added b' hb'
      · obtain ⟨rfl, htrue⟩ := Prod.mk.inj (List.mem_singleton.mp hb')
        exact ⟨hs.runs b' List.mem_cons_self, fun _ => hok htrue.symm⟩
    refine Protocol.wp_task_bind.mpr (Protocol.wp_rescue.mpr (Protocol.wp_task_bind.mpr
      (Protocol.wp_mono (wp_adding hs) fun r s₁ h₁ => ?_)))
    match r with
    | .ok a => exact hnext true s₁ h₁.1 fun _ => h₁.2 a rfl
    | .error (.exception _) => exact hnext false s₁ h₁.1 nofun
    | .error .cancelled => trivial

theorem wp_relay : (accounting S).wp t k relayQueued.run (fun _ _ => True) s := by
  refine Protocol.wp_task_bind.mpr ((Protocol.wp_ask _).mpr fun s₁ _ hi _ c s₂ r he => ?_)
  have hn : Call.selectPending.Neutral := trivial
  refine ⟨allowed_neutral hi hn he, ?_⟩
  obtain ⟨v, r₀, heffect, ⟨rfl, rfl, -⟩ | ⟨e, reached, -, -, rfl, -⟩⟩ := exec_cases he
  · obtain ⟨rfl, rfl⟩ := Prod.mk.inj (Option.some.inj heffect)
    refine wp_relayEach ⟨fun b hb => ?_, nofun⟩
    obtain ⟨run, hrun, rfl⟩ := List.mem_map.mp hb
    obtain ⟨b', -, hfilter⟩ := List.mem_filterMap.mp
      ((List.mem_insertionSort Earlier).mp (List.mem_of_mem_take hrun))
    have hb' := (Option.filter_eq_some_iff.mp hfilter).1
    rw [hi.ids b' run hb']
    exact Option.isSome_iff_exists.mpr ⟨run, hb'⟩
  · trivial

theorem answered_getRun {r : Answer (.attend b .getRun)} {run : BotRun}
    (he : exec S t (.attend b .getRun) c s = some (s', r)) (hr : r = .ok run) :
    s'.runs b = some run := by
  obtain ⟨v, r₀, heffect, ⟨rfl, hs, -⟩ | ⟨e, reached, -, -, rfl, -⟩⟩ := exec_cases he
  · have hv : v = s := effect_looks (i := .attend b .getRun) trivial heffect
    have hnote : s' = v := hs
    have hattend : attendEffect S t b .getRun _ s = (v, r) := Option.some.inj heffect
    rw [hnote, hv]
    simp only [attendEffect] at hattend
    split at hattend
    · have hraised := (Prod.mk.inj hattend).2.trans hr
      cases hraised
    · rename_i row hrow
      rw [hrow, Except.ok.inj ((Prod.mk.inj hattend).2.trans hr)]
  · cases hr

theorem wp_read : (accounting S).wp t k (call b .getRun).run
    (fun r s => ∀ run, r = .ok run → run.status ≠ .queued → s.Dequeued b) s := by
  refine (Protocol.wp_ask _).mpr fun s₁ _ hi _ c s₂ r he => ?_
  have hn : (Call.attend b .getRun).Neutral := trivial
  exact ⟨allowed_neutral hi hn he, fun run hr hs => dequeued_of_run (answered_getRun he hr) hs⟩

theorem wp_requesting (hd : s.Dequeued b) :
    (accounting S).wp t k (perform (.requestCancel b)).run (fun _ _ => True) s := by
  refine (Protocol.wp_ask _).mpr fun s₁ hu hi _ c s₂ r he => ⟨?_, trivial⟩
  have ha := allowed_requested (S := S) (t := t) hi (hu.onward.dequeued hd)
  obtain ⟨v, r₀, heffect, hcase⟩ := exec_cases he
  obtain ⟨rfl, rfl⟩ := Prod.mk.inj (Option.some.inj heffect)
  rcases hcase with ⟨rfl, rfl, -⟩ | ⟨e, reached, -, -, rfl, rfl⟩
  · exact ha
  · exact allowed_raised hi ha reached (Function.update s₁.raising t none)

theorem wp_cancelBot : (accounting S).wp t k (cancelBot b).run (fun _ _ => True) s := by
  refine Protocol.wp_task_bind.mpr (Protocol.wp_mono wp_read fun r s₁ h₁ => ?_)
  cases r with
  | error _ => trivial
  | ok run =>
    dsimp only
    split
    · exact wp_aside (uses_call (i := .cancel b) trivial)
    · rename_i hs
      split
      · trivial
      · exact wp_requesting (h₁ run rfl hs)

theorem uses_pod (errorCode : Option String → String) :
    (botRun S b p errorCode).run.Uses Call.Neutral := by
  refine Task.uses_ensuring (Task.uses_rescue ?_ fun code => ?_) (uses_call trivial)
  · refine Task.uses_bind (uses_call trivial) fun _ => Task.uses_bind (uses_neutral _) fun _ => ?_
    refine Task.uses_ensuring ?_ (uses_call trivial)
    exact uses_attend (fun j _ => uses_neutral j) (uses_neutral _)
  · exact Task.uses_rescue (uses_fail (fun _ _ => trivial) _) fun _ => trivial

end daemons

section machine

theorem accounting_sound (S : Settings) : (accounting S).Sound where
  idle hu hf := ⟨fun c hc ht => hf.claims c ((hu.claims c ht).mp hc) ht,
    fun hl => hf.leaving (hu.leaving.mp hl), fun hh => hf.handling (hu.handling.mp hh)⟩
  final _ _ := trivial
  start {t k s s'} hi hidle _ hb := by
    have hact : ∀ {q : Act Unit} {s'}, (accounting S).wp t k q.run (fun _ _ => True) s' →
        (accounting S).wp t k (q.run >>= fun _ => .done ()) (fun _ _ => True) s' := fun h =>
      Protocol.wp_bind.mpr (Protocol.wp_mono h fun _ _ _ => trivial)
    have hrefl := allowed_keeping (S := S) (t := t) hi (Keeping.refl (E := fun _ => False) s)
      fun _ => False.elim
    cases k with
    | runClaim worker entry b p =>
      obtain ⟨ha, hh⟩ := allowed_begin (S := S) hi hidle hb
      exact ⟨ha, hact (wp_running hh)⟩
    | botRun b p errorCode =>
      refine ⟨?_, hact (wp_aside (uses_pod errorCode))⟩
      have hpod : s.startPod t b = some s' := hb
      unfold Cluster.startPod at hpod
      split at hpod
      · obtain rfl := Option.some.inj hpod
        have hkeep : Keeping (fun _ => False) s { s with
            job := Function.update s.job b (some (.running t)), pods := (t, b) :: s.pods } :=
          keeping_of_eq rfl rfl rfl rfl rfl rfl
        exact allowed_keeping hi hkeep fun _ => False.elim
      · cases hpod
    | relayQueued =>
      obtain rfl := Option.some.inj hb
      exact ⟨hrefl, hact wp_relay⟩
    | sweepCapacity =>
      obtain rfl := Option.some.inj hb
      refine ⟨hrefl, hact (wp_aside (Task.uses_bind (uses_call trivial) fun moment => ?_))⟩
      exact uses_call (i := .sweepCapacity moment) trivial
    | sweepOrphans staleAfter =>
      obtain rfl := Option.some.inj hb
      have hsweep := uses_sweepOrphans (fun _ => neutral_of_looks) fun _ => trivial
      exact ⟨hrefl, hact (wp_aside (hsweep staleAfter))⟩
    | cancelBot b =>
      obtain rfl := Option.some.inj hb
      exact ⟨hrefl, hact wp_cancelBot⟩
  kill hi hc := ⟨allowed_death hi hc, trivial⟩
  env hi _ he := accounted_env hi he

theorem accounted_init : Accounted {} where
  guarded _ := nofun
  cancelled _ := nofun
  ids _ _ := nofun
  entries _ he := by cases he
  bots _ he := by cases he
  claims _ hc := by cases hc

theorem unborn_init : Unborn t {} where
  claims _ hc := by cases hc
  leaving := nofun
  handling := nofun

/-- In every run that meets the condition, no queued run is lost. -/
theorem queued_found {S : Settings} {es : List (Event Role Outcome World)} {s : (cluster S).State}
    (hm : (unbroken S).Meets ((cluster S).init {}) es)
    (hr : (cluster S).run ((cluster S).init {}) es = some s) (b : ℕ) : s.shared.Found b := by
  have hinit : (accounting S).Holds ((cluster S).init {}) :=
    Protocol.holds_init accounted_init fun _ => unborn_init
  exact .of_accounted ((accounting_sound S).run hinit hm hr).inv b

/-- A worker dies while it executes the run; 300 s later another one takes its entry over. -/
def takenOver : Events := relayed ++ .start 1 (.runClaim 0 0 0 {}) :: calls 1 5 ++ .kill 1 ::
  .env (.elapse ORPHAN_IDLE_MS) :: .start 2 (.runClaim 1 0 0 {}) :: calls 2 4

theorem queued_found_takenOver : ∃ s,
    (cluster (oneSlot .process)).run ((cluster (oneSlot .process)).init {}) takenOver = some s ∧
      s.shared.queued 0 = true ∧ s.shared.Found 0 := by
  have hsome : ((cluster (oneSlot .process)).run ((cluster (oneSlot .process)).init {})
      takenOver).any (fun s => s.shared.queued 0) = true := by decide +kernel
  obtain ⟨s, hs, hqueued⟩ := (Option.any_eq_true _ _).mp hsome
  exact ⟨s, hs, hqueued, queued_found (by decide +kernel) hs 0⟩

/-- SIGTERM reaches the worker before `run_claim` looks for it. -/
def signalled : Events :=
  relayed ++ .start 1 (.runClaim 0 0 0 {}) :: .env (.sigterm 0) :: calls 1 2

theorem not_queued_found : ¬∀ (S : Settings) (es : Events) (s : (cluster S).State),
    (cluster S).run ((cluster S).init {}) es = some s → ∀ b, s.shared.Found b := by
  intro h
  have hsome : ((cluster (oneSlot .process)).run ((cluster (oneSlot .process)).init {})
      signalled).any (fun s => s.shared.queued 0 && !s.shared.undispatched 0 &&
        s.shared.entries.all (fun e => e.bot ≠ 0 || e.acked) &&
        s.shared.claims.isEmpty) = true := by
    decide +kernel
  obtain ⟨s, hs, hstate⟩ := (Option.any_eq_true _ _).mp hsome
  simp only [Bool.and_eq_true, Bool.not_eq_true', List.all_eq_true, Bool.or_eq_true,
    decide_eq_true_eq, List.isEmpty_iff] at hstate
  obtain ⟨⟨⟨hqueued, hdispatched⟩, hentries⟩, hclaims⟩ := hstate
  rcases h _ signalled s hs 0 hqueued with hu | ⟨e, he, hbot, hack⟩ | ⟨c, hc, -⟩
  · cases hdispatched.symm.trans hu
  · rcases hentries e he with hne | hacked
    · exact hne hbot
    · cases hack.symm.trans hacked
  · rw [hclaims] at hc
    cases hc

end machine

end Fakery.Worker
