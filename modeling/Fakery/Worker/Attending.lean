import Fakery.Worker.Admission
import Fakery.Worker.Uses
import Mathlib.Data.Finset.Card

/-! A bot that attends holds a reservation, and no more bots attend than the limit says, provided that
no reservation is given up while somebody still counts on it. -/
namespace Fakery.Worker
open Fakery.Bots Fakery.Capacity Fakery.Concurrent Fakery.Runtime

variable {S : Settings} {t u b : ℕ} {k : Role} {i : Call} {c : Outcome} {s s' v : Cluster}
  {xs : List (ℕ × ℕ)} {x : ℕ × ℕ} {α : Type}

/-- What `t` knows of its own lists stays so while the others step. -/
def Stable (t : ℕ) (A : Cluster → Prop) : Prop := ∀ {s s'}, Unmoved t s s' → A s → A s'

/-- `t` attends nowhere. -/
def NoAttend (t : ℕ) (s : Cluster) : Prop := ∀ b, (t, b) ∉ s.attends

/-- `t` holds a reservation of `b`. -/
def In (t b : ℕ) (s : Cluster) : Prop := (t, b) ∈ s.inside ∧ NoAttend t s

/-- `t` may attend for `b`, as the pod of a job or as an execution with a reservation. -/
def Hosts (pod : Bool) (t b : ℕ) (s : Cluster) : Prop :=
  (t, b) ∈ if pod then s.pods else s.inside

theorem stable_noAttend : Stable t (NoAttend t) :=
  fun hu h b hm => h b ((hu.attends b).mp hm)

theorem stable_in : Stable t (In t b) :=
  fun hu h => ⟨(hu.inside b).mpr h.1, stable_noAttend hu h.2⟩

theorem stable_hosts {pod : Bool} : Stable t (Hosts pod t b) := by
  intro s s' hu h
  cases pod with
  | true => exact (hu.pods b).mpr h
  | false => exact (hu.inside b).mpr h

theorem hosts_congr {pod : Bool} (hinside : s'.inside = s.inside) (hpods : s'.pods = s.pods)
    (h : Hosts pod t b s) : Hosts pod t b s' := by
  unfold Hosts
  rw [hinside, hpods]
  exact h

theorem Hosts.either {pod : Bool} (h : Hosts pod t b s) : (t, b) ∈ s.inside ∨ (t, b) ∈ s.pods := by
  cases pod with
  | true => exact Or.inr h
  | false => exact Or.inl h

theorem wp_perform {Q : Except Raised (Reply i) → Cluster → Prop} :
    (admission S).wp t k (perform i).run Q s ↔ ∀ s₁, Unmoved t s s₁ → Admitted S s₁ →
      (kept S).call t k i s₁ → ∀ c s₂ r, exec S t i c s₁ = some (s₂, r) →
        (admission S).Allowed t s₁ s₂ ∧ Q r s₂ := Iff.rfl

theorem wp_plain {A : Cluster → Prop} {p : Prog Call Answer α} (hA : Stable t A)
    (hp : p.Uses Call.Plain) (hs : A s) : (admission S).wp t k p (fun _ => A) s :=
  Protocol.wp_frame hp hs (fun _ _ hu _ => hA hu) fun _ _ _ _ _ hplain hi _ h he =>
    ⟨(exec_quiet hplain he).allowed hi, hA (exec_quiet hplain he).unmoved h⟩

/-- The calls of a supervisor. -/
def Call.Supervising (b : ℕ) (i : Call) : Prop :=
  i.Plain ∨ i = .createJob b ∨ ∃ b, i = .deleteJob b

theorem exec_createJob {r : Answer (.createJob b)} (hi : Admitted S s) (hin : (t, b) ∈ s.inside)
    (he : exec S t (.createJob b) c s = some (s', r)) :
    (admission S).Allowed t s s' ∧ Unmoved t s s' := by
  obtain ⟨v, hc, rfl⟩ := exec_came he
  have hq : Quiet s s' ∨
      Quiet { s with job := Function.update s.job b (some .waiting), pods := s.pods } s' := by
    refine hc.elim (P := fun v => Quiet s v ∨
        Quiet { s with job := Function.update s.job b (some .waiting), pods := s.pods } v)
      (fun _ f h => h.imp (quiet_raising f) (quiet_raising f)) (Or.inl (.refl s)) ?_
    intro c v r he
    simp only [effect] at he
    split at he
    · obtain ⟨rfl, -⟩ := Prod.mk.inj (Option.some.inj he)
      exact Or.inl (.refl s)
    · obtain ⟨rfl, -⟩ := Prod.mk.inj (Option.some.inj he)
      exact Or.inr (.refl _)
  rcases hq with hq | hq
  · exact ⟨hq.allowed hi, hq.unmoved⟩
  · refine ⟨allowed_quiet (allowed_jobs hi (fun b' hb' => ?_) (Or.inl rfl)) hq, ?_⟩
    · by_cases hbb : b' = b
      · subst hbb
        exact Or.inr (hi.inside _ hin).reserved
      · rw [Function.update_of_ne hbb] at hb'
        exact Or.inl (Or.inl hb')
    · exact ⟨hq.unmoved.inside, hq.unmoved.attends, hq.unmoved.pods⟩

theorem exec_deleteJob {r : Answer (.deleteJob b)} (hi : Admitted S s)
    (he : exec S t (.deleteJob b) c s = some (s', r)) :
    (admission S).Allowed t s s' ∧ Unmoved t s s' := by
  obtain ⟨v, hc, rfl⟩ := exec_came he
  have hq : Quiet s s' ∨ Quiet { s with job := Function.update s.job b none, pods := s.pods } s' := by
    refine hc.elim (P := fun v => Quiet s v ∨
        Quiet { s with job := Function.update s.job b none, pods := s.pods } v)
      (fun _ f h => h.imp (quiet_raising f) (quiet_raising f)) (Or.inl (.refl s)) ?_
    intro c v r he
    simp only [effect] at he
    split at he
    · obtain ⟨rfl, -⟩ := Prod.mk.inj (Option.some.inj he)
      exact Or.inl (.refl s)
    · obtain ⟨rfl, -⟩ := Prod.mk.inj (Option.some.inj he)
      exact Or.inr (.refl _)
  rcases hq with hq | hq
  · exact ⟨hq.allowed hi, hq.unmoved⟩
  · refine ⟨allowed_quiet (allowed_jobs hi (fun b' hb' => ?_) (Or.inl rfl)) hq,
      hq.unmoved.inside, hq.unmoved.attends, hq.unmoved.pods⟩
    by_cases hbb : b' = b
    · subst hbb
      rw [Function.update_self] at hb'
      cases hb'
    · rw [Function.update_of_ne hbb] at hb'
      exact Or.inl (Or.inl hb')

theorem wp_supervising {p : Prog Call Answer α} (hp : p.Uses (Call.Supervising b))
    (hs : In t b s) : (admission S).wp t k p (fun _ => In t b) s := by
  refine Protocol.wp_frame hp hs (fun _ _ hu _ => stable_in hu) fun i c s s' r hsup hi _ h he => ?_
  have hstep : (admission S).Allowed t s s' ∧ Unmoved t s s' := by
    rcases hsup with hplain | rfl | ⟨b, rfl⟩
    · exact ⟨(exec_quiet hplain he).allowed hi, (exec_quiet hplain he).unmoved⟩
    · exact exec_createJob hi h.1 he
    · exact exec_deleteJob hi he
  exact ⟨hstep.1, stable_in hstep.2 h⟩

theorem exec_attended {r : Answer (.attended b)} (hi : Admitted S s)
    (he : exec S t (.attended b) c s = some (s', r)) :
    (admission S).Allowed t s s' ∧ s'.inside = s.inside ∧ s'.pods = s.pods ∧ NoAttend t s' := by
  obtain ⟨v, hc, rfl⟩ := exec_came he
  cases hc with
  | lost _ h => cases h
  | refused h => cases h
  | answered he =>
    obtain ⟨rfl, rfl⟩ := Prod.mk.inj (Option.some.inj he)
    exact ⟨allowed_end hi, rfl, rfl, fun _ hm => (mem_drop.mp hm).2 rfl⟩

/-- `attend`, wherever it runs. -/
theorem wp_spawnAttend (pod : Bool) (p : Plan) (hs : Hosts pod t b s) :
    (admission S).wp t k (spawnAttend S b p).run (fun _ s => Hosts pod t b s ∧ NoAttend t s) s := by
  refine Protocol.wp_ensuring.mpr
    (Protocol.wp_mono (Q := fun _ => Hosts pod t b) ?_ fun r s₁ h₁ => ?_)
  · refine Protocol.wp_frame (U := fun i => ∃ j, i = .attend b j)
      (uses_attend (fun j _ => ⟨⟨j, rfl⟩, fun _ => trivial⟩) ⟨⟨_, rfl⟩, fun _ => trivial⟩) hs
      (fun _ _ hu _ => stable_hosts hu) ?_
    rintro i c s s' r ⟨j, rfl⟩ hi - h he
    rcases exec_attend he with hq | hq
    · exact ⟨hq.allowed hi, stable_hosts hq.unmoved h⟩
    · exact ⟨allowed_quiet (allowed_join hi h.either) hq, hosts_congr hq.inside hq.pods h⟩
  · refine wp_perform.mpr fun s₂ hu hi _ c s₃ r' he => ?_
    obtain ⟨ha, hinside, hpods, hn⟩ := exec_attended hi he
    have hhosts : Hosts pod t b s₃ := hosts_congr hinside hpods (stable_hosts hu h₁)
    refine ⟨ha, ?_⟩
    cases r' with
    | ok _ => exact ⟨hhosts, hn⟩
    | error _ => exact ⟨hhosts, hn⟩

section uses

variable {P : Call → Prop} (hplain : ∀ i, i.Plain → P i)
include hplain

theorem uses_plain (h : i.Plain) : (perform i).run.Uses P := uses_call (hplain i h)

theorem plain_of_looks (i : Call) (h : i.Looks) : P i :=
  hplain i (plain_of_unnoted (unnoted_of_looks h)).1

theorem plain_of_settles (i : Runtime.Call) (h : i.settles = true) : P (.attend b i) :=
  hplain (.attend b i) (joins_of_settles h)

theorem uses_supervise (hcreate : P (.createJob b)) : (supervise b).run.Uses P := by
  have hwait : (perform (.waitTerminal b)).run.Uses P :=
    uses_plain (i := .waitTerminal b) hplain trivial
  refine Task.uses_bind (uses_plain (i := .getJob b) hplain trivial) fun r => ?_
  cases r with
  | true => exact hwait
  | false => exact Task.uses_bind (uses_call hcreate) fun _ => hwait

theorem uses_spawnJob (p : Plan) (hcreate : P (.createJob b)) (hdelete : P (.deleteJob b)) :
    (spawnJob S b p).run.Uses P := by
  refine Task.uses_bind (Task.uses_ensuring (uses_supervise hplain hcreate)
    (Task.uses_rescue (uses_plain (i := .closeJobs) hplain trivial) fun _ => trivial)) fun result => ?_
  exact uses_settleJob (fun i hs => uses_call (plain_of_settles hplain i hs))
    (uses_plain (i := .sleep) hplain trivial) (uses_call hdelete) result

end uses

variable {p : Plan}

theorem plain_supervising (i : Call) (h : i.Plain) : i.Supervising b := Or.inl h

theorem wp_fail (code : String) (hs : In t b s) :
    (admission S).wp t k (failRun (call b) S.hasBlob code).run (fun _ => In t b) s :=
  wp_supervising (uses_fail (plain_of_settles plain_supervising) code) hs

theorem wp_spawn (hs : In t b s) : (admission S).wp t k (spawn S b p).run (fun _ => In t b) s := by
  unfold spawn
  split
  · have huses : (call b .getRun).run.Uses (Call.Supervising b) :=
      uses_call (plain_supervising (.attend b .getRun) rfl)
    refine Protocol.wp_task_bind.mpr (Protocol.wp_mono (wp_supervising huses hs) fun r s₁ h₁ => ?_)
    cases r with
    | error _ => exact h₁
    | ok run =>
      have huses : (perform (.prepareLaunch b)).run.Uses (Call.Supervising b) :=
        uses_call (plain_supervising _ trivial)
      refine Protocol.wp_task_bind.mpr (Protocol.wp_mono (wp_supervising huses h₁) fun r s₂ h₂ => ?_)
      cases r with
      | error _ => exact h₂
      | ok _ => exact wp_spawnAttend false p h₂.1
  · exact wp_supervising
      (uses_spawnJob plain_supervising p (Or.inr (Or.inl rfl)) (Or.inr (Or.inr ⟨b, rfl⟩))) hs

theorem wp_attempt (hs : In t b s) :
    (admission S).wp t k (attempt S b p).run (fun _ => In t b) s := by
  refine Protocol.wp_task_bind.mpr
    (Protocol.wp_mono (wp_supervising (uses_profileBusy (plain_supervising _ trivial)) hs)
      fun r s₁ h₁ => ?_)
  match r with
  | .error _ => exact h₁
  | .ok true => exact wp_fail _ h₁
  | .ok false =>
    have huses : (perform .launchRuntime).run.Uses (Call.Supervising b) :=
      uses_call (plain_supervising _ trivial)
    refine Protocol.wp_task_bind.mpr (Protocol.wp_mono (wp_supervising huses h₁) fun r s₂ h₂ => ?_)
    cases r with
    | error _ => exact h₂
    | ok _ =>
      refine Protocol.wp_ensuring.mpr (Protocol.wp_mono (wp_spawn h₂) fun r s₃ h₃ => ?_)
      refine Protocol.wp_mono
        (wp_supervising (uses_releaseLease (plain_of_looks plain_supervising)) h₃) ?_
      intro r' s₄ h₄
      cases r' with
      | ok _ => exact h₄
      | error _ => exact h₄

theorem exec_tryReserve {owner : ℕ} {r : Answer (.tryReserve b owner)} (hi : Admitted S s)
    (hown : owner = t) (he : exec S t (.tryReserve b owner) c s = some (s', r)) :
    (admission S).Allowed t s s' ∧ s'.attends = s.attends ∧ (r = .ok true → (t, b) ∈ s'.inside) := by
  subst hown
  obtain ⟨v, hc, rfl⟩ := exec_came he
  have hmore : ∀ c : Outcome, (admission S).Allowed owner s { s with ledger :=
      (s.ledger.tryReserve S.tenant S.maxConcurrentRuns b owner c.now).1 } := fun c =>
    allowed_more hi (hi.balanced.tryReserve rfl) fun _ => Ledger.mem_opened_tryReserve rfl
  cases hc with
  | @answered c v r heffect =>
    obtain ⟨rfl, rfl⟩ := Prod.mk.inj (Option.some.inj heffect)
    cases hok : (s.ledger.tryReserve S.tenant S.maxConcurrentRuns b owner c.now).2 with
    | false => exact ⟨hmore c, rfl, nofun⟩
    | true =>
      have hholds := Ledger.holds_of_tryReserve (l := s.ledger) (Prod.ext rfl hok)
      have henter := allowed_enter (hmore c).inv hholds
      refine ⟨⟨henter.inv, fun u hu => ?_, trivial⟩, rfl, fun _ => List.mem_cons_self⟩
      exact (admission S).rely_trans u ((hmore c).others u hu) (henter.others u hu)
  | @lost c v r e f heffect _ =>
    obtain ⟨rfl, -⟩ := Prod.mk.inj (Option.some.inj heffect)
    have hq := quiet_raising f (.refl { s with ledger :=
      (s.ledger.tryReserve S.tenant S.maxConcurrentRuns b owner c.now).1 })
    exact ⟨allowed_quiet (hmore c) hq, hq.attends, nofun⟩
  | @refused e f _ =>
    have hq := quiet_raising f (.refl s)
    exact ⟨hq.allowed hi, hq.attends, nofun⟩

/-- The release leaves nothing of `t` behind. -/
theorem exec_releaseCapacity {r : Answer (.releaseCapacity b)} (hi : Admitted S s) (hin : In t b s)
    (hp : ¬s.Pending b) (he : exec S t (.releaseCapacity b) c s = some (s', r)) :
    (admission S).Allowed t s s' ∧ NoAttend t s' := by
  obtain ⟨v, hc, rfl⟩ := exec_came he
  have hleave : (admission S).Allowed t s { s with inside := drop t s.inside } :=
    allowed_leave hi hin.2
  have hrelease : ∀ moment, (admission S).Allowed t s
      { s with ledger := s.ledger.release b moment, inside := drop t s.inside } := fun _ =>
    allowed_release hi hin.1 hin.2 hp
  cases hc with
  | @answered c v r heffect =>
    obtain ⟨rfl, rfl⟩ := Prod.mk.inj (Option.some.inj heffect)
    exact ⟨hrelease c.now, hin.2⟩
  | @lost c v r e f heffect _ =>
    obtain ⟨rfl, -⟩ := Prod.mk.inj (Option.some.inj heffect)
    have hq := quiet_raising f
      (.refl { s with ledger := s.ledger.release b c.now, inside := drop t s.inside })
    exact ⟨allowed_quiet (hrelease c.now) hq, stable_noAttend hq.unmoved hin.2⟩
  | @refused e f _ =>
    have hq := quiet_raising f (.refl { s with inside := drop t s.inside })
    exact ⟨allowed_quiet hleave hq, stable_noAttend hq.unmoved hin.2⟩

/-- What a claim does outside its reservation. -/
theorem wp_outside {q : Prog Call Answer α} (hq : q.Uses Call.Plain) (hs : NoAttend t s) :
    (admission S).wp t k q (fun _ => NoAttend t) s := wp_plain stable_noAttend hq hs

theorem wp_tryReserve {Q : Except Raised Bool → Cluster → Prop} (hs : NoAttend t s)
    (hQ : ∀ r s, NoAttend t s → (r = .ok true → (t, b) ∈ s.inside) → Q r s) :
    (admission S).wp t k (perform (.tryReserve b t)).run Q s := by
  refine wp_perform.mpr fun s₁ hu hi _ c s₂ r he => ?_
  obtain ⟨ha, hattends, hin⟩ := exec_tryReserve hi rfl he
  refine ⟨ha, hQ r s₂ (fun b' hm => ?_) hin⟩
  exact stable_noAttend hu hs b' (hattends ▸ hm)

theorem wp_reserveCapacity (n : ℕ) (hs : NoAttend t s) :
    (admission S).wp t k (reserveCapacity b t n).run
      (fun r s => NoAttend t s ∧ (r = .ok true → (t, b) ∈ s.inside)) s := by
  induction n generalizing s with
  | zero => exact wp_tryReserve hs fun _ _ h hin => ⟨h, hin⟩
  | succ n ih =>
    refine Protocol.wp_task_bind.mpr (wp_tryReserve hs fun r s₁ h₁ hin => ?_)
    match r with
    | .error _ => exact ⟨h₁, nofun⟩
    | .ok true => exact ⟨h₁, fun _ => hin rfl⟩
    | .ok false =>
      have huses : (perform .sleep).run.Uses Call.Plain := uses_call (i := .sleep) trivial
      refine Protocol.wp_task_bind.mpr (Protocol.wp_mono (wp_outside huses h₁) fun r s₂ h₂ => ?_)
      cases r with
      | error _ => exact ⟨h₂, nofun⟩
      | ok _ => exact ih h₂

theorem wp_executeRun (hs : NoAttend t s) :
    (admission S).wp t k (executeRun S b p).run (fun _ => NoAttend t) s := by
  have hfail : ∀ code, (failRun (call b) S.hasBlob code).run.Uses Call.Plain :=
    uses_fail (plain_of_settles fun _ => id)
  have hcancel : (perform (.isCancelled b true)).run.Uses Call.Plain :=
    uses_call (i := .isCancelled b true) trivial
  refine Protocol.wp_task_bind.mpr (Protocol.wp_mono (wp_outside hcancel hs) fun r s₁ h₁ => ?_)
  match r with
  | .error _ => exact h₁
  | .ok true => exact wp_outside (hfail _) h₁
  | .ok false =>
    have hget : (call b .getRun).run.Uses Call.Plain := uses_call (i := .attend b .getRun) rfl
    refine Protocol.wp_task_bind.mpr (Protocol.wp_mono (wp_outside hget h₁) fun r s₂ h₂ => ?_)
    cases r with
    | error _ => exact h₂
    | ok run =>
      dsimp only
      split
      · exact h₂
      · refine Protocol.wp_task_bind.mpr (wp_perform.mpr fun s₃ hu hi _ c s₄ r he => ?_)
        have hq := exec_quiet (i := .uuid4) trivial he
        have h₄ := stable_noAttend hq.unmoved (stable_noAttend hu h₂)
        refine ⟨hq.allowed hi, ?_⟩
        have hr : r = .ok t := by
          obtain ⟨v, hc, -⟩ := exec_came he
          cases hc with
          | answered heffect => exact (Prod.mk.inj (Option.some.inj heffect)).2.symm
          | lost _ h => cases h
          | refused h => cases h
        subst hr
        refine Protocol.wp_task_bind.mpr
          (Protocol.wp_mono (wp_reserveCapacity p.attempts h₄) fun r s₅ h₅ => ?_)
        match r with
        | .error _ => exact h₅.1
        | .ok true =>
          refine Protocol.wp_ensuring.mpr
            (Protocol.wp_mono (wp_attempt ⟨h₅.2 rfl, h₅.1⟩) fun r s₆ h₆ => ?_)
          refine wp_perform.mpr fun s₇ hu hi hc c s₈ r' he => ?_
          obtain ⟨ha, hn⟩ := exec_releaseCapacity hi (stable_in hu h₆) hc he
          refine ⟨ha, ?_⟩
          cases r' with
          | ok _ => exact hn
          | error _ => exact hn
        | .ok false =>
          have hother : (perform (.hasOtherReservation b t)).run.Uses Call.Plain :=
            uses_call (i := .hasOtherReservation b t) trivial
          refine Protocol.wp_task_bind.mpr
            (Protocol.wp_mono (wp_outside hother h₅.1) fun r s₆ h₆ => ?_)
          match r with
          | .error _ => exact h₆
          | .ok true => exact h₆
          | .ok false => exact wp_outside (hfail _) h₆

theorem wp_claimed (worker : ℕ) (hs : NoAttend t s) :
    (admission S).wp t k (claimed S worker b p).run (fun _ => NoAttend t) s := by
  have hstopped : (stopped worker b).run.Uses Call.Plain :=
    uses_stopped (plain_of_looks fun _ => id) worker
  refine Protocol.wp_task_bind.mpr (Protocol.wp_mono (wp_outside hstopped hs) fun r s₁ h₁ => ?_)
  match r with
  | .error _ => exact h₁
  | .ok true => exact h₁
  | .ok false =>
    have hpace : (pace worker b p.pacing).run.Uses Call.Plain :=
      uses_pace (plain_of_looks fun _ => id) worker _
    refine Protocol.wp_task_bind.mpr (Protocol.wp_mono (wp_outside hpace h₁) fun r s₂ h₂ => ?_)
    match r with
    | .error _ => exact h₂
    | .ok true => exact wp_executeRun h₂
    | .ok false => exact h₂

theorem wp_runClaim (worker entry : ℕ) (hs : NoAttend t s) :
    (admission S).wp t k (runClaim S worker b p entry).run (fun _ => NoAttend t) s := by
  refine Protocol.wp_ensuring.mpr
    (Protocol.wp_mono (Q := fun _ => NoAttend t) ?_ fun r s₁ h₁ => ?_)
  · refine Protocol.wp_except.mpr (Protocol.wp_mono (wp_claimed worker hs) fun r s₁ h₁ => ?_)
    match r with
    | .ok _ => exact h₁
    | .error .cancelled => exact h₁
    | .error (.exception code) =>
      have hhandling : (perform .handling).run.Uses Call.Plain := uses_call (i := .handling) trivial
      exact wp_outside (Task.uses_bind hhandling fun _ => uses_fail (plain_of_settles fun _ => id) _) h₁
  · have hack : (perform (.ack entry)).run.Uses Call.Plain := uses_call (i := .ack entry) trivial
    refine Protocol.wp_mono (wp_outside hack h₁) fun r' s₂ h₂ => ?_
    cases r' with
    | ok _ => exact h₂
    | error _ => exact h₂

theorem exec_podEnded {r : Answer (.podEnded b)} (hi : Admitted S s) (hn : NoAttend t s)
    (he : exec S t (.podEnded b) c s = some (s', r)) :
    (admission S).Allowed t s s' ∧ NoAttend t s' := by
  obtain ⟨v, hc, rfl⟩ := exec_came he
  cases hc with
  | lost _ h => cases h
  | refused h => cases h
  | answered he =>
    obtain ⟨rfl, rfl⟩ := Prod.mk.inj (Option.some.inj he)
    refine ⟨allowed_jobs hi (fun b' hb' => ?_) (Or.inr ⟨rfl, hn⟩), hn⟩
    split at hb'
    · by_cases hbb : b' = b
      · subst hbb
        rw [Function.update_self] at hb'
        cases hb'
      · rw [Function.update_of_ne hbb] at hb'
        exact Or.inl (Or.inl hb')
    · exact Or.inl (Or.inl hb')

/-- What a pod knows of itself until it ends. -/
def Pod (t b : ℕ) (s : Cluster) : Prop := Hosts true t b s ∧ NoAttend t s

theorem stable_pod : Stable t (Pod t b) :=
  fun hu h => ⟨stable_hosts hu h.1, stable_noAttend hu h.2⟩

theorem wp_botRun (errorCode : Option String → String) (hs : Pod t b s) :
    (admission S).wp t k (botRun S b p errorCode).run (fun _ => NoAttend t) s := by
  have hplain : ∀ {β : Type} {q : Prog Call Answer β} {s : Cluster}, q.Uses Call.Plain → Pod t b s →
      (admission S).wp t k q (fun _ => Pod t b) s := fun hq h => wp_plain stable_pod hq h
  refine Protocol.wp_ensuring.mpr (Protocol.wp_mono (Q := fun _ => Pod t b) ?_ fun r s₁ h₁ => ?_)
  · refine Protocol.wp_except.mpr (Protocol.wp_mono (Q := fun _ => Pod t b) ?_ fun r s₁ h₁ => ?_)
    · have hprepare : (perform (.prepareLaunch b)).run.Uses Call.Plain :=
        uses_call (i := .prepareLaunch b) trivial
      refine Protocol.wp_task_bind.mpr (Protocol.wp_mono (hplain hprepare hs) fun r s₁ h₁ => ?_)
      cases r with
      | error _ => exact h₁
      | ok _ =>
        have hget : (call b .getRun).run.Uses Call.Plain := uses_call (i := .attend b .getRun) rfl
        refine Protocol.wp_task_bind.mpr (Protocol.wp_mono (hplain hget h₁) fun r s₂ h₂ => ?_)
        cases r with
        | error _ => exact h₂
        | ok _ => exact wp_spawnAttend true p h₂.1
    · match r with
      | .ok _ => exact h₁
      | .error .cancelled => exact h₁
      | .error (.exception code) =>
        exact hplain (Task.uses_rescue (uses_fail (plain_of_settles fun _ => id) _) fun _ => trivial) h₁
  · refine wp_perform.mpr fun s₂ hu hi _ c s₃ r' he => ?_
    obtain ⟨ha, hn⟩ := exec_podEnded hi (stable_noAttend hu h₁.2) he
    refine ⟨ha, ?_⟩
    cases r' with
    | ok _ => exact hn
    | error _ => exact hn

theorem exec_sweepCapacity {moment : ℕ} {r : Answer (.sweepCapacity moment)} (hi : Admitted S s)
    (hcond : (kept S).call t k (.sweepCapacity moment) s)
    (he : exec S t (.sweepCapacity moment) c s = some (s', r)) :
    (admission S).Allowed t s s' ∧ s'.attends = s.attends := by
  obtain ⟨v, hc, rfl⟩ := exec_came he
  have hq : Quiet s s' ∨ Quiet { s with ledger := s.ledger.sweep s.status moment } s' := by
    refine hc.elim (P := fun v => Quiet s v ∨
        Quiet { s with ledger := s.ledger.sweep s.status moment } v)
      (fun _ f h => h.imp (quiet_raising f) (quiet_raising f)) (Or.inl (.refl s)) ?_
    intro c v r he
    obtain ⟨rfl, -⟩ := Prod.mk.inj (Option.some.inj he)
    exact Or.inr (.refl _)
  rcases hq with hq | hq
  · exact ⟨hq.allowed hi, hq.attends⟩
  · exact ⟨allowed_quiet (allowed_sweep hi hcond) hq, hq.attends⟩

theorem wp_sweepCapacity (hs : NoAttend t s) :
    (admission S).wp t k sweepCapacity.run (fun _ => NoAttend t) s := by
  have hnow : (perform .utcnow).run.Uses Call.Plain := uses_call (i := .utcnow) trivial
  refine Protocol.wp_task_bind.mpr (Protocol.wp_mono (wp_outside hnow hs) fun r s₁ h₁ => ?_)
  cases r with
  | error _ => exact h₁
  | ok moment =>
    refine wp_perform.mpr fun s₂ hu hi hc c s₃ r he => ?_
    obtain ⟨ha, hattends⟩ := exec_sweepCapacity hi hc he
    refine ⟨ha, fun b hm => ?_⟩
    exact stable_noAttend hu h₁ b (hattends ▸ hm)

theorem wp_act (k : Role) (hs : NoAttend t s)
    (hpod : ∀ b p errorCode, k = .botRun b p errorCode → (t, b) ∈ s.pods) :
    (admission S).wp t k (k.act S).run (fun _ => NoAttend t) s := by
  have hplain : ∀ i : Call, i.Unnoted → i.Plain := fun _ h => (plain_of_unnoted h).1
  cases k with
  | runClaim worker entry b p => exact wp_runClaim worker entry hs
  | botRun b p errorCode => exact wp_botRun errorCode ⟨hpod b p errorCode rfl, hs⟩
  | relayQueued => exact wp_outside (uses_relayQueued.mono hplain) hs
  | sweepCapacity => exact wp_sweepCapacity hs
  | sweepOrphans staleAfter =>
    have hsweep := uses_sweepOrphans (P := Call.Unnoted) (fun _ => unnoted_of_looks) (fun _ => trivial)
    exact wp_outside ((hsweep staleAfter).mono hplain) hs
  | cancelBot b => exact wp_outside (uses_cancelBot.mono hplain) hs

theorem allowed_startPod (hi : Admitted S s) (h : s.startPod t b = some s') :
    (admission S).Allowed t s s' ∧ (t, b) ∈ s'.pods ∧ s'.attends = s.attends := by
  unfold Cluster.startPod at h
  split at h
  · rename_i hjob
    obtain rfl := Option.some.inj h
    have hres : s.ledger.Reserved b := hi.pending b (Or.inl hjob)
    refine ⟨⟨⟨hi.balanced, hi.inside, fun b' hb' => ?_, fun x hx => ?_⟩, fun u hu => ?_, trivial⟩,
      List.mem_cons_self, rfl⟩
    · by_cases hbb : b' = b
      · exact hbb ▸ hres
      · rcases hb' with hb' | ⟨x, hx, hxb⟩
        · dsimp only at hb'
          rw [Function.update_of_ne hbb] at hb'
          exact hi.pending b' (Or.inl hb')
        · rcases List.mem_cons.mp hx with rfl | hx
          · exact (hbb hxb.symm).elim
          · exact hi.pending b' (Or.inr ⟨x, hx, hxb⟩)
    · exact (hi.attends x hx).imp id (List.mem_cons_of_mem _)
    · exact ⟨fun _ => Iff.rfl, fun _ => Iff.rfl, Mine.cons_of_ne hu _ b⟩
  · cases h

theorem quiet_claim {worker entry : ℕ} (h : s.claim t worker entry b = some s') : Quiet s s' := by
  unfold Cluster.claim at h
  split at h
  · obtain rfl := Option.some.inj h
    exact ⟨rfl, rfl, rfl, rfl, rfl⟩
  · cases h

theorem allowed_kill (hi : Admitted S s) : (admission S).Allowed t s (s.kill t) := by
  refine ⟨⟨hi.balanced, fun x hx => hi.inside x (mem_drop.mp hx).1, fun b hb => ?_, fun x hx => ?_⟩,
    fun u hu => ?_, trivial⟩
  · rcases hb with hb | ⟨x, hx, hxb⟩
    · have hjob : (if s.job b = some (.running t) then some .finished else s.job b) =
          some JobStatus.waiting := hb
      split at hjob
      · cases hjob
      · exact hi.pending b (Or.inl hjob)
    · exact hi.pending b (Or.inr ⟨x, (mem_drop.mp hx).1, hxb⟩)
  · obtain ⟨hx, hne⟩ := mem_drop.mp hx
    exact (hi.attends x hx).imp (fun h => mem_drop.mpr ⟨h, hne⟩) fun h => mem_drop.mpr ⟨h, hne⟩
  · exact ⟨Mine.drop_of_ne hu _, Mine.drop_of_ne hu _, Mine.drop_of_ne hu _⟩

/-- A job that ends starts no pod. -/
theorem inv_endJob {status : Option JobStatus} (hi : Admitted S s) (hne : status ≠ some .waiting) :
    Admitted S { s with job := Function.update s.job b status } := by
  refine ⟨hi.balanced, hi.inside, fun b' hb' => ?_, hi.attends⟩
  rcases hb' with hb' | hb'
  · have hjob : Function.update s.job b status b' = some .waiting := hb'
    by_cases hbb : b' = b
    · subst hbb
      rw [Function.update_self] at hjob
      exact (hne hjob).elim
    · rw [Function.update_of_ne hbb] at hjob
      exact hi.pending b' (Or.inl hjob)
  · exact hi.pending b' (Or.inr hb')

theorem admission_sound (S : Settings) : (admission S).Sound where
  idle := stable_noAttend
  final _ _ := trivial
  start {t k s s'} hi hidle _ hb := by
    have hact : ∀ {s'}, NoAttend t s' → (∀ b p errorCode, k = .botRun b p errorCode →
        (t, b) ∈ s'.pods) → (admission S).wp t k ((cluster S).prog k) (fun _ _ => True) s' :=
      fun hn hpod => Protocol.wp_bind.mpr (Protocol.wp_mono (wp_act k hn hpod) fun _ _ _ => trivial)
    cases k with
    | runClaim worker entry b p =>
      have hq := quiet_claim hb
      exact ⟨hq.allowed hi, hact (stable_noAttend hq.unmoved hidle) nofun⟩
    | botRun b p errorCode =>
      obtain ⟨ha, hpod, hattends⟩ := allowed_startPod hi hb
      refine ⟨ha, hact (fun b' hm => hidle b' (hattends ▸ hm)) fun _ _ _ hk => ?_⟩
      cases hk
      exact hpod
    | relayQueued =>
      obtain rfl := Option.some.inj hb
      exact ⟨(Quiet.refl s).allowed hi, hact hidle nofun⟩
    | sweepCapacity =>
      obtain rfl := Option.some.inj hb
      exact ⟨(Quiet.refl s).allowed hi, hact hidle nofun⟩
    | sweepOrphans staleAfter =>
      obtain rfl := Option.some.inj hb
      exact ⟨(Quiet.refl s).allowed hi, hact hidle nofun⟩
    | cancelBot b =>
      obtain rfl := Option.some.inj hb
      exact ⟨(Quiet.refl s).allowed hi, hact hidle nofun⟩
  kill hi _ := ⟨allowed_kill hi, trivial⟩
  env hi _ he := by
    rcases step_still he with hq | ⟨b, status, hne, rfl⟩
    · exact ⟨hi.of_quiet hq.quiet, fun _ => hq.quiet.unmoved⟩
    · exact ⟨inv_endJob hi hne, fun _ => ⟨fun _ => Iff.rfl, fun _ => Iff.rfl, fun _ => Iff.rfl⟩⟩

theorem admitted_init (S : Settings) : Admitted S {} where
  balanced := ⟨rfl, Nat.zero_le _, List.nodup_nil, List.nodup_nil, fun _ h => by cases h⟩
  inside _ h := by cases h
  pending b h := by
    rcases h with h | ⟨x, h, -⟩
    · cases h
    · cases h
  attends _ h := by cases h

/-- As many bots attend as reservations are open, at most. -/
theorem Admitted.card_le (hi : Admitted S s) (h : ∀ x ∈ s.attends, s.ledger.Reserved x.2) :
    (s.attends.map Prod.snd).toFinset.card ≤ S.maxConcurrentRuns := by
  have hsub : (s.attends.map Prod.snd).toFinset ⊆
      (s.ledger.opened.map CapacityReservation.botId).toFinset := by
    intro b hb
    obtain ⟨x, hx, rfl⟩ := List.mem_map.mp (List.mem_toFinset.mp hb)
    obtain ⟨r, hr, hbot⟩ := h x hx
    exact List.mem_toFinset.mpr (List.mem_map.mpr ⟨r, hr, hbot⟩)
  calc (s.attends.map Prod.snd).toFinset.card
      ≤ (s.ledger.opened.map CapacityReservation.botId).toFinset.card := Finset.card_le_card hsub
    _ ≤ (s.ledger.opened.map CapacityReservation.botId).length := List.toFinset_card_le _
    _ = s.ledger.opened.length := List.length_map _
    _ ≤ S.maxConcurrentRuns := hi.balanced.le

theorem Admitted.reserved (hi : Admitted S s) (x : ℕ × ℕ) (hx : x ∈ s.attends) :
    s.ledger.Reserved x.2 := by
  rcases hi.attends x hx with h | h
  · exact (hi.inside x h).reserved
  · exact hi.pending x.2 (Or.inr ⟨x, h, rfl⟩)

/-- In every run that meets the condition, every bot that attends holds a reservation, and no more
attend than the limit says. -/
theorem attending_reserved {S : Settings} {es : List (Event Role Outcome World)}
    {s : (cluster S).State} (hm : (kept S).Meets ((cluster S).init {}) es)
    (hr : (cluster S).run ((cluster S).init {}) es = some s) :
    (∀ x ∈ s.shared.attends, s.shared.ledger.Reserved x.2) ∧
      (s.shared.attends.map Prod.snd).toFinset.card ≤ S.maxConcurrentRuns := by
  have hinit : (admission S).Holds ((cluster S).init {}) :=
    Protocol.holds_init (admitted_init S) fun _ _ h => by cases h
  have hi := ((admission_sound S).run hinit hm hr).inv
  exact ⟨hi.reserved, hi.card_le hi.reserved⟩

section runs

abbrev Events := List (Event Role Outcome World)

def newRun (b : ℕ) : BotRun :=
  { id := b, meetingUrl := "https://meet.google.com/abc-defg-hij", meetingKey := s!"meeting-{b}"
    idempotencyKey := none, displayName := none, status := .queued, createdAt := 0, updatedAt := 0 }

def oneSlot (botRuntime : BotRuntime) : Settings :=
  { maxConcurrentRuns := 1, botRuntime := botRuntime }

/-- The first `n` calls of `t`, all well. -/
def calls (t n : ℕ) : Events := List.replicate n (.step t {})

/-- Two runs are created and put on the stream, the first one as entry 0. -/
def relayed : Events :=
  [.env (.create (newRun 0)), .env (.create (newRun 1)), .start 0 .relayQueued] ++ calls 0 4

/-- One run attends, the other one waits, and a sweep finds nothing to release. -/
def waiting : Events := relayed ++ .start 1 (.runClaim 0 0 0 {}) :: calls 1 11 ++
  .start 2 (.runClaim 0 1 1 {}) :: calls 2 6 ++ .start 3 .sweepCapacity :: calls 3 2

theorem attending_reserved_waiting : ∃ s,
    (cluster (oneSlot .process)).run ((cluster (oneSlot .process)).init {}) waiting = some s ∧
      s.shared.attends = [(1, 0)] ∧ s.shared.ledger.Reserved 0 := by
  have hsome : ((cluster (oneSlot .process)).run ((cluster (oneSlot .process)).init {}) waiting).any
      (fun s => s.shared.attends = [(1, 0)]) = true := by decide +kernel
  obtain ⟨s, hs, hattends⟩ := (Option.any_eq_true _ _).mp hsome
  have hattends := of_decide_eq_true hattends
  refine ⟨s, hs, hattends, (attending_reserved (by decide +kernel) hs).1 (1, 0) ?_⟩
  rw [hattends]
  exact List.mem_singleton_self _

/-- The supervisor loses sight of the job and releases the reservation, and then the pod starts. -/
def lostJob : Events := relayed ++ .start 1 (.runClaim 0 0 0 {}) :: calls 1 9 ++
  .env (.raise 1 (.exception none) false) :: calls 1 3 ++
  .start 2 (.botRun 0 {} fun _ => "launch-error") :: calls 2 4

theorem not_attending_reserved : ¬∀ (S : Settings) (es : Events) (s : (cluster S).State),
    (cluster S).run ((cluster S).init {}) es = some s →
      (∀ x ∈ s.shared.attends, s.shared.ledger.Reserved x.2) ∧
        (s.shared.attends.map Prod.snd).toFinset.card ≤ S.maxConcurrentRuns := by
  intro h
  have hsome : ((cluster (oneSlot .job)).run ((cluster (oneSlot .job)).init {}) lostJob).any
      (fun s => s.shared.attends = [(2, 0)] ∧ s.shared.ledger.opened = []) = true := by
    decide +kernel
  obtain ⟨s, hs, hstate⟩ := (Option.any_eq_true _ _).mp hsome
  obtain ⟨hattends, hopened⟩ := of_decide_eq_true hstate
  obtain ⟨r, hr, -⟩ := (h (oneSlot .job) lostJob s hs).1 (2, 0) (hattends ▸ List.mem_singleton_self _)
  rw [hopened] at hr
  cases hr

end runs

end Fakery.Worker
