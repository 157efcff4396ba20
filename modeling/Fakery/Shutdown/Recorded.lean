import Fakery.Shutdown.Attended
import Fakery.Worker.Programs

/-! What `run_claim` and `bot_run` write as the reason of a run that a stop check has ended. -/
namespace Fakery.Shutdown
open Fakery.Bots Fakery.Concurrent Fakery.Runtime

/-- The codes of `JoinError`. -/
def JOIN_ERRORS : List String :=
  [END_CANCELLED, "join-gated", "join-prejoin-missing", "join-no-knock-button", "join-timeout",
    "meeting-timeout"]

/-- What runs `attend`. `slug` is what `bot_run` makes of an error that is no `JoinError`. -/
inductive Runner where
  | runClaim
  | botRun (slug : String)

section programs

variable (J : Journey)

/-- A worker releases the capacity before its handler runs. -/
def Runner.handling : Runner → Act Unit → Act Unit
  | runClaim, x => (x.ensuring (perform .releaseCapacity)).rescue fun code =>
    failRun (call J) J.hasBlob (Worker.errorCode code)
  | botRun slug, x => x.rescue fun code =>
    match code with
    | some code =>
      if code ∈ JOIN_ERRORS then failRun (call J) J.hasBlob code
      else (failRun (call J) J.hasBlob slug).rescue fun _ => pure ()
    | none => (failRun (call J) J.hasBlob slug).rescue fun _ => pure ()

end programs

/-- A task that has ended. -/
def ended (r : Except Raised Unit) : Act Unit := ExceptT.mk (.done r)

/-- The run ends because a check has seen the event: it is over when `attend` ends, or a check of
`join_meeting` has raised. -/
def Stopped (r : Except Raised Unit) (s : World) : Prop :=
  s.seenAt.isSome = true ∧ (s.run.status.terminal = true ∨ r = .error joinCancelled)

variable {J : Journey} {s s₁ s' : World} {r : Except Raised Unit} {runner : Runner}

theorem ends_ended : Ends (ended r) (fun r' s' => r' = r ∧ s' = s) s := ⟨rfl, rfl⟩

/-- Whatever a worker goes on with after the release. -/
theorem ends_release : Ends ((ended r).ensuring (perform .releaseCapacity)) (fun r' s' =>
    s' = s ∧ (r' = r ∨ ∃ e, r' = .error e ∧ Foreign e)) s := by
  refine Ends.ensuring ends_ended fun r' s' hs => ?_
  obtain ⟨rfl, rfl⟩ := hs
  refine ends_perform (fun e he _ => ⟨rfl, Or.inr ⟨e, rfl, he⟩⟩) fun c u answer he => ?_
  cases Option.some.inj he
  exact ⟨rfl, Or.inl rfl⟩

/-- A handler keeps the outcome of a run that is over. -/
theorem ends_handling_over (ht : s.run.status.terminal = true) :
    Ends (runner.handling J (ended r)) (fun _ s' => SameOutcome s.run s'.run) s := by
  have hover : ∀ code, Ends (failRun (call J) J.hasBlob code)
      (fun _ s' => SameOutcome s.run s'.run) s :=
    fun code => (ends_failRun_over ht).mono fun _ _ h => h.outcome
  have hslug : ∀ slug, Ends ((failRun (call J) J.hasBlob slug).rescue fun _ => pure ())
      (fun _ s' => SameOutcome s.run s'.run) s :=
    fun slug => (hover slug).rescue (fun _ _ => id) (fun _ _ h => ends_pure h) fun _ => id
  cases runner with
  | runClaim =>
    refine Ends.rescue ends_release ?_ ?_ ?_
    · rintro _ s' ⟨rfl, -⟩
      exact ⟨rfl, rfl, rfl⟩
    · rintro code s' ⟨rfl, -⟩
      exact hover _
    · rintro s' ⟨rfl, -⟩
      exact ⟨rfl, rfl, rfl⟩
  | botRun slug =>
    refine Ends.rescue ends_ended ?_ ?_ ?_
    · rintro _ s' ⟨-, rfl⟩
      exact ⟨rfl, rfl, rfl⟩
    · rintro code s' ⟨-, rfl⟩
      cases code with
      | none => exact hslug slug
      | some code =>
        dsimp only
        split_ifs
        · exact hover code
        · exact hslug slug
    · rintro s' ⟨-, rfl⟩
      exact ⟨rfl, rfl, rfl⟩

theorem stopReasonOf_ne {code : String} (h : code ≠ "shutdown") :
    some (stopReasonOf code) ≠ some "shutdown" := by
  unfold stopReasonOf
  split_ifs <;> simp

theorem errorCode_ne {code : Option String} (h : Foreign (.exception code)) :
    Worker.errorCode code ≠ "shutdown" := by
  unfold Worker.errorCode
  cases code with
  | none => decide
  | some code =>
    dsimp only
    split_ifs
    · decide
    · exact h.2

/-- The exception of a check of `join_meeting` makes the run fail, with another reason. -/
theorem ends_handling_joinCancelled (hl : s.run.status.terminal = false) :
    Ends (runner.handling J (ended (.error joinCancelled)))
      (fun r s' => r = .ok () → s'.run.stopReason ≠ some "shutdown") s := by
  have hfail : ∀ code, code ≠ "shutdown" → Ends (failRun (call J) J.hasBlob code)
      (fun r s' => r = .ok () → s'.run.stopReason ≠ some "shutdown") s := by
    intro code hcode
    refine (ends_failRun hl).mono fun r s' h hr => ?_
    rw [(h.failed hr).2]
    exact stopReasonOf_ne hcode
  cases runner with
  | runClaim =>
    refine Ends.rescue ends_release ?_ ?_ ?_
    · rintro _ s' ⟨-, h | ⟨e, h, -⟩⟩ <;> cases h
    · rintro code s' ⟨rfl, h | ⟨e, h, hforeign⟩⟩
      · cases h
        exact hfail _ (by decide)
      · cases h
        exact hfail _ (errorCode_ne hforeign)
    · rintro s' - hr
      cases hr
  | botRun slug =>
    refine Ends.rescue ends_ended ?_ ?_ ?_
    · rintro _ s' ⟨h, -⟩
      cases h
    · rintro code s' ⟨h, rfl⟩
      cases h
      dsimp only
      rw [if_pos (by decide)]
      exact hfail _ (by decide)
    · rintro s' ⟨h, -⟩
      cases h

/-- The reason of a run that a stop check has ended is the shutdown exactly when the event was not
seen by a check of `join_meeting`. -/
theorem shutdown_recorded_iff (J : Journey) (runner : Runner) (s s₁ s' : World)
    (r : Except Raised Unit) (hs : s.seenAt = none)
    (hattend : attendance.Alone 0 (fun _ _ => True) (attend (call J) J.hasBlob J.meeting).run s s₁ r)
    (hhandled : attendance.Alone 0 (fun _ _ => True) (runner.handling J (ended r)).run s₁ s' (.ok ()))
    (hstopped : Stopped r s₁) :
    s'.run.stopReason = some "shutdown" ↔ s₁.seenAt ≠ some .joining := by
  have htold : Told r s₁ := Machine.Alone.of_wp (ends_attend hs) hattend
  obtain ⟨hseen, hcause⟩ := hstopped
  rcases htold with hnone | ⟨hjoining, hlive⟩ | ⟨site, hsite, hne, hforeign, hreason⟩
  · rw [hnone] at hseen
    cases hseen
  · refine iff_of_false ?_ (fun hnot => hnot hjoining)
    rcases hcause with hover | rfl
    · rw [hlive] at hover
      cases hover
    · exact Machine.Alone.of_wp (ends_handling_joinCancelled hlive) hhandled rfl
  · refine iff_of_true ?_ ?_
    · rcases hcause with hover | rfl
      · have hends : Ends (runner.handling J (ended r))
            (fun _ s' => SameOutcome s₁.run s'.run) s₁ := ends_handling_over hover
        exact (Machine.Alone.of_wp hends hhandled).stopReason.trans (hreason hover)
      · exact absurd rfl (hforeign joinCancelled rfl).ne
    · rw [hsite]
      exact fun h => hne (Option.some.inj h)

section counterexample

def booked : BotRun where
  id := 7
  meetingUrl := "https://meet.google.com/abc-defg-hij"
  meetingKey := "meet.google.com/abc-defg-hij"
  idempotencyKey := none
  displayName := none
  status := .queued
  createdAt := 0
  updatedAt := 0

def guest : Journey := { admissionPolls := 1, meetingPolls := 1 }

/-- The event is seen by the checks at `sites`. -/
def seenBy (sites : List Site) : Step → Outcome
  | .isSet site => { set := site ∈ sites }
  | _ => {}

/-- Both parts of a run, and how they end. -/
def both (sites : List Site) (runner : Runner) : Option (World × Except Raised Unit × World × Bool) :=
  (attendance.alone 0 (seenBy sites) (attend (call guest) guest.hasBlob guest.meeting).run
    { run := booked }).bind fun x =>
      (attendance.alone 0 (seenBy sites) (runner.handling guest (ended x.2)).run x.1).map fun y =>
        (x.1, x.2, y.1, y.2.isOk)

theorem both_alone {sites : List Site} {runner : Runner}
    (h : both sites runner = some (s₁, r, s', true)) :
    attendance.Alone 0 (fun _ _ => True) (attend (call guest) guest.hasBlob guest.meeting).run
      { run := booked } s₁ r ∧
    attendance.Alone 0 (fun _ _ => True) (runner.handling guest (ended r)).run s₁ s' (.ok ()) := by
  obtain ⟨⟨s₂, r₂⟩, hattend, hrest⟩ := Option.bind_eq_some_iff.mp h
  obtain ⟨⟨s₃, r₃⟩, hhandled, heq⟩ := Option.map_eq_some_iff.mp hrest
  simp only [Prod.mk.injEq] at heq
  obtain ⟨rfl, rfl, rfl, hok⟩ := heq
  cases r₃ with
  | error e => cases hok
  | ok _ => exact ⟨.of_alone (fun _ => trivial) hattend, .of_alone (fun _ => trivial) hhandled⟩

/-- Seen while the bot waits to be let in. -/
theorem shutdown_recorded_admission : ∃ s₁ r s',
    both [.admission, .ending] .runClaim = some (s₁, r, s', true) ∧
      s'.run.stopReason = some "shutdown" := by
  have hsome : (both [.admission, .ending] .runClaim).any (fun x =>
      x.1.seenAt = some .admission && x.1.run.status.terminal && x.2.2.2) = true := by
    decide +kernel
  obtain ⟨⟨s₁, r, s', ok⟩, hboth, hcases⟩ := (Option.any_eq_true _ _).mp hsome
  simp only [Bool.and_eq_true, decide_eq_true_eq] at hcases
  obtain ⟨⟨hseen, hover⟩, rfl⟩ := hcases
  obtain ⟨hattend, hhandled⟩ := both_alone hboth
  refine ⟨s₁, r, s', hboth, ?_⟩
  refine (shutdown_recorded_iff guest .runClaim { run := booked } s₁ s' r rfl hattend hhandled
    ⟨by rw [hseen]; rfl, Or.inl hover⟩).mpr ?_
  rw [hseen]
  nofun

/-- Seen before the knock, under either runtime. -/
theorem not_shutdown_recorded : ¬∃ runner ∈ [Runner.runClaim, Runner.botRun "browser-open-error"],
    ∀ (J : Journey) (s s₁ s' : World) (r : Except Raised Unit), s.seenAt = none →
      attendance.Alone 0 (fun _ _ => True) (attend (call J) J.hasBlob J.meeting).run s s₁ r →
      attendance.Alone 0 (fun _ _ => True) (runner.handling J (ended r)).run s₁ s' (.ok ()) →
        Stopped r s₁ → s'.run.stopReason = some "shutdown" := by
  rintro ⟨runner, hrunner, h⟩
  have hsome : (both [.joining] runner).any (fun x => x.1.seenAt = some .joining &&
      x.2.1 = .error joinCancelled && x.2.2.1.run.stopReason = some "cancelled" && x.2.2.2) =
        true := by
    simp only [List.mem_cons, List.not_mem_nil, or_false] at hrunner
    rcases hrunner with rfl | rfl <;> decide +kernel
  obtain ⟨⟨s₁, r, s', ok⟩, hboth, hcases⟩ := (Option.any_eq_true _ _).mp hsome
  simp only [Bool.and_eq_true, decide_eq_true_eq] at hcases
  obtain ⟨⟨⟨hseen, hr⟩, hreason⟩, rfl⟩ := hcases
  obtain ⟨hattend, hhandled⟩ := both_alone hboth
  have hshutdown := h guest { run := booked } s₁ s' r rfl hattend hhandled
    ⟨by rw [hseen]; rfl, Or.inr hr⟩
  rw [hreason] at hshutdown
  exact absurd hshutdown (by decide)

end counterexample

end Fakery.Shutdown
