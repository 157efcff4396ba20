import Fakery.Shutdown.Checks

/-! How `attend` leaves a run, by the check that has seen the event first. -/
namespace Fakery.Shutdown
open Fakery.Bots Fakery.Concurrent Fakery.Runtime

variable {J : Journey} {s s₀ s' : World} {α β : Type} {site : Site} {code : String}

section rows

variable {run run' : BotRun} {now moment : ℕ}

theorem failing_failRun (hl : run.status.terminal = false) (h : run.failRun code now = .ok run') :
    run'.status = .failed ∧ run'.stopReason = some (stopReasonOf code) := by
  unfold BotRun.failRun at h
  rw [if_neg (by simp [hl])] at h
  rcases BotRun.advance_ok h with ⟨-, hs, -⟩ | ⟨rfl, -⟩
  · have hstatus : run.status = .failed := hs
    rw [hstatus] at hl
    cases hl
  · exact ⟨rfl, rfl⟩

theorem stopped_complete {reason : String}
    (h : run.complete { cancelled := true, stopReason := some reason } now = .ok run') :
    run'.stopReason = some reason := by
  let c : Completion := { cancelled := true, stopReason := some reason }
  have hassign : (c.assign run).stopReason = some reason := by
    unfold Completion.assign
    simp [c]
  unfold BotRun.complete at h
  cases hadvance : (c.assign run).advance .completed now with
  | error e =>
    rw [hadvance] at h
    cases h
  | ok middle =>
    rw [hadvance] at h
    cases Except.ok.inj h
    have hduration : middle.withDuration.stopReason = middle.stopReason := by
      unfold BotRun.withDuration
      split <;> rfl
    rw [hduration]
    rcases BotRun.advance_ok hadvance with ⟨rfl, -⟩ | ⟨rfl, -⟩
    · exact hassign
    · exact hassign

end rows

section transactions

/-- A transaction commits, or raises and leaves everything as it is. -/
theorem ends_transaction (tx : Tx) : Ends (perform (.call (.transaction tx))) (fun r s' =>
    (r = .ok () ∧ ∃ now moment run', tx.apply now s.run = .ok run' ∧
      s' = { s with run := BotRun.flushed s.run moment run' }) ∨
    ∃ e, r = .error e ∧ Foreign e ∧ s' = s) s := by
  refine ends_perform (fun e he _ => Or.inr ⟨e, rfl, he, rfl⟩) fun c s' r he => ?_
  cases hrun : tx.apply c.now s.run with
  | error e =>
    simp only [effect, callEffect, hrun, Option.some.injEq, Prod.mk.injEq] at he
    obtain ⟨rfl, rfl⟩ := he
    exact Or.inr ⟨_, rfl, trivial, rfl⟩
  | ok run' =>
    simp only [effect, callEffect, hrun, Option.some.injEq, Prod.mk.injEq] at he
    obtain ⟨rfl, rfl⟩ := he
    exact Or.inl ⟨rfl, c.now, c.moment, run', hrun, rfl⟩

/-- The outcome of the run, and what has been read, stay as they are. -/
structure Steady (s₀ : World) (r : Except Raised α) (s : World) : Prop where
  seenAt : s.seenAt = s₀.seenAt
  outcome : SameOutcome s₀.run s.run
  foreign : ∀ e, r = .error e → Foreign e

theorem steady_ok {a : α} : Steady s (.ok a) s := ⟨rfl, ⟨rfl, rfl, rfl⟩, nofun⟩

theorem Steady.ok {a : α} {b : β} (h : Steady s₀ (.ok a) s) : Steady s₀ (.ok b) s :=
  ⟨h.seenAt, h.outcome, nofun⟩

theorem Steady.error {e : Raised} (h : Steady s₀ (.error e : Except Raised α) s) :
    Steady s₀ (.error e : Except Raised β) s := by
  refine ⟨h.seenAt, h.outcome, fun e' hr => ?_⟩
  cases hr
  exact h.foreign e rfl

theorem Steady.trans {r : Except Raised α} {r' : Except Raised β} (h : Steady s₀ r s)
    (h' : Steady s r' s') : Steady s₀ r' s' :=
  ⟨h'.seenAt.trans h.seenAt, ⟨h'.outcome.status.trans h.outcome.status,
    h'.outcome.errorCode.trans h.outcome.errorCode,
    h'.outcome.stopReason.trans h.outcome.stopReason⟩, h'.foreign⟩

theorem Ends.steady {x : Act α} {f : α → Act β} (hx : Ends x (Steady s₀) s)
    (hf : ∀ a s, Steady s₀ (.ok a : Except Raised α) s → Ends (f a) (Steady s₀) s) :
    Ends (x >>= f) (Steady s₀) s :=
  hx.bind hf fun _ _ h => h.error

/-- A call that is no transaction. -/
theorem ends_steady {i : Call} (h : ∀ c, (callEffect c s i).1 = s ∧
    ∀ e, (callEffect c s i).2 = .error e → Foreign e) :
    Ends (perform (.call i)) (Steady s) s := by
  refine (ends_still fun c s' r he => ?_).mono fun r s' hs => ?_
  · have heffect : callEffect c s i = (s', r) := Option.some.inj he
    have hc := h c
    rw [heffect] at hc
    exact hc
  · obtain ⟨rfl, hforeign⟩ := hs
    exact ⟨rfl, ⟨rfl, rfl, rfl⟩, hforeign⟩

theorem ends_steady_transaction {tx : Tx}
    (h : ∀ now run', tx.apply now s.run = .ok run' → SameOutcome s.run run') :
    Ends (perform (.call (.transaction tx))) (Steady s) s := by
  refine (ends_transaction tx).mono fun r s' hs => ?_
  rcases hs with ⟨rfl, now, moment, run', hrun, rfl⟩ | ⟨e, rfl, he, rfl⟩
  · exact ⟨rfl, (h now run' hrun).flushed, nofun⟩
  · refine ⟨rfl, ⟨rfl, rfl, rfl⟩, fun e' hr => ?_⟩
    cases hr
    exact he

theorem ends_activities (xs : List Activity) (h : Steady s₀ (.ok () : Except Raised Unit) s) :
    Ends (activities (call J) xs) (Steady s₀) s := by
  induction xs generalizing s with
  | nil => exact ends_pure h
  | cons x xs ih =>
    have hact : Ends (x.act (call J)) (Steady s) s := by
      cases x with
      | pause => exact ends_steady fun _ => ⟨rfl, nofun⟩
      | artifactStatus artifact status error =>
        refine ends_steady_transaction fun now run' hrun => ?_
        cases Except.ok.inj hrun
        cases artifact <;> exact ⟨rfl, rfl, rfl⟩
      | checkpoint uri =>
        have htx : Ends (call J (.transaction (.setCheckpointManifest uri))) (Steady s) s := by
          refine ends_steady_transaction fun now run' hrun => ?_
          cases Except.ok.inj hrun
          exact ⟨rfl, rfl, rfl⟩
        refine htx.rescue (fun _ _ => id) (fun code s' hs => ends_pure ?_) fun _ => id
        exact ⟨hs.seenAt, hs.outcome, nofun⟩
    refine Ends.steady (hact.mono fun r s' hs => h.trans hs) fun _ s' hs => ih hs

end transactions

section failRun

theorem ends_recoverCheckpoint (s : World) :
    Ends (recoverCheckpoint (call J) J.hasBlob) (Steady s) s := by
  unfold recoverCheckpoint
  cases J.hasBlob with
  | false => exact ends_pure steady_ok
  | true =>
    have hget : Ends (call J .getRun) (Steady s) s := ends_steady fun _ => ⟨rfl, nofun⟩
    refine Ends.steady hget fun run s₁ h₁ => ?_
    split
    · exact ends_pure h₁.ok
    · have hrestore : Ends ((call J .restorePrefix).rescue fun _ => pure none) (Steady s₁) s₁ := by
        have hread : Ends (call J .restorePrefix) (Steady s₁) s₁ :=
          ends_steady fun _ => ⟨rfl, nofun⟩
        exact hread.rescue (fun _ _ => id) (fun code s' hs => ends_pure ⟨hs.seenAt, hs.outcome, nofun⟩)
          fun _ => id
      refine Ends.steady (hrestore.mono fun _ _ => h₁.trans) fun artifact s₂ h₂ => ?_
      cases artifact with
      | none => exact ends_pure h₂.ok
      | some artifact =>
        have hstore : Ends (call J (.transaction (.storeRecovered artifact))) (Steady s₂) s₂ := by
          refine ends_steady_transaction fun now run' hrun => ?_
          cases Except.ok.inj hrun
          exact ⟨rfl, rfl, rfl⟩
        exact hstore.mono fun _ _ => h₂.trans

/-- A run that is over keeps its outcome. -/
theorem ends_failRun_over (ht : s.run.status.terminal = true) :
    Ends (failRun (call J) J.hasBlob code) (Steady s) s := by
  refine Ends.steady (ends_recoverCheckpoint s) fun _ s₁ h₁ => ?_
  have hover : s₁.run.status.terminal = true := by
    rw [h₁.outcome.status]
    exact ht
  have hfail : Ends (call J (.transaction (.failRun code))) (Steady s₁) s₁ :=
    ends_steady_transaction fun now run' hrun => sameOutcome_settles rfl hover hrun
  exact hfail.mono fun _ _ => h₁.trans

/-- The run has failed for the reason, or something was raised before it did. -/
structure Failing (s₀ : World) (code : String) (r : Except Raised Unit) (s : World) : Prop where
  seenAt : s.seenAt = s₀.seenAt
  failed : r = .ok () → s.run.status = .failed ∧ s.run.stopReason = some (stopReasonOf code)
  foreign : ∀ e, r = .error e → Foreign e ∧ s.run.status.terminal = false

theorem ends_failRun (hl : s.run.status.terminal = false) :
    Ends (failRun (call J) J.hasBlob code) (Failing s code) s := by
  refine (ends_recoverCheckpoint s).bind (fun _ s₁ h₁ => ?_) fun e s₁ h₁ => ?_
  · have hlive : s₁.run.status.terminal = false := by
      rw [h₁.outcome.status]
      exact hl
    refine (ends_transaction (.failRun code)).mono fun r s' hs => ?_
    rcases hs with ⟨rfl, now, moment, run', hrun, rfl⟩ | ⟨e, rfl, he, rfl⟩
    · obtain ⟨hstatus, hreason⟩ := failing_failRun hlive hrun
      have hflushed := sameOutcome_flushed s₁.run moment run'
      refine ⟨h₁.seenAt, fun _ => ⟨hflushed.status.trans hstatus, ?_⟩, nofun⟩
      exact hflushed.stopReason.trans hreason
    · refine ⟨h₁.seenAt, nofun, fun e' hr => ?_⟩
      cases hr
      exact ⟨he, hlive⟩
  · refine ⟨h₁.seenAt, nofun, fun e' hr => ?_⟩
    cases hr
    refine ⟨h₁.foreign e rfl, ?_⟩
    rw [h₁.outcome.status]
    exact hl

end failRun

section attendance

/-- How things stand when something has ended: no check has seen the event; one of `join_meeting`
has, and the run goes on; or a later one has, and the run goes on or its reason is the shutdown. -/
def Told (r : Except Raised α) (s : World) : Prop :=
  s.seenAt = none ∨ s.seenAt = some .joining ∧ s.run.status.terminal = false ∨
    ∃ site, s.seenAt = some site ∧ site ≠ .joining ∧ (∀ e, r = .error e → Foreign e) ∧
      (s.run.status.terminal = true → s.run.stopReason = some "shutdown")

/-- A cleanup leaves the run and the readings alone. -/
theorem Told.steady {r : Except Raised α} {c : Except Raised Unit} (h : Told r s)
    (hs : Steady s c s') : match c with
      | .ok _ => Told r s'
      | .error e => Told (.error e : Except Raised α) s' := by
  have hsame : s'.seenAt = s.seenAt ∧ s'.run.status = s.run.status ∧
      s'.run.stopReason = s.run.stopReason :=
    ⟨hs.seenAt, hs.outcome.status, hs.outcome.stopReason⟩
  obtain ⟨hseenAt, hstatus, hstopReason⟩ := hsame
  cases c with
  | ok _ =>
    unfold Told
    rw [hseenAt, hstatus, hstopReason]
    exact h
  | error e =>
    unfold Told
    rw [hseenAt, hstatus, hstopReason]
    refine Or.imp_right (Or.imp_right ?_) h
    rintro ⟨site, hseen, hsite, -, hreason⟩
    refine ⟨site, hseen, hsite, fun e' hr => ?_, hreason⟩
    cases hr
    exact hs.foreign e rfl

/-- Something foreign is raised while the run goes on. -/
theorem told_raised {r : Except Raised α} (hsite : s.seenAt ≠ some .joining)
    (hforeign : ∀ e, r = .error e → Foreign e) (hl : s.run.status.terminal = false) : Told r s := by
  cases hseen : s.seenAt with
  | none => exact Or.inl hseen
  | some site =>
    refine Or.inr (Or.inr ⟨site, hseen, ?_, hforeign, fun ht => ?_⟩)
    · rintro rfl
      exact hsite hseen
    · rw [hl] at ht
      cases ht

/-- A transition that a run takes while it is open. -/
theorem ends_advance (s : World) (tx : Tx) (status : BotStatus)
    (h : ∀ now run', tx.apply now s.run = .ok run' → run'.status = status) :
    Ends (perform (.call (.transaction tx)))
      (fun r s' => s'.seenAt = s.seenAt ∧ (r = .ok () ∧ s'.run.status = status ∨
        ∃ e, r = .error e ∧ Foreign e ∧ s' = s)) s := by
  refine (ends_transaction tx).mono fun r s' hs => ?_
  rcases hs with ⟨rfl, now, moment, run', hrun, rfl⟩ | ⟨e, rfl, he, rfl⟩
  · exact ⟨rfl, Or.inl ⟨rfl, flushed_status.trans (h now run' hrun)⟩⟩
  · exact ⟨rfl, Or.inr ⟨e, rfl, he, rfl⟩⟩

theorem status_of_persisted {run run' : BotRun} {artifact : Option RecordingArtifact} {now : ℕ}
    (h : run.persisted artifact now = .ok run') : run'.status = .processing := by
  cases artifact with
  | none => exact status_of_advance h
  | some artifact => exact status_of_advance h

/-- A completion on request: the reason is the shutdown, or the run is still processed. -/
theorem ends_complete (hseen : s.seenAt = some site) (hsite : site ≠ .joining)
    (hl : s.run.status.terminal = false) :
    Ends (call J (.transaction (.complete { cancelled := true, stopReason := some "shutdown" })))
      Told s := by
  refine (ends_transaction _).mono fun r s' hs => ?_
  rcases hs with ⟨rfl, now, moment, run', hrun, rfl⟩ | ⟨e, rfl, he, rfl⟩
  · refine Or.inr (Or.inr ⟨site, hseen, hsite, nofun, fun _ => ?_⟩)
    exact (sameOutcome_flushed s.run moment run').stopReason.trans (stopped_complete hrun)
  · refine told_raised ?_ (fun e' hr => ?_) hl
    · rw [hseen]
      exact fun h => hsite (Option.some.inj h)
    · cases hr
      exact he

/-- The end of a meeting, with or without a request to stop. -/
theorem ends_finish {cancelled : Bool} (hstatus : s.run.status = .recording)
    (hseen : s.seenAt = some .meeting ∧ cancelled = true ∨ s.seenAt = none ∧ cancelled = false) :
    Ends (finish (call J) J.meeting cancelled) Told s := by
  have hlive : s.run.status.terminal = false := by
    rw [hstatus]
    rfl
  have hsite : s.seenAt ≠ some .joining := by
    rcases hseen with ⟨h, -⟩ | ⟨h, -⟩ <;> rw [h] <;> nofun
  have hpersist := ends_advance s (.persistRecording J.meeting.artifact) .processing
    fun now run' hrun => status_of_persisted hrun
  refine hpersist.bind (fun _ s₁ h₁ => ?_) fun e s₁ h₁ => ?_
  · obtain ⟨hseen₁, ⟨-, hstatus₁⟩ | ⟨e, he, -⟩⟩ := h₁
    · have hlive₁ : s₁.run.status.terminal = false := by
        rw [hstatus₁]
        rfl
      have hleave : Ends (call J .leaveMeeting) (Steady s₁) s₁ := ends_steady fun _ => ⟨rfl, nofun⟩
      have hquiet : ∀ {α : Type} {r : Except Raised α} {u : World}, Steady s₁ r u →
          u.seenAt = s.seenAt ∧ u.run.status.terminal = false := by
        intro α r u hu
        rw [hu.outcome.status]
        exact ⟨hu.seenAt.trans hseen₁, hlive₁⟩
      have hraised : ∀ {α : Type} {e : Raised} {u : World},
          Steady s₁ (.error e : Except Raised α) u → Told (.error e : Except Raised Unit) u := by
        intro α e u hu
        obtain ⟨hseenAt, hl⟩ := hquiet hu
        refine told_raised (by rw [hseenAt]; exact hsite) (fun e' hr => ?_) hl
        cases hr
        exact hu.foreign e rfl
      refine hleave.bind (fun _ s₂ h₂ => ?_) fun e s₂ h₂ => hraised h₂
      refine (ends_activities J.meeting.summarized h₂).bind (fun _ s₃ h₃ => ?_)
        fun e s₃ h₃ => hraised h₃
      obtain ⟨hseenAt, hl⟩ := hquiet h₃
      rcases hseen with ⟨hmeeting, rfl⟩ | ⟨hnone, rfl⟩
      · have hseen₃ := hseenAt.trans hmeeting
        refine (ends_requestedStopReason_seen hseen₃).bind (fun reason u hu => ?_) fun e u hu => ?_
        · obtain ⟨hreason, rfl⟩ := hu
          cases hreason
          exact ends_complete hseen₃ nofun hl
        · cases hu.1
      · have hseen₃ := hseenAt.trans hnone
        refine (ends_requestedStopReason hseen₃).bind (fun reason u hu => ?_) fun e u hu => ?_
        · rcases hu with ⟨hreason, hsee⟩ | ⟨hreason | ⟨e, he, -⟩, rfl⟩
          · cases hreason
            have hending : u.seenAt = some .ending := by rw [hsee]
            have hopen : u.run.status.terminal = false := by
              rw [hsee]
              exact hl
            exact ends_complete hending nofun hopen
          · cases hreason
            refine (ends_transaction _).mono fun r v hv => Or.inl ?_
            rcases hv with ⟨-, now, moment, run', -, rfl⟩ | ⟨e, -, -, rfl⟩ <;> exact hseen₃
          · cases he
        · rcases hu with ⟨hreason, -⟩ | ⟨-, rfl⟩
          · cases hreason
          · exact Or.inl hseen₃
    · cases he
  · obtain ⟨hseen₁, ⟨hok, -⟩ | ⟨e', he, hforeign, rfl⟩⟩ := h₁
    · cases hok
    · cases he
      refine told_raised hsite (fun e' hr => ?_) hlive
      cases hr
      exact hforeign

/-- The way into the meeting and through it. -/
def Recorded (r : Except Raised Bool) (s : World) : Prop :=
  match r with
  | .ok true => s.seenAt = some .admission ∧ s.run.status = .joining ∨
      s.seenAt = some .meeting ∧ s.run.status = .recording
  | .ok false => s.seenAt = none ∧ s.run.status = .recording
  | .error e => Told (.error e : Except Raised Unit) s

theorem ends_attendAndRecord (hseen : s.seenAt = none) (hstatus : s.run.status = .joining) :
    Ends (attendAndRecord (call J) J.meeting) Recorded s := by
  refine (ends_joinMeeting hseen).bind (fun _ s₁ h₁ => ?_) fun e s₁ h₁ => ?_
  · rcases h₁ with ⟨h₁, -⟩ | ⟨rfl, -, -⟩
    · cases h₁
    · refine (ends_waitAdmitted J.admissionPolls hseen).bind (fun admitted s₂ h₂ => ?_)
        fun e s₂ h₂ => ?_
      · rcases h₂ with ⟨h₂, hsee⟩ | ⟨h₂, rfl, -, -⟩
        · cases h₂
          rw [hsee]
          exact ends_pure (Or.inl ⟨rfl, hstatus⟩)
        · cases admitted with
          | false => exact absurd rfl h₂
          | true =>
            rw [if_pos rfl]
            have hjoined := ends_advance s₂ (.advance .joined) .joined
              fun now run' hrun => status_of_advance hrun
            refine hjoined.bind (fun _ s₃ h₃ => ?_) fun e s₃ h₃ => Or.inl (h₃.1.trans hseen)
            have hseen₃ := h₃.1.trans hseen
            have hrecording := ends_advance s₃ (.advance .recording) .recording
              fun now run' hrun => status_of_advance hrun
            refine hrecording.bind (fun _ s₄ h₄ => ?_) fun e s₄ h₄ => Or.inl (h₄.1.trans hseen₃)
            obtain ⟨hseenAt₄, ⟨-, hstatus₄⟩ | ⟨e, he, -⟩⟩ := h₄
            · have hseen₄ := hseenAt₄.trans hseen₃
              refine (ends_activities J.meeting.recorded (steady_ok (s := s₄))).bind
                (fun _ s₅ h₅ => ?_) fun e s₅ h₅ => Or.inl (h₅.seenAt.trans hseen₄)
              have hseen₅ := h₅.seenAt.trans hseen₄
              have hstatus₅ := h₅.outcome.status.trans hstatus₄
              refine (ends_waitMeetingEnded J.meetingPolls hseen₅).bind (fun cancelled s₆ h₆ => ?_)
                fun e s₆ h₆ => ?_
              · have hsite : s₆.seenAt ≠ some .joining := by
                  rcases h₆ with ⟨-, hsee⟩ | ⟨-, -, hnone, -⟩
                  · rw [hsee]
                    nofun
                  · rw [hnone]
                    nofun
                have hstatus₆ : s₆.run.status = .recording := by
                  rcases h₆ with ⟨-, hsee⟩ | ⟨-, rfl, -, -⟩
                  · rw [hsee]
                    exact hstatus₅
                  · exact hstatus₅
                refine (ends_activities J.meeting.transcribed (steady_ok (s := s₆))).bind
                  (fun _ s₇ h₇ => ends_pure ?_) fun e s₇ h₇ => ?_
                · have hstatus₇ := h₇.outcome.status.trans hstatus₆
                  rcases h₆ with ⟨h₆, hsee⟩ | ⟨h₆, rfl, hnone, -⟩
                  · cases h₆
                    exact Or.inr ⟨h₇.seenAt.trans (by rw [hsee]), hstatus₇⟩
                  · cases cancelled with
                    | true => exact absurd rfl h₆
                    | false => exact ⟨h₇.seenAt.trans hnone, hstatus₇⟩
                · refine told_raised (by rw [h₇.seenAt]; exact hsite) (fun e' hr => ?_) ?_
                  · cases hr
                    exact h₇.foreign e rfl
                  · rw [h₇.outcome.status, hstatus₆]
                    rfl
              · rcases h₆ with ⟨h₆, -⟩ | ⟨-, rfl, hnone, -⟩
                · cases h₆
                · exact Or.inl hnone
            · cases he
      · rcases h₂ with ⟨h₂, -⟩ | ⟨-, rfl, hnone, -⟩
        · cases h₂
        · exact Or.inl hnone
  · rcases h₁ with ⟨-, hsee⟩ | ⟨rfl, hnone, -⟩
    · refine Or.inr (Or.inl ?_)
      rw [hsee]
      refine ⟨rfl, ?_⟩
      show s.run.status.terminal = false
      rw [hstatus]
      rfl
    · exact Or.inl hnone

theorem ends_attendMeeting (hseen : s.seenAt = none) (hstatus : s.run.status = .joining) :
    Ends (attendMeeting (call J) J.hasBlob J.meeting) Told s := by
  refine (ends_attendAndRecord hseen hstatus).bind (fun cancelled s₁ h₁ => ?_) fun e s₁ h₁ => h₁
  cases cancelled with
  | false => exact ends_finish h₁.2 (Or.inr ⟨h₁.1, rfl⟩)
  | true =>
    rw [if_pos rfl]
    have hlive : s₁.run.status.terminal = false ∧ s₁.seenAt ≠ some .joining := by
      rcases h₁ with ⟨h, hs⟩ | ⟨h, hs⟩ <;> rw [h, hs] <;> exact ⟨rfl, nofun⟩
    have hget : Ends (call J .getRun) (fun r s' => (r = .ok s₁.run ∨
        ∃ e, r = .error e ∧ Foreign e) ∧ s' = s₁) s₁ := by
      refine ends_perform (fun e he _ => ⟨Or.inr ⟨e, rfl, he⟩, rfl⟩) fun c s' r he => ?_
      cases Option.some.inj he
      exact ⟨Or.inl rfl, rfl⟩
    refine hget.bind (fun run s₂ h₂ => ?_) fun e s₂ h₂ => ?_
    · obtain ⟨hrun | ⟨e, he, -⟩, rfl⟩ := h₂
      · cases hrun
        rcases h₁ with ⟨hadmission, hjoining⟩ | ⟨hmeeting, hrecording⟩
        · rw [if_pos (by simp [hjoining])]
          refine (ends_requestedStopReason_seen hadmission).bind (fun reason u hu => ?_)
            fun e u hu => ?_
          · obtain ⟨hreason, rfl⟩ := hu
            cases hreason
            refine (ends_failRun hlive.1).mono fun r v hv => ?_
            have hseenAt := hv.seenAt.trans hadmission
            refine Or.inr (Or.inr ⟨.admission, hseenAt, nofun, fun e hr => (hv.foreign e hr).1, ?_⟩)
            intro hterminal
            cases r with
            | ok _ => exact (hv.failed rfl).2
            | error e =>
              rw [(hv.foreign e rfl).2] at hterminal
              cases hterminal
          · cases hu.1
        · rw [if_neg (by simp [hrecording])]
          exact ends_finish hrecording (Or.inl ⟨hmeeting, rfl⟩)
      · cases he
    · obtain ⟨hrun | ⟨e', he, hforeign⟩, rfl⟩ := h₂
      · cases hrun
      · cases he
        refine told_raised hlive.2 (fun e' hr => ?_) hlive.1
        cases hr
        exact hforeign

theorem ends_afterJoining (hseen : s.seenAt = none) (hstatus : s.run.status = .joining) :
    Ends (afterJoining (call J) J.hasBlob J.meeting) Told s := by
  have hbeat : Ends (call J .createHeartbeat) (Steady s) s := ends_steady fun _ => ⟨rfl, nofun⟩
  refine hbeat.bind (fun _ s₁ h₁ => ?_) fun e s₁ h₁ => Or.inl (h₁.seenAt.trans hseen)
  have hopen : Ends (call J .openBrowser) (Steady s₁) s₁ := ends_steady fun _ => ⟨rfl, nofun⟩
  have hclose : ∀ u, Ends (call J .closeBrowser) (Steady u) u :=
    fun u => ends_steady fun _ => ⟨rfl, nofun⟩
  have hopened : Ends ((call J .openBrowser).rescue fun code => do
      call J .closeBrowser
      throw (.exception code)) (fun r u => u.seenAt = s₁.seenAt ∧ u.run.status = s₁.run.status) s₁ := by
    refine hopen.rescue (fun _ u hu => ⟨hu.seenAt, hu.outcome.status⟩) (fun code u hu => ?_)
      fun u hu => ⟨hu.seenAt, hu.outcome.status⟩
    refine (hclose u).bind (fun _ v hv => ends_throw ?_) fun e v hv => ?_ <;>
      exact ⟨hv.seenAt.trans hu.seenAt, hv.outcome.status.trans hu.outcome.status⟩
  refine hopened.bind (fun _ s₂ h₂ => ?_) fun e s₂ h₂ =>
    Or.inl (h₂.1.trans (h₁.seenAt.trans hseen))
  refine (ends_attendMeeting (h₂.1.trans (h₁.seenAt.trans hseen))
    (h₂.2.trans (h₁.outcome.status.trans hstatus))).ensuring fun r u hu => ?_
  refine (hclose u).mono fun c v hv => ?_
  have htold := hu.steady hv
  cases c <;> exact htold

theorem ends_cleanUp (s : World) : Ends (cleanUp (call J)) (Steady s) s := by
  have hquiet : ∀ i, i = .cancelHeartbeat ∨ i = .clearBeat ∨ i = .persistProfile →
      ∀ u, Ends (call J i) (Steady u) u := by
    rintro i (rfl | rfl | rfl) u <;> exact ends_steady fun _ => ⟨rfl, nofun⟩
  refine Ends.steady (hquiet _ (Or.inl rfl) s) fun _ s₁ h₁ => ?_
  have hclear : Ends ((call J .clearBeat).rescue fun _ => pure ()) (Steady s₁) s₁ :=
    (hquiet _ (Or.inr (Or.inl rfl)) s₁).rescue (fun _ _ => id)
      (fun code u hu => ends_pure ⟨hu.seenAt, hu.outcome, nofun⟩) fun _ => id
  refine Ends.steady (hclear.mono fun _ _ => h₁.trans) fun _ s₂ h₂ => ?_
  exact (hquiet _ (Or.inr (Or.inr rfl)) s₂).mono fun _ _ => h₂.trans

/-- `attend`, from before the first check on. -/
theorem ends_attend (hseen : s.seenAt = none) :
    Ends (attend (call J) J.hasBlob J.meeting) Told s := by
  have hrestore : Ends (call J .restoreProfile) (Steady s) s := ends_steady fun _ => ⟨rfl, nofun⟩
  refine hrestore.bind (fun _ s₁ h₁ => ?_) fun e s₁ h₁ => Or.inl (h₁.seenAt.trans hseen)
  have hseen₁ := h₁.seenAt.trans hseen
  have hjoining : Ends (do
      call J (.transaction (.advance .joining))
      afterJoining (call J) J.hasBlob J.meeting) Told s₁ := by
    refine (ends_advance s₁ (.advance .joining) .joining fun now run' hrun =>
      status_of_advance hrun).bind (fun _ s₂ h₂ => ?_) fun e s₂ h₂ => Or.inl (h₂.1.trans hseen₁)
    obtain ⟨hseenAt, ⟨-, hstatus⟩ | ⟨e, he, -⟩⟩ := h₂
    · exact ends_afterJoining (hseenAt.trans hseen₁) hstatus
    · cases he
  refine hjoining.ensuring fun r u hu => (ends_cleanUp u).mono fun c v hv => ?_
  have htold := hu.steady hv
  cases c <;> exact htold

end attendance

end Fakery.Shutdown
