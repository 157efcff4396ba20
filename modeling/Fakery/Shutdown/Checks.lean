import Fakery.Concurrent.Alone
import Fakery.Runtime.Rows

/-! Where `attend` looks whether it is to stop, while no client asks for it: `SHUTDOWN_EVENT` may be
set by SIGTERM before any of its readings. -/
namespace Fakery.Shutdown
open Fakery.Bots Fakery.Concurrent Fakery.Runtime Fakery.Storage

def END_CANCELLED : String := "cancelled"

inductive Site where
  | joining | admission | meeting | ending
deriving DecidableEq

/-- What is done to the page on the way to the knock. -/
inductive Page where
  | warmupNavigation | openPrejoin | fillName | settleSignedIn | preKnock | knock

/-- The first navigation and the arming of the recorder catch every exception. -/
def Page.raises : Page → Bool
  | warmupNavigation | preKnock => false
  | _ => true

inductive Admission where
  | admitted | gated | waiting

inductive Step where
  | isSet (site : Site)
  | isCancelled
  | page (page : Page)
  | pollAdmission
  | pollMeeting
  | releaseCapacity
  | call (i : Call)

abbrev Reply : Step → Type
  | .isSet _ | .isCancelled | .pollMeeting => Bool
  | .pollAdmission => Admission
  | .page _ | .releaseCapacity => Unit
  | .call i => Runtime.Reply i

abbrev Answer (i : Step) : Type := Except Raised (Reply i)

abbrev Act := Task Step Answer Raised

def perform (i : Step) : Act (Reply i) := ExceptT.mk (Prog.ask i)

/-- A run of `attend`; `admissionPolls` and `meetingPolls` are how many polls fit before the
deadlines. -/
structure Journey where
  guest : Bool := true
  warmup : Bool := false
  recordAudio : Bool := true
  hasRedis : Bool := true
  hasBlob : Bool := true
  admissionPolls : ℕ
  meetingPolls : ℕ
  meeting : Meeting := {}

/-- The exception of a stop check of `join_meeting`. -/
def joinCancelled : Raised := .exception (some END_CANCELLED)

section programs

variable (J : Journey)

def shouldStop (site : Site) : Act Bool := do
  if ← perform (.isSet site) then pure true
  else if J.hasRedis then perform .isCancelled
  else pure false

def stopCheck : Act Unit := do
  if ← shouldStop J .joining then throw joinCancelled else pure ()

def pageIf (wanted : Bool) (page : Page) : Act Unit :=
  if wanted then perform (.page page) else pure ()

def joinMeeting : Act Unit := do
  stopCheck J
  pageIf J.warmup .warmupNavigation
  stopCheck J
  perform (.page .openPrejoin)
  perform (.page (if J.guest then .fillName else .settleSignedIn))
  pageIf J.recordAudio .preKnock
  stopCheck J
  perform (.page .knock)

def waitAdmitted : ℕ → Act Bool
  | 0 => throw (.exception (some "join-timeout"))
  | n + 1 => do
    if ← shouldStop J .admission then pure false
    else match ← perform .pollAdmission with
      | .admitted => pure true
      | .gated => throw (.exception (some "join-gated"))
      | .waiting => waitAdmitted n

def waitMeetingEnded : ℕ → Act Bool
  | 0 => throw (.exception (some "meeting-timeout"))
  | n + 1 => do
    if ← (if J.hasRedis then shouldStop J .meeting else pure false) then pure true
    else if ← perform .pollMeeting then pure false
    else waitMeetingEnded n

def requestedStopReason : Act (Option String) := do
  if ← perform (.isSet .ending) then pure (some "shutdown")
  else if J.hasRedis then do
    if ← perform .isCancelled then pure (some "cancelled") else pure none
  else pure none

def call : (i : Call) → Act (Runtime.Reply i)
  | .joinMeeting => joinMeeting J
  | .waitAdmitted => waitAdmitted J J.admissionPolls
  | .waitMeetingEnded => waitMeetingEnded J J.meetingPolls
  | .requestedStopReason => requestedStopReason J
  | i => perform (.call i)

end programs

/-- The row of the run, and the reading of the event that has seen it set first. -/
structure World where
  run : BotRun
  seenAt : Option Site := none

/-- Whether the event is read as set, what the step raises, the clock, and what the step answers. -/
structure Outcome where
  set : Bool := false
  raises : Option Raised := none
  now : ℕ := 0
  moment : ℕ := 0
  admission : Admission := .admitted
  ended : Bool := true
  restored : Option RecordingArtifact := none

/-- The codes that stand for a request to stop come from nowhere but the stop checks. -/
def Outcome.foreign (c : Outcome) : Bool :=
  match c.raises with
  | some (.exception (some code)) => code ≠ END_CANCELLED && code ≠ "shutdown"
  | _ => true

def Outcome.possible (c : Outcome) : Step → Bool
  | .isSet _ => c.raises.isNone
  | .page page => c.foreign && (page.raises || c.raises.isNone)
  | _ => c.foreign

/-- The calls of `attend` that act as one. -/
def callEffect (c : Outcome) (s : World) : (i : Call) → World × Except Raised (Runtime.Reply i)
  | .transaction tx =>
    match tx.apply c.now s.run with
    | .error _ => (s, .error (.exception none))
    | .ok run' => ({ s with run := BotRun.flushed s.run c.moment run' }, .ok ())
  | .getRun => (s, .ok s.run)
  | .restorePrefix => (s, .ok c.restored)
  | .waitAdmitted | .waitMeetingEnded => (s, .error (.exception none))
  | .requestedStopReason => (s, .error (.exception none))
  | .restoreProfile | .persistProfile | .createHeartbeat | .cancelHeartbeat | .clearBeat
  | .openBrowser | .closeBrowser | .joinMeeting | .pause | .leaveMeeting => (s, .ok ())

/-- Once set, the event stays set. -/
def effect (c : Outcome) (s : World) : (i : Step) → Option (World × Answer i)
  | .isSet site =>
    if s.seenAt.isSome && !c.set then none
    else some ({ s with seenAt := if c.set && s.seenAt.isNone then some site else s.seenAt },
      .ok c.set)
  | .isCancelled => some (s, .ok false)
  | .page _ => some (s, .ok ())
  | .pollAdmission => some (s, .ok c.admission)
  | .pollMeeting => some (s, .ok c.ended)
  | .releaseCapacity => some (s, .ok ())
  | .call i => some (callEffect c s i)

def exec (_ : ℕ) (i : Step) (c : Outcome) (s : World) : Option (World × Answer i) :=
  if c.possible i then
    match c.raises with
    | some e => some (s, .error e)
    | none => effect c s i
  else none

/-- One process attends. -/
def attendance : Machine Step Answer Unit World Outcome Unit where
  prog _ := .done ()
  begin _ _ := some
  exec := exec
  kill _ := id
  env _ _ := none

variable {J : Journey} {s s₀ : World} {α β : Type} {site : Site}

/-- `attend` on its own, from `s` on, ends in `Q`. -/
def Ends (x : Act α) (Q : Except Raised α → World → Prop) (s : World) : Prop :=
  (Protocol.solo attendance 0).wp 0 () x.run Q s

section rules

variable {x : Act α} {Q Q' : Except Raised α → World → Prop}

theorem Ends.mono (h : Ends x Q s) (hq : ∀ r s, Q r s → Q' r s) : Ends x Q' s :=
  Protocol.wp_mono h hq

/-- A later step is verified where the one before has ended well. -/
theorem Ends.bind {f : α → Act β} {R : Except Raised β → World → Prop} (hx : Ends x Q s)
    (hok : ∀ a s, Q (.ok a) s → Ends (f a) R s) (herror : ∀ e s, Q (.error e) s → R (.error e) s) :
    Ends (x >>= f) R s := by
  refine Protocol.wp_task_bind.mpr (Protocol.wp_mono hx fun r s' hr => ?_)
  cases r with
  | ok a => exact hok a s' hr
  | error e => exact herror e s' hr

theorem Ends.ensuring {c : Act Unit} {R : Except Raised α → World → Prop} (hx : Ends x Q s)
    (hc : ∀ r s, Q r s → Ends c (fun c s => match c with
      | .ok _ => R r s
      | .error e => R (.error e) s) s) : Ends (x.ensuring c) R s :=
  Protocol.wp_ensuring.mpr (Protocol.wp_mono hx fun r s' hr =>
    Protocol.wp_mono (hc r s' hr) fun c _ h => by cases c <;> exact h)

theorem Ends.rescue {h : Option String → Act α} (hx : Ends x Q s)
    (hok : ∀ a s, Q (.ok a) s → Q' (.ok a) s)
    (hh : ∀ code s, Q (.error (.exception code)) s → Ends (h code) Q' s)
    (hcancelled : ∀ s, Q (.error .cancelled) s → Q' (.error .cancelled) s) :
    Ends (x.rescue h) Q' s := by
  refine Protocol.wp_rescue.mpr (Protocol.wp_mono hx fun r s' hr => ?_)
  match r with
  | .ok a => exact hok a s' hr
  | .error (.exception code) => exact hh code s' hr
  | .error .cancelled => exact hcancelled s' hr

theorem ends_pure {a : α} (h : Q (.ok a) s) : Ends (pure a) Q s := h

theorem ends_throw {e : Raised} (h : Q (.error e) s) : Ends (throw e) Q s := h

/-- An exception that no stop check has raised. -/
def Foreign : Raised → Prop
  | .exception (some code) => code ≠ END_CANCELLED ∧ code ≠ "shutdown"
  | _ => True

theorem Foreign.ne {e : Raised} (h : Foreign e) : e ≠ joinCancelled := by
  rintro rfl
  exact h.1 rfl

theorem foreign_of_possible {i : Step} {c : Outcome} {e : Raised} (h : c.possible i = true)
    (hc : c.raises = some e) : Foreign e := by
  match e with
  | .cancelled | .exception none => trivial
  | .exception (some code) =>
    have hforeign : c.foreign = true := by
      cases i with
      | isSet site => simp [Outcome.possible, hc] at h
      | page page => exact ((Bool.and_eq_true _ _).mp h).1
      | _ => exact h
    simpa [Outcome.foreign, hc, Foreign] using hforeign

/-- A step raises something foreign and changes nothing, or it has its effect. -/
theorem ends_perform {i : Step} {Q : Answer i → World → Prop}
    (hraise : ∀ e, Foreign e → (∀ site, i ≠ .isSet site) → Q (.error e) s)
    (heffect : ∀ c s' r, effect c s i = some (s', r) → Q r s') : Ends (perform i) Q s := by
  refine Protocol.wp_solo_ask.mpr fun c s' r he => ?_
  simp only [attendance, exec] at he
  split_ifs at he with hp
  cases hc : c.raises with
  | none =>
    rw [hc] at he
    exact heffect c s' r he
  | some e =>
    rw [hc] at he
    cases Option.some.inj he
    refine hraise e (foreign_of_possible hp hc) fun site hi => ?_
    subst hi
    simp [Outcome.possible, hc] at hp

end rules

section checks

/-- No check has seen the event, and no check has raised. -/
def Unseen (s₀ : World) (r : Except Raised α) (s : World) : Prop :=
  s = s₀ ∧ s.seenAt = none ∧ ∀ e, r = .error e → Foreign e

/-- The check at `site` has seen it. -/
def See (s₀ : World) (site : Site) (s : World) : Prop := s = { s₀ with seenAt := some site }

theorem ends_isSet (h : s.seenAt = none) : Ends (perform (.isSet site))
    (fun r s' => r = .ok true ∧ See s site s' ∨ r = .ok false ∧ Unseen s r s') s := by
  refine ends_perform (fun e _ hi => absurd rfl (hi site)) fun c s' r he => ?_
  simp only [effect, h, Option.isSome_none, Bool.false_and, Bool.false_eq_true, if_false,
    Option.isNone_none, Bool.and_true, Option.some.injEq, Prod.mk.injEq] at he
  obtain ⟨rfl, rfl⟩ := he
  cases c.set with
  | true => exact Or.inl ⟨rfl, rfl⟩
  | false =>
    refine Or.inr ⟨rfl, ?_, rfl, nofun⟩
    cases s
    simp_all

/-- What leaves the row and the readings alone. -/
theorem ends_still {i : Step} (hi : ∀ c s' r, effect c s i = some (s', r) →
    s' = s ∧ ∀ e, r = .error e → Foreign e) :
    Ends (perform i) (fun r s' => s' = s ∧ ∀ e, r = .error e → Foreign e) s := by
  refine ends_perform (fun e he _ => ⟨rfl, fun e' hr => ?_⟩) hi
  cases hr
  exact he

theorem ends_shouldStop (h : s.seenAt = none) : Ends (shouldStop J site)
    (fun r s' => r = .ok true ∧ See s site s' ∨ r ≠ .ok true ∧ Unseen s r s') s := by
  refine (ends_isSet h).bind (fun set s' hset => ?_) fun e s' hset => ?_
  · rcases hset with ⟨hset, hsee⟩ | ⟨hset, rfl, hnone, -⟩
    · cases hset
      exact ends_pure (Or.inl ⟨rfl, hsee⟩)
    · cases hset
      rw [if_neg Bool.false_ne_true]
      split_ifs
      · refine ends_perform (fun e he _ => Or.inr ⟨nofun, rfl, hnone, ?_⟩) fun c s' r he => ?_
        · intro e' hr
          cases hr
          exact he
        · cases Option.some.inj he
          exact Or.inr ⟨nofun, rfl, hnone, nofun⟩
      · exact ends_pure (Or.inr ⟨nofun, rfl, hnone, nofun⟩)
  · rcases hset with ⟨hset, -⟩ | ⟨hset, -⟩ <;> cases hset

/-- A check of `join_meeting` has raised, or no check has seen the event. -/
def Checked (s₀ : World) (r : Except Raised α) (s : World) : Prop :=
  r = .error joinCancelled ∧ See s₀ .joining s ∨ Unseen s₀ r s

theorem Ends.checked {x : Act α} {f : α → Act β} (hx : Ends x (Checked s₀) s)
    (hf : ∀ a, s₀.seenAt = none → Ends (f a) (Checked s₀) s₀) :
    Ends (x >>= f) (Checked s₀) s := by
  refine hx.bind (fun a s' ha => ?_) fun e s' he => ?_
  · rcases ha with ⟨ha, -⟩ | ⟨rfl, hnone, -⟩
    · cases ha
    · exact hf a hnone
  · rcases he with ⟨he, hsee⟩ | ⟨hs, hnone, hforeign⟩
    · cases he
      exact Or.inl ⟨rfl, hsee⟩
    · refine Or.inr ⟨hs, hnone, fun e' hr => ?_⟩
      cases hr
      exact hforeign e rfl

theorem checked_ok {a : α} (h : s.seenAt = none) : Ends (pure a) (Checked s) s :=
  ends_pure (Or.inr ⟨rfl, h, nofun⟩)

theorem ends_stopCheck (h : s.seenAt = none) : Ends (stopCheck J) (Checked s) s := by
  refine (ends_shouldStop h).bind (fun set s' hset => ?_) fun e s' hset => ?_
  · rcases hset with ⟨hset, hsee⟩ | ⟨hset, rfl, hnone, -⟩
    · cases hset
      exact ends_throw (Or.inl ⟨rfl, hsee⟩)
    · cases set with
      | true => exact absurd rfl hset
      | false => exact checked_ok hnone
  · rcases hset with ⟨hset, -⟩ | ⟨-, hs, hnone, hforeign⟩
    · cases hset
    · refine Or.inr ⟨hs, hnone, fun e' hr => ?_⟩
      cases hr
      exact hforeign e rfl

theorem ends_page (page : Page) (h : s.seenAt = none) :
    Ends (perform (.page page)) (Checked s) s := by
  refine ends_perform (fun e he _ => Or.inr ⟨rfl, h, fun e' hr => ?_⟩) fun c s' r he => ?_
  · cases hr
    exact he
  · cases Option.some.inj he
    exact Or.inr ⟨rfl, h, nofun⟩

theorem ends_joinMeeting (h : s.seenAt = none) : Ends (joinMeeting J) (Checked s) s := by
  have hpage : ∀ wanted page, Ends (pageIf wanted page) (Checked s) s := by
    intro wanted page
    cases wanted with
    | true => exact ends_page page h
    | false => exact checked_ok h
  refine (ends_stopCheck h).checked fun _ _ => (hpage _ _).checked fun _ _ => ?_
  refine (ends_stopCheck h).checked fun _ _ => (ends_page _ h).checked fun _ _ => ?_
  refine (ends_page _ h).checked fun _ _ => (hpage _ _).checked fun _ _ => ?_
  exact (ends_stopCheck h).checked fun _ _ => ends_page _ h

/-- The wait ends because a check at `site` has seen the event, with `stop`, or unseen. -/
def Waited (s₀ : World) (site : Site) (stop : Bool) (r : Except Raised Bool) (s : World) : Prop :=
  r = .ok stop ∧ See s₀ site s ∨ r ≠ .ok stop ∧ Unseen s₀ r s

theorem waited_throw {code : String} {stop : Bool} (h : s.seenAt = none)
    (hcode : Foreign (.exception (some code))) :
    Ends (throw (.exception (some code))) (Waited s site stop) s := by
  refine ends_throw (Or.inr ⟨nofun, rfl, h, fun e hr => ?_⟩)
  cases hr
  exact hcode

theorem waited_error {stop : Bool} {e : Raised}
    (h : Unseen s₀ (.error e : Except Raised α) s) : Waited s₀ site stop (.error e) s := by
  refine Or.inr ⟨nofun, h.1, h.2.1, fun e' hr => ?_⟩
  cases hr
  exact h.2.2 e rfl

theorem ends_waitAdmitted (n : ℕ) (h : s.seenAt = none) :
    Ends (waitAdmitted J n) (Waited s .admission false) s := by
  induction n with
  | zero => exact waited_throw h ⟨by decide, by decide⟩
  | succ n ih =>
    refine (ends_shouldStop h).bind (fun set s' hset => ?_) fun e s' hset => ?_
    · rcases hset with ⟨hset, hsee⟩ | ⟨hset, rfl, -, -⟩
      · cases hset
        exact ends_pure (Or.inl ⟨rfl, hsee⟩)
      · cases set with
        | true => exact absurd rfl hset
        | false =>
          rw [if_neg Bool.false_ne_true]
          have hpoll : Ends (perform .pollAdmission) (Unseen s') s' := by
            refine ends_perform (fun e he _ => ⟨rfl, h, fun e' hr => ?_⟩) fun c s'' r he => ?_
            · cases hr
              exact he
            · cases Option.some.inj he
              exact ⟨rfl, h, nofun⟩
          refine hpoll.bind (fun answer s'' hs => ?_) fun e s'' hs => waited_error hs
          obtain ⟨rfl, -, -⟩ := hs
          cases answer with
          | admitted => exact ends_pure (Or.inr ⟨nofun, rfl, h, nofun⟩)
          | gated => exact waited_throw h ⟨by decide, by decide⟩
          | waiting => exact ih
    · rcases hset with ⟨hset, -⟩ | ⟨-, hs⟩
      · cases hset
      · exact waited_error hs

theorem ends_waitMeetingEnded (n : ℕ) (h : s.seenAt = none) :
    Ends (waitMeetingEnded J n) (Waited s .meeting true) s := by
  induction n with
  | zero => exact waited_throw h ⟨by decide, by decide⟩
  | succ n ih =>
    have hstop : Ends (if J.hasRedis then shouldStop J .meeting else pure false)
        (Waited s .meeting true) s := by
      cases J.hasRedis with
      | true => exact ends_shouldStop h
      | false => exact ends_pure (Or.inr ⟨nofun, rfl, h, nofun⟩)
    refine hstop.bind (fun set s' hset => ?_) fun e s' hset => ?_
    · rcases hset with ⟨hset, hsee⟩ | ⟨hset, rfl, -, -⟩
      · cases hset
        exact ends_pure (Or.inl ⟨rfl, hsee⟩)
      · cases set with
        | true => exact absurd rfl hset
        | false =>
          rw [if_neg Bool.false_ne_true]
          have hpoll : Ends (perform .pollMeeting) (Unseen s') s' := by
            refine ends_perform (fun e he _ => ⟨rfl, h, fun e' hr => ?_⟩) fun c s'' r he => ?_
            · cases hr
              exact he
            · cases Option.some.inj he
              exact ⟨rfl, h, nofun⟩
          refine hpoll.bind (fun ended s'' hs => ?_) fun e s'' hs => waited_error hs
          obtain ⟨rfl, -, -⟩ := hs
          cases ended with
          | true => exact ends_pure (Or.inr ⟨nofun, rfl, h, nofun⟩)
          | false => exact ih
    · rcases hset with ⟨hset, -⟩ | ⟨-, hs⟩
      · cases hset
      · exact waited_error hs

/-- Once a check has seen the event, the reason is the shutdown. -/
theorem ends_requestedStopReason_seen (h : s.seenAt = some site) :
    Ends (requestedStopReason J) (fun r s' => r = .ok (some "shutdown") ∧ s' = s) s := by
  have hset : Ends (perform (.isSet .ending)) (fun r s' => r = .ok true ∧ s' = s) s := by
    refine ends_perform (fun e _ hi => absurd rfl (hi .ending)) fun c s' r he => ?_
    simp only [effect, h, Option.isSome_some, Bool.true_and, Option.isNone_some,
      Bool.and_false, Bool.false_eq_true, if_false] at he
    split_ifs at he with hc
    cases Option.some.inj he
    refine ⟨?_, ?_⟩
    · simpa using hc
    · cases s
      simp_all
  refine hset.bind (fun set s' hs => ?_) fun e s' hs => ?_
  · obtain ⟨hanswer, hsame⟩ := hs
    cases hanswer
    exact ends_pure ⟨rfl, hsame⟩
  · cases hs.1

/-- Before, it is the shutdown that is seen now, or nothing. -/
theorem ends_requestedStopReason (h : s.seenAt = none) : Ends (requestedStopReason J)
    (fun r s' => r = .ok (some "shutdown") ∧ See s .ending s' ∨
      (r = .ok none ∨ ∃ e, r = .error e ∧ Foreign e) ∧ s' = s) s := by
  refine (ends_isSet h).bind (fun set s' hset => ?_) fun e s' hset => ?_
  · rcases hset with ⟨hset, hsee⟩ | ⟨hset, rfl, -, -⟩
    · cases hset
      exact ends_pure (Or.inl ⟨rfl, hsee⟩)
    · cases hset
      rw [if_neg Bool.false_ne_true]
      split_ifs
      · have hcancelled : Ends (perform .isCancelled)
            (fun r u => (r = .ok false ∨ ∃ e, r = .error e ∧ Foreign e) ∧ u = s') s' := by
          refine ends_perform (fun e he _ => ⟨Or.inr ⟨e, rfl, he⟩, rfl⟩) fun c u r he => ?_
          cases Option.some.inj he
          exact ⟨Or.inl rfl, rfl⟩
        refine hcancelled.bind (fun answer u hu => ?_) fun e u hu => ?_
        · obtain ⟨hanswer | ⟨e, he, -⟩, rfl⟩ := hu
          · cases hanswer
            exact ends_pure (Or.inr ⟨Or.inl rfl, rfl⟩)
          · cases he
        · obtain ⟨hanswer | ⟨e', he, hforeign⟩, rfl⟩ := hu
          · cases hanswer
          · cases he
            exact Or.inr ⟨Or.inr ⟨e, rfl, hforeign⟩, rfl⟩
      · exact ends_pure (Or.inr ⟨Or.inl rfl, rfl⟩)
  · rcases hset with ⟨hset, -⟩ | ⟨hset, -⟩ <;> cases hset

end checks

end Fakery.Shutdown
