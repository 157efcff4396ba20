import Fakery.Bots.Serial
import Fakery.Requests.Stored

/-! A request is the transaction of the table of runs, but for the errors of its URL and of the
database. -/
namespace Fakery.Requests
open Fakery.Bots Fakery.Concurrent Fakery.Core Fakery.Meetings

variable {admits : Text → Bool} {clock : ℕ → ℕ} {s : Runs} {id t : ℕ} {u : Text} {key : String}
  {meeting : Text × Text} {displayName idempotencyKey : Option String} {existing : BotRun}
  {db db' : Db} {allows : Stmt → ℕ → Prop}

/-- The run that the table finds for the key of a request. -/
abbrev lookUp (s : Runs) (idempotencyKey : Option String) : Option BotRun :=
  if idempotencyKey.any (· ≠ "") then
    (s.select fun run => run.idempotencyKey = some (idempotencyKey.getD "")).head? else none

theorem lookUp_used (hs : Stored s) (hasked : Asked idempotencyKey key)
    (hused : Used s key existing) : lookUp s idempotencyKey = some existing := by
  obtain ⟨rfl, hne⟩ := hasked
  have hany : (some key).any (· ≠ "") = true := decide_eq_true hne
  rw [lookUp, if_pos hany]
  exact (head?_key hs).mpr hused

theorem lookUp_unused (hs : Stored s) (hunused : Unused s idempotencyKey) :
    lookUp s idempotencyKey = none := by
  unfold lookUp
  split_ifs with hany
  · obtain ⟨key, rfl, hne⟩ := Option.any_eq_true _ _ |>.mp hany
    by_contra hsome
    obtain ⟨found, hfound⟩ := Option.ne_none_iff_exists'.mp hsome
    exact (hunused key ⟨rfl, of_decide_eq_true hne⟩).2 found ((head?_key hs).mp hfound)
  · rfl

/-- What the table does for a request of the meeting. -/
abbrev committed (clock : ℕ → ℕ) (s : Runs) (id : ℕ) (meeting : Text × Text)
    (displayName idempotencyKey : Option String) : Except TwinError Runs :=
  s.create clock id (String.ofList meeting.1) (String.ofList meeting.2) displayName idempotencyKey

theorem committed_used (h : lookUp s idempotencyKey = some existing) :
    committed clock s id meeting displayName idempotencyKey =
      if existing.meetingKey = String.ofList meeting.2 then .ok s else
        .error (makeError "conflict" "Idempotency-Key was already used for another meeting") := by
  simp only [committed, Runs.create, h]

theorem committed_busy (h : lookUp s idempotencyKey = none)
    (hactive : (s.select fun run => run.meetingKey = String.ofList meeting.2 &&
      Db.active run.status).head?.isSome) :
    committed clock s id meeting displayName idempotencyKey =
      .error (makeError "conflict" "an active bot already exists for this meeting") := by
  obtain ⟨run, hrun⟩ := Option.isSome_iff_exists.mp hactive
  simp only [committed, Runs.create, h, hrun]

theorem committed_free (h : lookUp s idempotencyKey = none)
    (hfree : ¬(s.select fun run => run.meetingKey = String.ofList meeting.2 &&
      Db.active run.status).head?.isSome) :
    committed clock s id meeting displayName idempotencyKey =
      let run := queuedRun clock s id meeting displayName idempotencyKey
      if (s.rows run.id).isSome || s.ids.any fun b => Db.clashes run (s.rows b) then
        .error (makeError "conflict" "an active bot already exists for this meeting")
      else .ok (s.tick.tick.insert run) := by
  have hnone := Option.not_isSome_iff_eq_none.mp hfree
  simp only [committed, Runs.create, h, hnone]
  rfl

/-- What a request comes to, on a table whose rows all have the key of their meeting. -/
theorem createOrGet_eq_committed (hs : Stored s) (hn : normalizeMeetingUrl admits u = .ok meeting)
    (hdb : createOrGet admits clock s id u displayName idempotencyKey ≠ .error .database) :
    (createOrGet admits clock s id u displayName idempotencyKey).map Prod.snd =
      (committed clock s id meeting displayName idempotencyKey).mapError .problem := by
  have hdecided := createOrGet_decided hs hn clock id displayName idempotencyKey
  generalize createOrGet admits clock s id u displayName idempotencyKey = result at hdb hdecided ⊢
  cases hdecided with
  | unsendable => exact absurd rfl hdb
  | unfit => exact absurd rfl hdb
  | same hasked hused _ hmeeting =>
    have hsame : _ = String.ofList meeting.2 := hmeeting
    rw [committed_used (lookUp_used hs hasked hused), if_pos hsame]
    rfl
  | other hasked hused _ hmeeting =>
    have hother : _ ≠ String.ofList meeting.2 := hmeeting
    rw [committed_used (lookUp_used hs hasked hused), if_neg hother]
    rfl
  | busy hunused hbusy =>
    rw [committed_busy (lookUp_unused hs hunused) ((head?_meeting hs _).mpr hbusy)]
    rfl
  | clash hunused hfree _ hnear =>
    have hclash := (Bool.not_eq_false _).mp (mt (apart_iff hs).mpr hnear)
    rw [committed_free (lookUp_unused hs hunused) (mt (head?_meeting hs _).mp hfree)]
    dsimp only
    rw [if_pos hclash]
    rfl
  | created hunused hfree _ hap =>
    have hapart := Bool.eq_false_iff.mp ((apart_iff hs).mp hap)
    rw [committed_free (lookUp_unused hs hunused) (mt (head?_meeting hs _).mp hfree)]
    dsimp only
    rw [if_neg hapart]
    rfl

/-- A call is the step of the table, if it is no error of the database. -/
theorem step_eq_committed (hs : Stored s) (hn : normalizeMeetingUrl admits u = .ok meeting)
    (hdb : createOrGet admits clock s id u displayName idempotencyKey ≠ .error .database) :
    step admits clock s (.createOrGet id u displayName idempotencyKey) =
      (committed clock s id meeting displayName idempotencyKey).toOption.getD s := by
  have heq := createOrGet_eq_committed hs hn hdb
  cases hr : createOrGet admits clock s id u displayName idempotencyKey with
  | ok result =>
    rw [hr] at heq
    simp only [step, hr]
    cases hc : committed clock s id meeting displayName idempotencyKey with
    | ok s' =>
      rw [hc] at heq
      exact Except.ok.inj heq
    | error e =>
      rw [hc] at heq
      cases heq
  | error e =>
    rw [hr] at heq
    simp only [step, hr]
    cases hc : committed clock s id meeting displayName idempotencyKey with
    | ok s' =>
      rw [hc] at heq
      cases heq
    | error e => rfl

/-- The transaction that a request makes, with nothing beside it, does the step of the call, if
that is no error of the database. -/
theorem serial_request (hs : Stored s) (ht : Tabled s) (hserial : Serial s db)
    (hn : normalizeMeetingUrl admits u = .ok meeting)
    (hrun : service.Alone t allows (Op.create (String.ofList meeting.1) (String.ofList meeting.2)
      displayName idempotencyKey).prog (db.setSession t {}) db' ()) :
    ∃ clock id, createOrGet admits clock s id u displayName idempotencyKey = .error .database ∨
      Serial (step admits clock s (.createOrGet id u displayName idempotencyKey)) db' := by
  obtain ⟨clock, id, hdone⟩ := serial_commit (.createOrGet 0 (String.ofList meeting.1)
    (String.ofList meeting.2) displayName idempotencyKey) ht hserial hrun
  refine ⟨clock, id, or_iff_not_imp_left.mpr fun hdb => ?_⟩
  rw [step_eq_committed hs hn hdb]
  exact hdone

end Fakery.Requests
