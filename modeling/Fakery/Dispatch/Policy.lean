import Fakery.Concurrent.Alone
import Fakery.Concurrent.History
import Fakery.Dispatch.Sender

/-! What each POST makes of its row while one sender is the only one to write it. -/
namespace Fakery.Dispatch
open Fakery.Bots Fakery.Concurrent WebhookDelivery

/-- The outcomes of the POSTs of each row, the random number drawn last, the readings of the clock,
each with the random number drawn before it, and when the lease of a row was looked at last. -/
structure Record where
  responses : ℕ → List (Except String Response) := fun _ => []
  jitter : ℕ := 0
  recordings : List (ℕ × ℕ) := []
  lookedAt : ℕ := 0

def Record.note (h : Record) : Call → Outcome → Record
  | .uniform _, c => { h with jitter := c.number }
  | .utcnow, c => { h with recordings := h.recordings ++ [(c.number, h.jitter)] }
  | .response n, c =>
    { h with responses := Function.update h.responses n (h.responses n ++ [c.response]) }
  | .leaseRow _ _, c => { h with lookedAt := c.number }
  | _, _ => h

def recorded : Machine Call Answer Op (Table × Record) Outcome World :=
  dispatch.observed fun _ i c _ h => some (h.note i c)

/-- The clock does not read the last minutes that a datetime can hold. -/
def InCalendar : Call → Outcome → Prop
  | .utcnow, c => c.number + (RETRY_CAP_S + 1) * SECOND ≤ MAX_DATETIME
  | _, _ => True

section policy

def Fails : Except String Response → Prop
  | .error _ => True
  | .ok response => 300 ≤ response.statusCode

/-- A failing response that is not worth another try. -/
def Refused : Except String Response → Prop
  | .error _ => False
  | .ok response => 300 ≤ response.statusCode ∧ response.statusCode ≠ 408 ∧
      response.statusCode ≠ 429 ∧ ¬(500 ≤ response.statusCode ∧ response.statusCode ≤ 599)

/-- The header of the response, where it is an integer. -/
def retryAfterOf : Except String Response → Option ℤ
  | .error _ => none
  | .ok response => response.retryAfter.join

/-- The date that a failing response asks for, at a reading of the clock with its jitter. -/
def askedDate (attempts : ℕ) (seconds : ℤ) (recording : ℕ × ℕ) : ℕ :=
  recording.1 + max (min RETRY_CAP_S (2 ^ attempts)) seconds.toNat * SECOND + recording.2

/-- The row is to be sent again, not before its delay has passed since the last of the recordings
of the attempt. A header whose date can be represented is followed at the first one. -/
def Delays (outcome : Except String Response) (d : WebhookDelivery) (recordings : List (ℕ × ℕ)) :
    Prop :=
  ∃ first later, recordings = first :: later ∧
    (later.getLastD first).1 + min RETRY_CAP_S (2 ^ d.attempts) * SECOND ≤ d.nextTryAt ∧
    ∀ seconds ∈ retryAfterOf outcome, askedDate d.attempts seconds first ≤ MAX_DATETIME →
      later = [] ∧ first.1 + seconds.toNat * SECOND ≤ d.nextTryAt

/-- What a failing POST makes of the row `d`. -/
structure Failure (outcome : Except String Response) (d d' : WebhookDelivery)
    (recordings : List (ℕ × ℕ)) : Prop where
  attempts : d'.attempts = d.attempts + 1
  leaseToken : d'.leaseToken = none
  leaseExpiresAt : d'.leaseExpiresAt = none
  dead : d'.status = .dead ↔ Refused outcome ∨ MAX_ATTEMPTS ≤ d'.attempts
  retry : d'.status ≠ .dead → d'.status = .retry ∧ Delays outcome d' recordings

/-- Nothing is to be sent: the row is gone, has another status or is leased at that moment. -/
def Withheld (row : Option WebhookDelivery) (moment : ℕ) : Prop :=
  ∀ d ∈ row, d.status ≠ .pending ∧ d.status ≠ .retry ∨ ∃ e ∈ d.leaseExpiresAt, moment < e

/-- An attempt on a row that is withheld leaves it as it is; any other one ends as the outcome of
its POST says. -/
def Follows (id : ℕ) (s s' : Table × Record) : Prop :=
  Withheld (s.1.find id) s'.2.lookedAt ∧ s'.2.responses id = s.2.responses id ∧
      s'.1.find id = s.1.find id ∨
    ∃ outcome d d' recordings, s'.2.responses id = s.2.responses id ++ [outcome] ∧
      s.1.find id = some d ∧ (d.status = .pending ∨ d.status = .retry) ∧
      s'.1.find id = some d' ∧ s'.2.recordings = s.2.recordings ++ recordings ∧
      (Fails outcome → Failure outcome d d' recordings) ∧
      (¬Fails outcome → d'.status = .sent)

end policy

variable {t token id : ℕ} {s s' : Table × Record} {d now item : WebhookDelivery}
  {response : Option Response} {error : String} {r : Except String SendOutcome}

section calls

theorem exec_recorded {i : Call} {c : Outcome} {a : Answer i}
    (h : recorded.exec t i c s = some (s', a)) :
    exec t i c s.1 = some (s'.1, a) ∧ s'.2 = s.2.note i c := by
  obtain ⟨he, ho⟩ := Machine.exec_observed h
  exact ⟨he, (Option.some.inj ho).symm⟩

/-- The columns that no update writes. -/
def SameRow (d now : WebhookDelivery) : Prop :=
  now.id = d.id ∧ now.subscriptionId = d.subscriptionId ∧ now.eventId = d.eventId ∧
    now.sequence = d.sequence ∧ now.url = d.url ∧ now.payload = d.payload ∧
    now.createdAt = d.createdAt

theorem changed_self {α : Type} [DecidableEq α] (loaded now : α) :
    changed loaded now loaded = now := by
  unfold changed
  split_ifs with h
  · exact h.symm
  · rfl

theorem store_loaded (h : SameRow d now) : store d now d = now := by
  obtain ⟨hid, hsub, hevent, hseq, hurl, hpayload, hcreated⟩ := h
  cases now
  simp only [store, changed_self] at *
  simp [hid, hsub, hevent, hseq, hurl, hpayload, hcreated]

theorem find_setRow {table : Table} {f : WebhookDelivery → WebhookDelivery}
    (hid : ∀ d, (f d).id = d.id) : (table.setRow id f).find id = (table.find id).map f := by
  unfold Table.find Table.setRow
  induction table.rows with
  | nil => rfl
  | cons x rows ih =>
    by_cases hx : x.id = id
    · simp [hx, hid]
    · simpa [hx] using ih

theorem find_update {table : Table} (hd : table.find id = some d) (h : SameRow d now) :
    (table.update id d now).find id = some now := by
  have hset : (table.setRow id (store d now)).find id = some (store d now d) := by
    rw [find_setRow (f := store d now) fun _ => rfl, hd]
    rfl
  rw [store_loaded h] at hset
  exact hset

/-- One call, with what it adds to the record. -/
theorem alone_call {i : Call} {α : Type} {q : Except String α} {f : Answer i → Act α}
    (h : recorded.Alone t InCalendar (perform i >>= f).run s s' q) : ∃ c table a, InCalendar i c ∧
      exec t i c s.1 = some (table, a) ∧
        recorded.Alone t InCalendar (f a).run (table, s.2.note i c) s' q := by
  obtain ⟨c, s₁, a, hc, he, h⟩ := Machine.alone_perform.mp h
  obtain ⟨he, hn⟩ := exec_recorded he
  have hsame : s₁ = (s₁.1, s.2.note i c) := Prod.ext rfl hn
  rw [hsame] at h
  exact ⟨c, s₁.1, a, hc, he, h⟩

theorem alone_get {f : Option WebhookDelivery → Act SendOutcome}
    (h : recorded.Alone t InCalendar (perform (.get id) >>= f).run s s' r) :
    recorded.Alone t InCalendar (f (s.1.find id)).run s s' r := by
  obtain ⟨c, table, a, -, he, h⟩ := alone_call h
  cases he
  exact h

theorem alone_utcnow {f : ℕ → Act SendOutcome}
    (h : recorded.Alone t InCalendar (perform .utcnow >>= f).run s s' r) :
    ∃ now, now + (RETRY_CAP_S + 1) * SECOND ≤ MAX_DATETIME ∧ recorded.Alone t InCalendar
      (f now).run (s.1, { s.2 with recordings := s.2.recordings ++ [(now, s.2.jitter)] }) s' r := by
  obtain ⟨c, table, a, hc, he, h⟩ := alone_call h
  cases he
  exact ⟨c.number, hc, h⟩

theorem alone_uniform {bound : ℕ} {f : ℕ → Act SendOutcome}
    (h : recorded.Alone t InCalendar (perform (.uniform bound) >>= f).run s s' r) :
    ∃ jitter ≤ bound, recorded.Alone t InCalendar (f jitter).run
      (s.1, { s.2 with jitter := jitter }) s' r := by
  obtain ⟨c, table, a, -, he, h⟩ := alone_call h
  simp only [exec] at he
  split_ifs at he with hle
  cases he
  exact ⟨c.number, hle, h⟩

theorem alone_update {outcome : SendOutcome} (h : recorded.Alone t InCalendar
    (perform (.update id d now) >>= fun _ => (pure outcome : Act SendOutcome)).run s s' r) :
    s' = (s.1.update id d now, s.2) ∧ r = .ok outcome := by
  obtain ⟨c, table, a, -, he, h⟩ := alone_call h
  cases he
  exact Machine.alone_pure.mp h

end calls

section recorder

theorem backoff_eq (response : Option Response) (attempts : ℕ) :
    backoff response (attempts + 1) = max (min RETRY_CAP_S (2 ^ (attempts + 1)))
      ((retryAfterSeconds response).getD 0) := by
  simp [backoff, RETRY_BASE_S, Nat.pow_succ, Nat.mul_comm]

theorem backoff_none (attempts : ℕ) :
    backoff none (attempts + 1) = min RETRY_CAP_S (2 ^ (attempts + 1)) := by
  simp [backoff_eq, retryAfterSeconds]

theorem backoff_asked {answer : Response} {seconds : ℤ} (attempts : ℕ)
    (h : seconds ∈ retryAfterOf (.ok answer)) : backoff (some answer) (attempts + 1) =
      max (min RETRY_CAP_S (2 ^ (attempts + 1))) seconds.toNat := by
  have hjoin : answer.retryAfter = some (some seconds) := Option.join_eq_some_iff.mp h
  simp [backoff_eq, retryAfterSeconds, hjoin]


/-- The row is not sent again. -/
def Dies (response : Option Response) (d : WebhookDelivery) : Prop :=
  isRetryable response = false ∨ MAX_ATTEMPTS ≤ d.attempts + 1

theorem alone_recordFailure (hd : s.1.find item.id = some d) (ht : d.leaseToken = some token)
    (h : recorded.Alone t InCalendar (recordFailure item token response error).run s s' r) :
    s'.2.responses = s.2.responses ∧
    (Dies response d ∧ (∃ now, s'.2.recordings = s.2.recordings ++ [(now, s.2.jitter)] ∧
        s'.1 = s.1.update item.id d (deadRow now (failedRow response error d))) ∧ r = .ok .dead ∨
      ¬Dies response d ∧ ∃ now jitter,
        jitter ≤ min SECOND (backoff response (d.attempts + 1) * SECOND / 10) ∧
        now + (RETRY_CAP_S + 1) * SECOND ≤ MAX_DATETIME ∧
        s'.2.recordings = s.2.recordings ++ [(now, jitter)] ∧
        (MAX_DATETIME < now + backoff response (d.attempts + 1) * SECOND + jitter ∧
            s'.1 = s.1 ∧ r = .error "OverflowError" ∨
          now + backoff response (d.attempts + 1) * SECOND + jitter ≤ MAX_DATETIME ∧
            s'.1 = s.1.update item.id d (retryRow
              (now + backoff response (d.attempts + 1) * SECOND + jitter)
              (failedRow response error d)) ∧ r = .ok .failed)) := by
  have h := alone_get h
  simp only [hd, ht, ne_eq, not_true_eq_false, if_false] at h
  have hdies : (!isRetryable response ||
      decide ((failedRow response error d).attempts ≥ MAX_ATTEMPTS)) = true ↔
        Dies response d := by simp [Dies, failedRow]
  by_cases hdead : Dies response d
  · rw [if_pos (hdies.mpr hdead)] at h
    obtain ⟨moment, -, h⟩ := alone_utcnow h
    obtain ⟨rfl, rfl⟩ := alone_update h
    exact ⟨rfl, Or.inl ⟨hdead, ⟨moment, rfl, rfl⟩, rfl⟩⟩
  · rw [if_neg fun hx => hdead (hdies.mp hx)] at h
    obtain ⟨jitter, hjitter, h⟩ := alone_uniform h
    obtain ⟨moment, hmoment, h⟩ := alone_utcnow h
    have hattempts : (failedRow response error d).attempts = d.attempts + 1 := rfl
    rw [hattempts] at hjitter h
    split_ifs at h with hover
    · obtain ⟨rfl, rfl⟩ := Machine.alone_throw.mp h
      exact ⟨rfl, Or.inr ⟨hdead, moment, jitter, hjitter, hmoment, rfl,
        Or.inl ⟨hover, rfl, rfl⟩⟩⟩
    · obtain ⟨rfl, rfl⟩ := alone_update h
      exact ⟨rfl, Or.inr ⟨hdead, moment, jitter, hjitter, hmoment, rfl,
        Or.inr ⟨Nat.le_of_not_lt hover, rfl, rfl⟩⟩⟩

variable {outcome : Except String Response} {recordings : List (ℕ × ℕ)} {date moment : ℕ}

theorem Failure.of_dead (h : Refused outcome ∨ MAX_ATTEMPTS ≤ d.attempts + 1) :
    Failure outcome d (deadRow moment (failedRow response error d)) recordings where
  attempts := rfl
  leaseToken := rfl
  leaseExpiresAt := rfl
  dead := iff_of_true rfl h
  retry hne := absurd rfl hne

theorem Failure.of_retry (h : ¬(Refused outcome ∨ MAX_ATTEMPTS ≤ d.attempts + 1))
    (hd : Delays outcome (retryRow date (failedRow response error d)) recordings) :
    Failure outcome d (retryRow date (failedRow response error d)) recordings where
  attempts := rfl
  leaseToken := rfl
  leaseExpiresAt := rfl
  dead := iff_of_false (by simp [retryRow]) h
  retry _ := ⟨rfl, hd⟩

theorem sameRow_dead : SameRow d (deadRow moment (failedRow response error d)) :=
  ⟨rfl, rfl, rfl, rfl, rfl, rfl, rfl⟩

theorem sameRow_retry : SameRow d (retryRow date (failedRow response error d)) :=
  ⟨rfl, rfl, rfl, rfl, rfl, rfl, rfl⟩

theorem dies_none : Dies none d ↔ MAX_ATTEMPTS ≤ d.attempts + 1 := by
  simp [Dies, isRetryable]

theorem dies_some {answer : Response} (h : 300 ≤ answer.statusCode) : Dies (some answer) d ↔
    Refused (.ok answer) ∨ MAX_ATTEMPTS ≤ d.attempts + 1 := by
  simp [Dies, isRetryable, Refused, h, and_assoc]

/-- Without a header the date can be represented. -/
theorem alone_recordFailure_none (hd : s.1.find item.id = some d) (ht : d.leaseToken = some token)
    (h : recorded.Alone t InCalendar (recordFailure item token none error).run s s' r) :
    s'.2.responses = s.2.responses ∧ ∃ now jitter o d',
      s'.2.recordings = s.2.recordings ++ [(now, jitter)] ∧ r = .ok o ∧
      s'.1.find item.id = some d' ∧
      (MAX_ATTEMPTS ≤ d.attempts + 1 ∧ d' = deadRow now (failedRow none error d) ∨
        d.attempts + 1 < MAX_ATTEMPTS ∧ ∃ date, d' = retryRow date (failedRow none error d) ∧
          now + min RETRY_CAP_S (2 ^ (d.attempts + 1)) * SECOND ≤ date) := by
  obtain ⟨hresponses, ⟨hdies, ⟨now, hrec, htable⟩, rfl⟩ |
    ⟨hdies, now, jitter, hjitter, hnow, hrec, hrest⟩⟩ := alone_recordFailure hd ht h
  · refine ⟨hresponses, now, _, _, _, hrec, rfl, ?_, Or.inl ⟨dies_none.mp hdies, rfl⟩⟩
    rw [htable]
    exact find_update hd sameRow_dead
  · rw [dies_none, Nat.not_le] at hdies
    rw [backoff_none] at hjitter hrest
    have hcap : min RETRY_CAP_S (2 ^ (d.attempts + 1)) ≤ RETRY_CAP_S := Nat.min_le_left _ _
    have hmul := Nat.mul_le_mul_right SECOND hcap
    have hone : jitter ≤ SECOND := hjitter.trans (Nat.min_le_left _ _)
    rw [Nat.add_mul, Nat.one_mul] at hnow
    obtain ⟨hover, -⟩ | ⟨-, htable, rfl⟩ := hrest
    · omega
    · rw [htable]
      exact ⟨hresponses, now, jitter, _, _, hrec, rfl, find_update hd sameRow_retry,
        Or.inr ⟨hdies, _, rfl, Nat.le_add_right _ _⟩⟩

end recorder

section attempt

variable {outcome : Except String Response}

/-- What an exception of the client makes of the row, or an error of the recorder before it. -/
theorem alone_handled (hd : s.1.find item.id = some d) (ht : d.leaseToken = some token)
    {q : Except String (Option SendOutcome)}
    (h : recorded.Alone t InCalendar (do
      let o ← recordFailure item token none error
      pure (some o) : Act (Option SendOutcome)).run s s' q) :
    s'.2.responses = s.2.responses ∧ ∃ now jitter o d',
      s'.2.recordings = s.2.recordings ++ [(now, jitter)] ∧ q = .ok (some o) ∧
      s'.1.find item.id = some d' ∧
      (MAX_ATTEMPTS ≤ d.attempts + 1 ∧ d' = deadRow now (failedRow none error d) ∨
        d.attempts + 1 < MAX_ATTEMPTS ∧ ∃ date, d' = retryRow date (failedRow none error d) ∧
          now + min RETRY_CAP_S (2 ^ (d.attempts + 1)) * SECOND ≤ date) := by
  obtain ⟨s₁, a, hrecord, h⟩ := Machine.alone_task_bind.mp h
  obtain ⟨hresponses, now, jitter, o, d', hrec, rfl, hfind, hrow⟩ :=
    alone_recordFailure_none hd ht hrecord
  obtain ⟨rfl, rfl⟩ := Machine.alone_pure.mp h
  exact ⟨hresponses, now, jitter, o, d', hrec, rfl, hfind, hrow⟩

theorem exec_response {n : ℕ} {c : Outcome} {table table' : Table} {a : Except String Response}
    (h : exec t (.response n) c table = some (table', a)) :
    a = c.response ∧ table'.find n = table.find n := by
  simp only [exec] at h
  cases hc : c.response with
  | error e =>
    simp only [hc] at h
    cases h
    exact ⟨rfl, rfl⟩
  | ok response =>
    simp only [hc] at h
    split_ifs at h <;>
    · cases h
      exact ⟨rfl, rfl⟩

theorem delays_of_date {date first : ℕ} {error : String} {jitter : ℕ}
    (h : first + min RETRY_CAP_S (2 ^ (d.attempts + 1)) * SECOND ≤ date)
    (hask : ∀ seconds ∈ retryAfterOf outcome,
      askedDate (d.attempts + 1) seconds (first, jitter) ≤ MAX_DATETIME →
        first + seconds.toNat * SECOND ≤ date) :
    Delays outcome (retryRow date (failedRow response error d)) [(first, jitter)] :=
  ⟨(first, jitter), [], rfl, h, fun seconds hs hdate => ⟨rfl, hask seconds hs hdate⟩⟩

/-- The rest of `_attempt` after the recorder has raised, where it has. -/
def Handles (t : ℕ) (item : WebhookDelivery) (token : ℕ) (a : Except String (Option SendOutcome))
    (s s' : Table × Record) (q : Except String (Option SendOutcome)) : Prop :=
  match a with
  | .ok o => s' = s ∧ q = .ok o
  | .error e => recorded.Alone t InCalendar (do
      let o ← recordFailure item token none e
      pure (some o) : Act (Option SendOutcome)).run s s' q

/-- The try block and its handler have dealt with a failing POST. -/
def Counted (id : ℕ) (outcome : Except String Response) (d : WebhookDelivery)
    (s s' : Table × Record) (q : Except String (Option SendOutcome)) : Prop :=
  s'.2.responses = s.2.responses ∧ (∃ o, q = .ok (some o)) ∧ ∃ d' recordings,
    s'.2.recordings = s.2.recordings ++ recordings ∧ s'.1.find id = some d' ∧
      Failure outcome d d' recordings

theorem counted_exception {e : String} {q : Except String (Option SendOutcome)}
    (hd : s.1.find item.id = some d) (ht : d.leaseToken = some token)
    (h : Handles t item token (.error e) s s' q) : Counted item.id (.error e) d s s' q := by
  obtain ⟨hr, now, jitter, o, d', hrec, rfl, hfind, hrow⟩ := alone_handled hd ht h
  refine ⟨hr, ⟨o, rfl⟩, d', [(now, jitter)], hrec, hfind, ?_⟩
  obtain ⟨hmax, rfl⟩ | ⟨hlt, date, rfl, hdate⟩ := hrow
  · exact .of_dead (Or.inr hmax)
  · refine .of_retry ?_ (delays_of_date hdate nofun)
    rintro (hno | hmax)
    · exact hno
    · omega

/-- A header that cannot be followed leads to the handler, which counts the POST instead. -/
theorem counted_response {answer : Response} {a q : Except String (Option SendOutcome)}
    {s₂ : Table × Record} (hd : s.1.find item.id = some d) (ht : d.leaseToken = some token)
    (hfails : 300 ≤ answer.statusCode)
    (hbody : recorded.Alone t InCalendar (do
      let o ← recordFailure item token (some answer) "HTTPStatusError"
      pure (some o) : Act (Option SendOutcome)).run s s₂ a)
    (h : Handles t item token a s₂ s' q) : Counted item.id (.ok answer) d s s' q := by
  obtain ⟨s₁, b, hrecord, hbody⟩ := Machine.alone_task_bind.mp hbody
  obtain ⟨hr, ⟨hdies, ⟨now, hrec, htable⟩, rfl⟩ |
    ⟨hdies, now, jitter, -, -, hrec, hrest⟩⟩ := alone_recordFailure hd ht hrecord
  · obtain ⟨rfl, rfl⟩ := Machine.alone_pure.mp hbody
    obtain ⟨rfl, rfl⟩ := h
    rw [Counted, htable]
    exact ⟨hr, ⟨_, rfl⟩, _, _, hrec, find_update hd sameRow_dead,
      .of_dead ((dies_some hfails).mp hdies)⟩
  · rw [dies_some hfails] at hdies
    have hle : min RETRY_CAP_S (2 ^ (d.attempts + 1)) ≤ backoff (some answer) (d.attempts + 1) := by
      rw [backoff_eq]
      exact Nat.le_max_left _ _
    have hmul := Nat.mul_le_mul_right SECOND hle
    obtain ⟨hover, htable, rfl⟩ | ⟨-, htable, rfl⟩ := hrest
    · obtain ⟨rfl, rfl⟩ := hbody
      obtain ⟨hr', now', jitter', o, d', hrec', rfl, hfind, hrow⟩ := alone_handled (htable ▸ hd) ht h
      rw [hrec, List.append_assoc, List.singleton_append] at hrec'
      refine ⟨hr'.trans hr, ⟨o, rfl⟩, d', _, hrec', hfind, ?_⟩
      obtain ⟨hmax, -⟩ | ⟨-, date, rfl, hdate⟩ := hrow
      · exact absurd (Or.inr hmax) hdies
      · refine .of_retry hdies ⟨_, _, rfl, hdate, fun seconds hs hfits => ?_⟩
        rw [backoff_asked d.attempts hs] at hover
        exact absurd hover (Nat.not_lt_of_le hfits)
    · obtain ⟨rfl, rfl⟩ := Machine.alone_pure.mp hbody
      obtain ⟨rfl, rfl⟩ := h
      rw [Counted, htable]
      refine ⟨hr, ⟨_, rfl⟩, _, _, hrec, find_update hd sameRow_retry,
        .of_retry hdies (delays_of_date (by omega) fun seconds hs _ => ?_)⟩
      have hseconds : seconds.toNat ≤ backoff (some answer) (d.attempts + 1) := by
        rw [backoff_asked d.attempts hs]
        exact Nat.le_max_right _ _
      have hmul' := Nat.mul_le_mul_right SECOND hseconds
      omega

/-- The answer to a POST, whatever the recorder makes of it. -/
theorem alone_awaitResponse {q : Except String (Option SendOutcome)}
    (hd : s.1.find item.id = some d) (ht : d.leaseToken = some token)
    (h : recorded.Alone t InCalendar (awaitResponse item token).run s s' q) :
    ∃ outcome s₁, s₁.2.recordings = s.2.recordings ∧ s₁.2.responses =
        Function.update s.2.responses item.id (s.2.responses item.id ++ [outcome]) ∧
      (Fails outcome ∧ Counted item.id outcome d s₁ s' q ∨
        ¬Fails outcome ∧ q = .ok none ∧ s' = s₁ ∧ s'.1.find item.id = some d) := by
  obtain ⟨s₂, a, hbody, hhandler⟩ := Machine.alone_except.mp h
  have hhandler : Handles t item token a s₂ s' q := by
    cases a <;> exact hhandler
  obtain ⟨c, table, answer, -, he, hbody⟩ := alone_call hbody
  obtain ⟨rfl, hfind⟩ := exec_response he
  rw [hd] at hfind
  refine ⟨c.response, (table, s.2.note (.response item.id) c), rfl, rfl, ?_⟩
  cases hc : c.response with
  | error e =>
    simp only [hc] at hbody
    obtain ⟨rfl, rfl⟩ := Machine.alone_throw.mp hbody
    exact Or.inl ⟨trivial, counted_exception hfind ht hhandler⟩
  | ok response =>
    simp only [hc] at hbody
    split_ifs at hbody with hfails
    · exact Or.inl ⟨hfails, counted_response hfind ht hfails hbody hhandler⟩
    · obtain ⟨rfl, rfl⟩ := Machine.alone_pure.mp hbody
      obtain ⟨rfl, rfl⟩ := hhandler
      exact Or.inr ⟨hfails, rfl, rfl, hfind⟩

theorem alone_recordSent (hd : s.1.find item.id = some d) (ht : d.leaseToken = some token)
    (h : recorded.Alone t InCalendar (recordSent item token).run s s' r) :
    s'.2.responses = s.2.responses ∧ r = .ok .sent ∧ ∃ now recordings,
      s'.1.find item.id = some (sentRow now d) ∧
        s'.2.recordings = s.2.recordings ++ recordings := by
  have h := alone_get h
  simp only [hd, ht, if_true] at h
  obtain ⟨now, -, h⟩ := alone_utcnow h
  obtain ⟨rfl, rfl⟩ := alone_update h
  exact ⟨rfl, rfl, now, _, find_update hd ⟨rfl, rfl, rfl, rfl, rfl, rfl, rfl⟩, rfl⟩

theorem withheld_none {moment : ℕ} : Withheld none moment :=
  fun d hd => absurd hd (Option.not_mem_none d)

theorem withheld_of_leased {moment : ℕ} (h : leased token moment d = none) :
    Withheld (some d) moment := by
  intro x hx
  obtain rfl := Option.some.inj hx
  unfold leased at h
  split_ifs at h with hstatus hlease
  · exact Or.inl hstatus
  · obtain ⟨e, he, hlt⟩ := (Option.any_eq_true _ _).mp hlease
    exact Or.inr ⟨e, he, of_decide_eq_true hlt⟩

/-- The lease of a row that is to be sent. -/
theorem exec_leaseRow {c : Outcome} {table table' : Table} {leasedIt : Bool}
    (h : exec t (.leaseRow id token) c table = some (table', leasedIt)) :
    leasedIt = false ∧ table' = table ∧ Withheld (table.find id) c.number ∨
      leasedIt = true ∧ ∃ d d', table.find id = some d ∧ leased token c.number d = some d' ∧
        table'.find id = some d' := by
  simp only [exec] at h
  cases hd : table.find id with
  | none =>
    simp only [hd, Option.bind_none, Option.some.injEq, Prod.mk.injEq] at h
    exact Or.inl ⟨h.2.symm, h.1.symm, withheld_none⟩
  | some d =>
    simp only [hd, Option.bind_some] at h
    cases hl : leased token c.number d with
    | none =>
      simp only [hl, Option.some.injEq, Prod.mk.injEq] at h
      exact Or.inl ⟨h.2.symm, h.1.symm, withheld_of_leased hl⟩
    | some d' =>
      simp only [hl, Option.some.injEq, Prod.mk.injEq] at h
      refine Or.inr ⟨h.2.symm, d, d', rfl, hl, ?_⟩
      have hid : ∀ x : WebhookDelivery, ((leased token c.number x).getD x).id = x.id := by
        intro x
        unfold leased
        split_ifs <;> rfl
      rw [← h.1, find_setRow (f := fun x => (leased token c.number x).getD x) hid, hd]
      simp [hl]

theorem leased_row {moment : ℕ} {d' : WebhookDelivery} (h : leased token moment d = some d') :
    (d.status = .pending ∨ d.status = .retry) ∧ d'.attempts = d.attempts ∧
      d'.leaseToken = some token := by
  unfold leased at h
  split_ifs at h with hstatus hlease
  cases h
  refine ⟨?_, rfl, rfl⟩
  by_contra hno
  exact hstatus (not_or.mp hno)

/-- `_attempt` on its own does not raise, and keeps to the policy. -/
theorem attempt_follows (h : recorded.Alone t InCalendar (attempt item).run s s' r) :
    (∃ o, r = .ok o) ∧ Follows item.id s s' := by
  obtain ⟨c, table, token, -, he, h⟩ := alone_call h
  cases he
  obtain ⟨c₁, table₁, leasedIt, -, he, h⟩ := alone_call h
  rcases exec_leaseRow he with ⟨rfl, rfl, hwithheld⟩ | ⟨rfl, d, d₁, hd, hleased, hfind⟩
  · obtain ⟨rfl, rfl⟩ := Machine.alone_pure.mp h
    exact ⟨⟨_, rfl⟩, Or.inl ⟨hwithheld, rfl, rfl⟩⟩
  · obtain ⟨hopen, hattempts, htoken⟩ := leased_row hleased
    obtain ⟨c₂, table₂, answer, -, he, h⟩ := alone_call h
    cases he
    obtain ⟨s₃, q, hawait, h⟩ := Machine.alone_task_bind.mp h
    obtain ⟨outcome, s₄, hrec, hres, hcases⟩ := alone_awaitResponse hfind htoken hawait
    have hresponses : s₄.2.responses item.id = s.2.responses item.id ++ [outcome] := by
      rw [hres, Function.update_self]
      rfl
    rcases hcases with ⟨hfails, hr, ⟨o, rfl⟩, d', recordings, hrec', hfind', hfailure⟩ |
      ⟨hok, rfl, rfl, hfind'⟩
    · obtain ⟨rfl, rfl⟩ := Machine.alone_pure.mp h
      refine ⟨⟨o, rfl⟩, Or.inr ⟨outcome, d, d', recordings, hr ▸ hresponses, hd, hopen, hfind',
        hrec'.trans (by rw [hrec]; rfl), fun _ => ?_, fun hno => absurd hfails hno⟩⟩
      exact ⟨hfailure.attempts.trans (by rw [hattempts]), hfailure.leaseToken,
        hfailure.leaseExpiresAt, hfailure.dead, hfailure.retry⟩
    · obtain ⟨hr, rfl, now, recordings, hsent, hrec'⟩ := alone_recordSent hfind' htoken h
      refine ⟨⟨_, rfl⟩, Or.inr ⟨outcome, d, _, recordings, hr ▸ hresponses, hd, hopen, hsent,
        hrec'.trans (by rw [hrec]; rfl), fun hfails => absurd hfails hok, fun _ => rfl⟩⟩

end attempt

section runs

/-- Attempts on a row, one after the other. What happens in between may purge the row, and neither
writes it nor sends it. -/
inductive Attempts (t id : ℕ) (s : Table × Record) : Table × Record → Prop
  | start : Attempts t id s s
  | between {s₁ s₂ : Table × Record} (h : Attempts t id s s₁)
      (row : s₂.1.find id = s₁.1.find id ∨ s₂.1.find id = none)
      (responses : s₂.2.responses id = s₁.2.responses id) : Attempts t id s s₂
  | attempt {s₁ s₂ : Table × Record} {item : WebhookDelivery} {r : Except String SendOutcome}
      (h : Attempts t id s s₁) (hid : item.id = id)
      (hrun : recorded.Alone t InCalendar (attempt item).run s₁ s₂ r) : Attempts t id s s₂

/-- After `n` POSTs, the row is no longer sent or has counted them all. -/
structure Budget (id n : ℕ) (s : Table × Record) : Prop where
  le : n ≤ MAX_ATTEMPTS
  counted : ∀ d, s.1.find id = some d → d.status = .pending ∨ d.status = .retry →
    n = 0 ∨ n ≤ d.attempts ∧ d.attempts < MAX_ATTEMPTS

theorem Budget.attempt {n : ℕ} (h : Budget item.id n s)
    (hrun : recorded.Alone t InCalendar (attempt item).run s s' r) :
    ∃ m, (s'.2.responses item.id).length = (s.2.responses item.id).length + m ∧
      Budget item.id (n + m) s' := by
  obtain ⟨-, ⟨-, hres, hfind⟩ |
    ⟨outcome, d, d', recordings, hres, hd, hopen, hfind, -, hfails, hsent⟩⟩ := attempt_follows hrun
  · refine ⟨0, by rw [hres]; rfl, h.le, fun d' hd' => ?_⟩
    exact h.counted d' (hfind.symm.trans hd')
  · have hcounted := h.counted d hd hopen
    have hmax : MAX_ATTEMPTS = 10 := rfl
    refine ⟨1, by rw [hres, List.length_append]; rfl, by omega, fun x hx hopen' => ?_⟩
    obtain rfl := Option.some.inj (hfind.symm.trans hx)
    by_cases hf : Fails outcome
    · have hfailure := hfails hf
      have hattempts := hfailure.attempts
      have hlive : d'.status ≠ .dead := by
        intro hdead
        rw [hdead] at hopen'
        rcases hopen' with hno | hno <;> cases hno
      have hlt : ¬MAX_ATTEMPTS ≤ d'.attempts :=
        fun hle => hlive (hfailure.dead.mpr (Or.inr hle))
      omega
    · rw [hsent hf] at hopen'
      rcases hopen' with hno | hno <;> cases hno

theorem Attempts.budget (h : Attempts t id s s') : ∃ n,
    (s'.2.responses id).length = (s.2.responses id).length + n ∧ Budget id n s' := by
  induction h with
  | start => exact ⟨0, rfl, Nat.zero_le _, fun _ _ _ => Or.inl rfl⟩
  | between h row responses ih =>
    obtain ⟨n, hlen, hbudget⟩ := ih
    refine ⟨n, responses ▸ hlen, hbudget.le, fun d hd => ?_⟩
    rcases row with row | row
    · exact hbudget.counted d (row.symm.trans hd)
    · cases row.symm.trans hd
  | attempt h hid hrun ih =>
    subst hid
    obtain ⟨n, hlen, hbudget⟩ := ih
    obtain ⟨m, hm, hnext⟩ := hbudget.attempt hrun
    exact ⟨n + m, by omega, hnext⟩

/-- After any attempts on a row the next one keeps to the policy, and there are at most ten POSTs
in all. -/
theorem retry_policy (h : Attempts t id s s') :
    (s'.2.responses id).length ≤ (s.2.responses id).length + MAX_ATTEMPTS ∧
      ∀ item s'' r, item.id = id → recorded.Alone t InCalendar (attempt item).run s' s'' r →
        (∃ o, r = .ok o) ∧ Follows id s' s'' := by
  obtain ⟨n, hlen, hbudget⟩ := h.budget
  refine ⟨hlen.trans_le (Nat.add_le_add_left hbudget.le _), fun item s'' r hid hrun => ?_⟩
  subst hid
  exact attempt_follows hrun

/-- A response whose header asks for a date beyond the calendar. -/
def farAway : Call → Outcome
  | .response _ =>
    { response := .ok
        { statusCode := 503, retryAfter := some (some 1000000000000000000000000000000) } }
  | .utcnow => { number := 1000 }
  | _ => {}

def queued : WebhookDelivery :=
  { id := 7, subscriptionId := 1, eventId := 1, sequence := 1, url := "https://hooks.example/a"
    payload := .statusChanged 3 .queued 1, nextTryAt := 0, createdAt := 0 }

theorem farAway_inCalendar (i : Call) : InCalendar i (farAway i) := by
  cases i <;> simp [InCalendar, farAway, RETRY_CAP_S, SECOND, MAX_DATETIME]

/-- A table with that row only. -/
def lone : Table × Record := ({ rows := [queued] }, {})

/-- The POST takes place and is counted once, and the row is tried again two seconds later. -/
theorem retry_policy_farAway : ∃ s' : Table × Record,
    s'.1.find 7 = some (retryRow (1000 + 2 * SECOND)
      (failedRow none "OverflowError" { queued with leaseToken := some 0 })) ∧
    s'.1.posted.map WebhookDelivery.id = [7] ∧
    s'.2.responses 7 = [(farAway (.response 7)).response] ∧ Follows 7 lone s' ∧
    (s'.2.responses 7).length ≤ (lone.2.responses 7).length + MAX_ATTEMPTS := by
  have hsome : ((recorded.alone 0 farAway (attempt queued).run lone).any
      fun x => x.1.1.find 7 = some (retryRow (1000 + 2 * SECOND)
        (failedRow none "OverflowError" { queued with leaseToken := some 0 })) &&
        x.1.1.posted.map WebhookDelivery.id = [7] &&
        x.1.2.responses 7 = [(farAway (.response 7)).response]) = true := by
    decide +kernel
  obtain ⟨⟨s', r⟩, hrun, hcases⟩ := (Option.any_eq_true _ _).mp hsome
  simp only [Bool.and_eq_true, decide_eq_true_eq] at hcases
  obtain ⟨⟨hfind, hposted⟩, hresponses⟩ := hcases
  have halone : recorded.Alone 0 InCalendar (attempt queued).run lone s' r :=
    .of_alone farAway_inCalendar hrun
  have hstart : Attempts 0 7 lone lone := .start
  have hfollows := (retry_policy hstart).2 queued s' r rfl halone
  have hafter : Attempts 0 7 lone s' := hstart.attempt rfl halone
  exact ⟨s', hfind, hposted, hresponses, hfollows.2, (retry_policy hafter).1⟩

end runs

end Fakery.Dispatch
