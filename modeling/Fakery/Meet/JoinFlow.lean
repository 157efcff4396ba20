import Fakery.Polling.Deadline
import Fakery.Texts.Strings

/-! How a run waits at the door of a meeting, and then for its end. What the page answers to each
question of each look is up to the page. -/
namespace Fakery.Meet
open Fakery.Polling Fakery.Texts

def ADMISSION_TIMEOUT_S : ℕ := 120

def ADMISSION_POLL_S : ℕ := 2

def END_POLL_S : ℕ := 5

/-- What the loops look for. -/
structure Vocabulary where
  gate : List String
  waiting : List String
  leave : List String
  ends : List String
deriving DecidableEq

def DEFAULT_LANG : Text := ['e', 'n']

def VOCABULARY : List (Text × Vocabulary) :=
  [(['i', 'd'],
    { gate := ["tidak dapat bergabung", "tidak bisa bergabung"]
      waiting := ["menunggu seseorang", "permintaan untuk bergabung", "minta bergabung",
        "menunggu diizinkan", "menunggu untuk bergabung"]
      leave := ["tutup panggilan", "tinggalkan", "keluar", "akhiri"]
      ends := ["telah berakhir", "menakhiri", "kamu dikeluarkan"] }),
   (DEFAULT_LANG,
    { gate := ["can't join"]
      waiting := ["waiting for someone", "asking to join", "request to join",
        "waiting to be admitted", "waiting for approval", "waiting for permission"]
      leave := ["leave", "end call"]
      ends := ["meeting ended", "you were removed", "call ended"] })]

def WAITING_MARKERS : List String := ["waiting", "menunggu"]

def WAITING_PHRASES : List String :=
  ["asking to be let in", "let you in", "lets you in", "wait until a meeting host"]

def ADMISSION_MARKERS : List String :=
  ["approval", "admitted", "permission", "request", "join", "izin", "bergabung", "permintaan"]

/-- `lang` is what the page says of its language, if it can be asked. -/
def vocabulary (lang : Option Text) : Vocabulary :=
  let key := ((split '-' (lang.getD []).length (lang.getD [])).headD []).map Char.toLower
  (VOCABULARY.lookup key).getD ((VOCABULARY.lookup DEFAULT_LANG).getD ⟨[], [], [], []⟩)

/-- A question to the page that may raise, which counts as no. -/
def visible (answers : String → Option Bool) (text : String) : Bool := answers text = some true

/-- Whether `_leave_button` finds a button; `hints` tells of the first locator of a hint whether it
is there and visible. -/
def leaveButton (lang : Option Text) (hints : String → Option Bool) : Bool :=
  (vocabulary lang).leave.any (visible hints)

def gateVisible (lang : Option Text) (texts : String → Option Bool) : Option String :=
  (vocabulary lang).gate.find? (visible texts)

def occurs (body : Text) (text : String) : Bool := body.tails.any text.toList.isPrefixOf

/-- `body` is the text of the page in lower case. -/
def waitingVisible (lang : Option Text) (texts : String → Option Bool) (body : Option Text) :
    Bool :=
  (vocabulary lang).waiting.any (visible texts) || match body with
    | none => false
    | some body => WAITING_PHRASES.any (occurs body) ||
      (WAITING_MARKERS.any (occurs body) && ADMISSION_MARKERS.any (occurs body))

/-- What one look at the door is answered; each helper asks for the language itself. `stopped` is
the answer of `should_stop`, if there is one. -/
structure DoorSight where
  stopped : Except Unit Bool
  leaveLang : Option Text
  hints : String → Option Bool
  waitingLang : Option Text
  texts : String → Option Bool
  body : Option Text
  gateLang : Option Text
  gates : String → Option Bool

/-- How a look at the door decides. -/
inductive Door where
  | cancelled
  | admitted
  | gated (gate : String)
  | raised
deriving DecidableEq

def doorLook (_ : Unit) (s : DoorSight) : Except Door Unit :=
  match s.stopped with
  | .error _ => .error .raised
  | .ok true => .error .cancelled
  | .ok false =>
    if leaveButton s.leaveLang s.hints && !waitingVisible s.waitingLang s.texts s.body then
      .error .admitted
    else match gateVisible s.gateLang s.gates with
      | some gate => .error (.gated gate)
      | none => .ok ()

/-- `expired` is the error `join-timeout`. -/
def waitAdmitted (timeoutS : ℕ) (start : ℚ) (clock : ℕ → ℚ) (seen : ℕ → DoorSight) (fuel : ℕ) :
    Option (ℕ × Outcome Door) :=
  poll doorLook (start + timeoutS) clock seen fuel 0 ()

/-- What one look at the meeting is answered. -/
structure EndSight where
  stopped : Except Unit Bool
  lang : Option Text
  texts : String → Option Bool
  leaveLang : Option Text
  hints : String → Option Bool

inductive Ending where
  | cancelled
  | meetingEnded
  | raised
deriving DecidableEq

def EndSight.endVisible (s : EndSight) : Bool := (vocabulary s.lang).ends.any (visible s.texts)

/-- The leave button cannot be found. -/
def EndSight.missing (s : EndSight) : Bool := !leaveButton s.leaveLang s.hints

def endLook (leaveMisses : ℕ) (s : EndSight) : Except Ending ℕ :=
  match s.stopped with
  | .error _ => .error .raised
  | .ok true => .error .cancelled
  | .ok false =>
    if s.endVisible then .error .meetingEnded
    else if s.missing then
      if leaveMisses + 1 ≥ 2 then .error .meetingEnded else .ok (leaveMisses + 1)
    else .ok 0

/-- `expired` is the error `meeting-timeout`. -/
def waitMeetingEnded (maxSeconds : ℕ) (start : ℚ) (clock : ℕ → ℚ) (seen : ℕ → EndSight)
    (fuel : ℕ) : Option (ℕ × Outcome Ending) :=
  poll endLook (start + maxSeconds) clock seen fuel 0 0

section ending

variable {deadline : ℚ} {clock : ℕ → ℚ} {seen : ℕ → EndSight} {k : ℕ}

/-- The button is missing at this look and at the one before. -/
def missedTwice (seen : ℕ → EndSight) (k : ℕ) : Bool :=
  (seen k).missing && 0 < k && (seen (k - 1)).missing

/-- The meeting is over at a look, or the waiting for it. -/
def meetingOver (deadline : ℚ) (clock : ℕ → ℚ) (seen : ℕ → EndSight) (k : ℕ) : Prop :=
  deadline ≤ clock k ∨ (seen k).stopped ≠ .ok false ∨ (seen k).endVisible = true ∨
    missedTwice seen k = true

/-- How it is over, the time first, then the stop, then the meeting. -/
def meetingEnding (deadline : ℚ) (clock : ℕ → ℚ) (seen : ℕ → EndSight) (k : ℕ) : Outcome Ending :=
  if deadline ≤ clock k then .expired
  else match (seen k).stopped with
    | .error _ => .decided .raised
    | .ok true => .decided .cancelled
    | .ok false => .decided .meetingEnded

/-- What is remembered of the looks before, where none of them was over. -/
def misses (seen : ℕ → EndSight) : ℕ → ℕ
  | 0 => 0
  | k + 1 => if (seen k).missing then 1 else 0

theorem missedTwice_eq : missedTwice seen k = ((seen k).missing && misses seen k = 1) := by
  cases k with
  | zero => simp [missedTwice, misses]
  | succ k =>
    cases h : (seen k).missing <;> simp [missedTwice, misses, h]

theorem endLook_goes (h : ¬meetingOver deadline clock seen k) :
    endLook (misses seen k) (seen k) = .ok (misses seen (k + 1)) := by
  simp only [meetingOver, not_or, not_not, missedTwice_eq] at h
  obtain ⟨-, hstop, hend, hmiss⟩ := h
  have hle : misses seen k ≤ 1 := by
    cases k with
    | zero => exact Nat.zero_le 1
    | succ k => simp only [misses]; split_ifs <;> omega
  cases hm : (seen k).missing with
  | false => simp [endLook, hstop, hend, hm, misses]
  | true =>
    have hzero : misses seen k = 0 := by
      have hne : misses seen k ≠ 1 := by simpa [hm] using hmiss
      omega
    have hnext : misses seen (k + 1) = 1 := by simp [misses, hm]
    simp [endLook, hstop, hend, hm, hnext, hzero]

theorem poll_meetingEnding (h : meetingOver deadline clock seen k) (fuel : ℕ) :
    poll endLook deadline clock seen (fuel + 1) k (misses seen k) =
      some (k, meetingEnding deadline clock seen k) := by
  by_cases hlate : deadline ≤ clock k
  · rw [poll_expires hlate, meetingEnding, if_pos hlate]
  · have hin : clock k < deadline := lt_of_not_ge hlate
    rw [meetingEnding, if_neg hlate]
    cases hstop : (seen k).stopped with
    | error e => exact poll_decides hin (by simp [endLook, hstop])
    | ok stopped =>
      cases stopped with
      | true => exact poll_decides hin (by simp [endLook, hstop])
      | false =>
        refine poll_decides hin ?_
        rcases h with h | h | h | h
        · exact absurd h hlate
        · exact absurd hstop h
        · simp [endLook, hstop, h]
        · rw [missedTwice_eq, Bool.and_eq_true, decide_eq_true_eq] at h
          simp [endLook, hstop, h.1, h.2]

/-- The waiting for the end of a meeting is over at the first look at which the time is up, the run
is to stop, the page says that the meeting has ended, or the leave button is missing as it was at
the look before; and that comes within a look for every five seconds. -/
theorem wait_meeting_ended (maxSeconds : ℕ) (start : ℚ) (clock : ℕ → ℚ) (seen : ℕ → EndSight)
    (hstart : start ≤ clock 0) (hclock : ∀ i, clock i + END_POLL_S ≤ clock (i + 1)) :
    ∃ k ≤ ⌈(maxSeconds / END_POLL_S : ℚ)⌉₊,
      meetingOver (start + maxSeconds) clock seen k ∧
      (∀ i < k, ¬meetingOver (start + maxSeconds) clock seen i) ∧
      ∀ fuel, k < fuel → waitMeetingEnded maxSeconds start clock seen fuel =
        some (k, meetingEnding (start + maxSeconds) clock seen k) := by
  have hperiod : (0 : ℚ) < END_POLL_S := by norm_num [END_POLL_S]
  exact poll_first (misses seen) hperiod hclock (by linarith) (fun i h => .inl h)
    (fun i h => endLook_goes h) (fun i h fuel => poll_meetingEnding h fuel)

/-- The button is missing for one look, and then for two. -/
def flicker (k : ℕ) : EndSight :=
  ⟨.ok false, none, fun _ => none, none, fun _ => some (k % 4 = 1)⟩

theorem wait_meeting_ended_flicker : ∃ k ≤ ⌈((60 : ℕ) / END_POLL_S : ℚ)⌉₊,
    meetingOver (0 + (60 : ℕ)) (fun i => 5 * i) flicker k ∧
    (∀ i < k, ¬meetingOver (0 + (60 : ℕ)) (fun i => 5 * i) flicker i) ∧
    ∀ fuel, k < fuel → waitMeetingEnded 60 0 (fun i => 5 * i) flicker fuel =
      some (k, meetingEnding (0 + (60 : ℕ)) (fun i => 5 * i) flicker k) :=
  wait_meeting_ended 60 0 (fun i => 5 * i) flicker (by norm_num)
    (fun i => by push_cast [END_POLL_S]; linarith)

end ending

section door

variable {deadline : ℚ} {clock : ℕ → ℚ} {seen : ℕ → DoorSight} {k : ℕ}

/-- The run is let in: it can leave, and nothing on the page says that it waits. -/
def DoorSight.letIn (s : DoorSight) : Bool :=
  leaveButton s.leaveLang s.hints && !waitingVisible s.waitingLang s.texts s.body

/-- The waiting at the door is over. -/
def doorOver (deadline : ℚ) (clock : ℕ → ℚ) (seen : ℕ → DoorSight) (k : ℕ) : Prop :=
  deadline ≤ clock k ∨ (seen k).stopped ≠ .ok false ∨ (seen k).letIn = true ∨
    (gateVisible (seen k).gateLang (seen k).gates).isSome = true

def doorEnding (deadline : ℚ) (clock : ℕ → ℚ) (seen : ℕ → DoorSight) (k : ℕ) : Outcome Door :=
  if deadline ≤ clock k then .expired
  else match (seen k).stopped with
    | .error _ => .decided .raised
    | .ok true => .decided .cancelled
    | .ok false =>
      if (seen k).letIn then .decided .admitted
      else .decided (.gated ((gateVisible (seen k).gateLang (seen k).gates).getD ""))

theorem doorLook_goes (h : ¬doorOver deadline clock seen k) : doorLook () (seen k) = .ok () := by
  simp only [doorOver, not_or, not_not, DoorSight.letIn, Option.not_isSome_iff_eq_none] at h
  obtain ⟨-, hstop, hin, hgate⟩ := h
  simp [doorLook, hstop, hin, hgate]

theorem poll_doorEnding (h : doorOver deadline clock seen k) (fuel : ℕ) :
    poll doorLook deadline clock seen (fuel + 1) k () =
      some (k, doorEnding deadline clock seen k) := by
  by_cases hlate : deadline ≤ clock k
  · rw [poll_expires hlate, doorEnding, if_pos hlate]
  · have hin : clock k < deadline := lt_of_not_ge hlate
    rw [doorEnding, if_neg hlate]
    cases hstop : (seen k).stopped with
    | error e => exact poll_decides hin (by simp [doorLook, hstop])
    | ok stopped =>
      cases stopped with
      | true => exact poll_decides hin (by simp [doorLook, hstop])
      | false =>
        dsimp only
        split_ifs with hletIn
        · refine poll_decides hin ?_
          rw [DoorSight.letIn] at hletIn
          simp [doorLook, hstop, hletIn]
        · refine poll_decides hin ?_
          rw [DoorSight.letIn] at hletIn
          rcases h with h | h | h | h
          · exact absurd h hlate
          · exact absurd hstop h
          · exact absurd h hletIn
          · obtain ⟨gate, hgate⟩ := Option.isSome_iff_exists.mp h
            simp [doorLook, hstop, hletIn, hgate]

/-- The waiting at the door is over at the first look at which the time is up, the run is to stop,
it is let in, or a gate is seen; and that comes within a look for every two seconds. -/
theorem wait_admitted (timeoutS : ℕ) (start : ℚ) (clock : ℕ → ℚ) (seen : ℕ → DoorSight)
    (hstart : start ≤ clock 0) (hclock : ∀ i, clock i + ADMISSION_POLL_S ≤ clock (i + 1)) :
    ∃ k ≤ ⌈(timeoutS / ADMISSION_POLL_S : ℚ)⌉₊,
      doorOver (start + timeoutS) clock seen k ∧
      (∀ i < k, ¬doorOver (start + timeoutS) clock seen i) ∧
      ∀ fuel, k < fuel → waitAdmitted timeoutS start clock seen fuel =
        some (k, doorEnding (start + timeoutS) clock seen k) := by
  have hperiod : (0 : ℚ) < ADMISSION_POLL_S := by norm_num [ADMISSION_POLL_S]
  exact poll_first (fun _ => ()) hperiod hclock (by linarith) (fun i h => .inl h)
    (fun i h => doorLook_goes h) (fun i h fuel => poll_doorEnding h fuel)

/-- A door that opens: the leave button is there from the third look on, and up to that look the
page says that the run waits. -/
def opening (k : ℕ) : DoorSight :=
  ⟨.ok false, some DEFAULT_LANG, fun hint => some (2 ≤ k && hint == "leave"), some DEFAULT_LANG,
    fun text => some (k = 2 && text == "asking to join"), none, some DEFAULT_LANG,
    fun _ => some false⟩

theorem opening_shut {i : ℕ} (hi : i < 3) :
    ¬doorOver (0 + ADMISSION_TIMEOUT_S) (fun i => 2 * i) opening i := by
  have hin : ¬(0 + (ADMISSION_TIMEOUT_S : ℚ)) ≤ 2 * (i : ℚ) := by
    have : (i : ℚ) < 3 := by exact_mod_cast hi
    norm_num [ADMISSION_TIMEOUT_S]
    linarith
  have hout : (opening i).letIn = false := by
    rcases i with - | - | - | i
    · decide
    · decide
    · decide
    · omega
  have hgate : gateVisible (opening i).gateLang (opening i).gates = none := by
    simp [gateVisible, opening, visible]
  rintro (h | h | h | h)
  · exact hin h
  · exact h rfl
  · simp [hout] at h
  · simp [hgate] at h

theorem wait_admitted_opening :
    waitAdmitted ADMISSION_TIMEOUT_S 0 (fun i => 2 * i) opening 4 =
      some (3, .decided .admitted) := by
  obtain ⟨k, -, hover, hfirst, hruns⟩ :=
    wait_admitted ADMISSION_TIMEOUT_S 0 (fun i => 2 * i) opening (by norm_num)
      (fun i => by push_cast [ADMISSION_POLL_S]; linarith)
  have hopens : doorOver (0 + ADMISSION_TIMEOUT_S) (fun i => 2 * i) opening 3 :=
    .inr (.inr (.inl (by decide)))
  have hthird : k = 3 := by
    refine le_antisymm (le_of_not_gt fun h => hfirst 3 h hopens) (le_of_not_gt fun h => ?_)
    exact opening_shut h hover
  subst hthird
  have hin : ¬(0 + (ADMISSION_TIMEOUT_S : ℚ)) ≤ 2 * ((3 : ℕ) : ℚ) := by
    norm_num [ADMISSION_TIMEOUT_S]
  have hletIn : (opening 3).letIn = true := by decide
  rw [hruns 4 (by norm_num), doorEnding, if_neg hin]
  simp [hletIn, show (opening 3).stopped = .ok false from rfl]

end door

end Fakery.Meet
