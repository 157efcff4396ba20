import Fakery.Bots.Atomic

/-! The table of runs under whole transactions, one after another, and what every row satisfies
between them. -/
namespace Fakery.Bots
open Fakery.Core Fakery.Storage BotStatus

/-- The statuses to which a worker advances a run that it attends. -/
def attendStatuses : List BotStatus := [joining, joined, recording]

/-- `storeRecovered` is the transaction of `_recover_checkpoint`, which may find any row by then, and
`heartbeat` is what the sweep finds. -/
inductive Transaction where
  | createOrGet (id : ℕ) (meetingUrl meetingKey : String)
      (displayName idempotencyKey : Option String)
  | advance (b : ℕ) (target : BotStatus) (attending : target ∈ attendStatuses)
  | setCheckpointManifest (b : ℕ) (manifestUri : Uri)
  | setArtifactStatus (b : ℕ) (artifact : Artifact) (status : String) (error : Option String)
  | persistRecording (b : ℕ) (artifact : Option RecordingArtifact)
  | complete (b : ℕ) (completion : Completion)
  | cancel (b : ℕ)
  | storeRecovered (b : ℕ) (artifact : RecordingArtifact)
  | failRun (b : ℕ) (code : String)
  | sweepOrphans (staleAfter : ℕ) (heartbeat : ℕ → Bool)

/-- A call is one transaction, or two for a `fail_run` that restores a checkpoint before. -/
inductive ServiceCall where
  | transaction (x : Transaction)
  | failRun (b : ℕ) (code : String) (restored : RecordingArtifact)

def ServiceCall.transactions : ServiceCall → List Transaction
  | transaction x => [x]
  | failRun b code restored => [.storeRecovered b restored, .failRun b code]

/-- `history` lists the statuses of each run, commit by commit, and `readings` counts those of the
clock. -/
structure Runs where
  ids : List ℕ := []
  rows : ℕ → Option BotRun := fun _ => none
  history : ℕ → List BotStatus := fun _ => []
  readings : ℕ := 0

namespace Runs

variable (clock : ℕ → ℕ) (s : Runs)

def now : ℕ := clock s.readings

def tick : Runs := { s with readings := s.readings + 1 }

def select (p : BotRun → Bool) : List BotRun := s.ids.filterMap fun b => (s.rows b).filter p

def insert (run : BotRun) : Runs :=
  { s with
    ids := s.ids ++ [run.id]
    rows := Function.update s.rows run.id (some run)
    history := Function.update s.history run.id [run.status] }

/-- The row of `b` becomes `run`. -/
def put (b : ℕ) (before run : BotRun) : Runs :=
  { s with
    rows := Function.update s.rows b (some run)
    history := Function.update s.history b (Db.seen (some before) (some run) (s.history b)) }

/-- A transaction on one row reads the clock, and a flush reads it again. -/
def change (b : ℕ) (f : ℕ → BotRun → Except TwinError BotRun) : Except TwinError Runs :=
  match s.rows b with
  | none => .error (notFound b)
  | some run => do
    let run' ← f (s.now clock) run
    pure (s.tick.put b run (BotRun.flushed run (s.tick.now clock) run')).tick

def create (id : ℕ) (meetingUrl meetingKey : String) (displayName idempotencyKey : Option String) :
    Except TwinError Runs :=
  let existing := if idempotencyKey.any (· ≠ "") then
    (s.select fun run => run.idempotencyKey = some (idempotencyKey.getD "")).head? else none
  match existing with
  | some run =>
    if run.meetingKey = meetingKey then .ok s
    else .error (makeError "conflict" "Idempotency-Key was already used for another meeting")
  | none =>
    match (s.select fun run => run.meetingKey = meetingKey && Db.active run.status).head? with
    | some _ => .error (makeError "conflict" "an active bot already exists for this meeting")
    | none =>
      let run : BotRun :=
        { id := id, meetingUrl := meetingUrl, meetingKey := meetingKey
          idempotencyKey := idempotencyKey, displayName := displayName, status := .queued
          createdAt := s.now clock, updatedAt := s.tick.now clock }
      if (s.rows id).isSome || s.ids.any fun b => Db.clashes run (s.rows b) then
        .error (makeError "conflict" "an active bot already exists for this meeting")
      else .ok (s.tick.tick.insert run)

/-- The loop of the sweep: it raises as a whole. -/
def sweepEach (staleAfter moment : ℕ) (heartbeat : ℕ → Bool) (s : Runs) :
    List BotRun → Except TwinError Runs
  | [] => .ok s
  | run :: runs =>
    if heartbeat run.id then sweepEach staleAfter moment heartbeat s runs
    else if isOrphan run.status run.updatedAt false moment staleAfter then do
      let s' ← s.change clock run.id fun now run => run.orphaned.advance .failed now
      sweepEach staleAfter moment heartbeat s' runs
    else sweepEach staleAfter moment heartbeat s runs

def sweep (staleAfter : ℕ) (heartbeat : ℕ → Bool) : Except TwinError Runs :=
  let moment := s.now clock
  sweepEach clock staleAfter moment heartbeat s.tick
    (s.select fun run => run.status ∈ liveStatuses && run.updatedAt < moment - staleAfter)

/-- What a transaction commits. -/
def commit (s : Runs) : Transaction → Except TwinError Runs
  | .createOrGet id meetingUrl meetingKey displayName idempotencyKey =>
    s.create clock id meetingUrl meetingKey displayName idempotencyKey
  | .advance b target _ => s.change clock b fun now run => run.advance target now
  | .setCheckpointManifest b uri => s.change clock b fun _ run => .ok (run.checkpointed uri)
  | .setArtifactStatus b artifact status error =>
    s.change clock b fun _ run => .ok (run.withArtifactStatus artifact status error)
  | .persistRecording b artifact => s.change clock b fun now run => run.persisted artifact now
  | .complete b c => s.change clock b fun now run => run.complete c now
  | .cancel b => s.change clock b fun now run => run.cancel now
  | .storeRecovered b artifact =>
    s.change clock b fun _ run => .ok (run.recorded artifact).recovered
  | .failRun b code => s.change clock b fun now run => run.failRun code now
  | .sweepOrphans staleAfter heartbeat => s.sweep clock staleAfter heartbeat

/-- A transaction that raises is rolled back, and ends the call. The database aborts none: that it
aborts the second one of a `fail_run` after it has committed the recovered artifact is left out. -/
def perform (s : Runs) : List Transaction → Runs × Option TwinError
  | [] => (s, none)
  | x :: xs =>
    match s.commit clock x with
    | .ok s' => perform s' xs
    | .error e => (s, some e)

/-- Calls one after another, whether they raise or not. -/
def run (s : Runs) (calls : List ServiceCall) : Runs :=
  calls.foldl (fun s call => (s.perform clock call.transactions).1) s

end Runs

/-- What is asked of a row, given the statuses that it has had. -/
structure Lifecycle (history : List BotStatus) (run : BotRun) : Prop where
  left : run.leftAt.isSome ↔ run.status.terminal = true
  joined : run.joinedAt.isSome ↔ joined ∈ history
  ordered : ∀ j l, run.joinedAt = some j → run.leftAt = some l → j ≤ l
  failed : run.status = failed → run.errorCode.isSome ∧ run.stopReason.isSome
  completed : run.status = completed → run.errorCode = none ∧ run.stopReason = none ∨
    run.errorCode = some "cancelled" ∧ run.stopReason.isSome

/-- A row at the time `now`: one that is not over has not been marked as failed or cancelled. -/
structure Kept (now : ℕ) (history : List BotStatus) (run : BotRun) : Prop
    extends Lifecycle history run where
  unmarked : run.status.terminal = false → run.errorCode = none ∧ run.stopReason = none
  past : ∀ j, run.joinedAt = some j → j ≤ now

variable {now later : ℕ} {history : List BotStatus} {run mid run' : BotRun} {target : BotStatus}

/-- The attributes that decide about a row. -/
structure SameEnds (run run' : BotRun) : Prop where
  status : run'.status = run.status
  joined : run'.joinedAt = run.joinedAt
  left : run'.leftAt = run.leftAt

/-- The marks that a row may have when it is over. -/
structure Marked (target : BotStatus) (run : BotRun) : Prop where
  failed : target = .failed → run.errorCode.isSome ∧ run.stopReason.isSome
  completed : target = .completed → run.errorCode = none ∧ run.stopReason = none ∨
    run.errorCode = some "cancelled" ∧ run.stopReason.isSome
  unmarked : target.terminal = false → run.errorCode = none ∧ run.stopReason = none

namespace Kept

theorem marked (h : Kept now history run) : Marked run.status run :=
  ⟨h.failed, h.completed, h.unmarked⟩

theorem mono (h : Kept now history run) (hle : now ≤ later) : Kept later history run :=
  { h with past := fun j hj => (h.past j hj).trans hle }

/-- A change that leaves the ends of the row as they are. -/
theorem same (h : Kept now history run) (hs : SameEnds run run') (hm : Marked run.status run') :
    Kept now history run' := by
  constructor
  · constructor
    · rw [hs.left, hs.status]
      exact h.left
    · rw [hs.joined]
      exact h.joined
    · rw [hs.joined, hs.left]
      exact h.ordered
    · rw [hs.status]
      exact hm.failed
    · rw [hs.status]
      exact hm.completed
  · rw [hs.status]
    exact hm.unmarked
  · rw [hs.joined]
    exact h.past

theorem leftAt_eq_none (h : Kept now history run) (ht : run.status.terminal = false) :
    run.leftAt = none := by
  have hnot : ¬run.leftAt.isSome := by
    rw [h.left, ht]
    exact Bool.false_ne_true
  exact Option.not_isSome_iff_eq_none.mp hnot

/-- A row that advances. -/
theorem advanced (h : Kept now history run) (hs : SameEnds run mid) (hm : Marked target mid)
    (hc : canTransition run.status target = true) :
    Kept now (history ++ [target]) (mid.advanced target now) := by
  have hlive : run.status.terminal = false := by
    cases ht : run.status.terminal with
    | false => rfl
    | true => rw [not_canTransition_of_terminal target ht] at hc; cases hc
  have hleft : mid.leftAt = none := hs.left.trans (h.leftAt_eq_none hlive)
  have hpast : ∀ j, (mid.advanced target now).joinedAt = some j → j ≤ now := by
    intro j hj
    simp only [BotRun.advanced] at hj
    split_ifs at hj
    · exact le_of_eq (Option.some.inj hj).symm
    · exact h.past j (hs.joined.symm.trans hj)
  have hjoined : (mid.advanced target now).joinedAt.isSome ↔ joined ∈ history ++ [target] := by
    rw [List.mem_append, List.mem_singleton, ← h.joined, ← hs.joined]
    simp only [BotRun.advanced]
    by_cases ht : target = joined
    · subst ht
      cases mid.joinedAt <;> simp
    · simp [ht, Ne.symm ht]
  constructor
  · constructor
    · simp only [BotRun.advanced]
      split_ifs with ht
      · simp [ht]
      · simp [hleft, ht]
    · exact hjoined
    · intro j l hj hl
      simp only [BotRun.advanced] at hl
      split_ifs at hl
      · exact (hpast j hj).trans (le_of_eq (Option.some.inj hl))
      · rw [hleft] at hl
        cases hl
    · intro ht
      have hmarked := hm.failed ht
      refine ⟨hmarked.1, ?_⟩
      simp only [BotRun.advanced]
      split_ifs
      · rfl
      · exact hmarked.2
    · intro ht
      have hne : target ≠ failed := by
        intro hf
        cases ht.symm.trans hf
      simp only [BotRun.advanced, hne, decide_false, Bool.false_and, Bool.false_eq_true, if_false]
      exact hm.completed ht
  · intro ht
    have hne : target ≠ failed := by
      rintro rfl
      cases ht
    simp only [BotRun.advanced, hne, decide_false, Bool.false_and, Bool.false_eq_true, if_false]
    exact hm.unmarked ht
  · exact hpast

theorem advance (h : Kept now history run) (hs : SameEnds run mid)
    (hm : run.status.terminal = false ∨ run.status = target → Marked target mid)
    (hadv : mid.advance target now = .ok run') :
    Kept now (Db.seen (some run) (some run') history) run' := by
  rcases BotRun.advance_ok hadv with ⟨rfl, htarget, -⟩ | ⟨rfl, hc⟩
  · have hstatus : run.status = target := hs.status.symm.trans htarget
    have hseen : Db.seen (some run) (some run') history = history := by
      simp [Db.seen, hs.status]
    rw [hseen]
    exact h.same hs (hstatus ▸ hm (Or.inr hstatus))
  · rw [hs.status] at hc
    have hlive : run.status.terminal = false := by
      cases ht : run.status.terminal with
      | false => rfl
      | true => rw [not_canTransition_of_terminal target ht] at hc; cases hc
    have hne : run.status ≠ target := by
      intro he
      have hlt := rank_lt_of_canTransition hc
      rw [he] at hlt
      exact lt_irrefl _ hlt
    have hseen : Db.seen (some run) (some (mid.advanced target now)) history =
        history ++ [target] := by
      simp [Db.seen, BotRun.advanced, hne]
    rw [hseen]
    exact h.advanced hs (hm (Or.inl hlive)) hc

theorem seen_same (h : Kept now history run) (hs : SameEnds run run')
    (he : run'.errorCode = run.errorCode) (hr : run'.stopReason = run.stopReason) :
    Kept now (Db.seen (some run) (some run') history) run' := by
  have hseen : Db.seen (some run) (some run') history = history := by
    simp [Db.seen, hs.status]
  rw [hseen]
  refine h.same hs ⟨?_, ?_, ?_⟩
  · rw [he, hr]
    exact h.marked.failed
  · rw [he, hr]
    exact h.marked.completed
  · rw [he, hr]
    exact h.marked.unmarked

end Kept

/-- A change of a row that keeps what is asked of it. -/
def Keeping (f : ℕ → BotRun → Except TwinError BotRun) : Prop :=
  ∀ ⦃now history run run'⦄, Kept now history run → f now run = .ok run' →
    Kept now (Db.seen (some run) (some run') history) run'

theorem keeping_advance (hlive : target.terminal = false) :
    Keeping fun now run => run.advance target now := by
  intro now history run run' h hadv
  refine h.advance ⟨rfl, rfl, rfl⟩ (fun hopen => ?_) hadv
  have hunmarked : run.status.terminal = false := by
    rcases hopen with ht | ht
    · exact ht
    · rw [ht, hlive]
  constructor
  · rintro rfl
    cases hlive
  · rintro rfl
    cases hlive
  · exact fun _ => h.unmarked hunmarked

theorem keeping_persisted (artifact : Option RecordingArtifact) :
    Keeping fun now run => run.persisted artifact now := by
  cases artifact with
  | none => exact keeping_advance rfl
  | some artifact =>
    intro now history run run' h hadv
    have hends : SameEnds run (run.recorded artifact) := ⟨rfl, rfl, rfl⟩
    refine h.advance hends (fun hopen => ?_) hadv
    have hunmarked : run.status.terminal = false := by
      rcases hopen with ht | ht
      · exact ht
      · rw [ht]
        rfl
    exact ⟨nofun, nofun, fun _ => h.unmarked hunmarked⟩

/-- A run is marked as failed, with an error code and a reason, before it advances. -/
theorem keeping_failing {f : ℕ → BotRun → Except TwinError BotRun}
    (mark : BotRun → BotRun) (hends : ∀ run, SameEnds run (mark run))
    (he : ∀ run, (mark run).errorCode.isSome) (hr : ∀ run, (mark run).stopReason.isSome)
    (hf : ∀ now run run', f now run = .ok run' →
      run' = run ∨ (mark run).advance .failed now = .ok run') :
    Keeping f := by
  intro now history run run' h hrun
  rcases hf now run run' hrun with rfl | hadv
  · exact h.seen_same ⟨rfl, rfl, rfl⟩ rfl rfl
  · refine h.advance (hends run) (fun _ => ?_) hadv
    exact ⟨fun _ => ⟨he run, hr run⟩, nofun, nofun⟩

theorem keeping_cancel : Keeping fun now run => run.cancel now := by
  refine keeping_failing BotRun.cancelling (fun _ => ⟨rfl, rfl, rfl⟩) (fun _ => rfl)
    (fun _ => rfl) fun now run run' h => ?_
  simp only [BotRun.cancel] at h
  split_ifs at h
  · exact Or.inl (Except.ok.inj h).symm
  · exact Or.inr h

theorem keeping_failRun (code : String) : Keeping fun now run => run.failRun code now := by
  refine keeping_failing (BotRun.failing code) (fun _ => ⟨rfl, rfl, rfl⟩) (fun _ => rfl)
    (fun _ => rfl) fun now run run' h => ?_
  simp only [BotRun.failRun] at h
  split_ifs at h
  · exact Or.inl (Except.ok.inj h).symm
  · exact Or.inr h

theorem keeping_orphaned : Keeping fun now run => run.orphaned.advance .failed now :=
  keeping_failing BotRun.orphaned (fun _ => ⟨rfl, rfl, rfl⟩) (fun _ => rfl)
    (fun _ => rfl) fun _ _ _ h => Or.inr h

theorem sameEnds_assign (c : Completion) (run : BotRun) : SameEnds run (c.assign run) := by
  unfold Completion.assign
  constructor <;> split <;> split_ifs <;> rfl

theorem marked_assign (c : Completion) (h : run.errorCode = none ∧ run.stopReason = none ∨
    run.errorCode = some "cancelled" ∧ run.stopReason.isSome) :
    Marked .completed (c.assign run) := by
  refine ⟨nofun, fun _ => ?_, nofun⟩
  cases hc : c.cancelled with
  | true =>
    right
    simp [Completion.assign, hc]
  | false =>
    have he : (c.assign run).errorCode = run.errorCode := by
      unfold Completion.assign
      split <;> split_ifs <;> first | rfl | simp_all
    have hr : (c.assign run).stopReason = run.stopReason := by
      unfold Completion.assign
      split <;> split_ifs <;> first | rfl | simp_all
    rw [he, hr]
    exact h

theorem keeping_complete (c : Completion) : Keeping fun now run => run.complete c now := by
  intro now history run run' h hrun
  simp only [BotRun.complete] at hrun
  cases hadv : (c.assign run).advance .completed now with
  | error e =>
    rw [hadv] at hrun
    cases hrun
  | ok mid =>
    rw [hadv] at hrun
    cases Except.ok.inj hrun
    have hmid := h.advance (sameEnds_assign c run) (fun hopen => marked_assign c ?_) hadv
    · have hends : SameEnds mid mid.withDuration := by
        unfold BotRun.withDuration
        constructor <;> split <;> rfl
      have hseen : Db.seen (some run) (some mid.withDuration) history =
          Db.seen (some run) (some mid) history := by
        simp only [Db.seen, hends.status]
      rw [hseen]
      refine hmid.same hends ?_
      have hmarks := hmid.marked
      unfold BotRun.withDuration
      constructor <;> split
      · exact hmarks.failed
      · exact hmarks.failed
      · exact hmarks.completed
      · exact hmarks.completed
      · exact hmarks.unmarked
      · exact hmarks.unmarked
    · rcases hopen with hlive | hdone
      · exact Or.inl (h.unmarked hlive)
      · exact h.completed hdone

/-- A change that leaves the ends of a row and its marks as they are. -/
theorem keeping_same {g : BotRun → BotRun} (hends : ∀ run, SameEnds run (g run))
    (he : ∀ run, (g run).errorCode = run.errorCode)
    (hr : ∀ run, (g run).stopReason = run.stopReason) : Keeping fun _ run => .ok (g run) := by
  intro now history run run' h hrun
  cases Except.ok.inj hrun
  exact h.seen_same (hends run) (he run) (hr run)

end Fakery.Bots
