import Fakery.Bots.Transactions

/-! How the service operations are put together: statements that leave every status alone, the
insertion of a queued run, and calls of `advance`. -/
namespace Fakery.Bots
open Fakery.Concurrent Fakery.Core

/-- The inner statements that give no run another status, and the insertion of a queued run. -/
def Stmt.Quiet (target : Option BotStatus) : Stmt → Prop
  | assign _ f => ∀ run, (f run).status = run.status
  | insertRun run => run.status = .queued ∧ target = some .queued
  | i => i.Inner

/-- The quiet statements that insert nothing. -/
def Stmt.Plain : Stmt → Prop
  | assign _ f => ∀ run, (f run).status = run.status
  | insertRun _ | addDelivery _ | insertSegment _ | insertNote _ => False
  | i => i.Inner

theorem Stmt.Quiet.inner {target : Option BotStatus} {i : Stmt} (h : i.Quiet target) :
    i.Inner := by
  cases i <;> trivial

theorem Stmt.Plain.quiet {target : Option BotStatus} {i : Stmt} (h : i.Plain) :
    i.Quiet target := by
  cases i <;> first | exact h | exact h.elim

theorem Stmt.Plain.inner {i : Stmt} (h : i.Plain) : i.Inner := by
  cases i <;> trivial

/-- The statuses that are advanced to by transactions that may have read the run before. -/
def lateStatuses : List BotStatus := [.processing, .completed, .failed]

/-- A body of statements that satisfy `U` and of calls of `advance` to `target`. -/
inductive Body (U : Stmt → Prop) (target : Option BotStatus) : {α : Type} → Txn α → Prop where
  | uses {α} {x : Txn α} (h : x.run.Uses U) : Body U target x
  | advance {b τ} (is_target : target = some τ) (late : τ ∈ lateStatuses) :
      Body U target (advance b τ)
  | bind {α β} {x : Txn α} {f : α → Txn β} (hx : Body U target x)
      (hf : ∀ a, Body U target (f a)) : Body U target (x >>= f)

variable {U V : Stmt → Prop} {i : Stmt} {goal : Option BotStatus} {α β : Type} {x : Txn α}
  {f : α → Txn β}

theorem Body.pure (a : α) : Body U goal (pure a : Txn α) := .uses trivial

theorem Body.throw (e : TwinError) : Body U goal (throw e : Txn α) := .uses trivial

theorem Body.perform (h : U i) : Body U goal (perform i) := .uses (Task.uses_perform h)

theorem Body.mono (h : Body U goal x) (hUV : ∀ i, U i → V i) : Body V goal x := by
  induction h with
  | uses h => exact .uses (h.mono hUV)
  | advance ht hl => exact .advance ht hl
  | bind _ _ hx hf => exact .bind hx hf

theorem storeEach_quiet (payload : Payload) (now : ℕ) (ws : List WebhookSubscription) :
    (storeEach payload now ws).run.Uses (Stmt.Quiet goal) := by
  induction ws with
  | nil => trivial
  | cons w ws ih =>
    exact Task.uses_bind (Task.uses_perform trivial) fun _ =>
      Task.uses_bind (Task.uses_perform trivial) fun _ =>
      Task.uses_bind (Task.uses_perform trivial) fun _ => ih

theorem storeInSession_quiet (payload : Payload) :
    (storeInSession payload).run.Uses (Stmt.Quiet goal) :=
  Task.uses_bind (Task.uses_perform trivial) fun _ =>
    Task.uses_bind (Task.uses_perform trivial) fun _ => storeEach_quiet _ _ _

theorem statusChanged_quiet (b : ℕ) (status : BotStatus) :
    (statusChanged b status).run.Uses (Stmt.Quiet goal) :=
  Task.uses_bind (Task.uses_perform trivial) fun _ => storeInSession_quiet _

theorem get_body (b : ℕ) : Body Stmt.Plain goal (get b) := by
  refine .bind (.perform trivial) fun r => ?_
  cases r with
  | none => exact .throw _
  | some run => exact .pure run

theorem cancel_body (b : ℕ) : Body Stmt.Plain (some .failed) (cancel b) := by
  refine .bind (get_body b) fun run => ?_
  split
  · exact .pure run
  · exact .bind (.perform fun _ => rfl) fun _ => .advance rfl (by decide)

theorem createOrGet_body (meetingUrl meetingKey : String)
    (displayName idempotencyKey : Option String) :
    Body (Stmt.Quiet (some .queued)) (some .queued)
      (createOrGet meetingUrl meetingKey displayName idempotencyKey) := by
  refine .bind ?_ fun existing => ?_
  · split
    · exact .perform trivial
    · exact .pure none
  split
  · split
    · exact .pure _
    · exact .throw _
  · refine .bind (.perform trivial) fun active => ?_
    split
    · exact .throw _
    · refine .bind (.perform trivial) fun id => .bind (.perform trivial) fun createdAt =>
        .bind (.perform trivial) fun updatedAt => .bind (.perform ⟨rfl, rfl⟩) fun inserted => ?_
      split
      · exact .bind (.uses (statusChanged_quiet _ _)) fun _ => .pure _
      · exact .throw _

theorem ingestSegment_body (b : ℕ) (segment : Segment) :
    Body (Stmt.Quiet goal) goal (ingestSegment b segment) := by
  refine .bind (.perform trivial) fun found => ?_
  cases found with
  | some row => exact .pure row
  | none =>
    exact .bind (.perform trivial) fun _ => .bind (.perform trivial) fun _ =>
      .bind (.perform trivial) fun _ => .bind (.perform trivial) fun _ =>
      .bind (.uses (storeInSession_quiet _)) fun _ => .pure _

theorem storeNotes_body (b : ℕ) (notes : MeetingNotes) :
    Body (Stmt.Quiet goal) goal (storeNotes b notes) := by
  refine .bind (.perform trivial) fun _ => .bind (.perform trivial) fun inserted => ?_
  split
  · exact .bind (.perform trivial) fun _ => .bind (.uses (storeInSession_quiet _)) fun _ => .pure _
  · exact .throw _

theorem storeRecording_body (b : ℕ) (artifact : RecordingArtifact) :
    Body Stmt.Plain goal (storeRecording b artifact) :=
  .bind (get_body b) fun _ => .bind (.perform fun _ => rfl) fun _ =>
    .bind (.perform trivial) fun _ => .pure _

theorem setCheckpointManifest_body (b : ℕ) (uri : Storage.Uri) :
    Body Stmt.Plain goal (setCheckpointManifest b uri) :=
  .bind (get_body b) fun _ => .bind (.perform fun _ => rfl) fun _ => .perform trivial

theorem setArtifactStatus_body (b : ℕ) (artifact : Artifact) (status : String)
    (error : Option String) : Body Stmt.Plain goal (setArtifactStatus b artifact status error) := by
  refine .bind (get_body b) fun _ => .bind (.perform fun _ => ?_) fun _ => .perform trivial
  cases artifact <;> rfl

theorem persistRecording_body (b : ℕ) (artifact : Option RecordingArtifact) :
    Body Stmt.Plain (some .processing) (persistRecording b artifact) := by
  cases artifact with
  | none => exact .bind (.advance rfl (by decide)) fun _ => .pure ()
  | some artifact =>
    exact .bind (storeRecording_body b artifact) fun _ =>
      .bind (.advance rfl (by decide)) fun _ => .pure ()

theorem Completion.assign_status (c : Completion) (run : BotRun) :
    (c.assign run).status = run.status := by
  unfold Completion.assign
  split <;> split_ifs <;> rfl

theorem withDuration_status (run : BotRun) : run.withDuration.status = run.status := by
  unfold BotRun.withDuration
  split <;> rfl

theorem complete_body (b : ℕ) (c : Completion) : Body Stmt.Plain (some .completed) (complete b c) :=
  .bind (get_body b) fun _ => .bind (.perform c.assign_status) fun _ =>
    .bind (.advance rfl (by decide)) fun _ => .bind (.perform withDuration_status) fun _ =>
    .perform trivial

theorem storeRecovered_body (b : ℕ) (artifact : RecordingArtifact) :
    Body Stmt.Plain goal (storeRecovered b artifact) :=
  .bind (storeRecording_body b artifact) fun _ => .bind (.perform fun _ => rfl) fun _ =>
    .perform trivial

theorem failRun_body (b : ℕ) (code : String) : Body Stmt.Plain (some .failed) (failRun b code) := by
  refine .bind (get_body b) fun run => ?_
  split
  · exact .pure ()
  · exact .bind (.perform fun _ => rfl) fun _ => .bind (.advance rfl (by decide)) fun _ => .pure ()

theorem sweepEach_body (moment staleAfter : ℕ) (runs : List BotRun) :
    Body Stmt.Plain (some .failed) (sweepEach moment staleAfter runs) := by
  induction runs with
  | nil => exact .pure 0
  | cons run runs ih =>
    refine .bind (.perform trivial) fun alive => ?_
    split
    · exact ih
    · split
      · exact .bind (.perform fun _ => rfl) fun _ => .bind (.advance rfl (by decide)) fun _ =>
          .bind ih fun _ => .pure _
      · exact ih

theorem sweepOrphans_body (staleAfter : ℕ) : Body Stmt.Plain (some .failed) (sweepOrphans staleAfter) :=
  .bind (.perform trivial) fun _ => .bind (.perform trivial) fun _ => sweepEach_body _ _ _

/-- The only status that an operation gives to runs. -/
def Op.target : Op → Option BotStatus
  | create _ _ _ _ => some .queued
  | advance _ target => some target
  | attend _ => some .joining
  | persistRecording _ _ => some .processing
  | complete _ _ => some .completed
  | cancel _ | failRun _ _ | sweepOrphans _ => some .failed
  | _ => none

/-- What an operation is made of: the one transaction of most of them inserts nothing. -/
inductive Op.Shape : Op → Prop where
  | changes {k : Op} {α : Type} {x : Txn α} (prog : k.prog = transaction x)
      (body : Body Stmt.Plain k.target x) : Shape k
  | create {meetingUrl meetingKey displayName idempotencyKey} :
      Shape (.create meetingUrl meetingKey displayName idempotencyKey)
  | ingestSegment {b segment} : Shape (.ingestSegment b segment)
  | storeNotes {b notes} : Shape (.storeNotes b notes)
  | advance {b target} : Shape (.advance b target)
  | attend {b} : Shape (.attend b)

theorem Op.shape (k : Op) : k.Shape := by
  cases k with
  | create => exact .create
  | cancel b => exact .changes rfl (cancel_body b)
  | advance => exact .advance
  | ingestSegment => exact .ingestSegment
  | storeNotes => exact .storeNotes
  | setCheckpointManifest b uri => exact .changes rfl (setCheckpointManifest_body b uri)
  | setArtifactStatus b artifact status error =>
    exact .changes rfl (setArtifactStatus_body b artifact status error)
  | persistRecording b artifact => exact .changes rfl (persistRecording_body b artifact)
  | complete b c => exact .changes rfl (complete_body b c)
  | storeRecovered b artifact => exact .changes rfl (storeRecovered_body b artifact)
  | failRun b code => exact .changes rfl (failRun_body b code)
  | sweepOrphans staleAfter => exact .changes rfl (sweepOrphans_body staleAfter)
  | attend => exact .attend

end Fakery.Bots
