import Fakery.Locking.Transactions

/-! The locking discipline of the service operations. All but the orphan sweep lock one bot row,
before any subscription row. -/
namespace Fakery.Locking
open Fakery.Bots Fakery.Concurrent Fakery.Core

/-- Statements that lock no bot row. -/
def NoRow (i : Stmt) : Prop := rowLock i = none

/-- Statements that take none of the locks. -/
def Lockless (i : Stmt) : Prop := rowLock i = none ∧ emits i = false

/-- Statements that take no key-share lock. -/
def NoShare (i : Stmt) : Prop := ∀ b, rowLock i ≠ some (.keyShare b)

variable {α β : Type} {p : Prog Stmt Answer α} {i : Stmt}

theorem Lockless.noRow (h : Lockless i) : NoRow i := h.1

theorem NoRow.noShare (h : NoRow i) : NoShare i := by
  intro b hb
  cases h.symm.trans hb

theorem rowFirst_of_noRow (h : p.Uses NoRow) : RowFirst p := by
  induction p with
  | done a => trivial
  | call i k ih =>
    unfold RowFirst
    split
    · exact h.2
    · exact fun a => ih a (h.2 a)

/-- After a body that has taken a row lock nothing may take another. -/
theorem RowFirst.bind {f : α → Prog Stmt Answer β} (hp : RowFirst p) (hf : ∀ a, (f a).Uses NoRow) :
    RowFirst (p >>= f) := by
  induction p with
  | done a => exact rowFirst_of_noRow (hf a)
  | call i k ih =>
    rw [Prog.call_bind]
    unfold RowFirst at hp ⊢
    split
    · rename_i hi
      rw [if_pos hi] at hp
      exact fun a => (hp a).bind hf
    · rename_i hi
      rw [if_neg hi] at hp
      exact fun a => ih a (hp a)

theorem RowFirst.lockless_bind {f : α → Prog Stmt Answer β} (hp : p.Uses Lockless)
    (hf : ∀ a, RowFirst (f a)) : RowFirst (p >>= f) := by
  induction p with
  | done a => exact hf a
  | call i k ih =>
    have hi : ¬((rowLock i).isSome || emits i) = true := by simp [hp.1.1, hp.1.2]
    rw [Prog.call_bind]
    unfold RowFirst
    rw [if_neg hi]
    exact fun a => ih a (hp.2 a)

section bodies

variable {x : Txn α} {f : α → Txn β}

theorem rowFirst_task_bind (hx : RowFirst x.run) (hf : ∀ a, (f a).run.Uses NoRow) :
    RowFirst (x >>= f).run := by
  rw [ExceptT.run_bind]
  refine hx.bind fun r => ?_
  cases r with
  | ok a => exact hf a
  | error e => trivial

theorem rowFirst_lockless_bind (hx : x.run.Uses Lockless) (hf : ∀ a, RowFirst (f a).run) :
    RowFirst (x >>= f).run := by
  rw [ExceptT.run_bind]
  refine RowFirst.lockless_bind hx fun r => ?_
  cases r with
  | ok a => exact hf a
  | error e => trivial

theorem rowFirst_perform (i : Stmt) : RowFirst (perform i).run := by
  show RowFirst (Prog.call i fun a => Prog.done (Except.ok a))
  unfold RowFirst
  split
  · exact fun _ => trivial
  · exact fun _ => trivial

theorem lockless_perform (h : Lockless i) : (perform i).run.Uses Lockless := Task.uses_perform h

theorem noRow_perform (h : NoRow i) : (perform i).run.Uses NoRow := Task.uses_perform h

theorem storeEach_lockless (payload : Payload) (now : ℕ) (ws : List WebhookSubscription) :
    (storeEach payload now ws).run.Uses Lockless := by
  induction ws with
  | nil => trivial
  | cons w ws ih =>
    exact Task.uses_bind (lockless_perform ⟨rfl, rfl⟩) fun _ =>
      Task.uses_bind (lockless_perform ⟨rfl, rfl⟩) fun _ =>
      Task.uses_bind (lockless_perform ⟨rfl, rfl⟩) fun _ => ih

theorem storeInSession_noRow (payload : Payload) : (storeInSession payload).run.Uses NoRow :=
  Task.uses_bind (noRow_perform rfl) fun _ => Task.uses_bind (noRow_perform rfl) fun _ =>
    (storeEach_lockless _ _ _).mono fun _ => Lockless.noRow

theorem statusChanged_noRow (b : ℕ) (status : BotStatus) :
    (statusChanged b status).run.Uses NoRow :=
  Task.uses_bind (noRow_perform rfl) fun _ => storeInSession_noRow _

theorem get_lockless (b : ℕ) : (Bots.get b).run.Uses Lockless := by
  refine Task.uses_bind (lockless_perform ⟨rfl, rfl⟩) fun r => ?_
  cases r with
  | none => trivial
  | some run => trivial

/-- After it has selected the row `advance` locks no other. -/
theorem advance_eq (b : ℕ) (target : BotStatus) : ∃ f : Option BotRun → Txn BotRun,
    advance b target = getForUpdate b >>= f ∧ ∀ r, (f r).run.Uses NoRow := by
  refine ⟨_, rfl, fun r => ?_⟩
  cases r with
  | none => trivial
  | some run =>
    simp only
    split_ifs
    · trivial
    · trivial
    · split
      · trivial
      · exact Task.uses_bind (noRow_perform rfl) fun _ =>
          Task.uses_bind (noRow_perform rfl) fun _ => Task.uses_bind (noRow_perform rfl) fun _ =>
          Task.uses_bind (statusChanged_noRow _ _) fun _ => trivial

theorem advance_rowFirst (b : ℕ) (target : BotStatus) : RowFirst (advance b target).run := by
  obtain ⟨f, hf, hrest⟩ := advance_eq b target
  rw [hf]
  refine rowFirst_task_bind ?_ hrest
  exact rowFirst_lockless_bind (lockless_perform ⟨rfl, rfl⟩) fun _ => rowFirst_perform _

theorem advance_noShare (b : ℕ) (target : BotStatus) : (advance b target).run.Uses NoShare := by
  obtain ⟨f, hf, hrest⟩ := advance_eq b target
  rw [hf]
  refine Task.uses_bind ?_ fun r => (hrest r).mono fun _ => NoRow.noShare
  exact Task.uses_bind (Task.uses_perform nofun) fun _ => Task.uses_perform nofun

theorem cancel_rowFirst (b : ℕ) : RowFirst (cancel b).run := by
  refine rowFirst_lockless_bind (get_lockless b) fun run => ?_
  split
  · trivial
  · exact rowFirst_lockless_bind (lockless_perform ⟨rfl, rfl⟩) fun _ => advance_rowFirst _ _

theorem createOrGet_noRow (meetingUrl meetingKey : String)
    (displayName idempotencyKey : Option String) :
    (createOrGet meetingUrl meetingKey displayName idempotencyKey).run.Uses NoRow := by
  refine Task.uses_bind ?_ fun existing => ?_
  · split
    · exact noRow_perform rfl
    · trivial
  split
  · split
    · trivial
    · trivial
  · refine Task.uses_bind (noRow_perform rfl) fun active => ?_
    split
    · trivial
    · refine Task.uses_bind (noRow_perform rfl) fun _ => Task.uses_bind (noRow_perform rfl) fun _ =>
        Task.uses_bind (noRow_perform rfl) fun _ => Task.uses_bind (noRow_perform rfl) fun added => ?_
      split
      · exact Task.uses_bind (statusChanged_noRow _ _) fun _ => trivial
      · trivial

theorem ingestSegment_rowFirst (b : ℕ) (segment : Segment) :
    RowFirst (ingestSegment b segment).run := by
  refine rowFirst_lockless_bind (lockless_perform ⟨rfl, rfl⟩) fun found => ?_
  cases found with
  | some row => trivial
  | none =>
    refine rowFirst_lockless_bind (lockless_perform ⟨rfl, rfl⟩) fun _ =>
      rowFirst_lockless_bind (lockless_perform ⟨rfl, rfl⟩) fun _ =>
      rowFirst_task_bind (rowFirst_perform _) fun _ => ?_
    exact Task.uses_bind (noRow_perform rfl) fun _ =>
      Task.uses_bind (storeInSession_noRow _) fun _ => trivial

theorem storeNotes_rowFirst (b : ℕ) (notes : MeetingNotes) :
    RowFirst (storeNotes b notes).run := by
  refine rowFirst_lockless_bind (lockless_perform ⟨rfl, rfl⟩) fun _ =>
    rowFirst_task_bind (rowFirst_perform _) fun added => ?_
  split
  · exact Task.uses_bind (noRow_perform rfl) fun _ =>
      Task.uses_bind (storeInSession_noRow _) fun _ => trivial
  · trivial

theorem storeRecording_lockless (b : ℕ) (artifact : RecordingArtifact) :
    (storeRecording b artifact).run.Uses Lockless :=
  Task.uses_bind (get_lockless b) fun _ => Task.uses_bind (lockless_perform ⟨rfl, rfl⟩) fun _ =>
    Task.uses_bind (lockless_perform ⟨rfl, rfl⟩) fun _ => trivial

theorem setCheckpointManifest_lockless (b : ℕ) (uri : Storage.Uri) :
    (setCheckpointManifest b uri).run.Uses Lockless :=
  Task.uses_bind (get_lockless b) fun _ => Task.uses_bind (lockless_perform ⟨rfl, rfl⟩) fun _ =>
    lockless_perform ⟨rfl, rfl⟩

theorem setArtifactStatus_lockless (b : ℕ) (artifact : Artifact) (status : String)
    (error : Option String) : (setArtifactStatus b artifact status error).run.Uses Lockless :=
  Task.uses_bind (get_lockless b) fun _ => Task.uses_bind (lockless_perform ⟨rfl, rfl⟩) fun _ =>
    lockless_perform ⟨rfl, rfl⟩

theorem persistRecording_rowFirst (b : ℕ) (artifact : Option RecordingArtifact) :
    RowFirst (persistRecording b artifact).run := by
  cases artifact with
  | none => exact rowFirst_task_bind (advance_rowFirst _ _) fun _ => trivial
  | some artifact =>
    exact rowFirst_lockless_bind (storeRecording_lockless b artifact) fun _ =>
      rowFirst_task_bind (advance_rowFirst _ _) fun _ => trivial

theorem complete_rowFirst (b : ℕ) (c : Completion) : RowFirst (complete b c).run := by
  refine rowFirst_lockless_bind (get_lockless b) fun _ =>
    rowFirst_lockless_bind (lockless_perform ⟨rfl, rfl⟩) fun _ =>
    rowFirst_task_bind (advance_rowFirst _ _) fun _ => ?_
  exact Task.uses_bind (noRow_perform rfl) fun _ => noRow_perform rfl

theorem storeRecovered_lockless (b : ℕ) (artifact : RecordingArtifact) :
    (storeRecovered b artifact).run.Uses Lockless :=
  Task.uses_bind (storeRecording_lockless b artifact) fun _ =>
    Task.uses_bind (lockless_perform ⟨rfl, rfl⟩) fun _ => lockless_perform ⟨rfl, rfl⟩

theorem failRun_rowFirst (b : ℕ) (code : String) : RowFirst (failRun b code).run := by
  refine rowFirst_lockless_bind (get_lockless b) fun run => ?_
  split
  · trivial
  · exact rowFirst_lockless_bind (lockless_perform ⟨rfl, rfl⟩) fun _ =>
      rowFirst_task_bind (advance_rowFirst _ _) fun _ => trivial

theorem sweepEach_noShare (moment staleAfter : ℕ) (runs : List BotRun) :
    (sweepEach moment staleAfter runs).run.Uses NoShare := by
  induction runs with
  | nil => trivial
  | cons run runs ih =>
    refine Task.uses_bind (Task.uses_perform nofun) fun alive => ?_
    split_ifs
    · exact ih
    · exact Task.uses_bind (Task.uses_perform nofun) fun _ =>
        Task.uses_bind (advance_noShare _ _) fun _ => Task.uses_bind ih fun _ => trivial
    · exact ih

theorem sweepOrphans_noShare (staleAfter : ℕ) : (sweepOrphans staleAfter).run.Uses NoShare :=
  Task.uses_bind (Task.uses_perform nofun) fun _ =>
    Task.uses_bind (Task.uses_perform nofun) fun _ => sweepEach_noShare _ _ _

theorem sessionScope_uses {U : Stmt → Prop} (hU : ∀ i, NoRow i → U i) (hx : x.run.Uses U) :
    (sessionScope x).Uses U := by
  refine hx.bind fun r => ?_
  cases r with
  | ok a => exact ⟨hU _ rfl, fun _ => trivial⟩
  | error e => exact ⟨hU _ rfl, fun _ => trivial⟩

theorem sessionScope_rowFirst (hx : RowFirst x.run) : RowFirst (sessionScope x) := by
  refine hx.bind fun r => ?_
  cases r with
  | ok a => exact ⟨rfl, fun _ => trivial⟩
  | error e => exact ⟨rfl, fun _ => trivial⟩

theorem transaction_rowFirst (hx : RowFirst x.run) : RowFirst (transaction x) :=
  (sessionScope_rowFirst hx).bind fun _ => trivial

end bodies

/-- The orphan sweep. -/
def sweeps : Op → Bool
  | .sweepOrphans _ => true
  | _ => false

/-- Each operation keeps to the discipline of its kind. -/
theorem op_prog (k : Op) :
    (sweeps k = true ∧ k.prog.Uses NoShare) ∨ (sweeps k = false ∧ RowFirst k.prog) := by
  have quiet : ∀ {α : Type} {x : Txn α}, x.run.Uses Lockless → RowFirst (transaction x) := by
    intro α x h
    exact transaction_rowFirst (rowFirst_of_noRow (h.mono fun _ => Lockless.noRow))
  cases k with
  | sweepOrphans staleAfter =>
    exact Or.inl ⟨rfl, (sessionScope_uses (fun _ => NoRow.noShare)
      (sweepOrphans_noShare staleAfter)).bind fun _ => trivial⟩
  | create u m d i =>
    exact Or.inr ⟨rfl, transaction_rowFirst (rowFirst_of_noRow (createOrGet_noRow u m d i))⟩
  | cancel b => exact Or.inr ⟨rfl, transaction_rowFirst (cancel_rowFirst b)⟩
  | advance b target => exact Or.inr ⟨rfl, transaction_rowFirst (advance_rowFirst b target)⟩
  | ingestSegment b segment =>
    exact Or.inr ⟨rfl, transaction_rowFirst (ingestSegment_rowFirst b segment)⟩
  | storeNotes b notes => exact Or.inr ⟨rfl, transaction_rowFirst (storeNotes_rowFirst b notes)⟩
  | setCheckpointManifest b uri => exact Or.inr ⟨rfl, quiet (setCheckpointManifest_lockless b uri)⟩
  | setArtifactStatus b a status e =>
    exact Or.inr ⟨rfl, quiet (setArtifactStatus_lockless b a status e)⟩
  | persistRecording b artifact =>
    exact Or.inr ⟨rfl, transaction_rowFirst (persistRecording_rowFirst b artifact)⟩
  | complete b c => exact Or.inr ⟨rfl, transaction_rowFirst (complete_rowFirst b c)⟩
  | storeRecovered b artifact => exact Or.inr ⟨rfl, quiet (storeRecovered_lockless b artifact)⟩
  | failRun b code => exact Or.inr ⟨rfl, transaction_rowFirst (failRun_rowFirst b code)⟩
  | attend b =>
    refine Or.inr ⟨rfl, (sessionScope_rowFirst (advance_rowFirst b .joining)).bind fun r => ?_⟩
    cases r with
    | ok a => exact ⟨rfl, fun _ => trivial⟩
    | error e => trivial

end Fakery.Locking
