import Fakery.Queue.Batch
import Fakery.Worker.Cluster
import Mathlib.Tactic.SplitIfs

/-! The passes of the relay over all runs, with no other writer: they take the pending runs off the
front of a line. -/
namespace Fakery.Worker.Relay
open Fakery.Bots

/-- How `xadd` ends: an entry may be in the stream although the call has raised. -/
inductive Added where
  | added
  | raised (error : String) (stored : Bool)

/-- What a pass meets: how each `xadd` ends, what the clock says then and when the row is stored,
and whether the transaction is committed. -/
structure Pass where
  add : ℕ → Added
  now : ℕ → ℕ
  moment : ℕ → ℕ
  commits : Bool

/-- The identifier is the primary key. -/
structure Table where
  rows : List BotRun
  stream : List ℕ
  key : (rows.map BotRun.id).Nodup

def isPending (run : BotRun) : Bool := run.status = .queued && run.dispatchStatus = "pending"

/-- All pending runs in the order of the query. -/
def waiting (rows : List BotRun) : List BotRun := (rows.filter isPending).insertionSort Earlier

namespace Pass

variable (p : Pass)

def relayed (run : BotRun) : BotRun :=
  let run := { run with dispatchAttempts := run.dispatchAttempts + 1 }
  match p.add run.id with
  | .added =>
    { run with dispatchStatus := "enqueued", dispatchEnqueuedAt := some (p.now run.id) }
  | .raised error _ => { run with dispatchLastError := some error }

/-- The entries that get into the stream, and how many runs are relayed. -/
def relayEach : List BotRun → List ℕ × ℕ
  | [] => ([], 0)
  | run :: runs =>
    let (ids, relayed) := relayEach runs
    match p.add run.id with
    | .added => (run.id :: ids, relayed + 1)
    | .raised _ true => (run.id :: ids, relayed)
    | .raised _ false => (ids, relayed)

/-- The row of a run after the transaction of the given batch. -/
def row (runs : List BotRun) (run : BotRun) : BotRun :=
  if run ∈ runs then BotRun.flushed run (p.moment run.id) (p.relayed run) else run

theorem relayed_column {γ : Type} {g : BotRun → γ} (run : BotRun)
    (h : ∀ attempts status moment error, g { run with
      dispatchAttempts := attempts, dispatchStatus := status, dispatchEnqueuedAt := moment
      dispatchLastError := error } = g run) : g (p.relayed run) = g run := by
  unfold relayed
  dsimp only
  split
  · exact h _ _ _ _
  · exact h _ _ _ _

theorem row_id (runs : List BotRun) (run : BotRun) : (p.row runs run).id = run.id := by
  unfold row
  split_ifs
  · rw [BotRun.flushed_column (g := BotRun.id) (fun _ _ => rfl)]
    exact p.relayed_column run fun _ _ _ _ => rfl
  · rfl

theorem row_createdAt (runs : List BotRun) (run : BotRun) :
    (p.row runs run).createdAt = run.createdAt := by
  unfold row
  split_ifs
  · rw [BotRun.flushed_column (g := BotRun.createdAt) (fun _ _ => rfl)]
    exact p.relayed_column run fun _ _ _ _ => rfl
  · rfl

theorem map_row_id (runs rows : List BotRun) :
    (rows.map (p.row runs)).map BotRun.id = rows.map BotRun.id := by
  rw [List.map_map]
  exact List.map_congr_left fun run _ => p.row_id runs run

end Pass

/-- The table after a pass, and the number that it returns; without a commit it raises. -/
def relayQueued (p : Pass) (s : Table) : Table × Option ℕ :=
  let runs := (waiting s.rows).take DISPATCH_RELAY_BATCH
  let (ids, relayed) := p.relayEach runs
  if p.commits then
    (⟨s.rows.map (p.row runs), s.stream ++ ids, (p.map_row_id runs s.rows).symm ▸ s.key⟩,
      some relayed)
  else (⟨s.rows, s.stream ++ ids, s.key⟩, none)

def relayAll (ps : List Pass) (s : Table) : Table := ps.foldl (fun s p => (relayQueued p s).1) s

end Fakery.Worker.Relay
