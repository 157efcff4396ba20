import Fakery.Concurrent.RelyGuarantee
import Fakery.Redis.Keys
import Fakery.Runtime.Attend

/-! One run as its executions and the orphan sweeps see it: the row, the heartbeat key and the loops
that write it. A transaction on the row is one step. -/
namespace Fakery.Heartbeat
open Fakery.Bots Fakery.Concurrent Fakery.Redis Fakery.Runtime

def HEARTBEAT_TTL_S : ℕ := 90

def HEARTBEAT_INTERVAL_S : ℕ := 30

def heartbeatKey (b : ℕ) : String := s!"bots:hb:{b}"

inductive Call where
  | attend (i : Runtime.Call)
  | finished
  | selectStale (staleAfter : ℕ)
  | getBeat
  | reap (loaded : BotRun)

abbrev Reply : Call → Type
  | .attend i => Runtime.Reply i
  | .selectStale _ => ℕ × Option BotRun
  | .getBeat => Option String
  | .finished | .reap _ => Unit

abbrev Answer (i : Call) : Type := Except Raised (Reply i)

abbrev Act := Task Call Answer Raised

def perform (i : Call) : Act (Reply i) := ExceptT.mk (Prog.ask i)

def call (i : Runtime.Call) : Act (Runtime.Reply i) := perform (.attend i)

/-- `attend` and, when it raises, the `fail_run` that follows. A worker and the pod of a job name the
error each in its own way. -/
def execution (hasBlob : Bool) (m : Meeting) (errorCode : Option String → String) : Act Unit :=
  (attend call hasBlob m).rescue fun code => failRun call hasBlob (errorCode code)

/-- The sweep of any worker, as far as this run goes. -/
def sweepOrphans (staleAfter : ℕ) : Act Unit := do
  match ← perform (.selectStale staleAfter) with
  | (_, none) => pure ()
  | (moment, some run) =>
    match ← perform .getBeat with
    | some _ => pure ()
    | none =>
      if isOrphan run.status run.updatedAt false moment staleAfter then perform (.reap run)
      else pure ()

inductive Role where
  | execution (hasBlob : Bool) (errorCode : Option String → String) (m : Meeting)
  | sweepOrphans (staleAfter : ℕ)

/-- The heartbeat task of one `attend` and when it last wrote the key. -/
structure Loop where
  thread : ℕ
  last : Option ℕ := none
deriving DecidableEq

/-- `unfinished` are the executions that have not finished, `inHand` the sweeps that found no
heartbeat and are to reap the run, and `caught` the executions that a sweep has reaped the run
under. -/
structure Store where
  run : BotRun
  keys : Keys String String := {}
  loops : List Loop := []
  unfinished : List ℕ := []
  inHand : List ℕ := []
  caught : List ℕ := []

namespace Store

variable (s : Store) (t : ℕ)

def stopLoop : Store := { s with loops := s.loops.filter fun l => l.thread ≠ t }

def finish : Store := { s with unfinished := s.unfinished.filter (· ≠ t) }

def letGo : Store := { s with inHand := s.inHand.filter (· ≠ t) }

end Store

/-- The outcome of a call: what it raises, whether it had its effect by then, and the clock of the
process and the answer of a call that nothing here decides. -/
structure Outcome where
  raises : Option Raised := none
  reached : Bool := true
  now : ℕ := 0
  flag : Bool := true
  stopReason : Option String := none
  restored : Option RecordingArtifact := none

/-- `s'` is what a call that answers `a` leaves behind. -/
def Outcome.settle {α : Type} (c : Outcome) (s s' : Store) (a : α) : Store × Except Raised α :=
  match c.raises with
  | none => (s', .ok a)
  | some e => (if c.reached then s' else s, .error e)

/-- The stale objects of a sweep, written back to the row. -/
def Store.reap (s : Store) (loaded : BotRun) (now : ℕ) (t : ℕ) : Store :=
  match loaded.orphaned.advance .failed now with
  | .ok run => { s.letGo t with
      run := BotRun.store loaded run now s.run
      caught := s.caught ++ s.unfinished }
  | .error _ => s.letGo t

/-- The calls of `attend` and `fail_run`. -/
def attendExec (b t : ℕ) : (i : Runtime.Call) → Outcome → Store →
    Store × Except Raised (Runtime.Reply i)
  | .transaction tx, c, s =>
    match tx.apply c.now s.run with
    | .ok run => c.settle s { s with run := BotRun.flushed s.run c.now run } ()
    | .error _ => (s, .error (.exception none))
  | .getRun, c, s => c.settle s s s.run
  | .createHeartbeat, _, s => ({ s with loops := ⟨t, none⟩ :: s.loops }, .ok ())
  | .cancelHeartbeat, _, s => (s.stopLoop t, .ok ())
  | .clearBeat, c, s => c.settle s { s with keys := s.keys.delete (heartbeatKey b) } ()
  | .waitAdmitted, c, s => c.settle s s c.flag
  | .waitMeetingEnded, c, s => c.settle s s c.flag
  | .requestedStopReason, c, s => c.settle s s c.stopReason
  | .restorePrefix, c, s => c.settle s s c.restored
  | .restoreProfile, c, s => c.settle s s ()
  | .persistProfile, c, s => c.settle s s ()
  | .openBrowser, c, s => c.settle s s ()
  | .closeBrowser, c, s => c.settle s s ()
  | .joinMeeting, c, s => c.settle s s ()
  | .pause, c, s => c.settle s s ()
  | .leaveMeeting, c, s => c.settle s s ()

def exec (b t : ℕ) : (i : Call) → Outcome → Store → Option (Store × Answer i)
  | .attend i, c, s => some (attendExec b t i c s)
  | .finished, _, s => some (s.finish t, .ok ())
  | .selectStale staleAfter, c, s =>
    some (c.settle s s (c.now, (some s.run).filter fun run =>
      run.status ∈ liveStatuses && run.updatedAt < c.now - staleAfter))
  | .getBeat, c, s =>
    match c.raises with
    | some e => some (s, .error e)
    | none =>
      match s.keys.get (heartbeatKey b) with
      | some v => some (s, .ok (some v))
      | none => some ({ s with inHand := t :: s.inHand }, .ok none)
  | .reap loaded, c, s => some (c.settle (s.letGo t) (s.reap loaded c.now t) ())

/-- `write` is any other transaction on the row. -/
inductive World where
  | tick (d : ℕ)
  | beat (t : ℕ)
  | write (run : BotRun)

/-- A loop that is running writes the key every thirty seconds. -/
def World.step (b : ℕ) : World → Store → Option Store
  | tick d, s =>
    if ∀ l ∈ s.loops, ∀ last ∈ l.last, s.keys.now + d ≤ last + HEARTBEAT_INTERVAL_S then
      some { s with keys := s.keys.elapse d }
    else none
  | beat t, s =>
    if ∃ l ∈ s.loops, l.thread = t then
      some { s with
        keys := s.keys.set (heartbeatKey b) "1" HEARTBEAT_TTL_S
        loops := s.loops.map fun l => if l.thread = t then { l with last := some s.keys.now } else l }
    else none
  | write run, s => some { s with run := run }

/-- The executions and sweeps of the run `b`. A process that dies ends what it runs. -/
def attendance (b : ℕ) : Machine Call Answer Role Store Outcome World where
  prog
    | .execution hasBlob errorCode m =>
      (execution hasBlob m errorCode).run >>= fun _ => Prog.ask .finished >>= fun _ => .done ()
    | .sweepOrphans staleAfter => (sweepOrphans staleAfter).run >>= fun _ => .done ()
  begin t
    | .execution _ _ _, s => some { s with unfinished := t :: s.unfinished }
    | .sweepOrphans _, s => some s
  exec := exec b
  kill t s := ((s.stopLoop t).finish t).letGo t
  env e s := e.step b s

end Fakery.Heartbeat
