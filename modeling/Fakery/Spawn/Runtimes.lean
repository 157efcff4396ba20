import Fakery.Concurrent.Along
import Fakery.Runtime.Rows
import Fakery.Worker.Programs

/-! Both runtimes of a bot beside its bot processes. Every transaction on the row of the run is one
step; whatever else is called answers as it likes. -/
namespace Fakery.Spawn
open Fakery.Bots Fakery.Concurrent Fakery.Core Fakery.Runtime

/-- `returned` marks that `spawn` has returned. -/
inductive Call where
  | run (i : Worker.Call)
  | returned

abbrev Reply : Call → Type
  | .run i => Worker.Answer i
  | .returned => Unit

/-- The row of the run, the thread that has made it joining, and the spawns that have returned. -/
structure Scene where
  run : BotRun
  joinedBy : Option ℕ := none
  returned : List ℕ := []

/-- The clocks, what the call raises and whether it has its effect before, and the answer of a call
that is no transaction. -/
structure Outcome where
  now : ℕ := 0
  moment : ℕ := 0
  raised : Option (Raised × Bool) := none
  answer : (i : Worker.Call) → Worker.Answer i

def Scene.stored (s : Scene) (moment : ℕ) (run : BotRun) : Scene :=
  { s with run := BotRun.flushed s.run moment run }

def commit (t : ℕ) (tx : Tx) (c : Outcome) (s : Scene) : Scene × Except Raised Unit :=
  match tx.apply c.now s.run with
  | .error _ => (s, .error (.exception none))
  | .ok run =>
    ({ s.stored c.moment run with joinedBy := if tx.joins then some t else s.joinedBy }, .ok ())

def answered (t : ℕ) : (i : Worker.Call) → Outcome → Scene → Scene × Worker.Answer i
  | .attend _ (.transaction tx), c, s => commit t tx c s
  | .attend _ .getRun, _, s => (s, .ok s.run)
  | i, c, s => (s, c.answer i)

def exec (t : ℕ) : (i : Call) → Outcome → Scene → Option (Scene × Reply i)
  | .run i, c, s =>
    match c.raised with
    | none => some (answered t i c s)
    | some (e, reached) => some (if reached then (answered t i c s).1 else s, .error e)
  | .returned, _, s => some ({ s with returned := t :: s.returned }, ())

inductive Role where
  | spawn (S : Worker.Settings) (p : Worker.Plan)
  | botRun (S : Worker.Settings) (p : Worker.Plan) (errorCode : Option String → String)

def among {α : Type} (x : Worker.Act α) : Prog Call Reply (Except Raised α) :=
  Prog.embed .run (fun _ r => r) x.run

def Role.prog (b : ℕ) : Role → Prog Call Reply Unit
  | spawn S p => among (Worker.spawn S b p) >>= fun r => match r with
    | .ok _ => Prog.ask Call.returned
    | .error _ => .done ()
  | botRun S p errorCode => among (Worker.botRun S b p errorCode) >>= fun _ => .done ()

/-- The run is cancelled by its client or swept as an orphan. -/
inductive World where
  | cancel (now moment : ℕ)
  | sweep (heartbeat : Bool) (staleAfter now moment : ℕ)

def World.apply : World → BotRun → Except TwinError BotRun
  | cancel now _, run => run.cancel now
  | sweep heartbeat staleAfter now _, run => run.swept heartbeat staleAfter now

def World.moment : World → ℕ
  | cancel _ moment | sweep _ _ _ moment => moment

def World.step (w : World) (s : Scene) : Option Scene :=
  (w.apply s.run).toOption.map (s.stored w.moment)

/-- Any number of spawns and of bot processes for one bot. -/
def runtimes (b : ℕ) : Machine Call Reply Role Scene Outcome World where
  prog := Role.prog b
  begin _ _ := some
  exec := exec
  kill _ := id
  env := World.step

end Fakery.Spawn
