import Fakery.Transcription.Stream

/-! The decoder of a live stream: a process that turns the chunks of a recording into samples, a
task that feeds it, and the generator that reads from it, from the start of the process on. What
the chunks, the process and whoever iterates do is up to them. -/
namespace Fakery.Transcription
open Fakery.Concurrent.Task Fakery.Storage

def PCM_CHUNK_BYTES : ℕ := 8192

/-- How `stdin.drain()` ends; `broken` is a broken pipe or a connection that is reset. -/
inductive Drained (ε : Type) where
  | ok
  | broken
  | raised (e : Raised ε)

/-- Where `_feed` is. -/
inductive Feeder (ε : Type) where
  | created
  | waiting
  | draining
  | done (ended : Ended ε Unit)

/-- An exception of the chunks, or one of the two that `decode_webm` raises itself. -/
inductive DecodeError (ε : Type) where
  | exception (e : ε)
  | processLookup
  | decodeFailed

/-- Why `decode_webm` leaves; `closed` is its `aclose()`. -/
inductive Leave (ε : Type) where
  | exhausted
  | closed
  | raised (e : Raised (DecodeError ε))

/-- What its `finally` waits for: the task, or the process that was told to terminate or killed. -/
inductive CleanUp where
  | feed
  | terminated
  | killed
deriving DecidableEq

/-- Where `decode_webm` is. -/
inductive Generator (ε : Type) where
  | reading
  | yielding
  | awaitingFeed
  | awaitingExit
  | leaving (cleanUp : CleanUp) (leave : Leave ε)
  | done (leave : Leave ε)

/-- The tasks, the process, and all that has been given and taken. `stdin` is what has been written
while the process ran, `pipe` its output that is not yet read; `broken` notes a write that was
lost, and `cut` a cancellation of the cleaning up. -/
structure Decoder (ε : Type) where
  generator : Generator ε := .reading
  feed : Feeder ε := .created
  feedCancelled : Bool := false
  cut : Bool := false
  chunks : List Bytes := []
  chunksEnded : Bool := false
  stdin : List Bytes := []
  broken : Bool := false
  pipe : Bytes := []
  output : Bytes := []
  outputOpen : Bool := true
  returncode : Option ℤ := none
  yielded : List Bytes := []

/-- `next` and `close` come from whoever iterates, `cancel` from whoever awaits the next samples;
`expire` is the end of `DECODER_STOP_TIMEOUT_S`, at which the process may just be `lost`. -/
inductive DecodeEvent (ε : Type) where
  | start
  | chunk (produced : Produced ε)
  | drain (answer : Drained ε)
  | read (size : ℕ)
  | next
  | close
  | go
  | expire (lost : Bool)
  | cancel
  | write (data : Bytes)
  | closeOutput
  | exit (code : ℤ)

variable {ε : Type}

def Leave.ofRaised : Raised ε → Leave ε
  | .exception e => .raised (.exception (.exception e))
  | .cancelled => .raised .cancelled

namespace Decoder

/-- `finally: proc.stdin.close()` -/
def closeFeed (s : Decoder ε) (ended : Ended ε Unit) : Decoder ε :=
  { s with feed := .done ended }

/-- A task that is cancelled before its start does nothing at all. -/
def startFeed (s : Decoder ε) : Option (Decoder ε) :=
  match s.feed with
  | .created =>
    if s.feedCancelled then some { s with feed := .done (.error .cancelled) }
    else some { s with feed := .waiting }
  | _ => none

/-- The next chunk is written; what is written to a process that is gone is lost. -/
def feedChunk (s : Decoder ε) (produced : Produced ε) : Option (Decoder ε) :=
  match s.feed, produced with
  | .waiting, .chunk data =>
    if s.feedCancelled then none
    else if s.returncode = none then
      some { s with feed := .draining, chunks := s.chunks ++ [data], stdin := s.stdin ++ [data] }
    else some { s with feed := .draining, chunks := s.chunks ++ [data], broken := true }
  | .waiting, .stop =>
    if s.feedCancelled then none else some { s.closeFeed (.ok ()) with chunksEnded := true }
  | .waiting, .raised e => some (s.closeFeed (.error e))
  | _, _ => none

def feedDrain (s : Decoder ε) (answer : Drained ε) : Option (Decoder ε) :=
  match s.feed, answer with
  | .draining, .ok => if s.feedCancelled then none else some { s with feed := .waiting }
  | .draining, .broken => some { s.closeFeed (.ok ()) with broken := true }
  | .draining, .raised e => some (s.closeFeed (.error e))
  | _, _ => none

/-- `finally: feed.cancel()` -/
def leave (s : Decoder ε) (why : Leave ε) : Decoder ε :=
  { s with generator := .leaving .feed why, feedCancelled := true }

/-- `proc.stdout.read(PCM_CHUNK_BYTES)`, which gives nothing at the end only. -/
def goRead (s : Decoder ε) (size : ℕ) : Option (Decoder ε) :=
  match s.generator with
  | .reading =>
    if s.pipe = [] then
      if s.outputOpen then none else some { s with generator := .awaitingFeed }
    else if 0 < size ∧ size ≤ PCM_CHUNK_BYTES ∧ size ≤ s.pipe.length then
      some { s with generator := .yielding, pipe := s.pipe.drop size
                    yielded := s.yielded ++ [s.pipe.take size] }
    else none
  | _ => none

/-- A wait of `decode_webm` is over. -/
def goOn (s : Decoder ε) : Option (Decoder ε) :=
  match s.generator with
  | .awaitingFeed => match s.feed with
    | .done (.ok _) => some { s with generator := .awaitingExit }
    | .done (.error e) => some (s.leave (.ofRaised e))
    | _ => none
  | .awaitingExit => match s.returncode with
    | some 0 => some (s.leave .exhausted)
    | some _ => some (s.leave (.raised (.exception .decodeFailed)))
    | none => none
  | .leaving .feed why => match s.feed with
    | .done _ =>
      if s.cut then some { s with generator := .done (.raised .cancelled) }
      else if s.returncode = none then some { s with generator := .leaving .terminated why }
      else some { s with generator := .done why }
    | _ => none
  | .leaving _ why => if s.returncode = none then none else some { s with generator := .done why }
  | _ => none

/-- The process did not end in time and is killed. -/
def goExpire (s : Decoder ε) (lost : Bool) : Option (Decoder ε) :=
  match s.generator with
  | .leaving .terminated why =>
    if lost then
      if s.returncode = none then none
      else some { s with generator := .done (.raised (.exception .processLookup)) }
    else some { s with generator := .leaving .killed why }
  | _ => none

/-- Whoever awaits the generator is cancelled; where it awaits the task, that is cancelled first. -/
def goCancel (s : Decoder ε) : Option (Decoder ε) :=
  match s.generator with
  | .reading | .awaitingExit => some (s.leave (.raised .cancelled))
  | .awaitingFeed => match s.feed with
    | .done _ => some (s.leave (.raised .cancelled))
    | _ => some { s with feedCancelled := true }
  | .leaving .feed _ => some { s with cut := true }
  | .leaving _ _ => some { s with generator := .done (.raised .cancelled), cut := true }
  | .yielding | .done _ => none

/-- A process that ends without an error has written all that it makes of its input. -/
def step (ffmpeg : Bytes → Bytes) (s : Decoder ε) : DecodeEvent ε → Option (Decoder ε)
  | .start => s.startFeed
  | .chunk produced => s.feedChunk produced
  | .drain answer => s.feedDrain answer
  | .read size => s.goRead size
  | .next => match s.generator with
    | .yielding => some { s with generator := .reading }
    | _ => none
  | .close => match s.generator with
    | .yielding => some (s.leave .closed)
    | _ => none
  | .go => s.goOn
  | .expire lost => s.goExpire lost
  | .cancel => s.goCancel
  | .write data =>
    if s.returncode = none ∧ s.outputOpen then
      some { s with pipe := s.pipe ++ data, output := s.output ++ data }
    else none
  | .closeOutput => some { s with outputOpen := false }
  | .exit code =>
    if s.returncode = none ∧ (code = 0 → s.output = ffmpeg s.stdin.flatten) then
      some { s with returncode := some code, outputOpen := false }
    else none

def run (ffmpeg : Bytes → Bytes) (s : Decoder ε) : List (DecodeEvent ε) → Option (Decoder ε)
  | [] => some s
  | e :: es => (s.step ffmpeg e).bind fun s' => s'.run ffmpeg es

end Decoder

end Fakery.Transcription
