import Fakery.Bots.Models
import Fakery.Concurrent.Prog
import Fakery.Storage.Blob

/-! The live stream of a transcriber: a task that feeds audio to a socket, a task that reads
segments from it, and the one that waits for both. What the audio, the socket and the sink answer is
up to them. A cancelled task hears nothing more of what it waits for than an exception. -/
namespace Fakery.Transcription
open Fakery.Bots Fakery.Concurrent.Task Fakery.Storage

/-- How a task ends, or a call that a task awaits. -/
abbrev Ended (ε α : Type) := Except (Raised ε) α

/-- The calls that `_feed` makes on the socket. -/
inductive Sent where
  | media (chunk : Bytes)
  | keepAlive
  | closeStream
deriving DecidableEq

/-- How `anext(audio)` ends; `stop` is `StopAsyncIteration`. -/
inductive Produced (ε : Type) where
  | chunk (data : Bytes)
  | stop
  | raised (e : Raised ε)

/-- The task of the last `anext(audio)`. -/
inductive Pending (ε : Type) where
  | absent
  | running
  | finished (produced : Produced ε)

/-- Where `_feed` is; `leaving` is its `finally`. -/
inductive Feed (ε : Type) where
  | created
  | waiting
  | keepingAlive
  | sending
  | closing
  | leaving (ended : Ended ε Unit)
  | done (ended : Ended ε Unit)

/-- Where `_receive` is, with the count of final segments. -/
inductive Receive (ε : Type) where
  | created
  | reading (finals : ℕ)
  | sinking (finals : ℕ)
  | done (ended : Ended ε ℕ)

/-- An exception of a task, or one of the two that `_stream` raises itself. -/
inductive StreamError (ε : Type) where
  | exception (e : ε)
  | closedBeforeEof
  | timeout

/-- Where `_stream` is. Its `wait_for` is in `expiring` once its time is over, and in `cancelling`
once `_stream` is cancelled; in both it waits for `_receive` to end. -/
inductive Stream (ε : Type) where
  | waiting
  | draining
  | expiring
  | cancelling
  | leaving (ended : Ended (StreamError ε) ℕ)
  | done (ended : Ended (StreamError ε) ℕ)

/-- What the socket is read to; `raised` is also a message that `live_segment` raises on. -/
inductive Incoming (μ ε : Type) where
  | message (m : μ)
  | closed
  | raised (e : Raised ε)

/-- The tasks, whether each of them is being cancelled, and all that has been given and taken. -/
structure Live (μ ε : Type) where
  feed : Feed ε := .created
  pending : Pending ε := .absent
  receive : Receive ε := .created
  stream : Stream ε := .waiting
  feedCancelled : Bool := false
  pendingCancelled : Bool := false
  receiveCancelled : Bool := false
  streamCancelled : Bool := false
  audio : List Bytes := []
  sent : List Sent := []
  messages : List μ := []
  sunk : List Segment := []

/-- `expire` is the end of `STREAM_DRAIN_TIMEOUT_S`, `idle` that of `KEEPALIVE_INTERVAL_S`, and
`cancel` comes from whoever awaits `_stream`. -/
inductive StreamEvent (μ ε : Type) where
  | audio (produced : Produced ε)
  | feed (answer : Ended ε Unit)
  | idle
  | receive (incoming : Incoming μ ε)
  | sink (answer : Ended ε Unit)
  | stream
  | expire
  | cancel

variable {μ ε : Type}

def lift : Raised ε → Raised (StreamError ε)
  | .exception e => .exception (.exception e)
  | .cancelled => .cancelled

def Ended.lift : Ended ε ℕ → Ended (StreamError ε) ℕ
  | .ok n => .ok n
  | .error e => .error (Transcription.lift e)

/-- `live_segment(message)`, if it is final. -/
def finalSegment (live : μ → Option (Segment × Bool)) (m : μ) : Option Segment :=
  match live m with
  | some (segment, true) => some segment
  | _ => none

namespace Live

def call (s : Live μ ε) (feed : Feed ε) (sent : Sent) : Live μ ε :=
  { s with feed := feed, sent := s.sent ++ [sent] }

/-- `finally: pending.cancel()` -/
def leaveFeed (s : Live μ ε) (ended : Ended ε Unit) : Live μ ε :=
  { s with feed := .leaving ended, feedCancelled := false, pendingCancelled := true }

/-- `pending = create_task(anext(audio))`, and the wait for it. -/
def nextChunk (s : Live μ ε) : Live μ ε :=
  { s with feed := .waiting, pending := .running, pendingCancelled := false }

/-- A call of `_feed` has ended. -/
def answered (s : Live μ ε) (next : Live μ ε) : Ended ε Unit → Option (Live μ ε)
  | .ok _ => if s.feedCancelled then none else some next
  | .error e => some (s.leaveFeed (.error e))

/-- `_feed` goes on; where it awaits a call, `answer` is what the call ends with. -/
def goFeed (s : Live μ ε) (answer : Ended ε Unit) : Option (Live μ ε) :=
  match s.feed with
  | .created =>
    if s.feedCancelled then some { s with feed := .done (.error .cancelled) }
    else some s.nextChunk
  | .waiting =>
    if s.feedCancelled then some (s.leaveFeed (.error .cancelled))
    else match s.pending with
      | .finished (.chunk data) => some (s.call .sending (.media data))
      | .finished .stop => some (s.call .closing .closeStream)
      | .finished (.raised e) => some (s.leaveFeed (.error e))
      | .absent | .running => none
  | .keepingAlive => s.answered { s with feed := .waiting } answer
  | .sending => s.answered s.nextChunk answer
  | .closing => s.answered (s.leaveFeed (.ok ())) answer
  | .leaving ended => match s.pending with
    | .finished _ =>
      some { s with feed := .done (if s.feedCancelled then .error .cancelled else ended) }
    | .absent | .running => none
  | .done _ => none

/-- The wait of `_feed` is over with nothing done. -/
def goIdle (s : Live μ ε) : Option (Live μ ε) :=
  match s.feed, s.pending with
  | .waiting, .running => if s.feedCancelled then none else some (s.call .keepingAlive .keepAlive)
  | _, _ => none

/-- A cancelled `anext` gives no chunk. -/
def goAudio (s : Live μ ε) (produced : Produced ε) : Option (Live μ ε) :=
  match s.pending, produced with
  | .running, .chunk data =>
    if s.pendingCancelled then none
    else some { s with pending := .finished (.chunk data), audio := s.audio ++ [data] }
  | .running, .stop =>
    if s.pendingCancelled then none else some { s with pending := .finished .stop }
  | .running, .raised e => some { s with pending := .finished (.raised e) }
  | _, _ => none

section receiving

variable (live : μ → Option (Segment × Bool))

/-- `_receive` goes on with what it reads from the socket. -/
def goReceive (s : Live μ ε) (incoming : Incoming μ ε) : Option (Live μ ε) :=
  match s.receive with
  | .created =>
    if s.receiveCancelled then some { s with receive := .done (.error .cancelled) }
    else some { s with receive := .reading 0 }
  | .reading finals => match incoming with
    | .message m =>
      if s.receiveCancelled then none
      else match finalSegment live m with
        | some segment =>
          some { s with receive := .sinking finals, messages := s.messages ++ [m]
                        sunk := s.sunk ++ [segment] }
        | none => some { s with messages := s.messages ++ [m] }
    | .closed => if s.receiveCancelled then none else some { s with receive := .done (.ok finals) }
    | .raised e => some { s with receive := .done (.error e) }
  | .sinking _ | .done _ => none

/-- `sink(segment)` has ended. -/
def goSink (s : Live μ ε) (answer : Ended ε Unit) : Option (Live μ ε) :=
  match s.receive, answer with
  | .sinking finals, .ok _ =>
    if s.receiveCancelled then none else some { s with receive := .reading (finals + 1) }
  | .sinking _, .error e => some { s with receive := .done (.error e) }
  | _, _ => none

end receiving

/-- `finally: feed.cancel()`, `receive.cancel()`, which a task that is done does not notice. -/
def leaveStream (s : Live μ ε) (ended : Ended (StreamError ε) ℕ) : Live μ ε :=
  { s with stream := .leaving ended, streamCancelled := false, feedCancelled := true
           receiveCancelled := true }

/-- `_stream` goes on. -/
def goStream (s : Live μ ε) : Option (Live μ ε) :=
  match s.stream with
  | .waiting =>
    if s.streamCancelled then some (s.leaveStream (.error .cancelled))
    else match s.receive, s.feed with
      | .done (.ok finals), .done (.ok _) => some (s.leaveStream (.ok finals))
      | .done (.ok _), .done (.error e) => some (s.leaveStream (.error (lift e)))
      | .done (.ok _), _ => some (s.leaveStream (.error (.exception .closedBeforeEof)))
      | .done (.error e), _ => some (s.leaveStream (.error (lift e)))
      | _, .done (.ok _) => some { s with stream := .draining }
      | _, .done (.error e) => some (s.leaveStream (.error (lift e)))
      | _, _ => none
  | .draining | .cancelling => match s.receive with
    | .done ended => some (s.leaveStream ended.lift)
    | _ => none
  | .expiring => match s.receive with
    | .done (.error .cancelled) => some (s.leaveStream (.error (.exception .timeout)))
    | .done ended => some (s.leaveStream ended.lift)
    | _ => none
  | .leaving ended => match s.feed, s.receive with
    | .done _, .done _ =>
      some { s with stream := .done (if s.streamCancelled then .error .cancelled else ended) }
    | _, _ => none
  | .done _ => none

/-- The time of `wait_for` is over; a result that has come but was not yet seen is lost. -/
def goExpire (s : Live μ ε) : Option (Live μ ε) :=
  match s.stream with
  | .draining => match s.receive with
    | .done _ => some (s.leaveStream (.error (.exception .timeout)))
    | _ => some { s with stream := .expiring, receiveCancelled := true }
  | _ => none

/-- `_stream` is cancelled. -/
def goCancel (s : Live μ ε) : Option (Live μ ε) :=
  match s.stream with
  | .waiting => some { s with streamCancelled := true }
  | .draining | .expiring | .cancelling => match s.receive with
    | .done _ => some (s.leaveStream (.error .cancelled))
    | _ => some { s with stream := .cancelling, receiveCancelled := true }
  | .leaving _ =>
    some { s with streamCancelled := true, feedCancelled := true, receiveCancelled := true }
  | .done _ => none

def step (live : μ → Option (Segment × Bool)) (s : Live μ ε) :
    StreamEvent μ ε → Option (Live μ ε)
  | .audio produced => s.goAudio produced
  | .feed answer => s.goFeed answer
  | .idle => s.goIdle
  | .receive incoming => s.goReceive live incoming
  | .sink answer => s.goSink answer
  | .stream => s.goStream
  | .expire => s.goExpire
  | .cancel => s.goCancel

def run (live : μ → Option (Segment × Bool)) (s : Live μ ε) :
    List (StreamEvent μ ε) → Option (Live μ ε)
  | [] => some s
  | e :: es => (s.step live e).bind fun s' => s'.run live es

end Live

end Fakery.Transcription
