import Fakery.Meet.Checkpointed
import Fakery.Texts.Base64
import Mathlib.Data.List.Perm.Basic

/-! The page of a meeting: the hook that records what its audio tracks play, and what of it comes to
the recorder of the worker. What the browser does, and in which order the handlers of one page go
on, is up to it. -/
namespace Fakery.Meet
open Fakery.Storage Fakery.Texts

/-- A `MediaRecorder`; in `stopping` it is inactive and its last data is still to come. -/
inductive MediaState where
  | recording | stopping | inactive
deriving DecidableEq

/-- How far the handler of a new track comes: an exception of the mixer, of the constructor of the
recorder or of its start is caught. -/
inductive Made where
  | unmixed | unmade | unstarted | started
deriving DecidableEq

/-- What comes of the evaluation of `_COLLECT_CHUNKS`: it is not reached, its answer is lost, or its
answer comes. -/
inductive Evaluated where
  | unreached | lost | answered
deriving DecidableEq

/-- The window and the anchor of the hook; `inFlight` lists the data whose bytes a handler awaits,
and the last fields what became of all that was recorded. -/
structure Page where
  hooked : Bool := false
  audioTracks : List ℕ := []
  listening : List ℕ := []
  ended : List ℕ := []
  recorders : List MediaState := []
  recorder : Option ℕ := none
  inFlight : List Bytes := []
  anchor : List Text := []
  recorded : List Bytes := []
  failed : List Bytes := []
  lost : List Bytes := []
  given : List (Option (List Text)) := []
deriving DecidableEq

inductive PageEvent where
  | hook
  | track (id : ℕ) (audio : Bool) (made : Made)
  | ended (id : ℕ)
  | data (recorder : ℕ) (blob : Bytes)
  | breaks (recorder : ℕ)
  | bytes (i : ℕ) (raises : Bool)
  | stop
  | collect (evaluated : Evaluated)

def BLOCK : ℕ := 0x8000

/-- The loop that makes a string of bytes, of which `n` blocks are still to come. -/
def binary : ℕ → Bytes → Bytes
  | 0, _ => []
  | n + 1, data => data.take BLOCK ++ binary n (data.drop BLOCK)

/-- `btoa(binary)` -/
def chunkText (blob : Bytes) : Text :=
  Base64.encode (binary ((blob.length + BLOCK - 1) / BLOCK) blob)

namespace Page

/-- `MediaRecorder.stop()`, which does nothing to a recorder that is inactive. -/
def stopRecorder (p : Page) (r : ℕ) : Page :=
  if p.recorders[r]? = some .recording then { p with recorders := p.recorders.set r .stopping }
  else p

def audioAlive (p : Page) : Bool := p.audioTracks.any fun id => !p.ended.contains id

/-- `window.__fakeryRecorder.state === 'recording'` -/
def isRecording (p : Page) : Bool :=
  match p.recorder with
  | some r => p.recorders[r]? = some .recording
  | none => false

def newRecorder (p : Page) (id : ℕ) (state : MediaState) : Page :=
  { p with recorders := p.recorders ++ [state], recorder := some p.recorders.length
           listening := id :: p.listening }

/-- The handler of the `track` event. -/
def addTrack (p : Page) (id : ℕ) (made : Made) : Page :=
  let p := { p with audioTracks := p.audioTracks.insert id }
  match made with
  | .unmixed => p
  | made =>
    if p.isRecording then p
    else match made with
      | .unmixed | .unmade => p
      | .unstarted => p.newRecorder id .inactive
      | .started => p.newRecorder id .recording

/-- A track ends; only a track that has made a recorder is listened to. -/
def endTrack (p : Page) (id : ℕ) : Page :=
  let p := { p with ended := p.ended.insert id }
  if p.listening.contains id then
    let p := { p with audioTracks := p.audioTracks.erase id }
    if p.audioAlive then p
    else match p.recorder with
      | some r => p.stopRecorder r
      | none => p
  else p

/-- The event `dataavailable`, after which an inactive recorder has no more. -/
def available (p : Page) (r : ℕ) (blob : Bytes) : Option Page :=
  let taken : Page := if blob = [] then p
    else { p with inFlight := p.inFlight ++ [blob], recorded := p.recorded ++ [blob] }
  match p.recorders[r]? with
  | some .recording => some taken
  | some .stopping => some { taken with recorders := taken.recorders.set r .inactive }
  | _ => none

/-- A handler has the bytes of its data, or raises. -/
def handled (p : Page) (i : ℕ) (raises : Bool) : Option Page :=
  p.inFlight[i]?.map fun blob =>
    let p := { p with inFlight := p.inFlight.eraseIdx i }
    if raises then { p with failed := p.failed ++ [blob] }
    else { p with anchor := p.anchor ++ [chunkText blob] }

def decodeAll (texts : List Text) : Option (List Bytes) := texts.mapM Base64.decode

/-- `_COLLECT_CHUNKS` takes every chunk out of the page that it answers with. -/
def collect (p : Page) : Evaluated → Page
  | .unreached => { p with given := p.given ++ [none] }
  | .lost => { p with anchor := [], given := p.given ++ [none]
                      lost := p.lost ++ (decodeAll p.anchor).getD [] }
  | .answered => { p with anchor := [], given := p.given ++ [some p.anchor] }

def step (p : Page) : PageEvent → Option Page
  | .hook => some { p with hooked := true }
  | .track id audio made =>
    if p.hooked then some (if audio then p.addTrack id made else p) else none
  | .ended id => some (p.endTrack id)
  | .data r blob => p.available r blob
  | .breaks r => some (p.stopRecorder r)
  | .bytes i raises => p.handled i raises
  | .stop => some (match p.recorder with
    | some r => p.stopRecorder r
    | none => p)
  | .collect evaluated => some (p.collect evaluated)

def run (p : Page) : List PageEvent → Option Page
  | [] => some p
  | e :: es => (p.step e).bind fun p' => p'.run es

/-- What the drains of the worker are given: the chunks are decoded one after the other. -/
def inputs (p : Page) : List Input :=
  p.given.map fun answer => .drain (answer.bind decodeAll)

end Page

end Fakery.Meet
