import Fakery.Storage.Checkpoints

/-! The recorder of a meeting and the sink through which it checkpoints what it has drained. -/
namespace Fakery.Meet
open Fakery.Storage

structure Recorder where
  spool : Bytes := []
  size : ℕ := 0
  checkpointBuffer : Bytes := []
  checkpointSequence : ℕ := 0
  checkpointChunks : ℕ := 0
  checkpointFailed : Bool := false
deriving DecidableEq

def CHECKPOINT_CHUNKS : ℕ := 5

namespace Recorder

def write (data : Bytes) (r : Recorder) : Recorder :=
  { r with
    spool := r.spool ++ data
    size := r.size + data.length
    checkpointBuffer := r.checkpointBuffer ++ data
    checkpointChunks := r.checkpointChunks + 1 }

def cleared (r : Recorder) : Recorder := { r with checkpointBuffer := [], checkpointChunks := 0 }

def failed (r : Recorder) : Recorder := { r with checkpointFailed := true }

def next (r : Recorder) : Recorder := { r with checkpointSequence := r.checkpointSequence + 1 }

end Recorder

section code

/-- The callables that a recorder is given. -/
structure Sinks (m : Type → Type) where
  sink : Option (Bytes → m Unit) := none
  checkpointSink : Option (ℕ → Bytes → m (Except Unit Unit)) := none

variable {m : Type → Type} [Monad m] [MonadStateOf Recorder m] (sinks : Sinks m)

/-- An error of the sink is noted and the drained data is not kept for another try. -/
def flushCheckpoint : m Unit := do
  let r ← get
  match sinks.checkpointSink with
  | none => pure ()
  | some checkpointSink =>
    if r.checkpointBuffer = [] then pure ()
    else do
      set r.cleared
      match ← checkpointSink r.checkpointSequence r.checkpointBuffer with
      | .ok _ => pure ()
      | .error _ => modify Recorder.failed
      modify Recorder.next

def drainChunk (data : Bytes) : m Unit := do
  modify (Recorder.write data)
  match sinks.sink with
  | none => pure ()
  | some sink => sink data
  let r ← get
  if r.checkpointChunks ≥ CHECKPOINT_CHUNKS then flushCheckpoint sinks else pure ()

def drainChunks : List Bytes → m Unit
  | [] => pure ()
  | data :: chunks => do
    drainChunk sinks data
    drainChunks chunks

/-- `none` is a page that cannot be evaluated. -/
def drain : Option (List Bytes) → m Unit
  | none => pure ()
  | some chunks => drainChunks sinks chunks

end code

/-- Which calls of one checkpoint raise. -/
structure Failures where
  chunk : Bool := false
  manifest : Bool := false
  database : Bool := false
deriving DecidableEq

/-- The recorder with everything it writes to. `moments` notes, at every put, what had been
spooled by then and the objects that the put leaves. -/
structure World where
  recorder : Recorder := {}
  writer : CheckpointWriter
  objects : Objects := fun _ => none
  checkpointManifestUri : Option Uri := none
  moments : List (Bytes × Objects) := []

instance : MonadStateOf Recorder (StateM World) where
  get := fun w => (w.recorder, w)
  set r := fun w => ((), { w with recorder := r })
  modifyGet f := fun w => ((f w.recorder).1, { w with recorder := (f w.recorder).2 })

namespace World

def store (w : World) (key : Key) (object : Object) : World :=
  { w with
    objects := Function.update w.objects key (some object)
    moments := w.moments ++ [(w.recorder.spool, Function.update w.objects key (some object))] }

def setWriter (w : World) (writer : CheckpointWriter) : World := { w with writer := writer }

def setCheckpointManifest (w : World) (uri : Uri) : World :=
  { w with checkpointManifestUri := some uri }

def now (w : World) : Bytes × Objects := (w.recorder.spool, w.objects)

end World

section world

variable (bucket : String) (sha256 : Bytes → String)

def Failures.raises (f : Failures) : Key → Bool
  | .chunk _ _ => f.chunk
  | .manifest _ => f.manifest
  | .recording _ => false

/-- The object store during one checkpoint. -/
def blob (f : Failures) : BlobStore (StateM World) where
  put key object := ExceptT.mk fun w =>
    if f.raises key then (.error (), w) else (.ok ⟨bucket, key⟩, w.store key object)
  get key := ExceptT.mk fun w => match w.objects key with
    | some object => (.ok object, w)
    | none => (.error (), w)

/-- The sink that the worker hands to the recorder. -/
def checkpointSink (f : Failures) (data : Bytes) : StateM World (Except Unit Unit) := do
  let w ← getThe World
  let (appended, writer) ← w.writer.append (blob bucket f) sha256 data
  modifyThe World fun w => w.setWriter writer
  match appended with
  | .error e => pure (.error e)
  | .ok none => pure (.ok ())
  | .ok (some manifestUri) =>
    if f.database then pure (.error ())
    else do
      modifyThe World fun w => w.setCheckpointManifest manifestUri
      pure (.ok ())

/-- The calls of the checkpoint with number `n` fail as `failures n` says. -/
def sinks (failures : ℕ → Failures) : Sinks (StateM World) where
  sink := some fun _ => pure ()
  checkpointSink := some fun n data => checkpointSink bucket sha256 (failures n) data

/-- What the recorder is told to do: drain the page, or flush what is left. -/
inductive Input where
  | drain (evaluated : Option (List Bytes))
  | flush

def Input.perform (failures : ℕ → Failures) : Input → StateM World Unit
  | drain evaluated => Meet.drain (sinks bucket sha256 failures) evaluated
  | flush => flushCheckpoint (sinks bucket sha256 failures)

def record (failures : ℕ → Failures) (bot : ℕ) (inputs : List Input) : World :=
  inputs.foldl (fun w i => (i.perform bucket sha256 failures w).2) { writer := { botId := bot } }

end world

end Fakery.Meet
