import Fakery.Meet.Recorder

/-! One checkpoint, case by case. -/
namespace Fakery.Meet
open Fakery.Storage

variable {bucket : String} {sha256 : Bytes → String} {failures : ℕ → Failures} {f : Failures}
  {w : World} {data : Bytes} {bot : ℕ}

/-- The recorder during a checkpoint, and after it. -/
def World.clear (w : World) : World := { w with recorder := w.recorder.cleared }

def World.finish (w : World) (checkpointed : Except Unit Unit) : World :=
  match checkpointed with
  | .ok _ => { w with recorder := w.recorder.next }
  | .error _ => { w with recorder := w.recorder.failed.next }

/-- The block is stored and the writer lists it. -/
def World.addBlock (bucket : String) (sha256 : Bytes → String) (data : Bytes) (w : World) : World :=
  (w.store (.chunk w.writer.botId w.writer.chunks.length) (.bytes data)).setWriter
    (w.writer.add sha256 ⟨bucket, .chunk w.writer.botId w.writer.chunks.length⟩
      (.chunk w.writer.botId w.writer.chunks.length) data)

/-- The list of the writer is stored. -/
def World.addManifest (bucket : String) (w : World) : World :=
  (w.store (.manifest w.writer.botId) (.json w.writer.manifest)).setWriter
    { w.writer with manifestUri := some ⟨bucket, .manifest w.writer.botId⟩ }

/-- The column of the run after the last call of a checkpoint. -/
def World.setColumn (uri : Option Uri) (w : World) : World := { w with checkpointManifestUri := uri }

theorem sink_lost (hd : data ≠ []) (hc : f.chunk = true) :
    checkpointSink bucket sha256 f data w = (.error (), w) := by
  simp [checkpointSink, CheckpointWriter.append, blob, Failures.raises, hd, hc, getThe,
    MonadStateOf.get, StateT.get, modifyThe, MonadStateOf.modifyGet, StateT.modifyGet, bind,
    StateT.bind, pure, ExceptT.run, ExceptT.mk, World.setWriter]
  rfl

theorem sink_unlisted (hd : data ≠ []) (hc : f.chunk = false) (hm : f.manifest = true) :
    checkpointSink bucket sha256 f data w = (.error (), w.addBlock bucket sha256 data) := by
  simp [checkpointSink, CheckpointWriter.append, blob, Failures.raises, hd, hc, hm, getThe,
    MonadStateOf.get, StateT.get, modifyThe, MonadStateOf.modifyGet, StateT.modifyGet, bind,
    StateT.bind, pure, ExceptT.run, ExceptT.mk, World.setWriter, World.store,
    CheckpointWriter.add, World.addBlock]
  rfl

theorem sink_listed (hd : data ≠ []) (hc : f.chunk = false) (hm : f.manifest = false) :
    checkpointSink bucket sha256 f data w =
      (if f.database then .error () else .ok (),
        ((w.addBlock bucket sha256 data).addManifest bucket).setColumn
          (if f.database then w.checkpointManifestUri
            else some ⟨bucket, .manifest w.writer.botId⟩)) := by
  cases hdb : f.database with
  | false =>
    simp [checkpointSink, CheckpointWriter.append, blob, Failures.raises, hd, hc, hm, hdb, getThe,
      MonadStateOf.get, StateT.get, modifyThe, MonadStateOf.modifyGet, StateT.modifyGet, bind,
      StateT.bind, pure, ExceptT.run, ExceptT.mk, World.setWriter, World.store,
      CheckpointWriter.add, World.addBlock, World.addManifest, World.setCheckpointManifest,
      CheckpointWriter.manifest, World.setColumn]
    rfl
  | true =>
    simp [checkpointSink, CheckpointWriter.append, blob, Failures.raises, hd, hc, hm, hdb, getThe,
      MonadStateOf.get, StateT.get, modifyThe, MonadStateOf.modifyGet, StateT.modifyGet, bind,
      StateT.bind, pure, ExceptT.run, ExceptT.mk, World.setWriter, World.store,
      CheckpointWriter.add, World.addBlock, World.addManifest, CheckpointWriter.manifest,
      World.setColumn]
    rfl

theorem flush_empty (h : w.recorder.checkpointBuffer = []) :
    flushCheckpoint (sinks bucket sha256 failures) w = ((), w) := by
  simp [flushCheckpoint, sinks, get, getThe, MonadStateOf.get, h, bind, StateT.bind, pure]
  rfl

theorem flush_eq {checkpointed : Except Unit Unit} {w' : World}
    (h : w.recorder.checkpointBuffer ≠ [])
    (hs : checkpointSink bucket sha256 (failures w.recorder.checkpointSequence)
      w.recorder.checkpointBuffer w.clear = (checkpointed, w')) :
    flushCheckpoint (sinks bucket sha256 failures) w = ((), w'.finish checkpointed) := by
  rw [World.clear] at hs
  cases checkpointed <;>
  simp [flushCheckpoint, sinks, get, getThe, MonadStateOf.get, h, bind, StateT.bind, pure, set,
    MonadStateOf.set, hs] <;>
  rfl

variable (bucket sha256 failures) in
/-- The three ways a checkpoint can go. -/
theorem flush_cases (h : w.recorder.checkpointBuffer ≠ []) :
    ∃ checkpointed w', flushCheckpoint (sinks bucket sha256 failures) w =
        ((), w'.finish checkpointed) ∧
      ((failures w.recorder.checkpointSequence).chunk = true ∧ w' = w.clear ∨
        (failures w.recorder.checkpointSequence).chunk = false ∧
          (failures w.recorder.checkpointSequence).manifest = true ∧
          w' = w.clear.addBlock bucket sha256 w.recorder.checkpointBuffer ∨
        (failures w.recorder.checkpointSequence).chunk = false ∧
          (failures w.recorder.checkpointSequence).manifest = false ∧
          ∃ uri, w' = ((w.clear.addBlock bucket sha256 w.recorder.checkpointBuffer).addManifest
            bucket).setColumn uri) := by
  cases hc : (failures w.recorder.checkpointSequence).chunk with
  | true => exact ⟨_, _, flush_eq h (sink_lost h hc), Or.inl ⟨rfl, rfl⟩⟩
  | false =>
    cases hm : (failures w.recorder.checkpointSequence).manifest with
    | true =>
      exact ⟨_, _, flush_eq h (sink_unlisted h hc hm), Or.inr (Or.inl ⟨rfl, rfl, rfl⟩)⟩
    | false =>
      exact ⟨_, _, flush_eq h (sink_listed h hc hm), Or.inr (Or.inr ⟨rfl, rfl, _, rfl⟩)⟩

def World.write (data : Bytes) (w : World) : World := { w with recorder := w.recorder.write data }

theorem drainChunk_eq : drainChunk (sinks bucket sha256 failures) data w =
    if CHECKPOINT_CHUNKS ≤ (w.recorder.write data).checkpointChunks then
      flushCheckpoint (sinks bucket sha256 failures) (w.write data)
    else ((), w.write data) := by
  have hrun : drainChunk (sinks bucket sha256 failures) data w =
      (if CHECKPOINT_CHUNKS ≤ (w.recorder.write data).checkpointChunks then
        flushCheckpoint (sinks bucket sha256 failures)
      else (pure () : StateM World Unit)) (w.write data) := rfl
  rw [hrun]
  split <;> rfl

@[simp] theorem World.finish_spool (e : Except Unit Unit) :
    (w.finish e).recorder.spool = w.recorder.spool := by cases e <;> rfl

@[simp] theorem World.finish_buffer (e : Except Unit Unit) :
    (w.finish e).recorder.checkpointBuffer = w.recorder.checkpointBuffer := by cases e <;> rfl

@[simp] theorem World.finish_chunks (e : Except Unit Unit) :
    (w.finish e).recorder.checkpointChunks = w.recorder.checkpointChunks := by cases e <;> rfl

@[simp] theorem World.finish_sequence (e : Except Unit Unit) :
    (w.finish e).recorder.checkpointSequence = w.recorder.checkpointSequence + 1 := by
  cases e <;> rfl

@[simp] theorem World.finish_writer (e : Except Unit Unit) :
    (w.finish e).writer = w.writer := by cases e <;> rfl

@[simp] theorem World.finish_objects (e : Except Unit Unit) :
    (w.finish e).objects = w.objects := by cases e <;> rfl

@[simp] theorem World.finish_moments (e : Except Unit Unit) :
    (w.finish e).moments = w.moments := by cases e <;> rfl

end Fakery.Meet
