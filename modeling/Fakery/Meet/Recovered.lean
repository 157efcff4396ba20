import Fakery.Meet.Collected
import Fakery.Storage.Published

/-! From the page of a meeting to the recovery of its recording: what the manifest in the row of a
run gives back, and how much of what the page has recorded that is. -/
namespace Fakery.Meet
open Fakery.Storage Fakery.Texts

/-- The recorder of a meeting beside what its checkpoints go to: the writer, the object store and
the column of the run. -/
structure Archive where
  recorder : Recorder := {}
  writer : Encoded.CheckpointWriter
  store : Faulty Text Bytes
  column : Faulty Unit Text

instance : MonadStateOf Recorder (StateM Archive) where
  get := fun a => (a.recorder, a)
  set r := fun a => ((), { a with recorder := r })
  modifyGet f := fun a => ((f a.recorder).1, { a with recorder := (f a.recorder).2 })

namespace Archive

section code

variable (bucket : Text) (sha256 : Bytes → Text)

/-- The sink of a worker that has an object store. -/
def checkpointSink (_ : ℕ) (data : Bytes) : StateM Archive (Except Unit Unit) := fun a =>
  let ((appended, writer), store) := a.writer.append (Encoded.faultyBlob bucket) sha256 data a.store
  let a := { a with writer, store }
  match appended with
  | .error e => (.error e, a)
  | .ok manifestUri =>
    if manifestUri = [] then (.ok (), a)
    else (if a.column.outcome.raises then .error () else .ok (),
      { a with column := a.column.put () manifestUri })

def sinks : Sinks (StateM Archive) where
  sink := some fun _ => pure ()
  checkpointSink := some (checkpointSink bucket sha256)

def perform : Input → StateM Archive Unit
  | .drain evaluated => Meet.drain (sinks bucket sha256) evaluated
  | .flush => flushCheckpoint (sinks bucket sha256)

def record (a : Archive) (inputs : List Input) : Archive :=
  inputs.foldl (fun a i => (perform bucket sha256 i a).2) a

/-- A new run; `outcomes` are those of the puts, and `commits` those of the updates of its row. -/
def start (botId : Text) (files : Text → Option Bytes) (outcomes commits : List PutOutcome) :
    Archive where
  writer := ⟨botId, [], none⟩
  store := ⟨files, outcomes⟩
  column := ⟨fun _ => none, commits⟩

end code

/-- No call that is still to come raises. -/
def Calm (a : Archive) : Prop :=
  (∀ o ∈ a.store.outcomes, o = .done) ∧ ∀ o ∈ a.column.outcomes, o = .done

def clear (a : Archive) : Archive := { a with recorder := a.recorder.cleared }

def write (data : Bytes) (a : Archive) : Archive := { a with recorder := a.recorder.write data }

def finish (a : Archive) (checkpointed : Except Unit Unit) : Archive :=
  match checkpointed with
  | .ok _ => { a with recorder := a.recorder.next }
  | .error _ => { a with recorder := a.recorder.failed.next }

section calls

variable {bucket : Text} {sha256 : Bytes → Text} {a : Archive} {data : Bytes}

theorem flush_empty (h : a.recorder.checkpointBuffer = []) :
    flushCheckpoint (sinks bucket sha256) a = ((), a) := by
  simp [flushCheckpoint, sinks, get, getThe, MonadStateOf.get, h, bind, StateT.bind, pure]
  rfl

theorem flush_eq {checkpointed : Except Unit Unit} {a' : Archive}
    (h : a.recorder.checkpointBuffer ≠ [])
    (hs : checkpointSink bucket sha256 a.recorder.checkpointSequence a.recorder.checkpointBuffer
      a.clear = (checkpointed, a')) :
    flushCheckpoint (sinks bucket sha256) a = ((), a'.finish checkpointed) := by
  rw [clear] at hs
  cases checkpointed <;>
  simp [flushCheckpoint, sinks, get, getThe, MonadStateOf.get, h, bind, StateT.bind, pure, set,
    MonadStateOf.set, hs] <;>
  rfl

theorem drainChunk_eq : drainChunk (sinks bucket sha256) data a =
    if CHECKPOINT_CHUNKS ≤ (a.recorder.write data).checkpointChunks then
      flushCheckpoint (sinks bucket sha256) (a.write data)
    else ((), a.write data) := by
  have hrun : drainChunk (sinks bucket sha256) data a =
      (if CHECKPOINT_CHUNKS ≤ (a.recorder.write data).checkpointChunks then
        flushCheckpoint (sinks bucket sha256)
      else (pure () : StateM Archive Unit)) (a.write data) := rfl
  rw [hrun]
  split <;> rfl

end calls

section invariant

variable {names : BotNames} {bucket : Bucket} {sha256 : Bytes → Text} {bot : ℕ}
  {before : Option Object} {calm : Prop} {a a' : Archive} {blocks pending : List Bytes}
  {groups : List (List Bytes)} {data : Bytes} {j : Journal}

def manifestUri (names : BotNames) (bucket : Bucket) (bot : ℕ) : Text :=
  uriText bucket.name (manifestKey (names.text bot))

/-- `blocks` are those that the sink has been called with. `calm` says that no call raises. -/
structure Checkpoints (names : BotNames) (bucket : Bucket) (sha256 : Bytes → Text) (bot : ℕ)
    (before : Option Object) (calm : Prop) (a : Archive) (blocks : List Bytes) (j : Journal) :
    Prop where
  writes : Encoded.Writes names bucket sha256 bot before a.writer a.store j
  within : j.Within blocks
  column : ∀ uri, a.column.objects () = some uri →
    uri = manifestUri names bucket bot ∧ ∃ front, j.published = some front
  whole : calm → a.Calm ∧ j.stored = blocks ∧ (blocks ≠ [] → j.published = some blocks ∧
    a.column.objects () = some (manifestUri names bucket bot))

/-- `groups` are the chunks of the checkpoints, and `pending` those in the buffer. -/
structure Buffered (a : Archive) (groups : List (List Bytes)) (pending : List Bytes) : Prop where
  buffer : a.recorder.checkpointBuffer = pending.flatten
  chunks : a.recorder.checkpointChunks = pending.length
  spool : a.recorder.spool = (groups.flatten ++ pending).flatten
  nonempty : ∀ data ∈ pending, data ≠ []
  few : ∀ group ∈ groups, group.length ≤ CHECKPOINT_CHUNKS

theorem Buffered.empty_iff (h : Buffered a groups pending) :
    a.recorder.checkpointBuffer = [] ↔ pending = [] := by
  rw [h.buffer, List.flatten_eq_nil_iff]
  refine ⟨fun hall => ?_, fun hnil => by simp [hnil]⟩
  cases pending with
  | nil => rfl
  | cons data rest => exact absurd (hall data (by simp)) (h.nonempty data (by simp))

theorem Buffered.write (h : Buffered a groups pending) (hd : data ≠ []) :
    Buffered (a.write data) groups (pending ++ [data]) where
  buffer := by
    simp only [Archive.write, Recorder.write, h.buffer]
    simp
  chunks := by
    simp only [Archive.write, Recorder.write, h.chunks]
    simp
  spool := by
    simp only [Archive.write, Recorder.write, h.spool]
    simp
  nonempty := by
    intro other hmem
    rcases List.mem_append.mp hmem with hmem | hmem
    · exact h.nonempty other hmem
    · exact List.mem_singleton.mp hmem ▸ hd
  few := h.few

/-- The column after a call of `append` that gave this answer. -/
def told (column : Faulty Unit Text) : Except Unit Text → Faulty Unit Text
  | .error _ => column
  | .ok uri => if uri = [] then column else column.put () uri

theorem told_ok {column : Faulty Unit Text} {uri : Text} (h : uri ≠ []) :
    told column (.ok uri) = column.put () uri := if_neg h

variable (bucket sha256) in
theorem checkpointSink_eq (n : ℕ) : (checkpointSink bucket.name sha256 n data a).2 =
    let r := a.writer.append (Encoded.faultyBlob bucket.name) sha256 data a.store
    { a with writer := r.1.2, store := r.2, column := told a.column r.1.1 } := by
  unfold checkpointSink
  rcases a.writer.append (Encoded.faultyBlob bucket.name) sha256 data a.store with
    ⟨⟨appended, writer⟩, store⟩
  cases appended with
  | error e => rfl
  | ok uri =>
    dsimp only [told]
    split_ifs <;> rfl

variable (names bucket bot) in
theorem manifestUri_ne_nil : manifestUri names bucket bot ≠ [] := by
  intro h
  have hlen := congrArg List.length h
  simp [manifestUri, uriText] at hlen

/-- A call of the sink is a step of the journal. -/
theorem Checkpoints.sink (h : Checkpoints names bucket sha256 bot before calm a blocks j)
    (hd : data ≠ []) (n : ℕ) :
    ∃ j', Checkpoints names bucket sha256 bot before calm
      (checkpointSink bucket.name sha256 n data a).2 (blocks ++ [data]) j' := by
  obtain ⟨hstep, hleft⟩ := h.writes.append data
  have hfront : ∀ front, j.published = some front →
      ∃ front', (j.append a.store.outcomes data).1.published = some front' := fun front hf => by
    rcases j.append_cases a.store.outcomes data with ⟨-, hp⟩ | ⟨-, hp | hp⟩
    · exact ⟨front, hp.trans hf⟩
    · exact ⟨front, hp.trans hf⟩
    · exact ⟨_, hp⟩
  refine ⟨(j.append a.store.outcomes data).1, ?_⟩
  rw [checkpointSink_eq]
  dsimp only
  cases htold : (a.writer.append (Encoded.faultyBlob bucket.name) sha256 data a.store).1.1 with
  | error e =>
    refine ⟨hstep, h.within.append _ data, fun uri hu => ?_, fun hcalm => ?_⟩
    · obtain ⟨huri, front, hf⟩ := h.column uri hu
      exact ⟨huri, hfront front hf⟩
    · obtain ⟨told, ht⟩ := Encoded.exists_told a.writer hd bucket.name sha256 (h.whole hcalm).1.1
      cases htold.symm.trans ht
  | ok uri =>
    obtain ⟨huri, hj⟩ := h.writes.told hd htold
    replace huri : uri = manifestUri names bucket bot := huri
    subst huri
    rw [told_ok (manifestUri_ne_nil names bucket bot)]
    refine ⟨hstep, h.within.append _ data, fun uri hu => ?_, fun hcalm => ?_⟩
    · refine ⟨?_, _, congrArg Journal.published hj⟩
      simp only [Faulty.put] at hu
      split_ifs at hu
      · rw [Function.update_self] at hu
        exact (Option.some.inj hu).symm
      · exact (h.column uri hu).1
    · obtain ⟨⟨hputs, hcommits⟩, hstored, -⟩ := h.whole hcalm
      have hdone := Faulty.outcome_of_done hcommits
      refine ⟨⟨fun o ho => hputs o ?_, fun o ho => hcommits o ?_⟩, ?_, fun _ => ⟨?_, ?_⟩⟩
      · dsimp only at ho
        exact j.append_outcomes _ data o (hleft ▸ ho)
      · exact List.mem_of_mem_tail ho
      · rw [hj, hstored]
      · rw [hj, hstored]
      · simp only [Faulty.put, hdone, PutOutcome.stores, if_true, Function.update_self]

theorem Checkpoints.of_same (h : Checkpoints names bucket sha256 bot before calm a blocks j)
    (hw : a'.writer = a.writer) (hs : a'.store = a.store) (hc : a'.column = a.column) :
    Checkpoints names bucket sha256 bot before calm a' blocks j where
  writes := hw ▸ hs ▸ h.writes
  within := h.within
  column := hc ▸ h.column
  whole hcalm := by
    rw [Calm, hs, hc]
    exact h.whole hcalm

/-- The chunks in `groups` were to be checkpointed, and those in `pending` still are. -/
structure Archives (names : BotNames) (bucket : Bucket) (sha256 : Bytes → Text) (bot : ℕ)
    (before : Option Object) (calm : Prop) (a : Archive) (groups : List (List Bytes))
    (pending : List Bytes) : Prop where
  checkpoints : ∃ j, Checkpoints names bucket sha256 bot before calm a
    (groups.map List.flatten) j
  buffered : Buffered a groups pending

theorem Archives.write (h : Archives names bucket sha256 bot before calm a groups pending)
    (hd : data ≠ []) : Archives names bucket sha256 bot before calm (a.write data) groups
      (pending ++ [data]) := by
  obtain ⟨j, hj⟩ := h.checkpoints
  exact ⟨⟨j, hj.of_same rfl rfl rfl⟩, h.buffered.write hd⟩

/-- A checkpoint empties the buffer, whatever comes of its calls. -/
theorem Archives.flush (h : Archives names bucket sha256 bot before calm a groups pending)
    (hfew : pending.length ≤ CHECKPOINT_CHUNKS) : ∃ groups',
      Archives names bucket sha256 bot before calm
        (flushCheckpoint (sinks bucket.name sha256) a).2 groups' [] ∧
      groups'.flatten = groups.flatten ++ pending := by
  obtain ⟨j, hj⟩ := h.checkpoints
  obtain ⟨hbuffer, hchunks, hspool, hnonempty, hgroups⟩ := h.buffered
  by_cases hb : a.recorder.checkpointBuffer = []
  · obtain rfl := h.buffered.empty_iff.mp hb
    rw [flush_empty hb]
    exact ⟨groups, h, (List.append_nil _).symm⟩
  have hclear : Checkpoints names bucket sha256 bot before calm a.clear
      (groups.map List.flatten) j := hj.of_same rfl rfl rfl
  obtain ⟨j', hsink⟩ := hclear.sink hb a.recorder.checkpointSequence
  have hrecorder : (checkpointSink bucket.name sha256 a.recorder.checkpointSequence
      a.recorder.checkpointBuffer a.clear).2.recorder = a.recorder.cleared := by
    rw [checkpointSink_eq]
    rfl
  cases hs : checkpointSink bucket.name sha256 a.recorder.checkpointSequence
    a.recorder.checkpointBuffer a.clear with
  | mk checkpointed a' =>
    rw [hs] at hsink hrecorder
    dsimp only at hsink hrecorder
    rw [flush_eq hb hs]
    refine ⟨groups ++ [pending], ⟨⟨j', ?_⟩, ?_⟩, by simp⟩
    · rw [List.map_append, List.map_singleton, ← hbuffer]
      cases checkpointed <;> exact hsink.of_same rfl rfl rfl
    · have hsame : (a'.finish checkpointed).recorder.checkpointBuffer = [] ∧
          (a'.finish checkpointed).recorder.checkpointChunks = 0 ∧
          (a'.finish checkpointed).recorder.spool = a.recorder.spool := by
        cases checkpointed <;>
          simp [finish, Recorder.next, Recorder.failed, hrecorder, Recorder.cleared]
      refine ⟨hsame.1, hsame.2.1, ?_, by simp, ?_⟩
      · rw [hsame.2.2, hspool]
        simp
      · intro group hgroup
        rcases List.mem_append.mp hgroup with hgroup | hgroup
        · exact hgroups group hgroup
        · exact List.mem_singleton.mp hgroup ▸ hfew

theorem Archives.drainChunk (h : Archives names bucket sha256 bot before calm a groups pending)
    (hfew : pending.length < CHECKPOINT_CHUNKS) (hd : data ≠ []) : ∃ groups' pending',
      Archives names bucket sha256 bot before calm
        (Meet.drainChunk (sinks bucket.name sha256) data a).2 groups' pending' ∧
      pending'.length < CHECKPOINT_CHUNKS ∧
      groups'.flatten ++ pending' = groups.flatten ++ pending ++ [data] := by
  have hwrite := h.write hd
  have hchunks := hwrite.buffered.chunks
  have hlen : (pending ++ [data]).length ≤ CHECKPOINT_CHUNKS := by
    rw [List.length_append]
    exact hfew
  rw [drainChunk_eq]
  split_ifs with hfull
  · obtain ⟨groups', hflush, heq⟩ := hwrite.flush hlen
    exact ⟨groups', [], hflush, by decide, by rw [heq]; simp⟩
  · have hcount : (pending ++ [data]).length < CHECKPOINT_CHUNKS := hchunks ▸ Nat.lt_of_not_le hfull
    exact ⟨groups, pending ++ [data], hwrite, hcount, (List.append_assoc _ _ _).symm⟩

theorem Archives.drainChunks (chunks : List Bytes) (hd : ∀ data ∈ chunks, data ≠ [])
    (h : Archives names bucket sha256 bot before calm a groups pending)
    (hfew : pending.length < CHECKPOINT_CHUNKS) : ∃ groups' pending',
      Archives names bucket sha256 bot before calm
        (Meet.drainChunks (sinks bucket.name sha256) chunks a).2 groups' pending' ∧
      pending'.length < CHECKPOINT_CHUNKS ∧
      groups'.flatten ++ pending' = groups.flatten ++ pending ++ chunks := by
  induction chunks generalizing a groups pending with
  | nil => exact ⟨groups, pending, h, hfew, (List.append_nil _).symm⟩
  | cons data chunks ih =>
    obtain ⟨hhead, hrest⟩ := List.forall_mem_cons.mp hd
    obtain ⟨groups₁, pending₁, h₁, hfew₁, heq₁⟩ := h.drainChunk hfew hhead
    obtain ⟨groups₂, pending₂, h₂, hfew₂, heq₂⟩ := ih hrest h₁ hfew₁
    exact ⟨groups₂, pending₂, h₂, hfew₂, by rw [heq₂, heq₁]; simp⟩

/-- A recording: its drains and, perhaps, the flush at its end. -/
theorem Archives.record (inputs : List Input)
    (hd : ∀ data ∈ inputs.flatMap Input.chunks, data ≠ [])
    (h : Archives names bucket sha256 bot before calm a groups pending)
    (hfew : pending.length < CHECKPOINT_CHUNKS) : ∃ groups' pending',
      Archives names bucket sha256 bot before calm (a.record bucket.name sha256 inputs) groups'
        pending' ∧
      pending'.length < CHECKPOINT_CHUNKS ∧
      groups'.flatten ++ pending' = groups.flatten ++ pending ++ inputs.flatMap Input.chunks := by
  induction inputs generalizing a groups pending with
  | nil => exact ⟨groups, pending, h, hfew, (List.append_nil _).symm⟩
  | cons input inputs ih =>
    rw [List.flatMap_cons, List.forall_mem_append] at hd
    have hstep : ∃ groups₁ pending₁, Archives names bucket sha256 bot before calm
        (perform bucket.name sha256 input a).2 groups₁ pending₁ ∧
        pending₁.length < CHECKPOINT_CHUNKS ∧
        groups₁.flatten ++ pending₁ = groups.flatten ++ pending ++ input.chunks := by
      cases input with
      | flush =>
        obtain ⟨groups', hflush, heq⟩ := h.flush (Nat.le_of_lt hfew)
        exact ⟨groups', [], hflush, by decide, by rw [heq]; rfl⟩
      | drain evaluated =>
        cases evaluated with
        | none => exact ⟨groups, pending, h, hfew, (List.append_nil _).symm⟩
        | some chunks => exact h.drainChunks chunks hd.1 hfew
    obtain ⟨groups₁, pending₁, h₁, hfew₁, heq₁⟩ := hstep
    obtain ⟨groups₂, pending₂, h₂, hfew₂, heq₂⟩ := ih hd.2 h₁ hfew₁
    exact ⟨groups₂, pending₂, h₂, hfew₂, by rw [heq₂, heq₁, List.flatMap_cons]; simp⟩

theorem Archives.start (names : BotNames) (bucket : Bucket) (sha256 : Bytes → Text) (bot : ℕ)
    (files : Text → Option Bytes) (outcomes commits : List PutOutcome) :
    Archives names bucket sha256 bot ((files (manifestKey (names.text bot))).map .bytes)
      (Archive.start (names.text bot) files outcomes commits).Calm
      (Archive.start (names.text bot) files outcomes commits) [] [] where
  checkpoints := ⟨{}, Encoded.Writes.start names bucket sha256 bot files outcomes,
    ⟨List.Sublist.refl _, nofun⟩, nofun, fun hcalm => ⟨hcalm, rfl, fun hne => absurd rfl hne⟩⟩
  buffered := ⟨rfl, rfl, rfl, nofun, nofun⟩

end invariant

end Archive

section page

variable {p p' : Page} {e : PageEvent}

/-- A handler is called for data only. -/
theorem Page.recorded_step (hstep : p.step e = some p') (h : ∀ blob ∈ p.recorded, blob ≠ []) :
    ∀ blob ∈ p'.recorded, blob ≠ [] := by
  have haside : Aside p p' → ∀ blob ∈ p'.recorded, blob ≠ [] := fun hp => hp.recorded ▸ h
  cases e with
  | hook =>
    cases hstep
    exact h
  | track id audio made =>
    simp only [Page.step] at hstep
    split_ifs at hstep <;> cases hstep
    · exact haside (aside_addTrack p id made)
    · exact h
  | ended id =>
    cases hstep
    exact haside (aside_endTrack p id)
  | data r blob =>
    have htaken : ∀ other ∈ (if blob = [] then p else { p with
        inFlight := p.inFlight ++ [blob], recorded := p.recorded ++ [blob] } : Page).recorded,
        other ≠ [] := by
      split_ifs with hempty
      · exact h
      · intro other hmem
        rcases List.mem_append.mp hmem with hmem | hmem
        · exact h other hmem
        · exact List.mem_singleton.mp hmem ▸ hempty
    simp only [Page.step, Page.available] at hstep
    split at hstep
    · exact Option.some.inj hstep ▸ htaken
    · exact Option.some.inj hstep ▸ htaken
    · cases hstep
  | breaks r =>
    cases hstep
    exact haside (aside_stopRecorder p r)
  | bytes i raises =>
    obtain ⟨blob, -, rfl⟩ := Option.map_eq_some_iff.mp hstep
    cases raises <;> exact h
  | stop =>
    simp only [Page.step] at hstep
    split at hstep <;> cases hstep
    · exact haside (aside_stopRecorder p _)
    · exact h
  | collect evaluated =>
    cases hstep
    cases evaluated <;> exact h

theorem Page.recorded_run {es : List PageEvent} (hrun : p.run es = some p')
    (h : ∀ blob ∈ p.recorded, blob ≠ []) : ∀ blob ∈ p'.recorded, blob ≠ [] := by
  induction es generalizing p with
  | nil => exact Option.some.inj hrun ▸ h
  | cons e es ih =>
    obtain ⟨q, hq, hrun⟩ := Option.bind_eq_some_iff.mp hrun
    exact ih hrun (recorded_step hq h)

/-- What the recorder is told to do by the drains of a page, and by `stop`. A drain that `stop` cancels
inside a checkpoint call is one in which this call raises, and the chunks behind it are those of a
collection with a lost answer. A put that goes on in its thread after the cancellation, and stores
after later ones, is left out. -/
def Page.recordings (p : Page) (stopped : Bool) : List Input :=
  if stopped then p.inputs ++ [.flush] else p.inputs

/-- Whatever a page does and whichever calls raise, at any time of the recording and after it: all
that was drained is in groups of five chunks at most that were to be checkpointed, and less than
five that are still in the buffer; where the row has a manifest, it gives back, undamaged, some of
the groups in their order; and where no call raises it gives back all of them. A checkpoint call that
`stop` cuts off is one that raises. -/
theorem recovered_recorded (names : BotNames) (bucket : Bucket) (admits : Text → Bool)
    (sha256 : Bytes → Text) (bot : ℕ) (files : Text → Option Bytes)
    (outcomes commits : List PutOutcome) (stopped : Bool) (es : List PageEvent) (p : Page)
    (hrun : Page.run {} es = some p) :
    let a := (Archive.start (names.text bot) files outcomes commits).record bucket.name sha256
      (p.recordings stopped)
    let restored := Encoded.restored admits sha256 a.store.objects
    ∃ groups pending waiting,
      a.recorder.spool = (groups.flatten ++ pending).flatten ∧
      (groups.flatten ++ pending ++ waiting ++ p.inFlight ++ p.failed ++ p.lost).Perm p.recorded ∧
      ((∀ e ∈ es, e.Orderly) →
        groups.flatten ++ pending ++ waiting ++ p.inFlight = p.recorded) ∧
      (∀ group ∈ groups, group.length ≤ CHECKPOINT_CHUNKS) ∧
      pending.length < CHECKPOINT_CHUNKS ∧ (stopped = true → pending = []) ∧
      (∀ uri, a.column.objects () = some uri → ∃ found : List (List Bytes), found.Sublist groups ∧
        restored uri = .ok (found.flatten.flatten, false, sha256 found.flatten.flatten)) ∧
      ((∀ o ∈ outcomes ++ commits, o = .done) → groups ≠ [] → ∃ uri,
        a.column.objects () = some uri ∧
          restored uri = .ok (groups.flatten.flatten, false, sha256 groups.flatten.flatten)) := by
  intro a restored
  have hstart : Balanced {} [] [] := ⟨nofun, rfl, rfl, .nil⟩
  obtain ⟨taken, waiting, hbalanced, horder⟩ := hstart.run hrun
  have hnonempty : ∀ data ∈ p.inputs.flatMap Input.chunks, data ≠ [] := by
    intro data hdata
    rw [hbalanced.drained] at hdata
    refine Page.recorded_run hrun nofun data (hbalanced.all.mem_iff.mp ?_)
    simp [hdata]
  obtain ⟨groups₀, pending₀, h₀, hfew₀, htaken₀⟩ :=
    (Archive.Archives.start names bucket sha256 bot files outcomes commits).record p.inputs
      hnonempty (by decide)
  have hend : ∃ groups pending, Archive.Archives names bucket sha256 bot
      ((files (manifestKey (names.text bot))).map .bytes)
      (Archive.start (names.text bot) files outcomes commits).Calm a groups pending ∧
      pending.length < CHECKPOINT_CHUNKS ∧ (stopped = true → pending = []) ∧
      groups.flatten ++ pending = taken := by
    rw [hbalanced.drained] at htaken₀
    cases stopped with
    | false => exact ⟨groups₀, pending₀, h₀, hfew₀, nofun, htaken₀⟩
    | true =>
      obtain ⟨groups, hflush, heq⟩ := h₀.flush (Nat.le_of_lt hfew₀)
      have ha : a = (flushCheckpoint (Archive.sinks bucket.name sha256)
          ((Archive.start (names.text bot) files outcomes commits).record bucket.name sha256
            p.inputs)).2 := by
        simp only [a, Page.recordings, if_true, Archive.record, List.foldl_append, List.foldl_cons,
          List.foldl_nil, Archive.perform]
      refine ⟨groups, [], ha ▸ hflush, by decide, fun _ => rfl, ?_⟩
      rw [List.append_nil, heq]
      exact htaken₀
  obtain ⟨groups, pending, ⟨⟨j, hj⟩, hbuffered⟩, hfew, hstopped, rfl⟩ := hend
  have hfront : ∀ front, j.published = some front →
      restored (Archive.manifestUri names bucket bot) =
        .ok (front.flatten, false, sha256 front.flatten) := fun front hp =>
    hj.writes.restored hp
  refine ⟨groups, pending, waiting, hbuffered.spool, hbalanced.all, fun hes => horder hes rfl,
    hbuffered.few, hfew, hstopped, ?_, ?_⟩
  · intro uri huri
    obtain ⟨rfl, front, hp⟩ := hj.column uri huri
    obtain ⟨found, hfound, rfl⟩ := List.sublist_map_iff.mp (hj.within.published front hp)
    refine ⟨found, hfound, ?_⟩
    rw [List.flatten_flatten]
    exact hfront _ hp
  · intro hdone hne
    obtain ⟨-, -, hwhole⟩ := hj.whole (List.forall_mem_append.mp hdone)
    obtain ⟨hp, hcolumn⟩ := hwhole (by simpa using hne)
    refine ⟨_, hcolumn, ?_⟩
    rw [List.flatten_flatten]
    exact hfront _ hp

theorem recovered_recorded_overtaking : Page.run {} overtaking = some overtaken ∧
    ∃ (groups : List (List Bytes)) (pending waiting : List Bytes),
      (groups.flatten ++ pending ++ waiting).Perm [[1, 2], [3]] ∧ pending = [] :=
  have hrun : Page.run {} overtaking = some overtaken := by decide +kernel
  have ⟨groups, pending, waiting, _, hall, _, _, _, hstopped, _⟩ :=
    recovered_recorded .decimal ⟨"twin".toList, List.all_eq_true.mp (by decide)⟩ (fun _ => true)
      (fun _ => []) 7 (fun _ => none) [] [] true overtaking overtaken hrun
  ⟨hrun, groups, pending, waiting, by simpa [overtaken] using hall, hstopped rfl⟩

end page

end Fakery.Meet
