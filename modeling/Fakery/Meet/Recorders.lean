import Fakery.Meet.Recovered
import Fakery.Meet.Stop

/-! One recorder in three surroundings: structured objects, texts and bytes, and a poll task that is
stopped. -/
namespace Fakery.Meet
open Fakery.Storage Fakery.Texts Fakery.Sequential

section archive

/-- What comes of the puts of a checkpoint. -/
def Failures.outcomes (f : Failures) : List PutOutcome :=
  if f.chunk then [.lost] else [.done, if f.manifest then .lost else .done]

/-- What comes of its update of the row, if it gets there. -/
def Failures.commits (f : Failures) : List PutOutcome :=
  if f.chunk || f.manifest then [] else [if f.database then .lost else .done]

/-- The puts and the updates of the checkpoints from `n` on, of which only the first may fail. -/
inductive Planned (failures : ℕ → Failures) : ℕ → List PutOutcome → List PutOutcome → Prop
  | calm {n : ℕ} (h : ∀ k, n ≤ k → failures k = {}) : Planned failures n [] []
  | checkpoint {n : ℕ} {outcomes commits : List PutOutcome}
      (h : Planned failures (n + 1) outcomes commits) :
      Planned failures n ((failures n).outcomes ++ outcomes) ((failures n).commits ++ commits)

theorem exists_planned {failures : ℕ → Failures} {last : ℕ}
    (h : ∀ k, last ≤ k → failures k = {}) :
    ∃ outcomes commits, Planned failures 0 outcomes commits := by
  have hfrom : ∀ m n, n + m = last → ∃ outcomes commits, Planned failures n outcomes commits := by
    intro m
    induction m with
    | zero => exact fun n hn => ⟨[], [], .calm fun k hk => h k (hn ▸ hk)⟩
    | succ m ih =>
      intro n hn
      obtain ⟨outcomes, commits, hplanned⟩ := ih (n + 1) (by omega)
      exact ⟨_, _, .checkpoint hplanned⟩
  exact hfrom last 0 (Nat.zero_add last)

/-- The archive that holds, in texts and bytes, what a world holds. -/
structure Archive.Represents (names : BotNames) (w : World) (a : Archive) : Prop where
  recorder : a.recorder = w.recorder
  writer : a.writer = Encoded.writerOf names w.writer
  objects : ∀ key, a.store.objects (keyText names key) = (w.objects key).map (Encoded.bytesOf names)
  column : a.column.objects () = w.checkpointManifestUri.map (Encoded.uriOf names)

variable {names : BotNames} {bucket : String} {sha256 : Bytes → String} {failures : ℕ → Failures}
  {w w' : World} {a a' : Archive} {data : Bytes} {n : ℕ}

/-- The same, where the checkpoints from `n` on fail on both sides alike. -/
structure Beside (names : BotNames) (failures : ℕ → Failures) (n : ℕ) (w : World) (a : Archive) :
    Prop extends Archive.Represents names w a where
  planned : Planned failures n a.store.outcomes a.column.outcomes

/-- The outcomes of the calls of one checkpoint. -/
structure Next (failures : ℕ → Failures) (n : ℕ) (outcomes commits : List PutOutcome) : Prop where
  chunk : outcomes.head?.getD .done = if (failures n).chunk then .lost else .done
  manifest : (failures n).chunk = false →
    outcomes.tail.head?.getD .done = if (failures n).manifest then .lost else .done
  database : (failures n).chunk = false → (failures n).manifest = false →
    commits.head?.getD .done = if (failures n).database then .lost else .done
  rest : Planned failures (n + 1)
    (if (failures n).chunk then outcomes.tail else outcomes.tail.tail)
    (if (failures n).chunk || (failures n).manifest then commits else commits.tail)

theorem Planned.next {outcomes commits : List PutOutcome}
    (h : Planned failures n outcomes commits) : Next failures n outcomes commits := by
  cases h with
  | calm hcalm =>
    have hrest : Planned failures (n + 1) [] [] := .calm fun k hk => hcalm k (by omega)
    have hn := hcalm n le_rfl
    constructor <;> simp [hn, hrest]
  | checkpoint hrest =>
    unfold Failures.outcomes Failures.commits
    cases hc : (failures n).chunk <;> cases hm : (failures n).manifest <;>
      constructor <;> simp [hc, hm, hrest]

/-- What a call of the sink does to an archive, as the call of `append` in it ends. -/
theorem archive_sink {hash : Bytes → Text} {bucketName : Text} {appended : Except Unit Text}
    {writer : Encoded.CheckpointWriter} {store : Faulty Text Bytes}
    (h : a.writer.append (Encoded.faultyBlob bucketName) hash data a.store =
      ((appended, writer), store)) :
    Archive.checkpointSink bucketName hash n data a = match appended with
      | .error e => (.error e, { a with writer, store })
      | .ok manifestUri =>
        if manifestUri = [] then (.ok (), { a with writer, store })
        else (if a.column.outcome.raises then .error () else .ok (),
          { a with writer, store, column := a.column.put () manifestUri }) := by
  simp only [Archive.checkpointSink, h]
  cases appended <;> rfl

/-- The store of a world with the puts that are to come of it. -/
abbrev World.faulty (w : World) (outcomes : List PutOutcome) : Faulty Key Object :=
  ⟨w.objects, outcomes⟩

/-- The call of `append` on both sides. -/
theorem Beside.append (h : Beside names failures n w a) {appended : Except Unit (Option Uri)}
    {writer : CheckpointWriter} {s : Faulty Key Object}
    (hr : w.writer.append (faultyBlob bucket) sha256 data (w.faulty a.store.outcomes) =
      ((appended, writer), s)) :
    ∃ store, a.writer.append (Encoded.faultyBlob bucket.toList) (fun d => (sha256 d).toList) data
        a.store = ((appended.map fun uri => (uri.map (Encoded.uriOf names)).getD [],
          Encoded.writerOf names writer), store) ∧
      Encoded.Represents names s store := by
  have hrep : Encoded.Represents names (w.faulty a.store.outcomes) a.store := ⟨rfl, h.objects⟩
  obtain ⟨hanswer, hwriter, hstore⟩ :=
    Encoded.append_represents bucket sha256 w.writer data hrep
  rw [hr, ← h.writer] at hanswer hwriter hstore
  exact ⟨_, Prod.ext (Prod.ext hanswer hwriter) rfl, hstore⟩

/-- The put of the chunk raises. -/
theorem Beside.lost (h : Beside names failures n w a) (hd : data ≠ [])
    (hc : (failures n).chunk = true) : ∃ a',
      Archive.checkpointSink bucket.toList (fun d => (sha256 d).toList) n data a =
        (.error (), a') ∧ Beside names failures (n + 1) w a' := by
  have hnext := h.planned.next
  have houtcome : (w.faulty a.store.outcomes).outcome = .lost := hnext.chunk.trans (if_pos hc)
  have hr := Encoded.append_eq (s := w.faulty a.store.outcomes) bucket sha256 w.writer hd
  simp only [houtcome, PutOutcome.raises, if_true] at hr
  obtain ⟨store, hq, hstore⟩ := h.append hr
  have hrest := hnext.rest
  simp only [hc, if_true, Bool.true_or] at hrest
  refine ⟨_, archive_sink hq, ⟨h.recorder, rfl, fun key => ?_, h.column⟩, ?_⟩
  · have hobject := hstore.objects key
    rw [Faulty.put_lost houtcome] at hobject
    exact hobject
  · dsimp only
    rw [hstore.outcomes]
    exact hrest

/-- The put of the manifest raises. -/
theorem Beside.unlisted (h : Beside names failures n w a) (hd : data ≠ [])
    (hc : (failures n).chunk = false) (hm : (failures n).manifest = true) : ∃ a',
      Archive.checkpointSink bucket.toList (fun d => (sha256 d).toList) n data a =
        (.error (), a') ∧
      Beside names failures (n + 1) (w.addBlock bucket sha256 data) a' := by
  have hnext := h.planned.next
  have houtcome : (w.faulty a.store.outcomes).outcome = .done :=
    hnext.chunk.trans (if_neg (hc ▸ Bool.false_ne_true))
  have houtcome₁ : ((w.faulty a.store.outcomes).put
      (.chunk w.writer.botId w.writer.chunks.length) (.bytes data)).outcome = .lost :=
    (hnext.manifest hc).trans (if_pos hm)
  have hr := Encoded.append_eq (s := w.faulty a.store.outcomes) bucket sha256 w.writer hd
  simp only [houtcome, houtcome₁, PutOutcome.raises, if_true, Bool.false_eq_true, if_false] at hr
  obtain ⟨store, hq, hstore⟩ := h.append hr
  have hrest := hnext.rest
  simp only [hc, hm, Bool.false_eq_true, if_false, Bool.or_true, if_true] at hrest
  refine ⟨_, archive_sink hq, ⟨h.recorder, rfl, fun key => ?_, h.column⟩, ?_⟩
  · have hobject := hstore.objects key
    rw [Faulty.put_lost houtcome₁, Faulty.put_stored houtcome] at hobject
    exact hobject
  · dsimp only
    rw [hstore.outcomes]
    exact hrest

/-- Both puts are done, and the update of the row may raise. -/
theorem Beside.listed (h : Beside names failures n w a) (hd : data ≠ [])
    (hc : (failures n).chunk = false) (hm : (failures n).manifest = false) : ∃ a',
      Archive.checkpointSink bucket.toList (fun d => (sha256 d).toList) n data a =
        (if (failures n).database then .error () else .ok (), a') ∧
      Beside names failures (n + 1) (((w.addBlock bucket sha256 data).addManifest bucket).setColumn
        (if (failures n).database then w.checkpointManifestUri
          else some ⟨bucket, .manifest w.writer.botId⟩)) a' := by
  have hnext := h.planned.next
  have houtcome : (w.faulty a.store.outcomes).outcome = .done :=
    hnext.chunk.trans (if_neg (hc ▸ Bool.false_ne_true))
  have houtcome₁ : ((w.faulty a.store.outcomes).put
      (.chunk w.writer.botId w.writer.chunks.length) (.bytes data)).outcome = .done :=
    (hnext.manifest hc).trans (if_neg (hm ▸ Bool.false_ne_true))
  have hcommit : a.column.outcome = if (failures n).database then .lost else .done :=
    hnext.database hc hm
  have hr := Encoded.append_eq (s := w.faulty a.store.outcomes) bucket sha256 w.writer hd
  simp only [houtcome, houtcome₁, PutOutcome.raises, Bool.false_eq_true, if_false] at hr
  obtain ⟨store, hq, hstore⟩ := h.append hr
  have hrest := hnext.rest
  simp only [hc, hm, Bool.false_eq_true, if_false, Bool.or_false] at hrest
  have hkept : Beside names failures (n + 1) (((w.addBlock bucket sha256 data).addManifest
      bucket).setColumn (if (failures n).database then w.checkpointManifestUri
        else some ⟨bucket, .manifest w.writer.botId⟩))
      { a with
        writer := Encoded.writerOf names
          ((w.addBlock bucket sha256 data).addManifest bucket).writer
        store := store
        column := a.column.put () (Encoded.uriOf names ⟨bucket, .manifest w.writer.botId⟩) } := by
    refine ⟨⟨h.recorder, rfl, fun key => ?_, ?_⟩, ?_⟩
    · have hobject := hstore.objects key
      rw [Faulty.put_stored houtcome₁, Faulty.put_stored houtcome] at hobject
      exact hobject
    · cases hdb : (failures n).database with
      | true =>
        rw [hdb] at hcommit
        dsimp only
        rw [Faulty.put_lost hcommit, if_pos rfl]
        exact h.column
      | false =>
        rw [hdb] at hcommit
        dsimp only
        rw [Faulty.put_stored hcommit, Function.update_self, if_neg Bool.false_ne_true]
        rfl
    · dsimp only
      rw [hstore.outcomes]
      exact hrest
  have hraises : (if a.column.outcome.raises then .error () else .ok () : Except Unit Unit) =
      if (failures n).database then .error () else .ok () := by
    rw [hcommit]
    cases (failures n).database <;> rfl
  refine ⟨_, (archive_sink hq).trans ?_, hkept⟩
  have hne : Encoded.uriOf names ⟨bucket, .manifest w.writer.botId⟩ ≠ [] := by
    intro hnil
    have hlen := congrArg List.length hnil
    simp [Encoded.uriOf, uriText] at hlen
  refine (if_neg hne).trans ?_
  rw [← hraises]
  rfl

variable (data) in
/-- A call of the sink. -/
theorem Beside.sink (h : Beside names failures n w a) (hd : data ≠ []) : ∃ checkpointed w' a',
    checkpointSink bucket sha256 (failures n) data w = (checkpointed, w') ∧
    Archive.checkpointSink bucket.toList (fun d => (sha256 d).toList) n data a =
      (checkpointed, a') ∧ Beside names failures (n + 1) w' a' ∧ w'.recorder = w.recorder := by
  cases hc : (failures n).chunk with
  | true =>
    obtain ⟨a', hq, hkept⟩ := h.lost hd hc
    exact ⟨_, _, a', sink_lost hd hc, hq, hkept, rfl⟩
  | false =>
    cases hm : (failures n).manifest with
    | true =>
      obtain ⟨a', hq, hkept⟩ := h.unlisted hd hc hm
      exact ⟨_, _, a', sink_unlisted hd hc hm, hq, hkept, rfl⟩
    | false =>
      obtain ⟨a', hq, hkept⟩ := h.listed hd hc hm
      exact ⟨_, _, a', sink_listed hd hc hm, hq, hkept, rfl⟩

/-- Both recorders are at the checkpoint from which on the failures are planned. -/
abbrev Abreast (names : BotNames) (failures : ℕ → Failures) (w : World) (a : Archive) : Prop :=
  Beside names failures w.recorder.checkpointSequence w a

theorem Abreast.flush (h : Abreast names failures w a) : Abreast names failures
    (flushCheckpoint (sinks bucket sha256 failures) w).2
    (flushCheckpoint (Archive.sinks bucket.toList fun d => (sha256 d).toList) a).2 := by
  by_cases hb : w.recorder.checkpointBuffer = []
  · have hb' : a.recorder.checkpointBuffer = [] := h.recorder ▸ hb
    rw [flush_empty hb, Archive.flush_empty hb']
    exact h
  · have hb' : a.recorder.checkpointBuffer ≠ [] := h.recorder ▸ hb
    have hcleared : Beside names failures w.recorder.checkpointSequence w.clear a.clear :=
      ⟨⟨congrArg Recorder.cleared h.recorder, h.writer, h.objects, h.column⟩, h.planned⟩
    obtain ⟨checkpointed, w', a', hw, ha, hkept, hsame⟩ :=
      hcleared.sink w.recorder.checkpointBuffer hb
    have ha' : Archive.checkpointSink bucket.toList (fun d => (sha256 d).toList)
        a.recorder.checkpointSequence a.recorder.checkpointBuffer a.clear = (checkpointed, a') := by
      rw [h.recorder]
      exact ha
    rw [flush_eq hb hw, Archive.flush_eq hb' ha']
    have hnext : (w'.finish checkpointed).recorder.checkpointSequence =
        w.recorder.checkpointSequence + 1 := by
      rw [World.finish_sequence, hsame]
      rfl
    unfold Abreast
    rw [hnext]
    cases checkpointed with
    | ok u =>
      exact ⟨⟨congrArg Recorder.next hkept.recorder, hkept.writer, hkept.objects, hkept.column⟩,
        hkept.planned⟩
    | error e =>
      exact ⟨⟨congrArg (fun r => r.failed.next) hkept.recorder, hkept.writer, hkept.objects,
        hkept.column⟩, hkept.planned⟩

theorem Abreast.drainChunk (h : Abreast names failures w a) (data : Bytes) :
    Abreast names failures (drainChunk (sinks bucket sha256 failures) data w).2
      (drainChunk (Archive.sinks bucket.toList fun d => (sha256 d).toList) data a).2 := by
  have hwritten : Abreast names failures (w.write data) (a.write data) :=
    ⟨⟨congrArg (Recorder.write data) h.recorder, h.writer, h.objects, h.column⟩, h.planned⟩
  rw [drainChunk_eq, Archive.drainChunk_eq, h.recorder]
  split_ifs
  · exact hwritten.flush
  · exact hwritten

theorem Abreast.drainChunks (h : Abreast names failures w a) (chunks : List Bytes) :
    Abreast names failures (drainChunks (sinks bucket sha256 failures) chunks w).2
      (drainChunks (Archive.sinks bucket.toList fun d => (sha256 d).toList) chunks a).2 := by
  induction chunks generalizing w a with
  | nil => exact h
  | cons data chunks ih => exact ih (h.drainChunk data)

theorem Abreast.perform (h : Abreast names failures w a) (input : Input) :
    Abreast names failures (input.perform bucket sha256 failures w).2
      (Archive.perform bucket.toList (fun d => (sha256 d).toList) input a).2 := by
  cases input with
  | flush => exact h.flush
  | drain evaluated =>
    cases evaluated with
    | none => exact h
    | some chunks => exact h.drainChunks chunks

/-- A recording in texts and bytes is that in structured objects, with the same calls failing. -/
theorem record_represents (names : BotNames) (bucket : String) (sha256 : Bytes → String) (bot : ℕ)
    {outcomes commits : List PutOutcome} (h : Planned failures 0 outcomes commits)
    (inputs : List Input) :
    Archive.Represents names (record bucket sha256 failures bot inputs)
      (Archive.record bucket.toList (fun d => (sha256 d).toList)
        (Archive.start (names.text bot) (fun _ => none) outcomes commits) inputs) := by
  have hstart : Abreast names failures { writer := { botId := bot } }
      (Archive.start (names.text bot) (fun _ => none) outcomes commits) :=
    ⟨⟨rfl, rfl, fun _ => rfl, rfl⟩, h⟩
  have hrun : ∀ (w : World) (a : Archive), Abreast names failures w a → Abreast names failures
      (inputs.foldl (fun w i => (i.perform bucket sha256 failures w).2) w)
      (inputs.foldl (fun a i => (Archive.perform bucket.toList
        (fun d => (sha256 d).toList) i a).2) a) := by
    induction inputs with
    | nil => exact fun _ _ h => h
    | cons input inputs ih => exact fun w a h => ih _ _ (h.perform input)
  exact (hrun _ _ hstart).toRepresents

end archive

section stop

variable {bucket : String} {sha256 : Bytes → String} {failures : ℕ → Failures} {R : Recording}
  {w : World}

/-- One of the calls of the checkpoint raises. -/
def Failures.fails (f : Failures) : Bool := f.chunk || f.manifest || f.database

variable (bucket sha256 failures) in
theorem flush_recorder (h : w.recorder.checkpointBuffer ≠ []) :
    (flushCheckpoint (sinks bucket sha256 failures) w).2.recorder =
      if (failures w.recorder.checkpointSequence).fails then w.recorder.cleared.failed.next
      else w.recorder.cleared.next := by
  unfold Failures.fails
  cases hc : (failures w.recorder.checkpointSequence).chunk with
  | true =>
    rw [flush_eq h (sink_lost h hc)]
    rfl
  | false =>
    cases hm : (failures w.recorder.checkpointSequence).manifest with
    | true =>
      rw [flush_eq h (sink_unlisted h hc hm)]
      rfl
    | false =>
      rw [flush_eq h (sink_listed h hc hm)]
      cases (failures w.recorder.checkpointSequence).database <;> rfl

/-- The tape of a recorder that has been told the same. -/
structure Told (w : World) (s : Tape) : Prop where
  recorder : s.recorder = w.recorder
  calls : s.calls = w.recorder.checkpointSequence

/-- The calls of the sink raise as the checkpoints of a world fail. -/
structure Likewise (failures : ℕ → Failures) (R : Recording) : Prop where
  hasSink : R.hasSink = true
  raises : ∀ n, R.raises n = (failures n).fails

section programs

variable (bucket sha256)

theorem told_flush (h : Likewise failures R) : Fallible.Gives (Told w)
    (flushCheckpoint (R.sinks false))
    fun _ => Told (flushCheckpoint (sinks bucket sha256 failures) w).2 := by
  intro s hs
  by_cases hb : w.recorder.checkpointBuffer = []
  · rw [flush_empty hb]
    exact ⟨(), s, flush_quiet fun _ => hs.recorder ▸ hb, hs⟩
  · have hrecorder := flush_recorder bucket sha256 failures hb
    refine ⟨(), s.stored R, flush_stored h.hasSink (hs.recorder ▸ hb), ?_⟩
    have hraises := h.raises s.calls
    rw [hs.calls] at hraises
    unfold Tape.stored
    rw [hs.calls, hraises]
    cases hfails : (failures w.recorder.checkpointSequence).fails with
    | true =>
      rw [hfails, if_pos rfl] at hrecorder
      constructor
      · rw [hrecorder, if_pos rfl, hs.recorder]
      · rw [hrecorder, if_pos rfl]
        rfl
    | false =>
      rw [hfails, if_neg Bool.false_ne_true] at hrecorder
      constructor
      · rw [hrecorder, if_neg Bool.false_ne_true, hs.recorder]
      · rw [hrecorder, if_neg Bool.false_ne_true]
        rfl

theorem told_drainChunk (h : Likewise failures R) (data : Bytes) : Fallible.Gives (Told w)
    (drainChunk (R.sinks false) data)
    fun _ => Told (drainChunk (sinks bucket sha256 failures) data w).2 := by
  intro s hs
  have hwritten : Told (w.write data) (s.write data) :=
    ⟨congrArg (Recorder.write data) hs.recorder, hs.calls⟩
  rw [drainChunk_eq, drainChunk_tape, hs.recorder]
  split_ifs
  · exact told_flush bucket sha256 h (s.write data) hwritten
  · exact ⟨(), _, rfl, hwritten⟩

theorem told_drainChunks (h : Likewise failures R) (chunks : List Bytes) : Fallible.Gives (Told w)
    (drainChunks (R.sinks false) chunks)
    fun _ => Told (drainChunks (sinks bucket sha256 failures) chunks w).2 := by
  induction chunks generalizing w with
  | nil => exact .pure fun s hs => hs
  | cons data chunks ih => exact (told_drainChunk bucket sha256 h data).bind fun _ => ih

theorem told_drain (h : Likewise failures R) (evaluated : Option (List Bytes)) :
    Fallible.Gives (Told w) (R.drain evaluated)
      fun _ => Told ((Input.drain evaluated).perform bucket sha256 failures w).2 := by
  have hhanded : Fallible.Gives (Told w) (Recording.handOver (evaluated.getD []))
      fun _ => Told w := .update fun s hs => ⟨hs.recorder, hs.calls⟩
  refine hhanded.bind fun _ => ?_
  cases evaluated with
  | none => exact .pure fun s hs => hs
  | some chunks => exact told_drainChunks bucket sha256 h chunks

theorem told_drains (h : Likewise failures R) (drains : List (Option (List Bytes))) :
    Fallible.Gives (Told w) (Fallible.forEach R.drain drains) fun _ => Told
      ((drains.map Input.drain).foldl (fun w i => (i.perform bucket sha256 failures w).2) w) := by
  induction drains generalizing w with
  | nil => exact .pure fun s hs => hs
  | cons evaluated drains ih => exact (told_drain bucket sha256 h evaluated).bind fun _ => ih

end programs

/-- A poll task that is not cancelled in a call of the sink leaves the recorder as its drains, the
last one and a flush do. -/
theorem stop_recorder (h : Likewise failures R) (bot : ℕ)
    (hpoint : ∀ before chunk rest, R.point ≠ .storing before chunk rest) :
    (R.stop {}).2.recorder = (record bucket sha256 failures bot
      (R.drains.map Input.drain ++ [.drain R.last, .flush])).recorder := by
  have hstart : Told { writer := { botId := bot } } {} := ⟨rfl, rfl⟩
  obtain ⟨_, s, hdrains, hs⟩ := told_drains bucket sha256 h R.drains {} hstart
  generalize hw : (R.drains.map Input.drain).foldl
    (fun w i => (i.perform bucket sha256 failures w).2) { writer := { botId := bot } } = w at hs
  have hpolled : ∃ s', R.pollLoop {} = (.error .cancelled, s') ∧ Told w s' := by
    unfold Recording.pollLoop
    rw [Fallible.bind_ok hdrains]
    cases hp : R.point with
    | idle => exact ⟨s, rfl, hs⟩
    | evaluating handed => exact ⟨_, rfl, hs.recorder, hs.calls⟩
    | storing before chunk rest => exact absurd hp (hpoint before chunk rest)
  obtain ⟨s', hpoll, hs'⟩ := hpolled
  have hexcept : (R.pollLoop.except fun _ => pure ()) {} = (.ok (), s') := by
    unfold Fallible.except
    rw [hpoll]
    rfl
  obtain ⟨_, s₁, hlast, hs₁⟩ := told_drain bucket sha256 h R.last s' hs'
  obtain ⟨_, s₂, hflush, hs₂⟩ := told_flush bucket sha256 h s₁ hs₁
  have hstop : R.stop {} = (.ok s₂.recorder.spool, s₂) := by
    unfold Recording.stop
    rw [Fallible.bind_ok hexcept, Fallible.bind_ok hlast, Fallible.bind_ok hflush]
    rfl
  rw [hstop]
  refine hs₂.recorder.trans ?_
  simp only [record, List.foldl_append, hw, List.foldl_cons, List.foldl_nil]
  rfl

end stop

end Fakery.Meet
