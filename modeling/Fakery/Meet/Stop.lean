import Fakery.Meet.Recorder
import Fakery.Sequential.Fallible

/-! Stopping the recorder. The poll task is cancelled at one of its suspension points, and a last
drain and flush follow. -/
namespace Fakery.Meet
open Fakery.Sequential Fakery.Storage

/-- Where the poll task is suspended when it is cancelled: before its first drain, in a probe or in
the sleep; in `page.evaluate`, the page having handed over some chunks; or in the call of the
checkpoint sink that `chunk` brings about while `before ++ chunk :: rest` is drained. -/
inductive Point where
  | idle
  | evaluating (handed : List Bytes)
  | storing (before : List Bytes) (chunk : Bytes) (rest : List Bytes)

inductive Cancelled where
  | cancelled

/-- A recording: whether there is a checkpoint sink and which of its calls raise, what the page
answers to the drains that the poll task finishes, where it is cancelled, and what the page answers
to the drain of `stop`. -/
structure Recording where
  hasSink : Bool := true
  raises : ℕ → Bool := fun _ => false
  drains : List (Option (List Bytes))
  point : Point
  last : Option (List Bytes)

/-- `handed` lists the chunks that were removed from the page and `completed` the data of the sink
calls that ended well; `raised` notes a sink call that raised an ordinary exception. -/
structure Tape where
  recorder : Recorder := {}
  handed : List Bytes := []
  calls : ℕ := 0
  completed : List Bytes := []
  raised : Bool := false

abbrev Act := Fallible Tape Cancelled

instance : MonadStateOf Recorder Act where
  get := fun s => (.ok s.recorder, s)
  set r := fun s => (.ok (), { s with recorder := r })
  modifyGet f := fun s => (.ok (f s.recorder).1, { s with recorder := (f s.recorder).2 })

namespace Recording

variable (R : Recording)

def checkpointSink (cancelled : Bool) (_ : ℕ) (data : Bytes) : Act (Except Unit Unit) := fun s =>
  if cancelled then (.error .cancelled, s)
  else if R.raises s.calls then (.ok (.error ()), { s with calls := s.calls + 1, raised := true })
  else (.ok (.ok ()), { s with calls := s.calls + 1, completed := s.completed ++ [data] })

def sinks (cancelled : Bool) : Sinks Act where
  sink := some fun _ => pure ()
  checkpointSink := if R.hasSink then some (R.checkpointSink cancelled) else none

def handOver (chunks : List Bytes) : Act Unit :=
  Fallible.update fun s => { s with handed := s.handed ++ chunks }

def drain (evaluated : Option (List Bytes)) : Act Unit := do
  handOver (evaluated.getD [])
  Meet.drain (R.sinks false) evaluated

/-- A drain during which the sink call for `chunk`, if there is one, is cancelled. -/
def drainCut (before : List Bytes) (chunk : Bytes) (rest : List Bytes) : Act Unit := do
  handOver (before ++ chunk :: rest)
  drainChunks (R.sinks false) before
  drainChunk (R.sinks true) chunk
  drainChunks (R.sinks false) rest

def pollLoop : Act Unit := do
  Fallible.forEach R.drain R.drains
  match R.point with
  | .idle => pure ()
  | .evaluating handed => handOver handed
  | .storing before chunk rest => R.drainCut before chunk rest
  Fallible.raise .cancelled

def stop : Act Bytes := do
  R.pollLoop.except fun _ => pure ()
  R.drain R.last
  flushCheckpoint (R.sinks false)
  Fallible.read fun s => s.recorder.spool

/-- `stop` returns all that was removed from the page, and the completed calls of a sink that never
failed have been given the same. -/
def Lossless : Prop := ∃ bytes s, R.stop {} = (.ok bytes, s) ∧ bytes = s.handed.flatten ∧
  (R.hasSink = true → s.raised = false → s.recorder.checkpointFailed = false →
    s.completed.flatten = bytes)

/-- No call of the sink raises an ordinary exception. -/
def SinkHealthy : Prop := (R.stop {}).2.raised = false

/-- The recorder when the drain that is cut comes to `chunk`. -/
def reached (before : List Bytes) (chunk : Bytes) (rest : List Bytes) : Recorder :=
  ((do
    Fallible.forEach R.drain R.drains
    handOver (before ++ chunk :: rest)
    drainChunks (R.sinks false) before : Act Unit) {}).2.recorder

/-- The sink is called once `chunk` is written. -/
def Calls (before : List Bytes) (chunk : Bytes) (rest : List Bytes) : Prop :=
  R.hasSink = true ∧
    CHECKPOINT_CHUNKS ≤ ((R.reached before chunk rest).write chunk).checkpointChunks ∧
    ((R.reached before chunk rest).write chunk).checkpointBuffer ≠ []

/-- No byte is in the hands of the poll task, out of the page and not yet written. -/
def Written : Prop :=
  match R.point with
  | .idle => True
  | .evaluating handed => handed.flatten = []
  | .storing before chunk rest => R.Calls before chunk rest → rest.flatten = []

/-- The poll task is not in a call of the sink. -/
def Stored : Prop :=
  match R.point with
  | .storing before chunk rest => ¬R.Calls before chunk rest
  | _ => True

end Recording

/-- What the tape holds: the chunks handed over, the bytes spooled, and, unless a sink call has
raised, the spooled bytes in completed calls and in the buffer, save those of a call that was cut. -/
structure At (handed : List Bytes) (bytes : Bytes) (cut : Prop) (s : Tape) : Prop where
  handed : s.handed = handed
  spool : s.recorder.spool = bytes
  failed : s.recorder.checkpointFailed = s.raised
  kept : s.raised = false → ¬cut → s.completed.flatten ++ s.recorder.checkpointBuffer = bytes
  short : s.raised = false → cut →
    s.completed.flatten.length + s.recorder.checkpointBuffer.length < bytes.length

variable {R : Recording} {s : Tape} {handed : List Bytes} {bytes : Bytes} {cut : Prop}
  {cancelled : Bool} {data : Bytes}

def Tape.clear (s : Tape) : Tape := { s with recorder := s.recorder.cleared }

/-- The sink call for the buffer of `s` is over. -/
def Tape.stored (R : Recording) (s : Tape) : Tape :=
  if R.raises s.calls then
    { s with
      recorder := s.recorder.cleared.failed.next
      calls := s.calls + 1
      raised := true }
  else
    { s with
      recorder := s.recorder.cleared.next
      calls := s.calls + 1
      completed := s.completed ++ [s.recorder.checkpointBuffer] }

theorem flush_quiet (h : R.hasSink = true → s.recorder.checkpointBuffer = []) :
    flushCheckpoint (R.sinks cancelled) s = (.ok (), s) := by
  have hget : (get : Act Recorder) s = (.ok s.recorder, s) := rfl
  unfold flushCheckpoint
  rw [Fallible.bind_ok hget]
  unfold Recording.sinks
  cases hsink : R.hasSink with
  | false => rfl
  | true =>
    simp only [if_true, h hsink]
    rfl

theorem flush_cut (hsink : R.hasSink = true) (h : s.recorder.checkpointBuffer ≠ []) :
    flushCheckpoint (R.sinks true) s = (.error .cancelled, s.clear) := by
  have hget : (get : Act Recorder) s = (.ok s.recorder, s) := rfl
  unfold flushCheckpoint
  rw [Fallible.bind_ok hget]
  simp only [Recording.sinks, hsink, if_true, if_neg h]
  rfl

theorem flush_stored (hsink : R.hasSink = true) (h : s.recorder.checkpointBuffer ≠ []) :
    flushCheckpoint (R.sinks false) s = (.ok (), s.stored R) := by
  have hget : (get : Act Recorder) s = (.ok s.recorder, s) := rfl
  have hset : (set s.recorder.cleared : Act Unit) s = (.ok (), s.clear) := rfl
  unfold flushCheckpoint
  rw [Fallible.bind_ok hget]
  simp only [Recording.sinks, hsink, if_true, if_neg h]
  rw [Fallible.bind_ok hset]
  unfold Tape.stored
  cases hraises : R.raises s.calls with
  | true =>
    have hcall : R.checkpointSink false s.recorder.checkpointSequence s.recorder.checkpointBuffer
        s.clear = (.ok (.error ()), { s.clear with calls := s.calls + 1, raised := true }) := by
      show (if false then _ else if R.raises s.calls then _ else _) = _
      rw [hraises]
      rfl
    rw [Fallible.bind_ok hcall]
    rfl
  | false =>
    have hcall : R.checkpointSink false s.recorder.checkpointSequence s.recorder.checkpointBuffer
        s.clear = (.ok (.ok ()), { s.clear with
          calls := s.calls + 1, completed := s.completed ++ [s.recorder.checkpointBuffer] }) := by
      show (if false then _ else if R.raises s.calls then _ else _) = _
      rw [hraises]
      rfl
    rw [Fallible.bind_ok hcall]
    rfl

theorem at_stored (h : At handed bytes cut s) : At handed bytes cut (s.stored R) := by
  unfold Tape.stored
  split
  · exact ⟨h.handed, h.spool, rfl, nofun, nofun⟩
  · refine ⟨h.handed, h.spool, h.failed, fun hr hc => ?_, fun hr hc => ?_⟩
    · have hkept := h.kept hr hc
      simpa [Recorder.next, Recorder.cleared] using hkept
    · have hshort := h.short hr hc
      simpa [Recorder.next, Recorder.cleared] using hshort

/-- What is in the buffer goes to the sink. -/
theorem gives_flush : Fallible.Gives (At handed bytes cut) (flushCheckpoint (R.sinks false))
    fun _ s => At handed bytes cut s ∧ (R.hasSink = true → s.recorder.checkpointBuffer = []) := by
  intro s hs
  by_cases hquiet : R.hasSink = true → s.recorder.checkpointBuffer = []
  · exact ⟨(), s, flush_quiet hquiet, hs, hquiet⟩
  · obtain ⟨hsink, hne⟩ := Classical.not_imp.mp hquiet
    refine ⟨(), s.stored R, flush_stored hsink hne, at_stored hs, fun _ => ?_⟩
    unfold Tape.stored
    split <;> rfl

def Tape.write (s : Tape) (data : Bytes) : Tape := { s with recorder := s.recorder.write data }

theorem at_write (h : At handed bytes cut s) (data : Bytes) :
    At handed (bytes ++ data) cut (s.write data) := by
  have hspool : s.recorder.spool = bytes := h.spool
  refine ⟨h.handed, ?_, h.failed, fun hr hc => ?_, fun hr hc => ?_⟩
  · show s.recorder.spool ++ data = bytes ++ data
    rw [hspool]
  · show s.completed.flatten ++ (s.recorder.checkpointBuffer ++ data) = bytes ++ data
    rw [← List.append_assoc, h.kept hr hc]
  · have hshort := h.short hr hc
    show s.completed.flatten.length + (s.recorder.checkpointBuffer ++ data).length < _
    simp only [List.length_append]
    omega

theorem drainChunk_tape : drainChunk (R.sinks cancelled) data s =
    if CHECKPOINT_CHUNKS ≤ (s.recorder.write data).checkpointChunks then
      flushCheckpoint (R.sinks cancelled) (s.write data)
    else (.ok (), s.write data) := by
  have hrun : drainChunk (R.sinks cancelled) data s =
      (if CHECKPOINT_CHUNKS ≤ (s.recorder.write data).checkpointChunks then
        flushCheckpoint (R.sinks cancelled)
      else (pure () : Act Unit)) (s.write data) := rfl
  rw [hrun]
  split <;> rfl

theorem gives_drainChunk (data : Bytes) : Fallible.Gives (At handed bytes cut)
    (drainChunk (R.sinks false) data) fun _ => At handed (bytes ++ data) cut := by
  intro s hs
  rw [drainChunk_tape]
  split
  · obtain ⟨a, s', hrun, hs', -⟩ := gives_flush (R := R) (s.write data) (at_write hs data)
    exact ⟨a, s', hrun, hs'⟩
  · exact ⟨(), _, rfl, at_write hs data⟩

theorem gives_drainChunks (chunks : List Bytes) : Fallible.Gives (At handed bytes cut)
    (drainChunks (R.sinks false) chunks) fun _ => At handed (bytes ++ chunks.flatten) cut := by
  induction chunks generalizing bytes with
  | nil => exact .pure fun s hs => by simpa using hs
  | cons data chunks ih =>
    refine (gives_drainChunk data).bind fun _ => ?_
    have hrest : Fallible.Gives (At handed (bytes ++ data) cut) (drainChunks (R.sinks false) chunks)
        fun _ => At handed ((bytes ++ data) ++ chunks.flatten) cut := ih
    simpa using hrest

theorem gives_handOver (chunks : List Bytes) : Fallible.Gives (At handed bytes cut)
    (Recording.handOver chunks) fun _ => At (handed ++ chunks) bytes cut := by
  refine .update fun s hs => ⟨?_, hs.spool, hs.failed, hs.kept, hs.short⟩
  show s.handed ++ chunks = handed ++ chunks
  rw [hs.handed]

theorem gives_drain (evaluated : Option (List Bytes)) : Fallible.Gives (At handed bytes cut)
    (R.drain evaluated)
    fun _ => At (handed ++ evaluated.getD []) (bytes ++ (evaluated.getD []).flatten) cut := by
  refine (gives_handOver _).bind fun _ => ?_
  cases evaluated with
  | none => exact .pure fun s hs => by simpa using hs
  | some chunks => exact gives_drainChunks chunks

/-- All that was handed over is spooled. -/
def Intact (s : Tape) : Prop := ∃ handed, At handed handed.flatten False s

theorem gives_drains (drains : List (Option (List Bytes))) :
    Fallible.Gives Intact (Fallible.forEach R.drain drains) fun _ => Intact := by
  refine .forEach (fun evaluated s hs => ?_) drains
  obtain ⟨handed, hs⟩ := hs
  obtain ⟨a, s', hrun, hs'⟩ := gives_drain (R := R) evaluated s hs
  rw [← List.flatten_append] at hs'
  exact ⟨a, s', hrun, _, hs'⟩

theorem intact_empty : Intact {} := ⟨[], rfl, rfl, rfl, fun _ _ => rfl, fun _ h => h.elim⟩

/-- The sink is called once `chunk` is written to the tape. -/
def Tape.Calls (R : Recording) (s : Tape) (chunk : Bytes) : Prop :=
  R.hasSink = true ∧ CHECKPOINT_CHUNKS ≤ (s.recorder.write chunk).checkpointChunks ∧
    (s.recorder.write chunk).checkpointBuffer ≠ []

theorem drainChunk_uncalled (h : ¬s.Calls R data) :
    drainChunk (R.sinks cancelled) data s = (.ok (), s.write data) := by
  rw [drainChunk_tape]
  split
  · rename_i hfull
    refine flush_quiet fun hsink => ?_
    by_contra hne
    exact h ⟨hsink, hfull, hne⟩
  · rfl

/-- The data of the call that is cut reaches no completed call. -/
theorem drainChunk_called (hs : At handed bytes False s) (h : s.Calls R data) : ∃ s',
    drainChunk (R.sinks true) data s = (.error .cancelled, s') ∧
      At handed (bytes ++ data) True s' := by
  obtain ⟨hsink, hfull, hne⟩ := h
  refine ⟨(s.write data).clear, ?_, ?_⟩
  · rw [drainChunk_tape, if_pos hfull]
    exact flush_cut hsink hne
  · have hw := at_write hs data
    refine ⟨hw.handed, hw.spool, hw.failed, fun _ h => absurd trivial h, fun hr _ => ?_⟩
    have hkept := hw.kept hr id
    rw [← hkept, List.length_append]
    exact Nat.add_lt_add_left (List.length_pos_iff.mpr hne) _

/-- A cut drain: `rest` is lost if the sink is called for `chunk`. -/
theorem drainCut_eq (hs : At handed bytes False s) (before : List Bytes) (chunk : Bytes)
    (rest : List Bytes) : ∃ s₁,
      (do Recording.handOver (before ++ chunk :: rest); drainChunks (R.sinks false) before : Act _) s
        = (.ok (), s₁) ∧
      (s₁.Calls R chunk → ∃ s', R.drainCut before chunk rest s = (.error .cancelled, s') ∧
        At (handed ++ (before ++ chunk :: rest)) (bytes ++ before.flatten ++ chunk) True s') ∧
      (¬s₁.Calls R chunk → ∃ s', R.drainCut before chunk rest s = (.ok (), s') ∧
        At (handed ++ (before ++ chunk :: rest)) (bytes ++ (before ++ chunk :: rest).flatten)
          False s') := by
  obtain ⟨_, s₀, hover, hs₀⟩ := gives_handOver (before ++ chunk :: rest) s hs
  obtain ⟨_, s₁, hbefore, hs₁⟩ := gives_drainChunks (R := R) before s₀ hs₀
  refine ⟨s₁, (Fallible.bind_ok hover).trans hbefore, fun hcalls => ?_, fun hcalls => ?_⟩
  · obtain ⟨s₂, hchunk, hs₂⟩ := drainChunk_called hs₁ hcalls
    refine ⟨s₂, ?_, hs₂⟩
    unfold Recording.drainCut
    rw [Fallible.bind_ok hover, Fallible.bind_ok hbefore]
    exact Fallible.bind_error hchunk
  · obtain ⟨_, s₂, hrest, hs₂⟩ := gives_drainChunks (R := R) rest _ (at_write hs₁ chunk)
    refine ⟨s₂, ?_, by simpa using hs₂⟩
    unfold Recording.drainCut
    rw [Fallible.bind_ok hover, Fallible.bind_ok hbefore,
      Fallible.bind_ok (drainChunk_uncalled hcalls)]
    exact hrest

/-- When the poll task is cancelled, `lost` is in its hands. -/
theorem pollLoop_eq (R : Recording) : ∃ s handed bytes lost,
    R.pollLoop {} = (.error .cancelled, s) ∧ At handed bytes (¬R.Stored) s ∧
      handed.flatten = bytes ++ lost ∧ (lost = [] ↔ R.Written) ∧ (¬R.Stored → R.hasSink = true) := by
  obtain ⟨_, s₀, hdrains, handed, hs₀⟩ := gives_drains (R := R) R.drains {} intact_empty
  unfold Recording.pollLoop Recording.Stored Recording.Written
  rw [Fallible.bind_ok hdrains]
  cases R.point with
  | idle =>
    refine ⟨s₀, handed, handed.flatten, [], rfl, ?_, by simp, by simp, fun h => absurd trivial h⟩
    simpa using hs₀
  | evaluating chunks =>
    obtain ⟨_, s₁, hover, hs₁⟩ := gives_handOver chunks s₀ hs₀
    refine ⟨s₁, handed ++ chunks, handed.flatten, chunks.flatten, Fallible.bind_ok hover, ?_,
      List.flatten_append, Iff.rfl, fun h => absurd trivial h⟩
    simpa using hs₁
  | storing before chunk rest =>
    obtain ⟨s₁, hbefore, hcalled, huncalled⟩ := drainCut_eq (R := R) hs₀ before chunk rest
    have hreached : R.reached before chunk rest = s₁.recorder := by
      unfold Recording.reached
      rw [Fallible.bind_ok hdrains, hbefore]
    by_cases hcalls : s₁.Calls R chunk
    · have hcalls' : R.Calls before chunk rest := by
        unfold Recording.Calls
        rw [hreached]
        exact hcalls
      obtain ⟨s₂, hcut, hs₂⟩ := hcalled hcalls
      refine ⟨s₂, handed ++ (before ++ chunk :: rest), handed.flatten ++ before.flatten ++ chunk,
        rest.flatten, Fallible.bind_error hcut, ?_, by simp, ?_, fun _ => hcalls.1⟩
      · simpa [hcalls'] using hs₂
      · simp [hcalls']
    · have hcalls' : ¬R.Calls before chunk rest := by
        unfold Recording.Calls
        rw [hreached]
        exact hcalls
      obtain ⟨s₂, hcut, hs₂⟩ := huncalled hcalls
      refine ⟨s₂, handed ++ (before ++ chunk :: rest),
        handed.flatten ++ (before ++ chunk :: rest).flatten, [], Fallible.bind_ok hcut, ?_,
        by simp, ?_, fun h => absurd hcalls' h⟩
      · simpa [hcalls'] using hs₂
      · simp [hcalls']

/-- Stopping loses no audio exactly when the poll task has nothing in its hands, and, if the sink
never raises, is not in a call of the sink. -/
theorem stop_lossless_iff (R : Recording) :
    R.Lossless ↔ R.Written ∧ (R.SinkHealthy → R.Stored) := by
  obtain ⟨s₁, handed, bytes, lost, hpoll, hs₁, hlost, hwritten, hsink⟩ := pollLoop_eq R
  obtain ⟨_, s₂, hdrain, hs₂⟩ := gives_drain (R := R) R.last s₁ hs₁
  obtain ⟨_, s₃, hflush, hs₃, hempty⟩ := gives_flush (R := R) s₂ hs₂
  have hexcept : (R.pollLoop.except fun _ => pure ()) {} = (.ok (), s₁) := by
    unfold Fallible.except
    rw [hpoll]
    rfl
  have hstop : R.stop {} = (.ok s₃.recorder.spool, s₃) := by
    unfold Recording.stop
    rw [Fallible.bind_ok hexcept, Fallible.bind_ok hdrain, Fallible.bind_ok hflush]
    rfl
  have hall : s₃.recorder.spool = s₃.handed.flatten ↔ R.Written := by
    rw [hs₃.spool, hs₃.handed, List.flatten_append, hlost, ← hwritten]
    simp
  have hhealthy : R.SinkHealthy ↔ s₃.raised = false := by
    unfold Recording.SinkHealthy
    rw [hstop]
  constructor
  · intro hlossless
    obtain ⟨_, _, hrun, hreturned, hcompleted⟩ := hlossless
    cases hstop.symm.trans hrun
    refine ⟨hall.mp hreturned, fun hraised => ?_⟩
    have hraised := hhealthy.mp hraised
    by_contra hcut
    have hshort := hs₃.short hraised hcut
    rw [hempty (hsink hcut), hcompleted (hsink hcut) hraised (hs₃.failed.trans hraised),
      hs₃.spool] at hshort
    simp at hshort
  · intro h
    obtain ⟨hw, hstored⟩ := h
    refine ⟨_, _, hstop, hall.mpr hw, fun hsome hraised _ => ?_⟩
    have hkept := hs₃.kept hraised (not_not_intro (hstored (hhealthy.mpr hraised)))
    rw [hempty hsome, List.append_nil] at hkept
    exact hkept.trans hs₃.spool.symm

section counterexample

/-- One chunk is drained, the next one is handed over to an evaluation that is cancelled, and the
last one is drained by `stop`. -/
def cutEvaluation : Recording where
  drains := [some [[1]]]
  point := .evaluating [[2]]
  last := some [[3]]

theorem not_stop_lossless : ¬∀ R : Recording, R.Lossless := by
  intro h
  obtain ⟨bytes, s, hrun, hreturned, -⟩ := h cutEvaluation
  have hbytes : (cutEvaluation.stop {}).1 = .ok [1, 3] := rfl
  have hhanded : (cutEvaluation.stop {}).2.handed = [[1], [2], [3]] := rfl
  rw [hrun] at hbytes hhanded
  rw [hreturned, hhanded] at hbytes
  cases hbytes

/-- Five chunks bring about a sink call that is cut: the sixth is lost, and the five are in no
completed call. -/
def cutCall : Recording where
  drains := []
  point := .storing [[1], [2], [3], [4]] [5] [[6]]
  last := some [[7]]

example : (cutCall.stop {}).1 = .ok [1, 2, 3, 4, 5, 7] ∧ (cutCall.stop {}).2.completed = [[7]] ∧
    (cutCall.stop {}).2.recorder.checkpointFailed = false := ⟨rfl, rfl, rfl⟩

end counterexample

end Fakery.Meet
