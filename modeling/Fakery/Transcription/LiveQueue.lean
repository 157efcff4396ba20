import Fakery.Storage.Blob
import Mathlib.Data.List.ReduceOption
import Mathlib.Tactic.SplitIfs

/-! The queue between the recorder and the live stream. It is bounded, the recorder never waits for
it, and when the meeting is over a `None` tells the reader that there is no more. -/
namespace Fakery.Transcription
open Fakery.Storage

def LIVE_STT_QUEUE_LIMIT : ℕ := 30

/-- Whoever reads the queue: `ended` has read the `None`, `gone` is a task that is done before. -/
inductive Reader where
  | reading | ended | gone
deriving DecidableEq

/-- The queue and what became of the chunks; `raised` notes a `QueueFull`. -/
structure LiveQueue where
  queue : List (Option Bytes) := []
  reader : Reader := .reading
  stopped : Bool := false
  raised : Bool := false
  pushed : List Bytes := []
  accepted : List Bytes := []
  lost : List Bytes := []
  yielded : List Bytes := []
deriving DecidableEq

inductive QueueEvent where
  | push (data : Bytes)
  | get
  | finish
  | stop

/-- `while chunk_queue.full(): chunk_queue.get_nowait()`: what is taken out, and what is left. -/
def takeWhileFull : List (Option Bytes) → List (Option Bytes) × List (Option Bytes)
  | [] => ([], [])
  | x :: queue =>
    if (x :: queue).length ≥ LIVE_STT_QUEUE_LIMIT then
      (x :: (takeWhileFull queue).1, (takeWhileFull queue).2)
    else ([], x :: queue)

namespace LiveQueue

def full (s : LiveQueue) : Bool := s.queue.length ≥ LIVE_STT_QUEUE_LIMIT

def putNowait (s : LiveQueue) (x : Option Bytes) : LiveQueue :=
  if s.full then { s with raised := true } else { s with queue := s.queue ++ [x] }

def pushChunk (s : LiveQueue) (data : Bytes) : LiveQueue :=
  let s := { s with pushed := s.pushed ++ [data] }
  if s.reader = .gone then s
  else if s.full then s
  else { s.putNowait (some data) with accepted := s.accepted ++ [data] }

/-- One turn of `_queue_chunks`, which waits as long as the queue is empty. -/
def get (s : LiveQueue) : Option LiveQueue :=
  match s.reader, s.queue with
  | .reading, none :: queue => some { s with queue := queue, reader := .ended }
  | .reading, some chunk :: queue =>
    some { s with queue := queue, yielded := s.yielded ++ [chunk] }
  | _, _ => none

def stop (s : LiveQueue) : LiveQueue :=
  putNowait { s with queue := (takeWhileFull s.queue).2, stopped := true
                     lost := s.lost ++ (takeWhileFull s.queue).1.reduceOption } none

/-- The recorder has stopped before `stop`, so that nothing is pushed after it. -/
def step (s : LiveQueue) : QueueEvent → Option LiveQueue
  | .push data => if s.stopped then none else some (s.pushChunk data)
  | .get => s.get
  | .finish => if s.reader = .reading then some { s with reader := .gone } else none
  | .stop => if s.stopped then none else some s.stop

def run (s : LiveQueue) : List QueueEvent → Option LiveQueue
  | [] => some s
  | e :: es => (s.step e).bind fun s' => s'.run es

end LiveQueue

section invariant

variable {s s' : LiveQueue}

/-- What the queue holds before and after it is stopped. -/
inductive LiveQueue.Holds (s : LiveQueue) : Prop where
  | filling {q : List Bytes} (hqueue : s.queue = q.map some) (hstopped : s.stopped = false)
      (hreader : s.reader ≠ .ended) (hlost : s.lost = []) (h : s.accepted = s.yielded ++ q)
  | stopping {q before after : List Bytes} (hqueue : s.queue = q.map some ++ [none])
      (hstopped : s.stopped = true) (hreader : s.reader ≠ .ended)
      (hlost : s.lost.length ≤ 1) (h : s.accepted = before ++ s.lost ++ after)
      (hkept : before ++ after = s.yielded ++ q)
  | drained {before after : List Bytes} (hqueue : s.queue = []) (hstopped : s.stopped = true)
      (hreader : s.reader = .ended) (hlost : s.lost.length ≤ 1)
      (h : s.accepted = before ++ s.lost ++ after) (hkept : before ++ after = s.yielded)

structure LiveQueue.Sound (s : LiveQueue) : Prop where
  raised : s.raised = false
  bounded : s.queue.length ≤ LIVE_STT_QUEUE_LIMIT
  accepted : s.accepted.Sublist s.pushed
  holds : s.Holds

theorem takeWhileFull_of_lt {q : List (Option Bytes)} (h : q.length < LIVE_STT_QUEUE_LIMIT) :
    takeWhileFull q = ([], q) := by
  cases q with
  | nil => rfl
  | cons x q => rw [takeWhileFull, if_neg (Nat.not_le_of_lt h)]

/-- Of a queue that holds no more than it may, one chunk at most is taken out. -/
theorem takeWhileFull_eq {q : List Bytes} (h : q.length ≤ LIVE_STT_QUEUE_LIMIT) :
    ∃ k ≤ 1, q.length - k < LIVE_STT_QUEUE_LIMIT ∧
      takeWhileFull (q.map some) = ((q.take k).map some, (q.drop k).map some) := by
  by_cases hfull : q.length = LIVE_STT_QUEUE_LIMIT
  · cases q with
    | nil => cases hfull
    | cons x q =>
      have hroom : q.length < LIVE_STT_QUEUE_LIMIT := by
        rw [← hfull]
        exact Nat.lt_succ_self _
      refine ⟨1, Nat.le_refl 1, hroom, ?_⟩
      rw [List.map_cons, takeWhileFull, if_pos (by simp [← hfull]),
        takeWhileFull_of_lt (by simpa using hroom)]
      rfl
  · have hroom : q.length < LIVE_STT_QUEUE_LIMIT := by omega
    exact ⟨0, Nat.zero_le 1, hroom, takeWhileFull_of_lt (by simpa using hroom)⟩

theorem pushChunk_cases (s : LiveQueue) (data : Bytes) :
    s.pushChunk data = { s with pushed := s.pushed ++ [data] } ∨
      s.queue.length < LIVE_STT_QUEUE_LIMIT ∧ s.pushChunk data =
        { s with pushed := s.pushed ++ [data], queue := s.queue ++ [some data]
                 accepted := s.accepted ++ [data] } := by
  by_cases hgone : s.reader = .gone
  · exact .inl (if_pos hgone)
  · by_cases hfull : s.queue.length ≥ LIVE_STT_QUEUE_LIMIT
    · exact .inl (by simp [LiveQueue.pushChunk, LiveQueue.full, hgone, hfull])
    · refine .inr ⟨Nat.lt_of_not_le hfull, ?_⟩
      simp [LiveQueue.pushChunk, LiveQueue.putNowait, LiveQueue.full, hgone, hfull]

/-- Before it is stopped the queue holds all that was accepted and not yet read. -/
theorem LiveQueue.Holds.of_open (h : s.Holds) (hopen : s.stopped = false) :
    ∃ q : List Bytes, s.queue = q.map some ∧ s.reader ≠ .ended ∧ s.lost = [] ∧
      s.accepted = s.yielded ++ q := by
  cases h with
  | filling hqueue hstopped hreader hlost h => exact ⟨_, hqueue, hreader, hlost, h⟩
  | stopping _ hstopped => cases hstopped.symm.trans hopen
  | drained _ hstopped => cases hstopped.symm.trans hopen

theorem LiveQueue.Sound.push (h : s.Sound) (hopen : s.stopped = false) (data : Bytes) :
    (s.pushChunk data).Sound := by
  obtain ⟨hraised, hbounded, haccepted, hholds⟩ := h
  obtain ⟨q, hqueue, hreader, hlost, hall⟩ := hholds.of_open hopen
  rcases pushChunk_cases s data with heq | ⟨hroom, heq⟩ <;> rw [heq]
  · exact ⟨hraised, hbounded, haccepted.trans (List.sublist_append_left _ _),
      .filling hqueue hopen hreader hlost hall⟩
  · refine ⟨hraised, ?_, haccepted.append_right [data], ?_⟩
    · simpa using Nat.succ_le_of_lt hroom
    · exact .filling (q := q ++ [data]) (by simp [hqueue]) hopen hreader hlost (by simp [hall])

theorem LiveQueue.Sound.get (h : s.Sound) (hstep : s.get = some s') : s'.Sound := by
  obtain ⟨hraised, hbounded, haccepted, hholds⟩ := h
  unfold LiveQueue.get at hstep
  split at hstep
  · rename_i queue hr hq
    cases hstep
    refine ⟨hraised, by rw [hq] at hbounded; exact Nat.le_of_succ_le hbounded, haccepted, ?_⟩
    cases hholds with
    | @filling q hqueue =>
      cases q with
      | nil => cases hq.symm.trans hqueue
      | cons x q => cases hq.symm.trans hqueue
    | @stopping q before after hqueue hstopped hreader hlost h hkept =>
      cases q with
      | nil =>
        have hempty : queue = [] := (List.cons.inj (hq.symm.trans hqueue)).2
        exact .drained hempty hstopped rfl hlost h (by simpa using hkept)
      | cons x q => cases hq.symm.trans hqueue
    | drained hqueue => cases hq.symm.trans hqueue
  · rename_i chunk queue hr hq
    cases hstep
    refine ⟨hraised, by rw [hq] at hbounded; exact Nat.le_of_succ_le hbounded, haccepted, ?_⟩
    cases hholds with
    | @filling q hqueue hstopped hreader hlost h =>
      cases q with
      | nil => cases hq.symm.trans hqueue
      | cons x q =>
        obtain ⟨hx, hrest⟩ := List.cons.inj (hq.symm.trans hqueue)
        cases hx
        exact .filling hrest hstopped hreader hlost (by simp [h])
    | @stopping q before after hqueue hstopped hreader hlost h hkept =>
      cases q with
      | nil => cases hq.symm.trans hqueue
      | cons x q =>
        obtain ⟨hx, hrest⟩ := List.cons.inj (hq.symm.trans hqueue)
        cases hx
        exact .stopping hrest hstopped hreader hlost h (by simp [hkept])
    | drained hqueue => cases hq.symm.trans hqueue
  · cases hstep

/-- Room for the `None` is made by taking out one chunk at the most. -/
theorem stop_eq {q : List Bytes} (hqueue : s.queue = q.map some)
    (hbounded : q.length ≤ LIVE_STT_QUEUE_LIMIT) : ∃ k ≤ 1, q.length - k < LIVE_STT_QUEUE_LIMIT ∧
      s.stop = { s with queue := (q.drop k).map some ++ [none], stopped := true
                        lost := s.lost ++ q.take k } := by
  obtain ⟨k, hk, hroom, htaken⟩ := takeWhileFull_eq hbounded
  have hsome : ((q.take k).map some).reduceOption = q.take k := by simp [List.reduceOption]
  have hfull : ¬((q.drop k).map some).length ≥ LIVE_STT_QUEUE_LIMIT := by
    rw [List.length_map, List.length_drop]
    omega
  refine ⟨k, hk, hroom, ?_⟩
  simp only [LiveQueue.stop, LiveQueue.putNowait, LiveQueue.full, hqueue, htaken, hsome, hfull,
    decide_false, Bool.false_eq_true, if_false]

theorem LiveQueue.Sound.stop (h : s.Sound) (hopen : s.stopped = false) : s.stop.Sound := by
  obtain ⟨hraised, hbounded, haccepted, hholds⟩ := h
  obtain ⟨q, hqueue, hreader, hlost, hall⟩ := hholds.of_open hopen
  rw [hqueue, List.length_map] at hbounded
  obtain ⟨k, hk, hroom, heq⟩ := stop_eq hqueue hbounded
  rw [heq]
  refine ⟨hraised, ?_, haccepted, ?_⟩
  · simpa using Nat.succ_le_of_lt hroom
  · have hjoined : s.accepted = s.yielded ++ (s.lost ++ q.take k) ++ q.drop k := by
      simp [hlost, hall]
    refine .stopping rfl rfl hreader ?_ hjoined rfl
    simp only [hlost, List.nil_append, List.length_take]
    omega

theorem LiveQueue.Sound.finish (h : s.Sound) (hreader : s.reader = .reading) :
    LiveQueue.Sound { s with reader := .gone } := by
  obtain ⟨hraised, hbounded, haccepted, hholds⟩ := h
  refine ⟨hraised, hbounded, haccepted, ?_⟩
  cases hholds with
  | filling hqueue hstopped _ hlost h => exact .filling hqueue hstopped (by simp) hlost h
  | stopping hqueue hstopped _ hlost h hkept =>
    exact .stopping hqueue hstopped (by simp) hlost h hkept
  | drained _ _ hended => cases hended.symm.trans hreader

theorem LiveQueue.Sound.step {e : QueueEvent} (h : s.Sound) (hstep : s.step e = some s') :
    s'.Sound := by
  cases e with
  | push data =>
    simp only [LiveQueue.step] at hstep
    split_ifs at hstep with hopen
    cases hstep
    exact h.push (by simpa using hopen) data
  | get => exact h.get hstep
  | finish =>
    simp only [LiveQueue.step] at hstep
    split_ifs at hstep with hreader
    cases hstep
    exact h.finish hreader
  | stop =>
    simp only [LiveQueue.step] at hstep
    split_ifs at hstep with hopen
    cases hstep
    exact h.stop (by simpa using hopen)

theorem LiveQueue.Sound.run {es : List QueueEvent} (h : s.Sound) (hrun : s.run es = some s') :
    s'.Sound := by
  induction es generalizing s with
  | nil =>
    cases Option.some.inj hrun
    exact h
  | cons e es ih =>
    obtain ⟨u, hu, hrun⟩ := Option.bind_eq_some_iff.mp hrun
    exact ih (h.step hu) hrun

theorem LiveQueue.sound_start : LiveQueue.Sound {} :=
  ⟨rfl, Nat.zero_le _, List.Sublist.refl _, .filling (q := []) rfl rfl (by simp) rfl rfl⟩

/-- What has been read of a queue that is read to its end. -/
theorem LiveQueue.Holds.ended (h : s.Holds) (hreader : s.reader = .ended) : s.lost.length ≤ 1 ∧
    ∃ before after, s.accepted = before ++ s.lost ++ after ∧ s.yielded = before ++ after := by
  cases h with
  | filling _ _ hnot => exact absurd hreader hnot
  | stopping _ _ hnot => exact absurd hreader hnot
  | @drained before after _ _ _ hlost h hkept => exact ⟨hlost, before, after, h, hkept.symm⟩

/-- A stopped queue is read to its end. -/
theorem run_gets {q : List Bytes} (hqueue : s.queue = q.map some ++ [none])
    (hreader : s.reader = .reading) :
    s.run (List.replicate (q.length + 1) .get) =
      some { s with queue := [], reader := .ended, yielded := s.yielded ++ q } := by
  induction q generalizing s with
  | nil => simp [LiveQueue.run, LiveQueue.step, LiveQueue.get, hqueue, hreader]
  | cons x q ih =>
    have hget : s.step .get = some { s with queue := q.map some ++ [none]
                                            yielded := s.yielded ++ [x] } := by
      simp [LiveQueue.step, LiveQueue.get, hqueue, hreader]
    rw [List.length_cons, List.replicate_succ, LiveQueue.run, hget, Option.bind_some]
    have hrest := ih (s := { s with queue := q.map some ++ [none], yielded := s.yielded ++ [x] })
      rfl hreader
    rw [hrest]
    simp

/-- In whatever order chunks are pushed and read and the queue is stopped: a put never raises; what
is read or still there is what was accepted, in order, but for one chunk at the most that is taken
out to make room for the end; and once the queue is stopped, its reader comes to the end after at
most as many turns as the queue is long, having read all the rest. -/
theorem live_queue (es : List QueueEvent) (s : LiveQueue)
    (hrun : LiveQueue.run {} es = some s) :
    s.raised = false ∧ s.queue.length ≤ LIVE_STT_QUEUE_LIMIT ∧ s.accepted.Sublist s.pushed ∧
    s.lost.length ≤ 1 ∧ (s.stopped = false → s.lost = []) ∧
    (∃ before after, s.accepted = before ++ s.lost ++ after ∧
      before ++ after = s.yielded ++ s.queue.reduceOption) ∧
    (s.stopped = true → s.reader = .reading → ∃ s', s'.reader = .ended ∧
      s.run (List.replicate s.queue.length .get) = some s' ∧
      s'.yielded = s.yielded ++ s.queue.reduceOption) := by
  obtain ⟨hraised, hbounded, haccepted, hholds⟩ := LiveQueue.sound_start.run hrun
  refine ⟨hraised, hbounded, haccepted, ?_⟩
  have hsome : ∀ q : List Bytes, (q.map some).reduceOption = q := fun q => by
    simp [List.reduceOption]
  cases hholds with
  | @filling q hqueue hstopped hreader hlost h =>
    refine ⟨by simp [hlost], fun _ => hlost, ⟨s.accepted, [], by simp [hlost], ?_⟩, ?_⟩
    · rw [List.append_nil, hqueue, hsome, h]
    · intro h
      cases h.symm.trans hstopped
  | @stopping q before after hqueue hstopped hreader hlost h hkept =>
    have hrest : s.queue.reduceOption = q := by
      rw [hqueue, List.reduceOption_append, hsome, List.reduceOption_singleton]
      simp
    refine ⟨hlost, fun h => (by cases h.symm.trans hstopped), ⟨before, after, h, ?_⟩,
      fun _ hreading =>
        ⟨{ s with queue := [], reader := .ended, yielded := s.yielded ++ q }, rfl, ?_, ?_⟩⟩
    · rw [hrest, hkept]
    · rw [hqueue, List.length_append, List.length_map, List.length_singleton]
      exact run_gets hqueue hreading
    · rw [hrest]
  | @drained before after hqueue hstopped hreader hlost h hkept =>
    refine ⟨hlost, fun h => (by cases h.symm.trans hstopped), ⟨before, after, h, ?_⟩,
      fun _ hreading => (by cases hreader.symm.trans hreading)⟩
    rw [hqueue, List.reduceOption_nil, List.append_nil, hkept]

/-- A queue that nobody reads: the first chunk is taken out and the last one refused. -/
theorem live_queue_full : ∃ s : LiveQueue,
    LiveQueue.run {} ((List.range 31).map (fun n => .push [UInt8.ofNat n]) ++ [.stop]) = some s ∧
    s.lost = [[0]] ∧ s.pushed.length = 31 ∧ s.accepted.length = 30 ∧ s.raised = false :=
  ⟨_, rfl, rfl, rfl, rfl, (live_queue
    ((List.range 31).map (fun n => .push [UInt8.ofNat n]) ++ [.stop]) _ rfl).1⟩

end invariant

end Fakery.Transcription
