import Fakery.Transcription.Streamed

/-! A live stream that leaves is over after a few steps of its tasks, whatever their order. -/
namespace Fakery.Transcription
open Fakery.Bots Fakery.Concurrent.Task Fakery.Storage

variable {μ ε : Type} {live : μ → Option (Segment × Bool)} {s s' : Live μ ε}

def StreamEvent.isCancel : StreamEvent μ ε → Bool
  | .cancel => true
  | _ => false

/-- The steps that are left to a task that stops. -/
def Feed.rank : Feed ε → ℕ
  | .done _ => 0
  | .created | .leaving _ => 1
  | .waiting | .keepingAlive | .sending | .closing => 2

def Pending.rank : Pending ε → ℕ
  | .running => 1
  | .absent | .finished _ => 0

def Receive.rank : Receive ε → ℕ
  | .done _ => 0
  | _ => 1

def Stream.rank : Stream ε → ℕ
  | .done _ => 0
  | _ => 1

def Live.rank (s : Live μ ε) : ℕ :=
  s.feed.rank + s.pending.rank + s.receive.rank + s.stream.rank

theorem Live.rank_le (s : Live μ ε) : s.rank ≤ 5 := by
  have hfeed : s.feed.rank ≤ 2 := by cases s.feed <;> simp [Feed.rank]
  have hpending : s.pending.rank ≤ 1 := by cases s.pending <;> simp [Pending.rank]
  have hreceive : s.receive.rank ≤ 1 := by cases s.receive <;> simp [Receive.rank]
  have hstream : s.stream.rank ≤ 1 := by cases s.stream <;> simp [Stream.rank]
  unfold Live.rank
  omega

section decrease

theorem goFeed_rank {answer : Ended ε Unit} (h : s.feed.Stopping s.feedCancelled)
    (hstep : s.goFeed answer = some s') : s'.rank < s.rank := by
  obtain ⟨feed, pending, receive, stream, fc, pc, rc, sc, audio, sent, messages, sunk⟩ := s
  dsimp only [Live.goFeed] at hstep h
  cases feed with
  | created =>
    have hc : fc = true := h
    simp only [if_pos hc] at hstep
    cases hstep
    simp [Live.rank, Feed.rank]
  | waiting =>
    have hc : fc = true := h
    simp only [if_pos hc] at hstep
    cases hstep
    simp [Live.rank, Feed.rank, Live.leaveFeed]
  | leaving ended =>
    cases pending with
    | absent => cases hstep
    | running => cases hstep
    | finished produced =>
      cases hstep
      simp [Live.rank, Feed.rank]
  | done ended => cases hstep
  | _ =>
    rcases answered_cases hstep with ⟨-, hc⟩ | ⟨e, rfl⟩
    · cases hc.symm.trans h
    · simp [Live.rank, Feed.rank, Live.leaveFeed]

theorem goReceive_rank {incoming : Incoming μ ε} (h : s.receive.Stopping s.receiveCancelled)
    (hstep : s.goReceive live incoming = some s') : s'.rank < s.rank := by
  obtain ⟨feed, pending, receive, stream, fc, pc, rc, sc, audio, sent, messages, sunk⟩ := s
  dsimp only [Live.goReceive] at hstep h
  cases receive with
  | created =>
    have hc : rc = true := h
    simp only [if_pos hc] at hstep
    cases hstep
    simp [Live.rank, Receive.rank]
  | reading finals =>
    have hc : rc = true := h
    cases incoming with
    | message m =>
      simp only [if_pos hc] at hstep
      cases hstep
    | closed =>
      simp only [if_pos hc] at hstep
      cases hstep
    | raised e =>
      cases hstep
      simp [Live.rank, Receive.rank]
  | sinking => cases hstep
  | done => cases hstep

theorem goSink_rank {answer : Ended ε Unit} (h : s.receive.Stopping s.receiveCancelled)
    (hstep : s.goSink answer = some s') : s'.rank < s.rank := by
  obtain ⟨feed, pending, receive, stream, fc, pc, rc, sc, audio, sent, messages, sunk⟩ := s
  dsimp only [Live.goSink] at hstep h
  split at hstep
  · have hc : rc = true := h
    simp only [if_pos hc] at hstep
    cases hstep
  · cases hstep
    simp [Live.rank, Receive.rank]
  · cases hstep

theorem goAudio_rank {produced : Produced ε} (hstep : s.goAudio produced = some s') :
    s'.rank < s.rank ∧ s'.stream = s.stream := by
  obtain ⟨feed, pending, receive, stream, fc, pc, rc, sc, audio, sent, messages, sunk⟩ := s
  dsimp only [Live.goAudio] at hstep
  split at hstep
  · split_ifs at hstep
    cases hstep
    exact ⟨by simp [Live.rank, Pending.rank], rfl⟩
  · split_ifs at hstep
    cases hstep
    exact ⟨by simp [Live.rank, Pending.rank], rfl⟩
  · cases hstep
    exact ⟨by simp [Live.rank, Pending.rank], rfl⟩
  · cases hstep

theorem goIdle_of_stopping (h : s.feed.Stopping s.feedCancelled) : s.goIdle = none := by
  obtain ⟨feed, pending, receive, stream, fc, pc, rc, sc, audio, sent, messages, sunk⟩ := s
  dsimp only [Live.goIdle]
  split
  · exact if_pos h
  · rfl

/-- `_stream` has left, and the tasks know that they are cancelled. -/
structure Live.Left (s : Live μ ε) (ended : Ended (StreamError ε) ℕ) : Prop where
  stream : s.stream = .leaving ended
  feed : s.feed.Stopping s.feedCancelled
  receive : s.receive.Stopping s.receiveCancelled

theorem Live.Sound.left {ended : Ended (StreamError ε) ℕ} (h : s.Sound live)
    (hstream : s.stream = .leaving ended) : s.Left ended := by
  have hawaited := h.awaited
  unfold Live.Awaited at hawaited
  rw [hstream] at hawaited
  cases hawaited with
  | leaving _ hfeed hreceive => exact ⟨hstream, hfeed, hreceive⟩

/-- Once `_stream` leaves, every step of a task is one fewer. -/
theorem Live.Left.step {ended : Ended (StreamError ε) ℕ} {e : StreamEvent μ ε} (h : s.Left ended)
    (hstep : s.step live e = some s') :
    (e.isCancel = false → s'.rank < s.rank) ∧ (e.isCancel = true → s'.rank = s.rank) ∧
      ((∃ ended, s'.stream = .leaving ended) ∨ ∃ ended, s'.stream = .done ended) := by
  obtain ⟨hstream, hfeed, hreceive⟩ := h
  have hstays : s'.stream = s.stream →
      (∃ ended, s'.stream = .leaving ended) ∨ ∃ ended, s'.stream = .done ended := fun h =>
    .inl ⟨ended, h.trans hstream⟩
  cases e with
  | audio produced =>
    obtain ⟨hrank, hsame⟩ := goAudio_rank hstep
    exact ⟨fun _ => hrank, nofun, hstays hsame⟩
  | feed answer =>
    exact ⟨fun _ => goFeed_rank hfeed hstep, nofun, hstays (goFeed_step hstep).frame.stream⟩
  | idle => cases (goIdle_of_stopping hfeed).symm.trans hstep
  | receive incoming =>
    exact ⟨fun _ => goReceive_rank hreceive hstep, nofun, hstays (goReceive_step hstep).stream⟩
  | sink answer =>
    exact ⟨fun _ => goSink_rank hreceive hstep, nofun, hstays (goSink_step hstep).stream⟩
  | stream =>
    simp only [Live.step, Live.goStream, hstream] at hstep
    split at hstep <;> cases hstep
    exact ⟨fun _ => by simp [Live.rank, Stream.rank, hstream], nofun, .inr ⟨_, rfl⟩⟩
  | expire =>
    simp only [Live.step, Live.goExpire, hstream] at hstep
    cases hstep
  | cancel =>
    simp only [Live.step, Live.goCancel, hstream] at hstep
    cases hstep
    exact ⟨nofun, fun _ => by simp [Live.rank, Stream.rank, hstream], .inl ⟨_, rfl⟩⟩

/-- From where `_stream` leaves on, the tasks have five more steps at the most. -/
theorem length_steps {es : List (StreamEvent μ ε)} {ended : Ended (StreamError ε) ℕ}
    (h : s.Sound live) (hstream : s.stream = .leaving ended) (hrun : s.run live es = some s') :
    (es.filter fun e => !e.isCancel).length + s'.rank ≤ s.rank ∧
      ((∃ ended, s'.stream = .leaving ended) ∨ ∃ ended, s'.stream = .done ended) := by
  induction es generalizing s ended with
  | nil =>
    cases Option.some.inj hrun
    exact ⟨(Nat.zero_add _).le, .inl ⟨ended, hstream⟩⟩
  | cons e es ih =>
    obtain ⟨u, hu, hrun⟩ := Option.bind_eq_some_iff.mp hrun
    obtain ⟨hless, hsame, hnext⟩ := (h.left hstream).step hu
    have hsound := h.step hu
    have hcount : ((e :: es).filter fun e => !e.isCancel).length + u.rank ≤
        (es.filter fun e => !e.isCancel).length + s.rank := by
      cases hc : e.isCancel with
      | true => simp [hc, hsame hc]
      | false =>
        have := hless hc
        simp only [List.filter_cons, hc, Bool.not_false, if_true, List.length_cons]
        omega
    rcases hnext with ⟨ended', hstream'⟩ | ⟨ended', hstream'⟩
    · obtain ⟨hlen, hend⟩ := ih hsound hstream' hrun
      exact ⟨by omega, hend⟩
    · cases es with
      | nil =>
        cases Option.some.inj hrun
        exact ⟨by simpa using hcount, .inr ⟨ended', hstream'⟩⟩
      | cons e' es =>
        obtain ⟨v, hv, -⟩ := Option.bind_eq_some_iff.mp hrun
        cases (hsound.over hstream' e').symm.trans hv

end decrease

section progress

/-- The step that a cancelled `_feed` can take, or that what it waits for can. -/
theorem feed_goes_on (hfed : s.Fed) (h : s.feed.Stopping s.feedCancelled) (live)
    (hundone : ∀ ended, s.feed ≠ .done ended) :
    ∃ e : StreamEvent μ ε, e.isCancel = false ∧ (s.step live e).isSome = true := by
  obtain ⟨feed, pending, receive, stream, fc, pc, rc, sc, audio, sent, messages, sunk⟩ := s
  change Transcription.Fed feed pending pc audio sent at hfed
  cases feed with
  | created =>
    have hc : fc = true := h
    exact ⟨.feed (.ok ()), rfl, by simp [Live.step, Live.goFeed, hc]⟩
  | waiting =>
    have hc : fc = true := h
    exact ⟨.feed (.ok ()), rfl, by simp [Live.step, Live.goFeed, hc]⟩
  | leaving ended =>
    cases pending with
    | absent =>
      cases hfed with
      | leaving _ _ hp => exact absurd rfl hp
    | running => exact ⟨.audio (.raised .cancelled), rfl, rfl⟩
    | finished produced => exact ⟨.feed (.ok ()), rfl, rfl⟩
  | done ended => exact absurd rfl (hundone ended)
  | _ => exact ⟨.feed (.error .cancelled), rfl, rfl⟩

theorem receive_goes_on (h : s.receive.Stopping s.receiveCancelled) (live)
    (hundone : ∀ ended, s.receive ≠ .done ended) :
    ∃ e : StreamEvent μ ε, e.isCancel = false ∧ (s.step live e).isSome = true := by
  obtain ⟨feed, pending, receive, stream, fc, pc, rc, sc, audio, sent, messages, sunk⟩ := s
  cases receive with
  | created =>
    have hc : rc = true := h
    exact ⟨.receive .closed, rfl, by simp [Live.step, Live.goReceive, hc]⟩
  | reading finals => exact ⟨.receive (.raised .cancelled), rfl, rfl⟩
  | sinking finals => exact ⟨.sink (.error .cancelled), rfl, rfl⟩
  | done ended => exact absurd rfl (hundone ended)

/-- A stream that leaves does not hang: some task can go on, or else `_stream` itself. -/
theorem leaving_goes_on {ended : Ended (StreamError ε) ℕ} (h : s.Sound live)
    (hstream : s.stream = .leaving ended) :
    ∃ e : StreamEvent μ ε, e.isCancel = false ∧ (s.step live e).isSome = true := by
  obtain ⟨-, hfeed, hreceive⟩ := h.left hstream
  by_cases hf : ∃ fed, s.feed = .done fed
  · obtain ⟨fed, hf⟩ := hf
    by_cases hr : ∃ received, s.receive = .done received
    · obtain ⟨received, hr⟩ := hr
      exact ⟨.stream, rfl, by simp [Live.step, Live.goStream, hstream, hf, hr]⟩
    · exact receive_goes_on hreceive live fun received hr' => hr ⟨received, hr'⟩
  · exact feed_goes_on h.fed hfeed live fun fed hf' => hf ⟨fed, hf'⟩

/-- Once `_stream` leaves, for a result or for an error, its tasks take five more steps at the most
in whatever order, and as long as it is not over one of them can be taken. -/
theorem stream_stops (live : μ → Option (Segment × Bool)) (es fs : List (StreamEvent μ ε))
    (s s' : Live μ ε) (ended : Ended (StreamError ε) ℕ) (hrun : Live.run live {} es = some s)
    (hstream : s.stream = .leaving ended) (hrest : s.run live fs = some s') :
    (fs.filter fun e => !e.isCancel).length ≤ 5 ∧
      ((∃ ended, s'.stream = .done ended) ∨
        ∃ e, e.isCancel = false ∧ (s'.step live e).isSome = true) := by
  have hsound := (Live.sound_start live).run hrun
  obtain ⟨hlen, hend⟩ := length_steps hsound hstream hrest
  refine ⟨by have := s.rank_le; omega, ?_⟩
  rcases hend with ⟨ended', hstream'⟩ | hdone
  · exact .inr (leaving_goes_on (hsound.run hrest) hstream')
  · exact .inl hdone

/-- A socket that closes while the audio goes on. -/
theorem stream_stops_closed : ∃ s s' : Live Unit Unit,
    Live.run (fun _ => none) {} [.feed (.ok ()), .receive .closed, .receive .closed, .stream] =
      some s ∧
    s.run (fun _ => none) [.feed (.ok ()), .audio (.raised .cancelled), .feed (.ok ()), .stream] =
      some s' ∧
    (([.feed (.ok ()), .audio (.raised .cancelled), .feed (.ok ()), .stream] :
      List (StreamEvent Unit Unit)).filter fun e => !e.isCancel).length ≤ 5 ∧
    ((∃ ended, s'.stream = .done ended) ∨
      ∃ e, e.isCancel = false ∧ (s'.step (fun _ => none) e).isSome = true) :=
  ⟨_, _, rfl, rfl, stream_stops (fun _ => none)
    [.feed (.ok ()), .receive .closed, .receive .closed, .stream] _ _ _
    (.error (.exception .closedBeforeEof)) rfl rfl rfl⟩

end progress

end Fakery.Transcription
