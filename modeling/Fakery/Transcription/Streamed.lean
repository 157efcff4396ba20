import Fakery.Transcription.Stream
import Mathlib.Tactic.SplitIfs

/-! What a live stream has sent, read and handed on, in whatever order its tasks go on. -/
namespace Fakery.Transcription
open Fakery.Bots Fakery.Concurrent.Task Fakery.Storage

variable {μ ε : Type} {live : μ → Option (Segment × Bool)} {s s' : Live μ ε}

/-- The audio among what has been sent. -/
def medias (sent : List Sent) : List Bytes :=
  sent.filterMap fun
    | .media chunk => some chunk
    | _ => none

theorem medias_append (a b : List Sent) : medias (a ++ b) = medias a ++ medias b :=
  List.filterMap_append

/-- The chunk that is there and not yet sent. -/
def Pending.inHand : Pending ε → List Bytes
  | .finished (.chunk data) => [data]
  | _ => []

theorem Pending.length_inHand (p : Pending ε) : p.inHand.length ≤ 1 := by
  cases p with
  | absent => exact Nat.zero_le _
  | running => exact Nat.zero_le _
  | finished produced => cases produced <;> simp [inHand]

section feeding

/-- What has been sent while the stream is open: at most one chunk is missing. -/
structure Unclosed (audio : List Bytes) (sent : List Sent) (hand : List Bytes) : Prop where
  notClosed : .closeStream ∉ sent
  audio : audio = medias sent ++ hand

/-- What has been sent once the stream is closed: all the audio, and then the close. -/
def Closed (audio : List Bytes) (sent : List Sent) : Prop :=
  ∃ front, sent = front ++ [.closeStream] ∧ .closeStream ∉ front ∧ medias front = audio

/-- What `_feed` has sent, wherever it is. -/
inductive Fed : Feed ε → Pending ε → Bool → List Bytes → List Sent → Prop
  | created {c} : Fed .created .absent c [] []
  | waiting {pending c audio sent} (h : Unclosed audio sent pending.inHand)
      (hp : pending ≠ .absent) : Fed .waiting pending c audio sent
  | keepingAlive {pending c audio sent} (h : Unclosed audio sent pending.inHand)
      (hp : pending ≠ .absent) : Fed .keepingAlive pending c audio sent
  | sending {data c audio sent} (h : Unclosed audio sent []) :
      Fed .sending (.finished (.chunk data)) c audio sent
  | closing {c audio sent} (h : Closed audio sent) : Fed .closing (.finished .stop) c audio sent
  | leaving {pending audio sent e} {hand : List Bytes} (h : Unclosed audio sent hand)
      (hhand : hand.length ≤ 1) (hp : pending ≠ .absent) :
      Fed (.leaving (.error e)) pending true audio sent
  | closed {audio sent ended} (h : Closed audio sent) :
      Fed (.leaving ended) (.finished .stop) true audio sent
  | failed {pending c audio sent e} {hand : List Bytes} (h : Unclosed audio sent hand)
      (hhand : hand.length ≤ 1) (hp : pending ≠ .running) :
      Fed (.done (.error e)) pending c audio sent
  | done {c audio sent ended} (h : Closed audio sent) :
      Fed (.done ended) (.finished .stop) c audio sent

def Live.Fed (s : Live μ ε) : Prop :=
  Transcription.Fed s.feed s.pending s.pendingCancelled s.audio s.sent

variable {feed : Feed ε} {pending : Pending ε} {c : Bool} {audio : List Bytes} {sent : List Sent}
  {hand : List Bytes}

theorem Unclosed.media {data : Bytes} (h : Unclosed audio sent [data]) :
    Unclosed audio (sent ++ [.media data]) [] where
  notClosed := by simp [h.notClosed]
  audio := by rw [h.audio, medias_append, List.append_nil]; rfl

theorem Unclosed.keepAlive (h : Unclosed audio sent hand) :
    Unclosed audio (sent ++ [.keepAlive]) hand where
  notClosed := by simp [h.notClosed]
  audio := by rw [h.audio, medias_append]; simp [medias]

theorem Unclosed.close (h : Unclosed audio sent []) : Closed audio (sent ++ [.closeStream]) :=
  ⟨sent, rfl, h.notClosed, by rw [h.audio, List.append_nil]⟩

theorem Unclosed.chunk (h : Unclosed audio sent []) (data : Bytes) :
    Unclosed (audio ++ [data]) sent [data] where
  notClosed := h.notClosed
  audio := by rw [h.audio, List.append_nil]

/-- Whatever `_feed` awaits, an exception of it is raised with the audio that was sent by then. -/
theorem Fed.leave (h : Fed feed pending c audio sent) (hcreated : feed ≠ .created)
    (hleaving : ∀ ended, feed ≠ .leaving ended) (hdone : ∀ ended, feed ≠ .done ended)
    (e : Raised ε) : Fed (.leaving (.error e)) pending true audio sent := by
  cases h with
  | created => exact absurd rfl hcreated
  | waiting h hp => exact .leaving h (Pending.length_inHand _) hp
  | keepingAlive h hp => exact .leaving h (Pending.length_inHand _) hp
  | sending h => exact .leaving h (Nat.zero_le 1) (by simp)
  | closing h => exact .closed h
  | leaving => exact absurd rfl (hleaving _)
  | closed => exact absurd rfl (hleaving _)
  | failed => exact absurd rfl (hdone _)
  | done => exact absurd rfl (hdone _)

theorem answered_cases {next : Live μ ε} {answer : Ended ε Unit}
    (h : s.answered next answer = some s') : (s' = next ∧ s.feedCancelled = false) ∨
      ∃ e, s' = s.leaveFeed (.error e) := by
  cases answer with
  | ok =>
    simp only [Live.answered] at h
    split_ifs at h with hc
    exact .inl ⟨(Option.some.inj h).symm, by simpa using hc⟩
  | error e => exact .inr ⟨e, (Option.some.inj h).symm⟩

theorem Live.Fed.leaveFeed (h : s.Fed) (hcreated : s.feed ≠ .created)
    (hleaving : ∀ ended, s.feed ≠ .leaving ended) (hdone : ∀ ended, s.feed ≠ .done ended)
    (e : Raised ε) : (s.leaveFeed (.error e)).Fed :=
  Fed.leave h hcreated hleaving hdone e

theorem Live.Fed.goFeed {answer : Ended ε Unit} (h : s.Fed) (hstep : s.goFeed answer = some s') :
    s'.Fed := by
  have hleave := h.leaveFeed
  obtain ⟨feed, pending, receive, stream, fc, pc, rc, sc, audio, sent, messages, sunk⟩ := s
  change Transcription.Fed feed pending pc audio sent at h
  dsimp only [Live.goFeed] at hstep hleave
  cases h with
  | created =>
    split_ifs at hstep <;> cases hstep
    · exact .failed ⟨List.not_mem_nil, rfl⟩ (Nat.zero_le 1) (by simp)
    · exact .waiting ⟨List.not_mem_nil, rfl⟩ (by simp [Live.nextChunk])
  | waiting hun hp =>
    have hraise := hleave (by simp) (by simp) (by simp)
    split_ifs at hstep
    · cases hstep
      exact hraise _
    · cases pending with
      | absent => cases hstep
      | running => cases hstep
      | finished produced =>
        cases produced <;> cases hstep
        · exact .sending hun.media
        · exact .closing hun.close
        · exact hraise _
  | keepingAlive hun hp =>
    rcases answered_cases hstep with ⟨rfl, -⟩ | ⟨e, rfl⟩
    · exact .waiting hun hp
    · exact hleave (by simp) (by simp) (by simp) e
  | sending hun =>
    rcases answered_cases hstep with ⟨rfl, -⟩ | ⟨e, rfl⟩
    · exact .waiting hun (by simp [Live.nextChunk])
    · exact hleave (by simp) (by simp) (by simp) e
  | closing hcl =>
    rcases answered_cases hstep with ⟨rfl, -⟩ | ⟨e, rfl⟩
    · exact .closed hcl
    · exact hleave (by simp) (by simp) (by simp) e
  | leaving hun hhand hp =>
    cases pending with
    | absent => cases hstep
    | running => cases hstep
    | finished produced =>
      cases hstep
      cases fc
      · exact .failed hun hhand (by simp)
      · exact .failed hun hhand (by simp)
  | closed hcl =>
    cases hstep
    exact .done hcl
  | failed => cases hstep
  | done => cases hstep

theorem Live.Fed.goIdle (h : s.Fed) (hstep : s.goIdle = some s') : s'.Fed := by
  obtain ⟨feed, pending, receive, stream, fc, pc, rc, sc, audio, sent, messages, sunk⟩ := s
  change Transcription.Fed feed pending pc audio sent at h
  dsimp only [Live.goIdle] at hstep
  split at hstep
  · split_ifs at hstep
    cases hstep
    cases h with
    | waiting hun hp => exact .keepingAlive hun.keepAlive hp
  · cases hstep

theorem Live.Fed.goAudio {produced : Produced ε} (h : s.Fed)
    (hstep : s.goAudio produced = some s') : s'.Fed := by
  obtain ⟨feed, pending, receive, stream, fc, pc, rc, sc, audio, sent, messages, sunk⟩ := s
  change Transcription.Fed feed pending pc audio sent at h
  dsimp only [Live.goAudio] at hstep
  split at hstep
  · split_ifs at hstep with hc
    cases hstep
    cases h with
    | waiting hun hp => exact .waiting (hun.chunk _) (by simp)
    | keepingAlive hun hp => exact .keepingAlive (hun.chunk _) (by simp)
    | leaving => exact absurd rfl hc
    | failed _ _ hp => exact absurd rfl hp
  · split_ifs at hstep with hc
    cases hstep
    cases h with
    | waiting hun hp => exact .waiting hun (by simp)
    | keepingAlive hun hp => exact .keepingAlive hun (by simp)
    | leaving => exact absurd rfl hc
    | failed _ _ hp => exact absurd rfl hp
  · cases hstep
    cases h with
    | waiting hun hp => exact .waiting hun (by simp)
    | keepingAlive hun hp => exact .keepingAlive hun (by simp)
    | leaving hun hhand hp => exact .leaving hun hhand (by simp)
    | failed _ _ hp => exact absurd rfl hp
  · cases hstep

end feeding

section reading

/-- The count of `_receive` is that of the segments handed on, but for the one at the sink. -/
def Receive.Counts (n : ℕ) : Receive ε → Prop
  | .created => n = 0
  | .reading finals => n = finals
  | .sinking finals => n = finals + 1
  | .done (.ok finals) => n = finals
  | .done (.error _) => True

structure Live.Read (live : μ → Option (Segment × Bool)) (s : Live μ ε) : Prop where
  sunk : s.sunk = s.messages.filterMap (finalSegment live)
  counts : s.receive.Counts s.sunk.length

theorem Live.Read.goReceive {incoming : Incoming μ ε} (h : s.Read live)
    (hstep : s.goReceive live incoming = some s') : s'.Read live := by
  obtain ⟨feed, pending, receive, stream, fc, pc, rc, sc, audio, sent, messages, sunk⟩ := s
  obtain ⟨hsunk, hcounts⟩ := h
  dsimp only [Live.goReceive] at hstep hsunk hcounts
  cases receive with
  | created =>
    split_ifs at hstep <;> cases hstep
    · exact ⟨hsunk, trivial⟩
    · exact ⟨hsunk, hcounts⟩
  | reading finals =>
    cases incoming with
    | message m =>
      split_ifs at hstep
      dsimp only at hstep
      cases hm : finalSegment live m with
      | none =>
        rw [hm] at hstep
        cases hstep
        exact ⟨by simp [hsunk, hm], hcounts⟩
      | some segment =>
        rw [hm] at hstep
        cases hstep
        refine ⟨by simp [hsunk, hm], ?_⟩
        simpa [Receive.Counts] using hcounts
    | closed =>
      split_ifs at hstep
      cases hstep
      exact ⟨hsunk, hcounts⟩
    | raised e =>
      cases hstep
      exact ⟨hsunk, trivial⟩
  | sinking => cases hstep
  | done => cases hstep

theorem Live.Read.goSink {answer : Ended ε Unit} (h : s.Read live)
    (hstep : s.goSink answer = some s') : s'.Read live := by
  obtain ⟨feed, pending, receive, stream, fc, pc, rc, sc, audio, sent, messages, sunk⟩ := s
  obtain ⟨hsunk, hcounts⟩ := h
  dsimp only [Live.goSink] at hstep hsunk hcounts
  split at hstep
  · split_ifs at hstep
    cases hstep
    exact ⟨hsunk, hcounts⟩
  · cases hstep
    exact ⟨hsunk, trivial⟩
  · cases hstep

end reading

section waiting

/-- `_feed` has ended or will end with an exception. -/
inductive Unreturned : Feed ε → Bool → Prop
  | failed {e c} : Unreturned (.done (.error e)) c
  | leaving {e c} : Unreturned (.leaving (.error e)) c
  | cancelled {feed} (h : ∀ ended, feed ≠ .done ended) : Unreturned feed true

theorem Unreturned.of_done {ended : Ended ε Unit} {c : Bool} (h : Unreturned (.done ended) c) :
    ∃ e, ended = .error e := by
  cases h with
  | failed => exact ⟨_, rfl⟩
  | cancelled h => exact absurd rfl (h _)

/-- `_feed` leaves, has left, or is about to. -/
def Feed.Stopping : Feed ε → Bool → Prop
  | .leaving _, _ | .done _, _ => True
  | _, c => c = true

def Receive.Stopping : Receive ε → Bool → Prop
  | .done _, _ => True
  | _, c => c = true

/-- Why `_stream` ends as it does. -/
def Because (feed : Feed ε) (c : Bool) (receive : Receive ε) : Ended (StreamError ε) ℕ → Prop
  | .ok finals => feed = .done (.ok ()) ∧ receive = .done (.ok finals)
  | .error (.exception .closedBeforeEof) =>
    Unreturned feed c ∧ ∃ finals, receive = .done (.ok finals)
  | .error (.exception .timeout) => feed = .done (.ok ())
  | .error (.exception (.exception e)) =>
    feed = .done (.error (.exception e)) ∨ receive = .done (.error (.exception e))
  | .error .cancelled => True

/-- What `_stream` knows of the tasks, wherever it is. -/
inductive Awaited : Stream ε → Feed ε → Bool → Receive ε → Bool → Prop
  | waiting {feed fc receive rc} : Awaited .waiting feed fc receive rc
  | draining {fc receive rc} : Awaited .draining (.done (.ok ())) fc receive rc
  | expiring {fc receive rc} : Awaited .expiring (.done (.ok ())) fc receive rc
  | cancelling {fc receive rc} : Awaited .cancelling (.done (.ok ())) fc receive rc
  | leaving {feed fc receive rc ended} (h : Because feed fc receive ended)
      (hfeed : feed.Stopping fc) (hreceive : receive.Stopping rc) :
      Awaited (.leaving ended) feed fc receive rc
  | done {fed fc received rc ended} (h : Because (.done fed) fc (.done received) ended) :
      Awaited (.done ended) (.done fed) fc (.done received) rc

def Live.Awaited (s : Live μ ε) : Prop :=
  Transcription.Awaited s.stream s.feed s.feedCancelled s.receive s.receiveCancelled

variable {c : Bool} {feed : Feed ε} {receive : Receive ε}

/-- What a step of `_feed` leaves as it was. -/
structure FeedFrame (s s' : Live μ ε) : Prop where
  stream : s'.stream = s.stream
  receive : s'.receive = s.receive
  receiveCancelled : s'.receiveCancelled = s.receiveCancelled
  messages : s'.messages = s.messages
  sunk : s'.sunk = s.sunk

/-- A step of `_feed`: what stops it stays. -/
structure FeedStep (s s' : Live μ ε) : Prop where
  frame : FeedFrame s s'
  undone : ∀ ended, s.feed ≠ .done ended
  unreturned : Unreturned s.feed s.feedCancelled → Unreturned s'.feed s'.feedCancelled
  stopping : s.feed.Stopping s.feedCancelled → s'.feed.Stopping s'.feedCancelled

theorem FeedStep.leaveFeed (h : ∀ ended, s.feed ≠ .done ended) (e : Raised ε) :
    FeedStep s (s.leaveFeed (.error e)) where
  frame := ⟨rfl, rfl, rfl, rfl, rfl⟩
  undone := h
  unreturned _ := .leaving
  stopping _ := trivial

/-- A step that is only taken by a task that nobody cancels. -/
theorem FeedStep.of_live (hframe : FeedFrame s s') (hc : s.feedCancelled = false)
    (hleaving : ∀ ended, s.feed ≠ .leaving ended)
    (hdone : ∀ ended, s.feed ≠ .done ended) : FeedStep s s' where
  frame := hframe
  undone := hdone
  unreturned h := by
    rw [hc] at h
    generalize hf : s.feed = feed at h
    cases h with
    | failed => exact absurd hf (hdone _)
    | leaving => exact absurd hf (hleaving _)
  stopping h := by
    cases hf : s.feed with
    | leaving ended => exact absurd hf (hleaving ended)
    | done ended => exact absurd hf (hdone ended)
    | _ =>
      rw [hf, hc] at h
      cases h

theorem goFeed_step {answer : Ended ε Unit} (h : s.goFeed answer = some s') : FeedStep s s' := by
  have hraise := FeedStep.leaveFeed (s := s)
  have hlive : FeedFrame s s' → s.feedCancelled = false → (∀ ended, s.feed ≠ .leaving ended) →
      (∀ ended, s.feed ≠ .done ended) → FeedStep s s' := FeedStep.of_live
  obtain ⟨feed, pending, receive, stream, fc, pc, rc, sc, audio, sent, messages, sunk⟩ := s
  dsimp only [Live.goFeed] at h hraise hlive
  cases feed with
  | created =>
    split_ifs at h with hc <;> cases h
    · exact ⟨⟨rfl, rfl, rfl, rfl, rfl⟩, by simp, fun _ => .failed, fun _ => trivial⟩
    · exact hlive ⟨rfl, rfl, rfl, rfl, rfl⟩ (by simpa using hc) (by simp) (by simp)
  | waiting =>
    split_ifs at h with hc
    · cases h
      exact hraise (by simp) _
    · have hc' : fc = false := by simpa using hc
      cases pending with
      | absent => cases h
      | running => cases h
      | finished produced =>
        cases produced <;> cases h
        · exact hlive ⟨rfl, rfl, rfl, rfl, rfl⟩ hc' (by simp) (by simp)
        · exact hlive ⟨rfl, rfl, rfl, rfl, rfl⟩ hc' (by simp) (by simp)
        · exact hraise (by simp) _
  | keepingAlive =>
    rcases answered_cases h with ⟨rfl, hc⟩ | ⟨e, rfl⟩
    · exact hlive ⟨rfl, rfl, rfl, rfl, rfl⟩ hc (by simp) (by simp)
    · exact hraise (by simp) e
  | sending =>
    rcases answered_cases h with ⟨rfl, hc⟩ | ⟨e, rfl⟩
    · exact hlive ⟨rfl, rfl, rfl, rfl, rfl⟩ hc (by simp) (by simp)
    · exact hraise (by simp) e
  | closing =>
    rcases answered_cases h with ⟨rfl, hc⟩ | ⟨e, rfl⟩
    · exact hlive ⟨rfl, rfl, rfl, rfl, rfl⟩ hc (by simp) (by simp)
    · exact hraise (by simp) e
  | leaving ended =>
    cases pending with
    | absent => cases h
    | running => cases h
    | finished produced =>
      cases h
      refine ⟨⟨rfl, rfl, rfl, rfl, rfl⟩, by simp, fun hun => ?_, fun _ => trivial⟩
      dsimp only
      cases hun with
      | leaving => split_ifs <;> exact .failed
      | cancelled => exact .failed
  | done ended => cases h

theorem goIdle_step (h : s.goIdle = some s') : FeedStep s s' := by
  have hlive : FeedFrame s s' → s.feedCancelled = false → (∀ ended, s.feed ≠ .leaving ended) →
      (∀ ended, s.feed ≠ .done ended) → FeedStep s s' := FeedStep.of_live
  obtain ⟨feed, pending, receive, stream, fc, pc, rc, sc, audio, sent, messages, sunk⟩ := s
  dsimp only [Live.goIdle] at h hlive
  split at h
  · split_ifs at h with hc
    cases h
    exact hlive ⟨rfl, rfl, rfl, rfl, rfl⟩ (by simpa using hc) (by simp) (by simp)
  · cases h

theorem Because.feed_step {ended : Ended (StreamError ε) ℕ} {feed' : Feed ε} {c' : Bool}
    (h : Because feed c receive ended) (hundone : ∀ ended, feed ≠ .done ended)
    (hun : Unreturned feed c → Unreturned feed' c') : Because feed' c' receive ended := by
  match ended with
  | .ok _ => exact absurd h.1 (hundone _)
  | .error .cancelled => trivial
  | .error (.exception .closedBeforeEof) => exact ⟨hun h.1, h.2⟩
  | .error (.exception .timeout) => exact absurd h (hundone _)
  | .error (.exception (.exception _)) =>
    exact h.elim (fun hf => absurd hf (hundone _)) .inr

theorem Live.Awaited.feed_step (h : s.Awaited) (hstep : FeedStep s s') : s'.Awaited := by
  obtain ⟨⟨hstream, hreceive, hrc, -, -⟩, hundone, hun, hstop⟩ := hstep
  unfold Live.Awaited at h ⊢
  rw [hstream, hreceive, hrc]
  generalize s.feed = feed, s.stream = stream, s.receive = receive at h hundone hun hstop
  cases h with
  | waiting => exact .waiting
  | draining => exact absurd rfl (hundone _)
  | expiring => exact absurd rfl (hundone _)
  | cancelling => exact absurd rfl (hundone _)
  | leaving h hfeed hreceive => exact .leaving (h.feed_step hundone hun) (hstop hfeed) hreceive
  | done => exact absurd rfl (hundone _)

/-- A step of `_receive`. -/
structure ReceiveStep (s s' : Live μ ε) : Prop where
  fed : s.Fed → s'.Fed
  stream : s'.stream = s.stream
  feed : s'.feed = s.feed
  feedCancelled : s'.feedCancelled = s.feedCancelled
  receiveCancelled : s'.receiveCancelled = s.receiveCancelled
  undone : ∀ ended, s.receive ≠ .done ended

theorem goReceive_step {incoming : Incoming μ ε} (h : s.goReceive live incoming = some s') :
    ReceiveStep s s' := by
  obtain ⟨feed, pending, receive, stream, fc, pc, rc, sc, audio, sent, messages, sunk⟩ := s
  dsimp only [Live.goReceive] at h
  cases receive with
  | created =>
    split_ifs at h <;> cases h
    · exact ⟨id, rfl, rfl, rfl, rfl, by simp⟩
    · exact ⟨id, rfl, rfl, rfl, rfl, by simp⟩
  | reading finals =>
    cases incoming with
    | message m =>
      split_ifs at h
      dsimp only at h
      split at h <;> cases h
      · exact ⟨id, rfl, rfl, rfl, rfl, by simp⟩
      · exact ⟨id, rfl, rfl, rfl, rfl, by simp⟩
    | closed =>
      split_ifs at h
      cases h
      exact ⟨id, rfl, rfl, rfl, rfl, by simp⟩
    | raised e =>
      cases h
      exact ⟨id, rfl, rfl, rfl, rfl, by simp⟩
  | sinking => cases h
  | done => cases h

theorem goSink_step {answer : Ended ε Unit} (h : s.goSink answer = some s') :
    ReceiveStep s s' := by
  obtain ⟨feed, pending, receive, stream, fc, pc, rc, sc, audio, sent, messages, sunk⟩ := s
  dsimp only [Live.goSink] at h
  split at h
  · split_ifs at h
    cases h
    exact ⟨id, rfl, rfl, rfl, rfl, by simp⟩
  · cases h
    exact ⟨id, rfl, rfl, rfl, rfl, by simp⟩
  · cases h

theorem Because.receive_step {ended : Ended (StreamError ε) ℕ} {receive' : Receive ε}
    (h : Because feed c receive ended) (hundone : ∀ ended, receive ≠ .done ended) :
    Because feed c receive' ended := by
  match ended with
  | .ok _ => exact absurd h.2 (hundone _)
  | .error .cancelled => trivial
  | .error (.exception .closedBeforeEof) => exact absurd h.2.choose_spec (hundone _)
  | .error (.exception .timeout) => exact h
  | .error (.exception (.exception _)) => exact h.elim .inl fun hr => absurd hr (hundone _)

theorem Receive.Stopping.step {receive' : Receive ε} (h : receive.Stopping c)
    (hundone : ∀ ended, receive ≠ .done ended) : receive'.Stopping c := by
  have hc : c = true := by
    cases receive with
    | done ended => exact absurd rfl (hundone ended)
    | _ => exact h
  cases receive' with
  | done => trivial
  | _ => exact hc

theorem Live.Awaited.receive_step (h : s.Awaited) (hstep : ReceiveStep s s') : s'.Awaited := by
  obtain ⟨-, hstream, hfeed, hfc, hrc, hundone⟩ := hstep
  unfold Live.Awaited at h ⊢
  rw [hstream, hfeed, hfc, hrc]
  generalize s.feed = feed, s.stream = stream, s.receive = receive at h hundone
  cases h with
  | waiting => exact .waiting
  | draining => exact .draining
  | expiring => exact .expiring
  | cancelling => exact .cancelling
  | leaving h hfeed hreceive =>
    exact .leaving (h.receive_step hundone) hfeed (hreceive.step hundone)
  | done => exact absurd rfl (hundone _)

theorem Feed.stopping_true (feed : Feed ε) : feed.Stopping true := by
  cases feed <;> simp [Stopping]

theorem Receive.stopping_true (receive : Receive ε) : receive.Stopping true := by
  cases receive <;> simp [Stopping]

theorem leaveStream_awaited (s : Live μ ε) (ended : Ended (StreamError ε) ℕ)
    (h : Because s.feed true s.receive ended) : (s.leaveStream ended).Awaited :=
  .leaving h (Feed.stopping_true _) (Receive.stopping_true _)

/-- `_stream` raises what one of the tasks has raised. -/
theorem because_lift {e : Raised ε}
    (h : feed = .done (.error e) ∨ receive = .done (.error e)) :
    Because feed c receive (.error (lift e)) := by
  cases e with
  | exception e => exact h
  | cancelled => trivial

theorem because_lift_received {ended : Ended ε ℕ} (hfeed : feed = .done (.ok ()))
    (hreceive : receive = .done ended) : Because feed c receive ended.lift := by
  cases ended with
  | ok finals => exact ⟨hfeed, hreceive⟩
  | error e => exact because_lift (.inr hreceive)

theorem Because.cancel {ended : Ended (StreamError ε) ℕ} (h : Because feed c receive ended) :
    Because feed true receive ended := by
  match ended with
  | .ok _ => exact h
  | .error .cancelled => trivial
  | .error (.exception .closedBeforeEof) =>
    refine ⟨?_, h.2⟩
    cases h.1 with
    | failed => exact .failed
    | leaving => exact .leaving
    | cancelled hundone => exact .cancelled hundone
  | .error (.exception .timeout) => exact h
  | .error (.exception (.exception _)) => exact h

theorem Live.Awaited.goStream (h : s.Awaited) (hstep : s.goStream = some s') : s'.Awaited := by
  have hleave := leaveStream_awaited s
  obtain ⟨feed, pending, receive, stream, fc, pc, rc, sc, audio, sent, messages, sunk⟩ := s
  change Transcription.Awaited stream feed fc receive rc at h
  dsimp only [Live.goStream] at hstep hleave
  cases h with
  | waiting =>
    split_ifs at hstep
    · cases hstep
      exact hleave _ trivial
    · dsimp only at hstep
      split at hstep <;> cases hstep
      · exact hleave _ ⟨rfl, rfl⟩
      · exact hleave _ (because_lift (.inl rfl))
      · rename_i hok herror
        refine hleave _ ⟨.cancelled fun ended => ?_, _, rfl⟩
        cases ended with
        | ok => exact hok _
        | error e => exact herror e
      · exact hleave _ (because_lift (.inr rfl))
      · exact .draining
      · exact hleave _ (because_lift (.inl rfl))
  | draining =>
    dsimp only at hstep
    split at hstep <;> cases hstep
    exact hleave _ (because_lift_received rfl rfl)
  | expiring =>
    dsimp only at hstep
    split at hstep <;> cases hstep
    · exact hleave _ rfl
    · exact hleave _ (because_lift_received rfl rfl)
  | cancelling =>
    dsimp only at hstep
    split at hstep <;> cases hstep
    exact hleave _ (because_lift_received rfl rfl)
  | leaving h =>
    dsimp only at hstep
    split at hstep <;> cases hstep
    refine .done ?_
    cases sc
    · exact h
    · trivial
  | done => cases hstep

theorem Live.Awaited.goExpire (h : s.Awaited) (hstep : s.goExpire = some s') : s'.Awaited := by
  have hleave := leaveStream_awaited s
  obtain ⟨feed, pending, receive, stream, fc, pc, rc, sc, audio, sent, messages, sunk⟩ := s
  change Transcription.Awaited stream feed fc receive rc at h
  dsimp only [Live.goExpire] at hstep hleave
  cases h with
  | draining =>
    dsimp only at hstep
    split at hstep <;> cases hstep
    · exact hleave _ rfl
    · exact .expiring
  | _ => cases hstep

theorem Live.Awaited.goCancel (h : s.Awaited) (hstep : s.goCancel = some s') : s'.Awaited := by
  have hleave := leaveStream_awaited s
  obtain ⟨feed, pending, receive, stream, fc, pc, rc, sc, audio, sent, messages, sunk⟩ := s
  change Transcription.Awaited stream feed fc receive rc at h
  dsimp only [Live.goCancel] at hstep hleave
  cases h with
  | waiting =>
    cases hstep
    exact .waiting
  | leaving h =>
    cases hstep
    exact .leaving h.cancel (Feed.stopping_true _) (Receive.stopping_true _)
  | done => cases hstep
  | _ =>
    dsimp only at hstep
    split at hstep <;> cases hstep
    · exact hleave _ trivial
    · exact .cancelling

/-- What `_stream` itself does not touch. -/
def SameWork (s s' : Live μ ε) : Prop :=
  ∃ stream fc rc sc, s' = { s with stream := stream, feedCancelled := fc, receiveCancelled := rc
                                   streamCancelled := sc }

theorem goStream_work (h : s.goStream = some s') : SameWork s s' := by
  unfold Live.goStream at h
  split at h
  · split_ifs at h
    · cases h
      exact ⟨_, _, _, _, rfl⟩
    · split at h <;> cases h <;> exact ⟨_, _, _, _, rfl⟩
  all_goals first
    | (split at h <;> cases h <;> exact ⟨_, _, _, _, rfl⟩)
    | cases h

theorem goExpire_work (h : s.goExpire = some s') : SameWork s s' := by
  unfold Live.goExpire at h
  split at h
  · split at h <;> cases h <;> exact ⟨_, _, _, _, rfl⟩
  · cases h

theorem goCancel_work (h : s.goCancel = some s') : SameWork s s' := by
  unfold Live.goCancel at h
  split at h
  all_goals first
    | (split at h <;> cases h <;> exact ⟨_, _, _, _, rfl⟩)
    | (cases h; exact ⟨_, _, _, _, rfl⟩)
    | cases h

end waiting

section runs

/-- What holds wherever the three tasks are. -/
structure Live.Sound (live : μ → Option (Segment × Bool)) (s : Live μ ε) : Prop where
  fed : s.Fed
  read : s.Read live
  awaited : s.Awaited

theorem Live.Sound.of_work (h : s.Sound live) (hwork : SameWork s s') (ha : s'.Awaited) :
    s'.Sound live := by
  obtain ⟨_, _, _, _, rfl⟩ := hwork
  exact ⟨h.fed, ⟨h.read.sunk, h.read.counts⟩, ha⟩

theorem Live.Sound.of_feed (h : s.Sound live) (hfed : s'.Fed) (hstep : FeedStep s s') :
    s'.Sound live := by
  refine ⟨hfed, ⟨?_, ?_⟩, h.awaited.feed_step hstep⟩
  · rw [hstep.frame.sunk, hstep.frame.messages, h.read.sunk]
  · rw [hstep.frame.sunk, hstep.frame.receive]
    exact h.read.counts

theorem Live.Sound.step {e : StreamEvent μ ε} (h : s.Sound live) (hstep : s.step live e = some s') :
    s'.Sound live := by
  cases e with
  | audio produced =>
    have hfed := h.fed.goAudio hstep
    obtain ⟨-, hread, hawaited⟩ := h
    dsimp only [Live.step, Live.goAudio] at hstep
    split at hstep
    · split_ifs at hstep
      cases hstep
      exact ⟨hfed, ⟨hread.sunk, hread.counts⟩, hawaited⟩
    · split_ifs at hstep
      cases hstep
      exact ⟨hfed, ⟨hread.sunk, hread.counts⟩, hawaited⟩
    · cases hstep
      exact ⟨hfed, ⟨hread.sunk, hread.counts⟩, hawaited⟩
    · cases hstep
  | feed answer => exact h.of_feed (h.fed.goFeed hstep) (goFeed_step hstep)
  | idle => exact h.of_feed (h.fed.goIdle hstep) (goIdle_step hstep)
  | receive incoming =>
    have hreceive := goReceive_step hstep
    exact ⟨hreceive.fed h.fed, h.read.goReceive hstep, h.awaited.receive_step hreceive⟩
  | sink answer =>
    have hsink := goSink_step hstep
    exact ⟨hsink.fed h.fed, h.read.goSink hstep, h.awaited.receive_step hsink⟩
  | stream => exact h.of_work (goStream_work hstep) (h.awaited.goStream hstep)
  | expire => exact h.of_work (goExpire_work hstep) (h.awaited.goExpire hstep)
  | cancel => exact h.of_work (goCancel_work hstep) (h.awaited.goCancel hstep)

theorem Live.Sound.run {es : List (StreamEvent μ ε)} (h : s.Sound live)
    (hrun : s.run live es = some s') : s'.Sound live := by
  induction es generalizing s with
  | nil =>
    cases Option.some.inj hrun
    exact h
  | cons e es ih =>
    obtain ⟨u, hu, hrun⟩ := Option.bind_eq_some_iff.mp hrun
    exact ih (h.step hu) hrun

theorem Live.sound_start (live : μ → Option (Segment × Bool)) : Sound live ({} : Live μ ε) :=
  ⟨.created, ⟨rfl, rfl⟩, .waiting⟩

theorem Fed.unclosed_or_closed {feed : Feed ε} {pending : Pending ε} {c : Bool}
    {audio : List Bytes} {sent : List Sent} (h : Fed feed pending c audio sent) :
    (∃ hand, hand.length ≤ 1 ∧ Unclosed audio sent hand) ∨
      (Closed audio sent ∧ pending = .finished .stop) := by
  cases h with
  | created => exact .inl ⟨[], Nat.zero_le 1, List.not_mem_nil, rfl⟩
  | waiting h => exact .inl ⟨_, Pending.length_inHand _, h⟩
  | keepingAlive h => exact .inl ⟨_, Pending.length_inHand _, h⟩
  | sending h => exact .inl ⟨[], Nat.zero_le 1, h⟩
  | leaving h hhand => exact .inl ⟨_, hhand, h⟩
  | failed h hhand => exact .inl ⟨_, hhand, h⟩
  | closing h => exact .inr ⟨h, rfl⟩
  | closed h => exact .inr ⟨h, rfl⟩
  | done h => exact .inr ⟨h, rfl⟩

theorem Fed.of_returned {pending : Pending ε} {c : Bool} {audio : List Bytes} {sent : List Sent}
    (h : Fed (.done (.ok ())) pending c audio sent) :
    Closed audio sent ∧ pending = .finished .stop := by
  cases h with
  | done h => exact ⟨h, rfl⟩

/-- What the end of a stream tells of what it has done. -/
def Live.Tells (s : Live μ ε) : Ended (StreamError ε) ℕ → Prop
  | .ok finals => Closed s.audio s.sent ∧ s.pending = .finished .stop ∧
    s.receive = .done (.ok finals) ∧ finals = s.sunk.length
  | .error (.exception .timeout) => Closed s.audio s.sent ∧ s.pending = .finished .stop
  | .error (.exception .closedBeforeEof) =>
    (∃ e, s.feed = .done (.error e)) ∧ s.receive = .done (.ok s.sunk.length)
  | .error (.exception (.exception e)) =>
    s.feed = .done (.error (.exception e)) ∨ s.receive = .done (.error (.exception e))
  | .error .cancelled => True

theorem Live.Sound.tells (h : s.Sound live) {ended : Ended (StreamError ε) ℕ}
    (hstream : s.stream = .done ended) : s.Tells ended := by
  obtain ⟨hfed, ⟨-, hcounts⟩, hawaited⟩ := h
  unfold Live.Awaited at hawaited
  unfold Live.Fed at hfed
  rw [hstream] at hawaited
  generalize hf : s.feed = feed, hr : s.receive = receive at hawaited
  rw [hf] at hfed
  rw [hr] at hcounts
  cases hawaited with
  | done hbecause =>
    match ended with
    | .ok finals =>
      obtain ⟨hfeed, hreceive⟩ := hbecause
      rw [hfeed] at hfed
      rw [hreceive] at hcounts hr
      exact ⟨hfed.of_returned.1, hfed.of_returned.2, hr, hcounts.symm⟩
    | .error .cancelled => trivial
    | .error (.exception .timeout) =>
      have hfeed : _ = Feed.done (.ok ()) := hbecause
      rw [hfeed] at hfed
      exact hfed.of_returned
    | .error (.exception .closedBeforeEof) =>
      obtain ⟨hun, finals, hreceive⟩ := hbecause
      rw [hreceive] at hcounts hr
      refine ⟨?_, hcounts ▸ hr⟩
      exact ⟨hun.of_done.choose, hf.trans (congrArg Feed.done hun.of_done.choose_spec)⟩
    | .error (.exception (.exception e)) =>
      exact hbecause.elim (fun h => .inl (hf.trans h)) fun h => .inr (hr.trans h)

/-- When a stream is over, so is everything that it has started. -/
theorem Live.Sound.over (h : s.Sound live) {ended : Ended (StreamError ε) ℕ}
    (hstream : s.stream = .done ended) (e : StreamEvent μ ε) : s.step live e = none := by
  obtain ⟨hfed, -, hawaited⟩ := h
  obtain ⟨feed, pending, receive, stream, fc, pc, rc, sc, audio, sent, messages, sunk⟩ := s
  cases hstream
  change Transcription.Fed feed pending pc audio sent at hfed
  change Transcription.Awaited (.done ended) feed fc receive rc at hawaited
  cases hawaited with
  | done =>
    cases e with
    | audio produced =>
      cases hfed with
      | failed _ _ hp =>
        cases pending with
        | absent => rfl
        | running => exact absurd rfl hp
        | finished => rfl
      | done => rfl
    | receive incoming => rfl
    | sink answer => rfl
    | _ => rfl

/-- In whatever order the tasks go on and are cancelled, the audio is sent in order and without a
gap, all but one chunk at most, and a close is sent once, last and after all of it; the final
segments go to the sink in the order they come in. When the stream is over nothing of it goes on,
and its outcome tells what was done: a count is that of the segments handed on, with all the audio
sent and closed, and so on for what it raises. -/
theorem stream_sound (live : μ → Option (Segment × Bool)) (es : List (StreamEvent μ ε))
    (s : Live μ ε) (hrun : Live.run live {} es = some s) :
    ((∃ hand, hand.length ≤ 1 ∧ Unclosed s.audio s.sent hand) ∨
      (Closed s.audio s.sent ∧ s.pending = .finished .stop)) ∧
    s.sunk = s.messages.filterMap (finalSegment live) ∧
    ∀ ended, s.stream = .done ended → s.Tells ended ∧ ∀ e, s.step live e = none := by
  have hsound := (Live.sound_start live).run hrun
  exact ⟨hsound.fed.unclosed_or_closed, hsound.read.sunk,
    fun ended hstream => ⟨hsound.tells hstream, hsound.over hstream⟩⟩

/-- A stream of one chunk and one final segment. -/
def onceThrough : List (StreamEvent Segment Unit) :=
  [.feed (.ok ()), .receive .closed, .audio (.chunk [1, 2]), .feed (.ok ()), .feed (.ok ()), .idle,
    .feed (.ok ()), .audio .stop, .feed (.ok ()), .receive (.message ⟨"text", 0, 1, none⟩),
    .feed (.ok ()), .feed (.ok ()), .stream, .sink (.ok ()), .receive .closed, .stream, .stream]

theorem stream_sound_once : ∃ s, Live.run (fun m => some (m, true)) {} onceThrough = some s ∧
    s.stream = .done (.ok 1) ∧ s.sent = [.media [1, 2], .keepAlive, .closeStream] ∧ s.Tells (.ok 1) :=
  ⟨_, rfl, rfl, rfl, ((stream_sound (fun m => some (m, true)) onceThrough _ rfl).2.2 (.ok 1) rfl).1⟩

end runs

end Fakery.Transcription
