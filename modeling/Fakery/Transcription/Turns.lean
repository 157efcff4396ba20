import Fakery.Transcription.Heard

/-! What one step of the queue, of the decoder and of the stream changes of what the others see. -/
namespace Fakery.Transcription
open Fakery.Bots Fakery.Concurrent.Task Fakery.Storage

variable {μ δ ε : Type}

section decoder

variable {d d' : Decoder δ} {ffmpeg : Bytes → Bytes} {e : DecodeEvent δ}

/-- The generator waits for something other than its next samples, or has left. -/
def Generator.winding : Generator ε → Bool
  | .reading | .yielding => false
  | _ => true

/-- The generator leaves, or has left, because it is closed. -/
def Generator.closing : Generator ε → Bool
  | .leaving _ .closed | .done .closed => true
  | _ => false

/-- A step in which the queue has no part: what it does to the generator and what this yields. -/
inductive Decoder.Moves (d d' : Decoder δ) : DecodeEvent δ → Prop
  | stays {e : DecodeEvent δ} (generator : d'.generator = d.generator)
      (yielded : d'.yielded = d.yielded) : Moves d d' e
  | yields {size : ℕ} {block : Bytes} (before : d.generator = .reading)
      (after : d'.generator = .yielding) (yielded : d'.yielded = d.yielded ++ [block]) :
      Moves d d' (.read size)
  | drained {size : ℕ} (before : d.generator = .reading) (after : d'.generator = .awaitingFeed)
      (yielded : d'.yielded = d.yielded) : Moves d d' (.read size)
  | resumes (before : d.generator = .yielding) (after : d'.generator = .reading)
      (yielded : d'.yielded = d.yielded) : Moves d d' .next
  | closes (before : d.generator = .yielding) (after : d'.generator = .leaving .feed .closed)
      (yielded : d'.yielded = d.yielded) : Moves d d' .close
  | cancels (before : d.generator = .reading)
      (after : d'.generator = .leaving .feed (.raised .cancelled))
      (yielded : d'.yielded = d.yielded) : Moves d d' .cancel
  | winds {e : DecodeEvent δ} (before : d.generator.winding = true)
      (undone : ∀ why, d.generator ≠ .done why) (after : d'.generator.winding = true)
      (closing : d'.generator.closing = true → d.generator.closing = true)
      (yielded : d'.yielded = d.yielded) : Moves d d' e

structure Decoder.Turn (d d' : Decoder δ) (e : DecodeEvent δ) : Prop where
  chunks : d'.chunks = d.chunks
  chunksEnded : d'.chunksEnded = d.chunksEnded
  moves : Decoder.Moves d d' e

theorem turn_stays {feed : Feeder δ} {broken outputOpen : Bool} {pipe output : Bytes}
    {returncode : Option ℤ}
    (h : d' = { d with feed := feed, broken := broken, outputOpen := outputOpen, pipe := pipe
                       output := output, returncode := returncode }) : d.Turn d' e := by
  subst h
  exact ⟨rfl, rfl, .stays rfl rfl⟩

theorem turn_goRead {size : ℕ} (h : d.goRead size = some d') : d.Turn d' (.read size) := by
  unfold Decoder.goRead at h
  split at h
  · rename_i hreading
    split_ifs at h
    · cases h
      exact ⟨rfl, rfl, .drained hreading rfl rfl⟩
    · cases h
      exact ⟨rfl, rfl, .yields hreading rfl rfl⟩
  · cases h

theorem turn_winds {g g' : Generator δ} {cancelled cut : Bool} (hg : d.generator = g)
    (hbefore : g.winding = true) (hundone : ∀ why, g ≠ .done why) (hafter : g'.winding = true)
    (hclosing : g'.closing = true → g.closing = true)
    (h : d' = { d with generator := g', feedCancelled := cancelled, cut := cut }) :
    d.Turn d' e := by
  subst h hg
  exact ⟨rfl, rfl, .winds hbefore hundone hafter hclosing rfl⟩

@[simp] theorem closing_leaving {cleanUp : CleanUp} {why : Leave δ} :
    Generator.closing (.leaving cleanUp why) = Generator.closing (.done why) := by
  cases why <;> rfl

theorem turn_goOn (h : d.goOn = some d') : d.Turn d' e := by
  cases hg : d.generator with
  | reading | yielding | done =>
    simp only [Decoder.goOn, hg] at h
    cases h
  | awaitingFeed =>
    simp only [Decoder.goOn, hg] at h
    split at h <;> cases h
    · exact turn_winds hg rfl nofun rfl (fun hc => by cases hc) rfl
    · rename_i r _
      exact turn_winds hg rfl nofun rfl (fun hc => by cases r <;> cases hc) rfl
  | awaitingExit =>
    simp only [Decoder.goOn, hg] at h
    split at h <;> cases h <;>
      exact turn_winds hg rfl nofun rfl (fun hc => by cases hc) rfl
  | leaving cleanUp why =>
    cases cleanUp with
    | feed =>
      simp only [Decoder.goOn, hg] at h
      split at h
      · split_ifs at h <;> cases h
        · exact turn_winds hg rfl nofun rfl (fun hc => by cases hc) rfl
        · exact turn_winds hg rfl nofun rfl (by simp) rfl
        · exact turn_winds hg rfl nofun rfl (by simp) rfl
      · cases h
    | terminated | killed =>
      simp only [Decoder.goOn, hg] at h
      split_ifs at h
      cases h
      exact turn_winds hg rfl nofun rfl (by simp) rfl

theorem turn_goExpire {lost : Bool} (h : d.goExpire lost = some d') : d.Turn d' e := by
  unfold Decoder.goExpire at h
  split at h
  · rename_i why hg
    split_ifs at h <;> cases h
    · exact turn_winds hg rfl nofun rfl (fun hc => by cases hc) rfl
    · exact turn_winds hg rfl nofun rfl (by simp) rfl
  · cases h

theorem turn_goCancel (h : d.goCancel = some d') : d.Turn d' .cancel := by
  unfold Decoder.goCancel at h
  split at h
  · rename_i hg
    cases h
    exact ⟨rfl, rfl, .cancels hg rfl rfl⟩
  · rename_i hg
    cases h
    exact turn_winds hg rfl nofun rfl (fun hc => by cases hc) rfl
  · rename_i hg
    split at h <;> cases h
    · exact turn_winds hg rfl nofun rfl (fun hc => by cases hc) rfl
    · exact turn_winds hg rfl nofun (by rw [hg]; rfl) (fun hc => hg ▸ hc) rfl
  · rename_i hg
    cases h
    exact turn_winds hg rfl nofun (by rw [hg]; rfl) (fun hc => hg ▸ hc) rfl
  · rename_i hg
    cases h
    exact turn_winds hg rfl nofun rfl (fun hc => by cases hc) rfl
  · cases h
  · cases h

theorem turn_step (h : d.step ffmpeg e = some d')
    (he : ∀ produced, e = .chunk produced → ∃ r, produced = .raised r) : d.Turn d' e := by
  cases e with
  | start =>
    simp only [Decoder.step, Decoder.startFeed] at h
    split at h
    · split_ifs at h <;> cases h <;> exact turn_stays rfl
    · cases h
  | chunk produced =>
    obtain ⟨r, rfl⟩ := he produced rfl
    cases hfeed : d.feed <;> simp only [Decoder.step, Decoder.feedChunk, hfeed] at h <;> cases h
    exact turn_stays rfl
  | drain answer =>
    simp only [Decoder.step, Decoder.feedDrain] at h
    split at h
    · split_ifs at h
      cases h
      exact turn_stays rfl
    · cases h
      exact turn_stays rfl
    · cases h
      exact turn_stays rfl
    · cases h
  | read size => exact turn_goRead h
  | next =>
    simp only [Decoder.step] at h
    split at h
    · rename_i hyielding
      cases h
      exact ⟨rfl, rfl, .resumes hyielding rfl rfl⟩
    · cases h
  | close =>
    simp only [Decoder.step] at h
    split at h
    · rename_i hyielding
      cases h
      exact ⟨rfl, rfl, .closes hyielding rfl rfl⟩
    · cases h
  | go => exact turn_goOn h
  | expire lost => exact turn_goExpire h
  | cancel => exact turn_goCancel h
  | write data =>
    simp only [Decoder.step] at h
    split_ifs at h
    cases h
    exact turn_stays rfl
  | closeOutput =>
    cases h
    exact turn_stays rfl
  | exit code =>
    simp only [Decoder.step] at h
    split_ifs at h
    cases h
    exact turn_stays rfl

theorem feedChunk_chunk {data : Bytes} (h : d.feedChunk (.chunk data) = some d') :
    d'.chunks = d.chunks ++ [data] ∧ d'.chunksEnded = d.chunksEnded := by
  cases hfeed : d.feed with
  | waiting =>
    simp only [Decoder.feedChunk, hfeed] at h
    split_ifs at h <;> cases h <;> exact ⟨rfl, rfl⟩
  | _ =>
    simp only [Decoder.feedChunk, hfeed] at h
    cases h

theorem feedChunk_stop (h : d.feedChunk .stop = some d') :
    d'.chunks = d.chunks ∧ d'.chunksEnded = true := by
  cases hfeed : d.feed with
  | waiting =>
    simp only [Decoder.feedChunk, hfeed] at h
    split_ifs at h
    cases h
    exact ⟨rfl, rfl⟩
  | _ =>
    simp only [Decoder.feedChunk, hfeed] at h
    cases h

end decoder

section stream

variable {live : μ → Option (Segment × Bool)} {s s' : Live μ ε} {e : StreamEvent μ ε}
  {produced : Produced ε}

def Produced.samples : Produced ε → List Bytes
  | .chunk data => [data]
  | _ => []

/-- An `anext` ends. -/
theorem goAudio_eq (h : s.goAudio produced = some s') : s.pending = .running ∧
    s' = { s with pending := .finished produced, audio := s'.audio } ∧
    s'.audio = s.audio ++ produced.samples := by
  cases hpending : s.pending with
  | absent | finished =>
    simp only [Live.goAudio, hpending] at h
    cases h
  | running =>
    cases produced with
    | raised r =>
      simp only [Live.goAudio, hpending] at h
      cases h
      exact ⟨rfl, rfl, (List.append_nil _).symm⟩
    | chunk data =>
      simp only [Live.goAudio, hpending] at h
      split_ifs at h
      cases h
      exact ⟨rfl, rfl, rfl⟩
    | stop =>
      simp only [Live.goAudio, hpending] at h
      split_ifs at h
      cases h
      exact ⟨rfl, rfl, (List.append_nil _).symm⟩

/-- A step in which the decoder has no part: what it does to the `anext` and to the feeding task. -/
structure Live.Turn (s s' : Live μ ε) : Prop where
  audio : s'.audio = s.audio
  pending : s'.pending = s.pending ∨ s'.pending = .running ∧ (s.feed = .created ∨ s.feed = .sending)
  done : ∀ ended, s.feed = .done ended → s'.feed = .done ended

theorem turn_of_feed {g : Feed ε} (hf : s.feed = g) (hg : ∀ r, g ≠ .done r)
    (haudio : s'.audio = s.audio) (hpending : s'.pending = s.pending) : Live.Turn s s' :=
  ⟨haudio, Or.inl hpending, fun r hr => absurd (hf.symm.trans hr) (hg r)⟩

theorem turn_nextChunk (hf : s.feed = .created ∨ s.feed = .sending) : Live.Turn s s.nextChunk := by
  refine ⟨rfl, Or.inr ⟨rfl, hf⟩, fun r hr => ?_⟩
  rcases hf with hf | hf <;> cases hf.symm.trans hr

theorem turn_answered {next : Live μ ε} {answer : Ended ε Unit} (hg : ∀ r, s.feed ≠ .done r)
    (hnext : Live.Turn s next) (h : s.answered next answer = some s') : Live.Turn s s' := by
  cases answer with
  | ok u =>
    simp only [Live.answered] at h
    split_ifs at h
    cases h
    exact hnext
  | error r =>
    cases h
    exact turn_of_feed rfl hg rfl rfl

theorem turn_goFeed {answer : Ended ε Unit} (h : s.goFeed answer = some s') : Live.Turn s s' := by
  cases hf : s.feed with
  | created =>
    simp only [Live.goFeed, hf] at h
    split_ifs at h <;> cases h
    · exact turn_of_feed hf nofun rfl rfl
    · exact turn_nextChunk (Or.inl hf)
  | waiting =>
    simp only [Live.goFeed, hf] at h
    split_ifs at h
    · cases h
      exact turn_of_feed hf nofun rfl rfl
    · split at h <;> cases h <;> exact turn_of_feed hf nofun rfl rfl
  | keepingAlive =>
    simp only [Live.goFeed, hf] at h
    refine turn_answered (by simp [hf]) ?_ h
    exact turn_of_feed hf nofun rfl rfl
  | sending =>
    simp only [Live.goFeed, hf] at h
    exact turn_answered (by simp [hf]) (turn_nextChunk (Or.inr hf)) h
  | closing =>
    simp only [Live.goFeed, hf] at h
    refine turn_answered (by simp [hf]) ?_ h
    exact turn_of_feed hf nofun rfl rfl
  | leaving ended =>
    simp only [Live.goFeed, hf] at h
    split at h <;> cases h
    exact turn_of_feed hf nofun rfl rfl
  | done ended =>
    simp only [Live.goFeed, hf] at h
    cases h

theorem turn_goIdle (h : s.goIdle = some s') : Live.Turn s s' := by
  unfold Live.goIdle at h
  split at h
  · rename_i hf hp
    split_ifs at h
    cases h
    exact turn_of_feed hf nofun rfl rfl
  · cases h

/-- A step that leaves the feeding task and the `anext` alone. -/
theorem turn_aside (haudio : s'.audio = s.audio) (hpending : s'.pending = s.pending)
    (hfeed : s'.feed = s.feed) : Live.Turn s s' :=
  ⟨haudio, Or.inl hpending, fun _ h => hfeed.trans h⟩

theorem turn_of_work (h : SameWork s s') : Live.Turn s s' := by
  obtain ⟨_, _, _, _, rfl⟩ := h
  exact turn_aside rfl rfl rfl

theorem turn_goReceive {incoming : Incoming μ ε} (h : s.goReceive live incoming = some s') :
    Live.Turn s s' := by
  unfold Live.goReceive at h
  split at h
  · split_ifs at h <;> cases h <;> exact turn_aside rfl rfl rfl
  · split at h
    · split_ifs at h
      split at h <;> cases h <;> exact turn_aside rfl rfl rfl
    · split_ifs at h
      cases h
      exact turn_aside rfl rfl rfl
    · cases h
      exact turn_aside rfl rfl rfl
  · cases h
  · cases h

theorem turn_goSink {answer : Ended ε Unit} (h : s.goSink answer = some s') : Live.Turn s s' := by
  unfold Live.goSink at h
  split at h
  · split_ifs at h
    cases h
    exact turn_aside rfl rfl rfl
  · cases h
    exact turn_aside rfl rfl rfl
  · cases h

theorem turn_live (h : s.step live e = some s') (he : ∀ produced, e ≠ .audio produced) :
    Live.Turn s s' := by
  cases e with
  | audio produced => exact absurd rfl (he produced)
  | feed answer => exact turn_goFeed h
  | idle => exact turn_goIdle h
  | receive incoming => exact turn_goReceive h
  | sink answer => exact turn_goSink h
  | stream => exact turn_of_work (goStream_work h)
  | expire => exact turn_of_work (goExpire_work h)
  | cancel => exact turn_of_work (goCancel_work h)

/-- Where the stream is over, so is the task that feeds it. -/
theorem Live.Sound.fed_of_done {live : μ → Option (Segment × Bool)} (h : s.Sound live)
    {ended : Ended (StreamError ε) ℕ} (hstream : s.stream = .done ended) :
    ∃ r, s.feed = .done r := by
  have hawaited := h.awaited
  unfold Live.Awaited at hawaited
  rw [hstream] at hawaited
  generalize s.feed = feed at hawaited
  generalize s.receive = receive at hawaited
  cases hawaited
  exact ⟨_, rfl⟩

theorem Live.Fed.absent (h : s.Fed) (hf : s.feed = .created) : s.pending = .absent := by
  unfold Live.Fed at h
  rw [hf] at h
  generalize s.pending = pending, s.audio = audio, s.sent = sent at h
  cases h
  rfl

theorem Live.Fed.in_hand (h : s.Fed) (hf : s.feed = .sending) :
    ∃ data, s.pending = .finished (.chunk data) := by
  unfold Live.Fed at h
  rw [hf] at h
  generalize s.pending = pending at h
  cases h
  exact ⟨_, rfl⟩

theorem Live.Fed.not_running (h : s.Fed) {r : Ended ε Unit} (hf : s.feed = .done r) :
    s.pending ≠ .running := by
  unfold Live.Fed at h
  rw [hf] at h
  generalize s.pending = pending, s.audio = audio, s.sent = sent at h
  cases h with
  | failed _ _ hp => exact hp
  | done => exact nofun

end stream

section queue

/-- What `_queue_chunks` makes of what it gets. -/
def LiveQueue.produced (s : LiveQueue) : Option (Produced ε) :=
  match s.queue with
  | some data :: _ => some (.chunk data)
  | none :: _ => some .stop
  | [] => none

variable {q q' : LiveQueue} {produced : Produced ε}

theorem queue_kept {e : QueueEvent} (h : q.step e = some q') (he : e ≠ .get) :
    q'.yielded = q.yielded ∧ (q.reader = .ended → q'.reader = .ended) := by
  cases e with
  | get => exact absurd rfl he
  | push data =>
    simp only [LiveQueue.step] at h
    split_ifs at h
    cases h
    rcases pushChunk_cases q data with hq | ⟨-, hq⟩ <;> rw [hq] <;> exact ⟨rfl, id⟩
  | stop =>
    simp only [LiveQueue.step] at h
    split_ifs at h
    cases h
    unfold LiveQueue.stop LiveQueue.putNowait
    split_ifs <;> exact ⟨rfl, id⟩
  | finish =>
    simp only [LiveQueue.step] at h
    split_ifs at h with hreading
    cases h
    exact ⟨rfl, fun hended => by cases hreading.symm.trans hended⟩

theorem get_produced (h : q.get = some q') (hp : q.produced = some produced) :
    q.reader = .reading ∧ ((∃ data, produced = .chunk data ∧ q'.yielded = q.yielded ++ [data]) ∨
      produced = .stop ∧ q'.yielded = q.yielded ∧ q'.reader = .ended) := by
  unfold LiveQueue.get at h
  split at h
  · rename_i hreading hqueue
    cases h
    simp only [LiveQueue.produced, hqueue] at hp
    cases hp
    exact ⟨hreading, Or.inr ⟨rfl, rfl, rfl⟩⟩
  · rename_i chunk _ hreading hqueue
    cases h
    simp only [LiveQueue.produced, hqueue] at hp
    cases hp
    exact ⟨hreading, Or.inl ⟨chunk, rfl, rfl⟩⟩
  · cases h

end queue

end Fakery.Transcription
