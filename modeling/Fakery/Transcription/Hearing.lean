import Fakery.Transcription.Turns

/-! The queue, the decoder and the live stream as one machine, in which each of them takes what the
one before it gives. -/
namespace Fakery.Transcription
open Fakery.Bots Fakery.Concurrent.Task Fakery.Storage

/-- The exceptions of the stream are those that the decoder can raise. -/
structure Hearing (μ δ : Type) where
  queue : LiveQueue := {}
  decoder : Decoder δ := {}
  live : Live μ (DecodeError δ) := {}

/-- `hand` is a turn of `_queue_chunks` for the task that feeds the decoder. -/
inductive HearingEvent (μ δ : Type) where
  | queue (e : QueueEvent)
  | hand
  | decoder (e : DecodeEvent δ)
  | live (e : StreamEvent μ (DecodeError δ))

variable {μ δ ε : Type}

/-- What a step of the decoder gives to the `anext` that awaits it. -/
def Decoder.gives (s s' : Decoder ε) : Option (Produced (DecodeError ε)) :=
  match s.generator, s'.generator with
  | .done _, _ => none
  | .reading, .yielding => s'.yielded.getLast?.map .chunk
  | _, .done .exhausted => some .stop
  | _, .done (.raised e) => some (.raised e)
  | _, _ => none

def Pending.isRunning : Pending ε → Bool
  | .running => true
  | _ => false

def Stream.isDone : Stream ε → Bool
  | .done _ => true
  | _ => false

def Generator.isDone : Generator ε → Bool
  | .done _ => true
  | _ => false

namespace Hearing

/-- The decoder runs for an `anext`, which may be cancelled, and is closed after the stream; its
chunks come from the queue. -/
def allows (s : Hearing μ δ) : DecodeEvent δ → Bool
  | .chunk (.raised _) => true
  | .chunk _ => false
  | .read _ | .next => s.live.pending.isRunning
  | .cancel => s.live.pending.isRunning && s.live.pendingCancelled || s.live.stream.isDone
  | .close => s.live.stream.isDone
  | _ => true

/-- The audio comes from the decoder, but for an `anext` of a generator that is over, and for one
that is cancelled before it starts. -/
def takes (s : Hearing μ δ) : StreamEvent μ (DecodeError δ) → Bool
  | .audio .stop => s.decoder.generator.isDone
  | .audio (.raised .cancelled) => s.live.pendingCancelled
  | .audio _ => false
  | _ => true

/-- The decoder has gone on, and whoever awaits it gets what it gives. -/
def decoded (s : Hearing μ δ) (d : Decoder δ) : Option (Hearing μ δ) :=
  match s.live.pending, s.decoder.gives d with
  | .running, some produced => (s.live.goAudio produced).map fun l =>
    { s with decoder := d, live := l }
  | _, _ => some { s with decoder := d }

def handOver (s : Hearing μ δ) : Option (Hearing μ δ) := do
  let produced ← s.queue.produced
  let q ← s.queue.get
  let d ← s.decoder.feedChunk produced
  some { s with queue := q, decoder := d }

def step (live : μ → Option (Segment × Bool)) (ffmpeg : Bytes → Bytes) (s : Hearing μ δ) :
    HearingEvent μ δ → Option (Hearing μ δ)
  | .queue .get => none
  | .queue e => (s.queue.step e).map fun q => { s with queue := q }
  | .hand => s.handOver
  | .decoder e => if s.allows e then (s.decoder.step ffmpeg e).bind s.decoded else none
  | .live e => if s.takes e then (s.live.step live e).map fun l => { s with live := l } else none

def run (live : μ → Option (Segment × Bool)) (ffmpeg : Bytes → Bytes) (s : Hearing μ δ) :
    List (HearingEvent μ δ) → Option (Hearing μ δ)
  | [] => some s
  | e :: es => (s.step live ffmpeg e).bind fun s' => s'.run live ffmpeg es

end Hearing

section runs

variable {live : μ → Option (Segment × Bool)} {ffmpeg : Bytes → Bytes} {s s' : Hearing μ δ}
  {e : HearingEvent μ δ}

/-- What holds of the three machines together. The generator waits where its last samples were
asked for, unless the stream no longer asks. -/
structure Hearing.Linked (live : μ → Option (Segment × Bool)) (ffmpeg : Bytes → Bytes)
    (s : Hearing μ δ) : Prop where
  queue : s.queue.Sound
  decoder : s.decoder.Sound ffmpeg
  live : s.live.Sound live
  chained : Chained s.queue s.decoder s.live
  running : s.live.pending = .running → ∀ why, s.decoder.generator ≠ .done why
  absent : s.live.pending = .absent → s.decoder.generator = .reading ∨ ∃ r, s.live.feed = .done r
  given : ∀ data, s.live.pending = .finished (.chunk data) →
    s.decoder.generator = .yielding ∨ ∃ r, s.live.feed = .done r
  closing : s.decoder.generator.closing = true → ∃ r, s.live.feed = .done r

theorem Hearing.linked_start : Hearing.Linked live ffmpeg ({} : Hearing μ δ) :=
  ⟨LiveQueue.sound_start, Decoder.sound_start ffmpeg, Live.sound_start live,
    ⟨rfl, nofun, rfl, nofun⟩, nofun, fun _ => Or.inl rfl, nofun, nofun⟩

/-- The queue takes chunks and is stopped. -/
theorem Hearing.Linked.queue_step {e : QueueEvent} (h : s.Linked live ffmpeg)
    (hstep : s.step live ffmpeg (.queue e) = some s') : s'.Linked live ffmpeg := by
  have hget : e ≠ .get := by
    rintro rfl
    cases hstep
  have hqueue : (s.queue.step e).map (fun q => { s with queue := q }) = some s' := by
    cases e with
    | get => exact absurd rfl hget
    | _ => exact hstep
  obtain ⟨q, hq, rfl⟩ := Option.map_eq_some_iff.mp hqueue
  obtain ⟨hyielded, hreader⟩ := queue_kept hq hget
  exact ⟨h.queue.step hq, h.decoder, h.live,
    ⟨h.chained.chunks.trans hyielded.symm, fun hended => hreader (h.chained.ended hended),
      h.chained.audio, h.chained.stop⟩, h.running, h.absent, h.given, h.closing⟩

/-- The decoder is fed with what is read from the queue. -/
theorem Hearing.Linked.handOver (h : s.Linked live ffmpeg) (hstep : s.handOver = some s') :
    s'.Linked live ffmpeg := by
  obtain ⟨produced, hproduced, hstep⟩ := Option.bind_eq_some_iff.mp hstep
  obtain ⟨q, hget, hstep⟩ := Option.bind_eq_some_iff.mp hstep
  obtain ⟨d, hchunk, hstep⟩ := Option.bind_eq_some_iff.mp hstep
  cases hstep
  obtain ⟨hreading, htaken⟩ := get_produced hget hproduced
  have hfresh : s.decoder.chunksEnded = false := by
    refine Bool.eq_false_iff.mpr fun hended => ?_
    cases hreading.symm.trans (h.chained.ended hended)
  have hqueue : q.Sound := h.queue.get hget
  have hdecoder : d.Sound ffmpeg := h.decoder.feeder (feedChunk_step hchunk)
  have hkept : d.generator = s.decoder.generator ∧ d.yielded = s.decoder.yielded := by
    obtain ⟨-, ⟨_, _, _, _, _, rfl⟩, -, -, -⟩ := feedChunk_step hchunk
    exact ⟨rfl, rfl⟩
  have hchained : Chained q d s.live := by
    have haudio := h.chained.audio.trans hkept.2.symm
    have hstop : s.live.pending = .finished .stop → d.generator = .done .exhausted :=
      fun hp => hkept.1.trans (h.chained.stop hp)
    rcases htaken with ⟨data, rfl, hyielded⟩ | ⟨rfl, hyielded, hreader⟩
    · obtain ⟨hchunks, hended⟩ := feedChunk_chunk hchunk
      refine ⟨?_, fun hlast => ?_, haudio, hstop⟩
      · rw [hchunks, hyielded, h.chained.chunks]
      · cases hfresh.symm.trans (hended.symm.trans hlast)
    · obtain ⟨hchunks, -⟩ := feedChunk_stop hchunk
      refine ⟨?_, fun _ => hreader, haudio, hstop⟩
      rw [hchunks, hyielded, h.chained.chunks]
  refine ⟨hqueue, hdecoder, h.live, hchained, ?_, ?_, ?_, ?_⟩
  · rw [hkept.1]
    exact h.running
  · rw [hkept.1]
    exact h.absent
  · rw [hkept.1]
    exact h.given
  · rw [hkept.1]
    exact h.closing

theorem isRunning_iff {pending : Pending ε} : pending.isRunning = true ↔ pending = .running := by
  cases pending <;> simp [Pending.isRunning]

theorem Hearing.Linked.fed_of_isDone (h : s.Linked live ffmpeg)
    (hdone : s.live.stream.isDone = true) : ∃ r, s.live.feed = .done r := by
  cases hstream : s.live.stream with
  | done ended => exact h.live.fed_of_done hstream
  | _ =>
    rw [hstream] at hdone
    cases hdone

/-- The decoder has gone on and nobody awaits it, or it has not yet anything to give. -/
theorem Hearing.Linked.quiet {d : Decoder δ} (h : s.Linked live ffmpeg) (hd : d.Sound ffmpeg)
    (hchunks : d.chunks = s.decoder.chunks) (hended : d.chunksEnded = s.decoder.chunksEnded)
    (hyielded : d.yielded = s.decoder.yielded)
    (hstop : s.live.pending = .finished .stop → d.generator = .done .exhausted)
    (hrunning : s.live.pending = .running → ∀ why, d.generator ≠ .done why)
    (habsent : s.live.pending = .absent → d.generator = .reading ∨ ∃ r, s.live.feed = .done r)
    (hgiven : ∀ data, s.live.pending = .finished (.chunk data) →
      d.generator = .yielding ∨ ∃ r, s.live.feed = .done r)
    (hclosing : d.generator.closing = true → ∃ r, s.live.feed = .done r) :
    Hearing.Linked live ffmpeg { s with decoder := d } where
  queue := h.queue
  decoder := hd
  live := h.live
  chained := ⟨hchunks.trans h.chained.chunks, fun hlast => h.chained.ended (hended ▸ hlast),
    h.chained.audio.trans hyielded.symm, hstop⟩
  running := hrunning
  absent := habsent
  given := hgiven
  closing := hclosing

/-- The decoder has gone on and ends the `anext` that awaits it. -/
theorem Hearing.Linked.delivered {d : Decoder δ} {produced : Produced (DecodeError δ)}
    {l : Live μ (DecodeError δ)} (h : s.Linked live ffmpeg) (hd : d.Sound ffmpeg)
    (hchunks : d.chunks = s.decoder.chunks) (hended : d.chunksEnded = s.decoder.chunksEnded)
    (hl : s.live.goAudio produced = some l)
    (hyielded : d.yielded = s.decoder.yielded ++ produced.samples)
    (hstop : produced = .stop → d.generator = .done .exhausted)
    (hgiven : ∀ data, produced = .chunk data → d.generator = .yielding)
    (hclosing : d.generator.closing = true → ∃ r, s.live.feed = .done r) :
    Hearing.Linked live ffmpeg { s with decoder := d, live := l } := by
  have hsound : l.Sound live := h.live.step (e := .audio produced) hl
  obtain ⟨-, hframe, haudio⟩ := goAudio_eq hl
  have hpending : l.pending = .finished produced := by rw [hframe]
  have hfeed : l.feed = s.live.feed := by rw [hframe]
  refine ⟨h.queue, hd, hsound, ⟨hchunks.trans h.chained.chunks,
    fun hlast => h.chained.ended (hended ▸ hlast), ?_, fun hp => ?_⟩, fun hp => ?_, fun hp => ?_,
    fun data hp => ?_, fun hc => ?_⟩
  · rw [haudio, hyielded, h.chained.audio]
  · exact hstop (Pending.finished.inj (hpending.symm.trans hp))
  · cases hpending.symm.trans hp
  · cases hpending.symm.trans hp
  · exact Or.inl (hgiven data (Pending.finished.inj (hpending.symm.trans hp)))
  · dsimp only
    rw [hfeed]
    exact hclosing hc

theorem decoded_of_none {d : Decoder δ} (h : s.decoder.gives d = none) :
    s.decoded d = some { s with decoder := d } := by
  unfold Hearing.decoded
  rw [h]
  cases s.live.pending <;> rfl

theorem decoded_of_away {d : Decoder δ} (h : s.live.pending ≠ .running) :
    s.decoded d = some { s with decoder := d } := by
  unfold Hearing.decoded
  split
  · rename_i hp _
    exact absurd hp h
  · rfl

theorem decoded_of_some {d : Decoder δ} {produced : Produced (DecodeError δ)}
    (hp : s.live.pending = .running) (h : s.decoder.gives d = some produced) :
    s.decoded d = (s.live.goAudio produced).map fun l => { s with decoder := d, live := l } := by
  unfold Hearing.decoded
  rw [hp, h]

/-- A generator that is winding down gives nothing but its end. -/
theorem gives_of_winding {d d' : Decoder δ} (h : d.generator.winding = true)
    (hundone : ∀ why, d.generator ≠ .done why) (h' : d'.generator.winding = true) :
    d'.generator = .done .exhausted ∧ d.gives d' = some .stop ∨
      (∃ r, d'.generator = .done (.raised r) ∧ d.gives d' = some (.raised r)) ∨
      (∀ why, d'.generator = .done why → why = .closed) ∧ d.gives d' = none := by
  unfold Decoder.gives
  cases hg : d.generator with
  | reading | yielding =>
    rw [hg] at h
    cases h
  | done why => exact absurd hg (hundone why)
  | awaitingFeed | awaitingExit | leaving =>
    cases hg' : d'.generator with
    | reading | yielding =>
      rw [hg'] at h'
      cases h'
    | awaitingFeed | awaitingExit | leaving => exact Or.inr (Or.inr ⟨nofun, rfl⟩)
    | done why =>
      cases why with
      | exhausted => exact Or.inl ⟨rfl, rfl⟩
      | raised r => exact Or.inr (Or.inl ⟨r, rfl, rfl⟩)
      | closed =>
        refine Or.inr (Or.inr ⟨fun why hwhy => ?_, rfl⟩)
        exact (Generator.done.inj hwhy).symm

theorem Hearing.Linked.winds {d : Decoder δ} (h : s.Linked live ffmpeg) (hd : d.Sound ffmpeg)
    (hchunks : d.chunks = s.decoder.chunks) (hended : d.chunksEnded = s.decoder.chunksEnded)
    (hyielded : d.yielded = s.decoder.yielded) (hbefore : s.decoder.generator.winding = true)
    (hundone : ∀ why, s.decoder.generator ≠ .done why) (hafter : d.generator.winding = true)
    (hclosing : d.generator.closing = true → s.decoder.generator.closing = true)
    (hstep : s.decoded d = some s') : s'.Linked live ffmpeg := by
  have hclosed := fun hc => h.closing (hclosing hc)
  have hreading : s.decoder.generator ≠ .reading := by
    intro hg
    rw [hg] at hbefore
    cases hbefore
  have hyielding : s.decoder.generator ≠ .yielding := by
    intro hg
    rw [hg] at hbefore
    cases hbefore
  by_cases hp : s.live.pending = .running
  · have hopen : d.generator.closing ≠ true := by
      intro hc
      obtain ⟨r, hr⟩ := hclosed hc
      exact h.live.fed.not_running hr hp
    have hlast : d.yielded = s.decoder.yielded ++ [] := by rw [hyielded, List.append_nil]
    rcases gives_of_winding hbefore hundone hafter with ⟨hg, hgives⟩ | ⟨r, hg, hgives⟩ |
      ⟨hg, hgives⟩
    · rw [decoded_of_some hp hgives] at hstep
      obtain ⟨l, hl, rfl⟩ := Option.map_eq_some_iff.mp hstep
      exact h.delivered hd hchunks hended hl hlast (fun _ => hg) nofun hclosed
    · rw [decoded_of_some hp hgives] at hstep
      obtain ⟨l, hl, rfl⟩ := Option.map_eq_some_iff.mp hstep
      exact h.delivered hd hchunks hended hl hlast nofun nofun hclosed
    · rw [decoded_of_none hgives] at hstep
      cases hstep
      refine h.quiet hd hchunks hended hyielded (fun hs => by cases hp.symm.trans hs)
        (fun _ why hwhy => hopen ?_) (fun ha => by cases hp.symm.trans ha)
        (fun data hgiven => by cases hp.symm.trans hgiven) hclosed
      rw [hwhy, hg why hwhy]
      rfl
  · rw [decoded_of_away hp] at hstep
    cases hstep
    exact h.quiet hd hchunks hended hyielded
      (fun hs => absurd (h.chained.stop hs) (hundone _)) (fun hr => absurd hr hp)
      (fun ha => Or.inr ((h.absent ha).resolve_left hreading))
      (fun data hg => Or.inr ((h.given data hg).resolve_left hyielding)) hclosed

/-- The generator goes on for an `anext` that is still to end, or when no one asks any more. -/
theorem Hearing.Linked.turned {d : Decoder δ} (h : s.Linked live ffmpeg) (hd : d.Sound ffmpeg)
    (hchunks : d.chunks = s.decoder.chunks) (hended : d.chunksEnded = s.decoder.chunksEnded)
    (hyielded : d.yielded = s.decoder.yielded) (hgives : s.decoder.gives d = none)
    (hbefore : ∀ why, s.decoder.generator ≠ .done why) (hafter : ∀ why, d.generator ≠ .done why)
    (hwho : s.live.pending = .running ∨ ∃ r, s.live.feed = .done r)
    (hclosing : d.generator.closing = true → ∃ r, s.live.feed = .done r)
    (hstep : s.decoded d = some s') : s'.Linked live ffmpeg := by
  rw [decoded_of_none hgives] at hstep
  cases hstep
  refine h.quiet hd hchunks hended hyielded (fun hs => absurd (h.chained.stop hs) (hbefore _))
    (fun _ => hafter) (fun ha => Or.inr ?_) (fun data hgiven => Or.inr ?_) hclosing
  · exact hwho.resolve_left fun hp => by cases hp.symm.trans ha
  · exact hwho.resolve_left fun hp => by cases hp.symm.trans hgiven

theorem Hearing.Linked.decoder_step {e : DecodeEvent δ} (h : s.Linked live ffmpeg)
    (hstep : s.step live ffmpeg (.decoder e) = some s') : s'.Linked live ffmpeg := by
  simp only [Hearing.step] at hstep
  split_ifs at hstep with hallows
  obtain ⟨d, hd, hdecoded⟩ := Option.bind_eq_some_iff.mp hstep
  have hsound : d.Sound ffmpeg := h.decoder.step hd
  obtain ⟨hchunks, hended, hmoves⟩ := turn_step hd fun produced he => by
    subst he
    cases produced with
    | raised r => exact ⟨r, rfl⟩
    | _ => cases hallows
  cases hmoves with
  | stays hg hyielded =>
    have hgives : s.decoder.gives d = none := by
      unfold Decoder.gives
      rw [hg]
      cases s.decoder.generator <;> rfl
    rw [decoded_of_none hgives] at hdecoded
    cases hdecoded
    refine h.quiet hsound hchunks hended hyielded ?_ ?_ ?_ ?_ ?_
    · exact fun hs => hg.trans (h.chained.stop hs)
    · exact fun hp why hwhy => h.running hp why (hg.symm.trans hwhy)
    · exact fun ha => (h.absent ha).imp_left hg.trans
    · exact fun data hgiven => (h.given data hgiven).imp_left hg.trans
    · exact fun hc => h.closing (hg ▸ hc)
  | @yields size block before after hyielded =>
    have hp : s.live.pending = .running := isRunning_iff.mp hallows
    have hgives : s.decoder.gives d = some (.chunk block) := by
      unfold Decoder.gives
      rw [before, after, hyielded]
      simp
    rw [decoded_of_some hp hgives] at hdecoded
    obtain ⟨l, hl, rfl⟩ := Option.map_eq_some_iff.mp hdecoded
    refine h.delivered hsound hchunks hended hl hyielded nofun (fun _ _ => after) fun hc => ?_
    rw [after] at hc
    cases hc
  | drained before after hyielded =>
    have hp : s.live.pending = .running := isRunning_iff.mp hallows
    have hgives : s.decoder.gives d = none := by
      unfold Decoder.gives
      rw [before, after]
    exact h.turned hsound hchunks hended hyielded hgives (by simp [before]) (by simp [after])
      (Or.inl hp) (by simp [after, Generator.closing]) hdecoded
  | resumes before after hyielded =>
    have hp : s.live.pending = .running := isRunning_iff.mp hallows
    have hgives : s.decoder.gives d = none := by
      unfold Decoder.gives
      rw [before, after]
    exact h.turned hsound hchunks hended hyielded hgives (by simp [before]) (by simp [after])
      (Or.inl hp) (by simp [after, Generator.closing]) hdecoded
  | closes before after hyielded =>
    have hfed := h.fed_of_isDone hallows
    have hgives : s.decoder.gives d = none := by
      unfold Decoder.gives
      rw [before, after]
    exact h.turned hsound hchunks hended hyielded hgives (by simp [before]) (by simp [after])
      (Or.inr hfed) (fun _ => hfed) hdecoded
  | cancels before after hyielded =>
    have hwho : s.live.pending = .running ∨ ∃ r, s.live.feed = .done r := by
      rcases (Bool.or_eq_true _ _).mp hallows with hcut | hover
      · exact Or.inl (isRunning_iff.mp ((Bool.and_eq_true _ _).mp hcut).1)
      · exact Or.inr (h.fed_of_isDone hover)
    have hgives : s.decoder.gives d = none := by
      unfold Decoder.gives
      rw [before, after]
    exact h.turned hsound hchunks hended hyielded hgives (by simp [before]) (by simp [after])
      hwho (by simp [after, Generator.closing]) hdecoded
  | winds before undone after hclosing hyielded =>
    exact h.winds hsound hchunks hended hyielded before undone after hclosing hdecoded

theorem Hearing.Linked.live_step {e : StreamEvent μ (DecodeError δ)} (h : s.Linked live ffmpeg)
    (hstep : s.step live ffmpeg (.live e) = some s') : s'.Linked live ffmpeg := by
  simp only [Hearing.step] at hstep
  split_ifs at hstep with htakes
  obtain ⟨l, hl, rfl⟩ := Option.map_eq_some_iff.mp hstep
  have hsound : l.Sound live := h.live.step hl
  by_cases haudio : ∃ produced, e = .audio produced
  · obtain ⟨produced, rfl⟩ := haudio
    obtain ⟨hrunning, -⟩ := goAudio_eq hl
    have hundone : s.decoder.generator.isDone = false := by
      cases hg : s.decoder.generator with
      | done why => exact absurd hg (h.running hrunning why)
      | _ => rfl
    have hraised : produced = .raised .cancelled := by
      cases produced with
      | chunk data => cases htakes
      | stop => cases hundone.symm.trans htakes
      | raised r =>
        cases r with
        | cancelled => rfl
        | exception r => cases htakes
    subst hraised
    exact h.delivered h.decoder rfl rfl hl (List.append_nil _).symm nofun nofun h.closing
  · obtain ⟨hkept, hpending, hdone⟩ := turn_live hl fun produced he => haudio ⟨produced, he⟩
    have hfed : (∃ r, s.live.feed = .done r) → ∃ r, l.feed = .done r :=
      fun ⟨r, hr⟩ => ⟨r, hdone r hr⟩
    rcases hpending with hpending | ⟨hpending, hasks⟩
    · refine ⟨h.queue, h.decoder, hsound, ⟨h.chained.chunks, h.chained.ended,
        hkept.trans h.chained.audio, fun hp => h.chained.stop (hpending.symm.trans hp)⟩,
        fun hp => h.running (hpending.symm.trans hp),
        fun hp => (h.absent (hpending.symm.trans hp)).imp_right hfed,
        fun data hp => (h.given data (hpending.symm.trans hp)).imp_right hfed,
        fun hc => hfed (h.closing hc)⟩
    · have hplace : s.decoder.generator = .reading ∨ s.decoder.generator = .yielding := by
        rcases hasks with hf | hf
        · have hopen : ¬∃ r, s.live.feed = .done r := fun ⟨r, hr⟩ => by cases hf.symm.trans hr
          exact Or.inl ((h.absent (h.live.fed.absent hf)).resolve_right hopen)
        · have hopen : ¬∃ r, s.live.feed = .done r := fun ⟨r, hr⟩ => by cases hf.symm.trans hr
          obtain ⟨data, hdata⟩ := h.live.fed.in_hand hf
          exact Or.inr ((h.given data hdata).resolve_right hopen)
      refine ⟨h.queue, h.decoder, hsound, ⟨h.chained.chunks, h.chained.ended,
        hkept.trans h.chained.audio, fun hp => ?_⟩, fun _ why hwhy => ?_, fun hp => ?_,
        fun data hp => ?_, fun hc => ?_⟩
      · cases hpending.symm.trans hp
      · rcases hplace with hg | hg <;> cases hg.symm.trans hwhy
      · cases hpending.symm.trans hp
      · cases hpending.symm.trans hp
      · rcases hplace with hg | hg <;> rw [hg] at hc <;> cases hc

theorem Hearing.Linked.step (h : s.Linked live ffmpeg) (hstep : s.step live ffmpeg e = some s') :
    s'.Linked live ffmpeg := by
  cases e with
  | queue e => exact h.queue_step hstep
  | hand => exact h.handOver hstep
  | decoder e => exact h.decoder_step hstep
  | live e => exact h.live_step hstep

theorem Hearing.Linked.run {es : List (HearingEvent μ δ)} (h : s.Linked live ffmpeg)
    (hrun : s.run live ffmpeg es = some s') : s'.Linked live ffmpeg := by
  induction es generalizing s with
  | nil =>
    cases Option.some.inj hrun
    exact h
  | cons e es ih =>
    obtain ⟨u, hu, hrun⟩ := Option.bind_eq_some_iff.mp hrun
    exact ih (h.step hu) hrun

/-- In whatever order the recorder, the queue, the decoder, its process and the stream go on, what
the provider hears is a beginning of what the decoder makes of a beginning of what is read from the
queue; and a stream that gives a count has handed on all final segments, with all heard that the
decoder makes of what was written to it. -/
theorem hearing_heard (live : μ → Option (Segment × Bool)) (ffmpeg : Bytes → Bytes)
    (es : List (HearingEvent μ δ)) (s : Hearing μ δ)
    (hrun : Hearing.run live ffmpeg {} es = some s) :
    (medias s.live.sent).flatten <+: s.decoder.output ∧
    s.decoder.stdin <+: s.queue.yielded ∧
    ∀ finals, s.live.stream = .done (.ok finals) →
      finals = (s.live.messages.filterMap (finalSegment live)).length ∧
      (medias s.live.sent).flatten = ffmpeg s.decoder.stdin.flatten ∧
      (s.decoder.broken = false → ∃ before gone after, gone.length ≤ 1 ∧
        s.queue.accepted = before ++ gone ++ after ∧
        (medias s.live.sent).flatten = ffmpeg (before ++ after).flatten) := by
  have hlinked := Hearing.linked_start.run hrun
  obtain ⟨hheard, hstdin⟩ := hlinked.chained.heard hlinked.decoder hlinked.live
  exact ⟨hheard, hstdin, fun finals hdone =>
    hlinked.chained.told hlinked.queue hlinked.decoder hlinked.live hdone⟩

/-- One chunk and one segment, from the recorder to the sink. -/
def heardOnce : List (HearingEvent Segment Unit) :=
  [.queue (.push [1, 2]), .queue .stop, .decoder .start, .hand, .decoder (.write [1, 2]),
    .decoder (.drain .ok), .live (.feed (.ok ())), .live (.receive .closed), .decoder (.read 2),
    .live (.feed (.ok ())), .live (.feed (.ok ())), .decoder .next, .hand, .decoder (.exit 0),
    .decoder (.read 0), .decoder .go, .decoder .go, .decoder .go, .live (.feed (.ok ())),
    .live (.receive (.message ⟨"text", 0, 1, none⟩)), .live (.feed (.ok ())),
    .live (.feed (.ok ())), .live .stream, .live (.sink (.ok ())), .live (.receive .closed),
    .live .stream, .live .stream]

example : ∃ s, Hearing.run (fun m => some (m, true)) id {} heardOnce = some s ∧
    s.live.stream = .done (.ok 1) ∧ medias s.live.sent = [[1, 2]] := ⟨_, rfl, rfl, rfl⟩

end runs

end Fakery.Transcription
