import Fakery.Transcription.Decoded
import Fakery.Transcription.LiveQueue
import Fakery.Transcription.Streamed

/-! What the provider hears of a recording: the queue, the decoder and the live stream in a row. -/
namespace Fakery.Transcription
open Fakery.Bots Fakery.Storage

variable {μ δ ε : Type}

theorem Closed.medias {audio : List Bytes} {sent : List Sent} (h : Closed audio sent) :
    Transcription.medias sent = audio := by
  obtain ⟨front, rfl, -, hfront⟩ := h
  rw [medias_append, hfront]
  exact List.append_nil audio

/-- What has been sent is a beginning of the audio. -/
theorem Live.Sound.medias_prefix {live : μ → Option (Segment × Bool)} {s : Live μ ε}
    (h : s.Sound live) : medias s.sent <+: s.audio := by
  rcases h.fed.unclosed_or_closed with ⟨hand, -, hunclosed⟩ | ⟨hclosed, -⟩
  · exact ⟨hand, hunclosed.audio.symm⟩
  · exact ⟨[], by rw [List.append_nil, hclosed.medias]⟩

theorem Decoder.Sound.exhausted_of_done {ffmpeg : Bytes → Bytes} {d : Decoder δ}
    (h : d.Sound ffmpeg) (hdone : d.generator = .done .exhausted) :
    d.yielded.flatten = ffmpeg d.stdin.flatten ∧
      (d.broken = false → d.stdin = d.chunks ∧ d.chunksEnded = true) := by
  have hplace := h.place
  rw [hdone] at hplace
  exact h.exhausted hplace.2.2

/-- What one machine has taken is what the one before it has given. -/
structure Chained (q : LiveQueue) (d : Decoder δ) (s : Live μ ε) : Prop where
  chunks : d.chunks = q.yielded
  ended : d.chunksEnded = true → q.reader = .ended
  audio : s.audio = d.yielded
  stop : s.pending = .finished .stop → d.generator = .done .exhausted

theorem Chained.heard {live : μ → Option (Segment × Bool)} {ffmpeg : Bytes → Bytes}
    {q : LiveQueue} {d : Decoder δ} {s : Live μ ε} (h : Chained q d s) (hdecoder : d.Sound ffmpeg)
    (hstream : s.Sound live) :
    (medias s.sent).flatten <+: d.output ∧ d.stdin <+: q.yielded := by
  refine ⟨?_, h.chunks ▸ hdecoder.written.stdin⟩
  obtain ⟨rest, hrest⟩ := hstream.medias_prefix
  have hyielded : (medias s.sent).flatten <+: d.yielded.flatten := by
    rw [← h.audio, ← hrest, List.flatten_append]
    exact List.prefix_append _ _
  exact hyielded.trans ⟨d.pipe, hdecoder.read⟩

theorem Chained.told {live : μ → Option (Segment × Bool)} {ffmpeg : Bytes → Bytes}
    {q : LiveQueue} {d : Decoder δ} {s : Live μ ε} {finals : ℕ} (h : Chained q d s)
    (hqueue : q.Sound) (hdecoder : d.Sound ffmpeg) (hstream : s.Sound live)
    (hdone : s.stream = .done (.ok finals)) :
    finals = (s.messages.filterMap (finalSegment live)).length ∧
      (medias s.sent).flatten = ffmpeg d.stdin.flatten ∧
      (d.broken = false → ∃ before gone after, gone.length ≤ 1 ∧
        q.accepted = before ++ gone ++ after ∧
        (medias s.sent).flatten = ffmpeg (before ++ after).flatten) := by
  obtain ⟨hclosed, hpending, -, hcount⟩ := hstream.tells hdone
  obtain ⟨hdecoded, hwhole⟩ := hdecoder.exhausted_of_done (h.stop hpending)
  have hheard : (medias s.sent).flatten = ffmpeg d.stdin.flatten := by
    rw [hclosed.medias, h.audio]
    exact hdecoded
  refine ⟨hcount.trans (congrArg List.length hstream.read.sunk), hheard, fun hb => ?_⟩
  obtain ⟨hstdin, hlast⟩ := hwhole hb
  obtain ⟨hlost, before, after, haccepted, hyielded⟩ := hqueue.holds.ended (h.ended hlast)
  refine ⟨before, q.lost, after, hlost, haccepted, ?_⟩
  rw [hheard, hstdin, h.chunks, hyielded]

/-- A live stream that reads from a decoder that reads from the queue of the recorder, in whatever
order all of them go on: the provider hears a beginning of what the decoder makes of a beginning of
what is read from the queue. A stream that gives a count has handed on all final segments, and the
provider has heard all that the decoder makes of what was written to it; unless a write was lost
that is what the queue had accepted, but for one chunk at the most. -/
theorem live_heard (live : μ → Option (Segment × Bool)) (ffmpeg : Bytes → Bytes)
    (qs : List QueueEvent) (ds : List (DecodeEvent δ)) (es : List (StreamEvent μ ε))
    (q : LiveQueue) (d : Decoder δ) (s : Live μ ε) (hq : LiveQueue.run {} qs = some q)
    (hd : Decoder.run ffmpeg {} ds = some d) (hs : Live.run live {} es = some s)
    (hchunks : d.chunks = q.yielded) (hended : d.chunksEnded = true → q.reader = .ended)
    (haudio : s.audio = d.yielded)
    (hstop : s.pending = .finished .stop → d.generator = .done .exhausted) :
    (medias s.sent).flatten <+: d.output ∧ d.stdin <+: q.yielded ∧
    ∀ finals, s.stream = .done (.ok finals) →
      finals = (s.messages.filterMap (finalSegment live)).length ∧
      (medias s.sent).flatten = ffmpeg d.stdin.flatten ∧
      (d.broken = false → ∃ before gone after, gone.length ≤ 1 ∧
        q.accepted = before ++ gone ++ after ∧
        (medias s.sent).flatten = ffmpeg (before ++ after).flatten) := by
  have hqueue := LiveQueue.sound_start.run hq
  have hdecoder := (Decoder.sound_start ffmpeg).run hd
  have hstream := (Live.sound_start live).run hs
  have hchained : Chained q d s := ⟨hchunks, hended, haudio, hstop⟩
  obtain ⟨hheard, hstdin⟩ := hchained.heard hdecoder hstream
  exact ⟨hheard, hstdin, fun finals hdone => hchained.told hqueue hdecoder hstream hdone⟩

/-- One chunk, one block and one final segment. -/
theorem live_heard_once : ∃ (q : LiveQueue) (d : Decoder Unit) (s : Live Segment Unit),
    LiveQueue.run {} [.push [1, 2], .stop, .get, .get] = some q ∧
    Decoder.run id {} decodedOnce = some d ∧
    Live.run (fun m => some (m, true)) {} onceThrough = some s ∧
    (medias s.sent).flatten = id d.stdin.flatten :=
  ⟨_, _, _, rfl, rfl, rfl, ((live_heard (fun m => some (m, true)) id
    [.push [1, 2], .stop, .get, .get] decodedOnce onceThrough _ _ _ rfl rfl rfl rfl (fun _ => rfl)
    rfl fun _ => rfl).2.2 1 rfl).2.1⟩

end Fakery.Transcription
