import Fakery.Transcription.Decoder
import Mathlib.Tactic.SplitIfs

/-! What a decoder has given when it is over, in whatever way it ends. -/
namespace Fakery.Transcription
open Fakery.Concurrent.Task Fakery.Storage

variable {ε : Type} {ffmpeg : Bytes → Bytes} {s s' : Decoder ε}

/-- All of the output has been read. -/
def Decoder.Emptied (s : Decoder ε) : Prop := s.pipe = [] ∧ s.outputOpen = false

/-- What a reason to leave tells of the process. -/
def Decoder.Tells (s : Decoder ε) : Leave ε → Prop
  | .exhausted => s.Emptied ∧ s.feed = .done (.ok ()) ∧ s.returncode = some 0
  | .raised (.exception .decodeFailed) => s.Emptied ∧ s.feed = .done (.ok ()) ∧
      ∃ code, code ≠ 0 ∧ s.returncode = some code
  | _ => True

/-- What is the case where `decode_webm` is. -/
def Decoder.At (s : Decoder ε) : Generator ε → Prop
  | .reading | .yielding => True
  | .awaitingFeed => s.Emptied
  | .awaitingExit => s.Emptied ∧ s.feed = .done (.ok ())
  | .leaving cleanUp why => s.feedCancelled = true ∧
      (cleanUp ≠ .feed → ∃ ended, s.feed = .done ended) ∧ s.Tells why
  | .done why => (∃ ended, s.feed = .done ended) ∧ (s.cut = false → s.returncode ≠ none) ∧
      s.Tells why

/-- What no step takes back. -/
structure Decoder.Kept (s s' : Decoder ε) : Prop where
  emptied : s.Emptied → s'.Emptied
  feed : ∀ ended, s.feed = .done ended → s'.feed = .done ended
  feedCancelled : s.feedCancelled = true → s'.feedCancelled = true
  cut : s'.cut = false → s.cut = false
  returncode : ∀ code, s.returncode = some code → s'.returncode = some code

/-- What of the chunks has been written. -/
structure Decoder.Written (s : Decoder ε) : Prop where
  stdin : s.stdin <+: s.chunks
  whole : s.broken = false → s.stdin = s.chunks
  running : s.returncode = none → s.stdin = s.chunks

structure Decoder.Sound (ffmpeg : Bytes → Bytes) (s : Decoder ε) : Prop where
  read : s.yielded.flatten ++ s.pipe = s.output
  blocks : ∀ block ∈ s.yielded, block ≠ [] ∧ block.length ≤ PCM_CHUNK_BYTES
  written : s.Written
  fed : s.feed = .done (.ok ()) → s.broken = false → s.chunksEnded = true
  decoded : s.returncode = some 0 → s.output = ffmpeg s.stdin.flatten
  place : s.At s.generator

section keeping

theorem Decoder.Kept.tells (h : Decoder.Kept s s') {why : Leave ε} (ht : s.Tells why) :
    s'.Tells why := by
  match why with
  | .exhausted => exact ⟨h.emptied ht.1, h.feed _ ht.2.1, h.returncode _ ht.2.2⟩
  | .raised (.exception .decodeFailed) =>
    obtain ⟨hemptied, hfeed, code, hne, hcode⟩ := ht
    exact ⟨h.emptied hemptied, h.feed _ hfeed, code, hne, h.returncode _ hcode⟩
  | .closed | .raised .cancelled | .raised (.exception (.exception _))
  | .raised (.exception .processLookup) => trivial

/-- What is the case at one place stays so. -/
theorem Decoder.Kept.place (h : Decoder.Kept s s') {g : Generator ε} (hg : s.At g) : s'.At g := by
  cases g with
  | reading | yielding => trivial
  | awaitingFeed => exact h.emptied hg
  | awaitingExit => exact ⟨h.emptied hg.1, h.feed _ hg.2⟩
  | leaving cleanUp why =>
    obtain ⟨hcancelled, hfeed, ht⟩ := hg
    refine ⟨h.feedCancelled hcancelled, fun hne => ?_, h.tells ht⟩
    obtain ⟨ended, hended⟩ := hfeed hne
    exact ⟨ended, h.feed ended hended⟩
  | done why =>
    obtain ⟨⟨ended, hended⟩, hexit, ht⟩ := hg
    refine ⟨⟨ended, h.feed ended hended⟩, fun hcut hnone => ?_, h.tells ht⟩
    obtain ⟨code, hcode⟩ := Option.ne_none_iff_exists'.mp (hexit (h.cut hcut))
    cases hnone.symm.trans (h.returncode code hcode)

/-- A step of `_feed`: nothing but what it has done with the chunks is changed. -/
structure FeederStep (s s' : Decoder ε) : Prop where
  undone : ∀ ended, s.feed ≠ .done ended
  frame : ∃ feed chunks chunksEnded stdin broken, s' = { s with
    feed := feed, chunks := chunks, chunksEnded := chunksEnded, stdin := stdin, broken := broken }
  written : s.Written → s'.Written
  fed : s'.feed = .done (.ok ()) → s'.broken = false → s'.chunksEnded = true
  exited : s.returncode ≠ none → s'.stdin = s.stdin

/-- A step of `_feed` that takes no chunk and does not come to the end of them. -/
theorem FeederStep.of_feed {f : Feeder ε} (hundone : ∀ ended, s.feed ≠ .done ended)
    (hf : f ≠ .done (.ok ())) : FeederStep s { s with feed := f } where
  undone := hundone
  frame := ⟨_, _, _, _, _, rfl⟩
  written hw := ⟨hw.stdin, hw.whole, hw.running⟩
  fed hended := absurd hended hf
  exited _ := rfl

theorem startFeed_step (h : s.startFeed = some s') : FeederStep s s' := by
  unfold Decoder.startFeed at h
  split at h
  · rename_i hfeed
    have hundone : ∀ ended, s.feed ≠ .done ended := fun ended => by simp [hfeed]
    split_ifs at h
    · cases h
      exact .of_feed hundone (by simp)
    · cases h
      exact .of_feed hundone (by simp)
  · cases h

theorem feedChunk_step {produced : Produced ε} (h : s.feedChunk produced = some s') :
    FeederStep s s' := by
  unfold Decoder.feedChunk at h
  split at h
  · rename_i data hfeed
    have hundone : ∀ ended, s.feed ≠ .done ended := fun ended => by simp [hfeed]
    split_ifs at h with hcancelled hruns
    · cases h
      refine ⟨hundone, ⟨_, _, _, _, _, rfl⟩, fun hw => ?_, nofun, fun hexit => absurd hruns hexit⟩
      -- As long as the process runs, nothing was lost before.
      have hall : s.stdin ++ [data] = s.chunks ++ [data] := by rw [hw.running hruns]
      exact ⟨hall ▸ List.prefix_refl _, fun _ => hall, fun _ => hall⟩
    · cases h
      refine ⟨hundone, ⟨_, _, _, _, _, rfl⟩, fun hw => ?_, nofun, fun _ => rfl⟩
      exact ⟨hw.stdin.trans (List.prefix_append _ _), nofun, fun hnone => absurd hnone hruns⟩
  · rename_i hfeed
    have hundone : ∀ ended, s.feed ≠ .done ended := fun ended => by simp [hfeed]
    split_ifs at h
    cases h
    exact ⟨hundone, ⟨_, _, _, _, _, rfl⟩, fun hw => ⟨hw.stdin, hw.whole, hw.running⟩,
      fun _ _ => rfl, fun _ => rfl⟩
  · rename_i e hfeed
    cases h
    exact .of_feed (fun ended => by simp [hfeed]) (by simp)
  · cases h

theorem feedDrain_step {answer : Drained ε} (h : s.feedDrain answer = some s') :
    FeederStep s s' := by
  unfold Decoder.feedDrain at h
  split at h
  · rename_i hfeed
    split_ifs at h
    cases h
    exact .of_feed (fun ended => by simp [hfeed]) (by simp)
  · rename_i hfeed
    have hundone : ∀ ended, s.feed ≠ .done ended := fun ended => by simp [hfeed]
    cases h
    exact ⟨hundone, ⟨_, _, _, _, _, rfl⟩, fun hw => ⟨hw.stdin, nofun, hw.running⟩, fun _ => nofun,
      fun _ => rfl⟩
  · rename_i e hfeed
    cases h
    exact .of_feed (fun ended => by simp [hfeed]) (by simp)
  · cases h

theorem FeederStep.kept (h : FeederStep s s') : Decoder.Kept s s' := by
  obtain ⟨hundone, ⟨feed, chunks, chunksEnded, stdin, broken, rfl⟩, -, -, -⟩ := h
  exact ⟨id, fun ended hended => absurd hended (hundone ended), id, id, fun _ => id⟩

theorem Decoder.Sound.feeder (h : s.Sound ffmpeg) (hstep : FeederStep s s') :
    s'.Sound ffmpeg := by
  have hkept := hstep.kept
  obtain ⟨-, ⟨feed, chunks, chunksEnded, stdin, broken, rfl⟩, hwritten, hfed, hexited⟩ := hstep
  refine ⟨h.read, h.blocks, hwritten h.written, hfed, fun hcode => ?_, hkept.place h.place⟩
  have hgone : s.returncode ≠ none := fun hnone => by cases hnone.symm.trans hcode
  have hstdin : stdin = s.stdin := hexited hgone
  rw [hstdin]
  exact h.decoded hcode

end keeping

section generator

/-- A step of `decode_webm` that reads nothing. -/
theorem Decoder.Sound.place_at {g : Generator ε} {cancelled cut : Bool} (h : s.Sound ffmpeg)
    (hs : s' = { s with generator := g, feedCancelled := cancelled, cut := cut })
    (hg : s'.At g) : s'.Sound ffmpeg := by
  subst hs
  exact ⟨h.read, h.blocks, ⟨h.written.1, h.written.2, h.written.3⟩, h.fed, h.decoded, hg⟩

theorem Decoder.Sound.leave {why : Leave ε} (h : s.Sound ffmpeg) (ht : s.Tells why) :
    (s.leave why).Sound ffmpeg := by
  have hkept : Decoder.Kept s (s.leave why) := ⟨id, fun _ => id, fun _ => rfl, id, fun _ => id⟩
  exact h.place_at rfl ⟨rfl, fun hne => absurd rfl hne, hkept.tells ht⟩

theorem tells_ofRaised (e : Raised ε) : s.Tells (.ofRaised e) := by
  cases e with
  | exception e => trivial
  | cancelled => trivial

theorem Decoder.Sound.goRead {size : ℕ} (h : s.Sound ffmpeg) (hstep : s.goRead size = some s') :
    s'.Sound ffmpeg := by
  unfold Decoder.goRead at hstep
  split at hstep
  · split_ifs at hstep with hempty hopen hsize
    · cases hstep
      exact h.place_at rfl ⟨hempty, by simpa using hopen⟩
    · cases hstep
      obtain ⟨hpos, hle, hlen⟩ := hsize
      refine ⟨?_, ?_, ⟨h.written.1, h.written.2, h.written.3⟩, h.fed, h.decoded, trivial⟩
      · rw [List.flatten_append, List.flatten_singleton, List.append_assoc, List.take_append_drop]
        exact h.read
      · intro block hblock
        rcases List.mem_append.mp hblock with hblock | hblock
        · exact h.blocks block hblock
        · rw [List.mem_singleton.mp hblock]
          refine ⟨fun hnil => ?_, (List.length_take_le _ _).trans hle⟩
          have hzero : (s.pipe.take size).length = 0 := by rw [hnil, List.length_nil]
          rw [List.length_take] at hzero
          omega
  · cases hstep

theorem Decoder.Sound.goOn (h : s.Sound ffmpeg) (hstep : s.goOn = some s') : s'.Sound ffmpeg := by
  have hplace := h.place
  unfold Decoder.goOn at hstep
  split at hstep
  · rename_i hg
    rw [hg] at hplace
    split at hstep
    · rename_i hfeed
      cases hstep
      exact h.place_at rfl ⟨hplace, hfeed⟩
    · rename_i e hfeed
      cases hstep
      exact h.leave (tells_ofRaised e)
    · cases hstep
  · rename_i hg
    rw [hg] at hplace
    obtain ⟨hemptied, hfeed⟩ := hplace
    split at hstep
    · rename_i hcode
      cases hstep
      exact h.leave ⟨hemptied, hfeed, hcode⟩
    · rename_i code hne hcode
      cases hstep
      exact h.leave ⟨hemptied, hfeed, code, hne, hcode⟩
    · cases hstep
  · rename_i why hg
    rw [hg] at hplace
    obtain ⟨hcancelled, -, ht⟩ := hplace
    split at hstep
    · rename_i ended hfeed
      split_ifs at hstep with hcut hruns
      · cases hstep
        exact h.place_at rfl ⟨⟨ended, hfeed⟩, fun hno => absurd (hcut.symm.trans hno) nofun, trivial⟩
      · cases hstep
        exact h.place_at rfl ⟨hcancelled, fun _ => ⟨ended, hfeed⟩, ht⟩
      · cases hstep
        exact h.place_at rfl ⟨⟨ended, hfeed⟩, fun _ => hruns, ht⟩
    · cases hstep
  · rename_i cleanUp why hne hg
    rw [hg] at hplace
    obtain ⟨-, hfeed, ht⟩ := hplace
    split_ifs at hstep with hruns
    cases hstep
    exact h.place_at rfl ⟨hfeed hne, fun _ => hruns, ht⟩
  · cases hstep

theorem Decoder.Sound.goExpire {lost : Bool} (h : s.Sound ffmpeg)
    (hstep : s.goExpire lost = some s') : s'.Sound ffmpeg := by
  have hplace := h.place
  unfold Decoder.goExpire at hstep
  split at hstep
  · rename_i why hg
    rw [hg] at hplace
    obtain ⟨hcancelled, hfeed, ht⟩ := hplace
    split_ifs at hstep with hlost hruns
    · cases hstep
      exact h.place_at rfl ⟨hfeed nofun, fun _ => hruns, trivial⟩
    · cases hstep
      exact h.place_at rfl ⟨hcancelled, fun _ => hfeed nofun, ht⟩
  · cases hstep

theorem Decoder.Sound.goCancel (h : s.Sound ffmpeg) (hstep : s.goCancel = some s') :
    s'.Sound ffmpeg := by
  have hplace := h.place
  unfold Decoder.goCancel at hstep
  split at hstep
  · cases hstep
    exact h.leave trivial
  · cases hstep
    exact h.leave trivial
  · rename_i hg
    rw [hg] at hplace
    split at hstep
    · cases hstep
      exact h.leave trivial
    · cases hstep
      exact h.place_at (g := s.generator) rfl (by rw [hg]; exact hplace)
  · rename_i why hg
    rw [hg] at hplace
    cases hstep
    exact h.place_at (g := s.generator) rfl (by rw [hg]; exact hplace)
  · rename_i cleanUp why hne hg
    rw [hg] at hplace
    obtain ⟨-, hfeed, -⟩ := hplace
    cases hstep
    exact h.place_at rfl ⟨hfeed hne, nofun, trivial⟩
  · cases hstep
  · cases hstep

end generator

section runs

/-- What the process does leaves the generator where it is. -/
theorem Decoder.Sound.write {data : Bytes} (h : s.Sound ffmpeg)
    (hruns : s.returncode = none ∧ s.outputOpen = true) :
    Decoder.Sound ffmpeg { s with pipe := s.pipe ++ data, output := s.output ++ data } := by
  have hkept : Decoder.Kept s { s with pipe := s.pipe ++ data, output := s.output ++ data } :=
    ⟨fun hemptied => absurd (hruns.2.symm.trans hemptied.2) nofun, fun _ => id, id, id, fun _ => id⟩
  refine ⟨?_, h.blocks, ⟨h.written.1, h.written.2, h.written.3⟩, h.fed, fun hcode => ?_,
    hkept.place h.place⟩
  · rw [← List.append_assoc, h.read]
  · cases hruns.1.symm.trans hcode

theorem Decoder.Sound.closeOutput (h : s.Sound ffmpeg) :
    Decoder.Sound ffmpeg { s with outputOpen := false } := by
  have hkept : Decoder.Kept s { s with outputOpen := false } :=
    ⟨fun hemptied => ⟨hemptied.1, rfl⟩, fun _ => id, id, id, fun _ => id⟩
  exact ⟨h.read, h.blocks, ⟨h.written.1, h.written.2, h.written.3⟩, h.fed, h.decoded,
    hkept.place h.place⟩

theorem Decoder.Sound.exit {code : ℤ} (h : s.Sound ffmpeg) (hruns : s.returncode = none)
    (hcode : code = 0 → s.output = ffmpeg s.stdin.flatten) :
    Decoder.Sound ffmpeg { s with returncode := some code, outputOpen := false } := by
  have hkept : Decoder.Kept s { s with returncode := some code, outputOpen := false } :=
    ⟨fun hemptied => ⟨hemptied.1, rfl⟩, fun _ => id, id, id,
      fun _ hexited => nomatch hruns.symm.trans hexited⟩
  exact ⟨h.read, h.blocks, ⟨h.written.1, h.written.2, nofun⟩, h.fed,
    fun hzero => hcode (Option.some.inj hzero), hkept.place h.place⟩

theorem Decoder.Sound.step {e : DecodeEvent ε} (h : s.Sound ffmpeg)
    (hstep : s.step ffmpeg e = some s') : s'.Sound ffmpeg := by
  cases e with
  | start => exact h.feeder (startFeed_step hstep)
  | chunk produced => exact h.feeder (feedChunk_step hstep)
  | drain answer => exact h.feeder (feedDrain_step hstep)
  | read size => exact h.goRead hstep
  | next =>
    simp only [Decoder.step] at hstep
    split at hstep
    · cases hstep
      exact h.place_at rfl trivial
    · cases hstep
  | close =>
    simp only [Decoder.step] at hstep
    split at hstep
    · cases hstep
      exact h.leave trivial
    · cases hstep
  | go => exact h.goOn hstep
  | expire lost => exact h.goExpire hstep
  | cancel => exact h.goCancel hstep
  | write data =>
    simp only [Decoder.step] at hstep
    split_ifs at hstep with hruns
    cases hstep
    exact h.write hruns
  | closeOutput =>
    cases Option.some.inj hstep
    exact h.closeOutput
  | exit code =>
    simp only [Decoder.step] at hstep
    split_ifs at hstep with hruns
    cases hstep
    exact h.exit hruns.1 hruns.2

theorem Decoder.Sound.run {es : List (DecodeEvent ε)} (h : s.Sound ffmpeg)
    (hrun : s.run ffmpeg es = some s') : s'.Sound ffmpeg := by
  induction es generalizing s with
  | nil =>
    cases Option.some.inj hrun
    exact h
  | cons e es ih =>
    obtain ⟨u, hu, hrun⟩ := Option.bind_eq_some_iff.mp hrun
    exact ih (h.step hu) hrun

theorem Decoder.Sound.yielded_all (h : s.Sound ffmpeg) (hemptied : s.Emptied) :
    s.yielded.flatten = s.output := by
  have hread := h.read
  rw [hemptied.1, List.append_nil] at hread
  exact hread

/-- A decoder that is exhausted has heard and told everything. -/
theorem Decoder.Sound.exhausted (h : s.Sound ffmpeg) (ht : s.Tells .exhausted) :
    s.yielded.flatten = ffmpeg s.stdin.flatten ∧
      (s.broken = false → s.stdin = s.chunks ∧ s.chunksEnded = true) := by
  obtain ⟨hemptied, hfeed, hcode⟩ := ht
  exact ⟨(h.yielded_all hemptied).trans (h.decoded hcode),
    fun hb => ⟨h.written.whole hb, h.fed hfeed hb⟩⟩

theorem Decoder.sound_start (ffmpeg : Bytes → Bytes) : Decoder.Sound (ε := ε) ffmpeg {} :=
  ⟨rfl, nofun, ⟨List.prefix_refl _, fun _ => rfl, fun _ => rfl⟩, nofun, nofun, trivial⟩

/-- In whatever order the process, its feeding and its reading go on and are cancelled: what is
yielded is the output, in order and without a gap, in blocks that are not empty and no longer than
asked for; what is written is the chunks without a gap. When the decoder is over its task is done
and the process has ended, unless the cleaning up was itself cancelled; if it is exhausted it has
yielded all that comes of what was written, which is all the chunks unless a write was lost; and
where it raises for the process, that has failed after all of its output was yielded. -/
theorem decoder_sound (ffmpeg : Bytes → Bytes) (es : List (DecodeEvent ε)) (s : Decoder ε)
    (hrun : Decoder.run ffmpeg {} es = some s) :
    s.yielded.flatten <+: s.output ∧
    (∀ block ∈ s.yielded, block ≠ [] ∧ block.length ≤ PCM_CHUNK_BYTES) ∧
    s.stdin <+: s.chunks ∧
    ∀ why, s.generator = .done why → (∃ ended, s.feed = .done ended) ∧
      (s.cut = false → ∃ code, s.returncode = some code) ∧
      (why = .exhausted → s.yielded.flatten = ffmpeg s.stdin.flatten ∧
        (s.broken = false → s.stdin = s.chunks ∧ s.chunksEnded = true)) ∧
      (why = .raised (.exception .decodeFailed) → s.yielded.flatten = s.output ∧
        ∃ code, code ≠ 0 ∧ s.returncode = some code) := by
  have h := (Decoder.sound_start ffmpeg).run hrun
  refine ⟨⟨s.pipe, h.read⟩, h.blocks, h.written.stdin, fun why hdone => ?_⟩
  have hplace := h.place
  rw [hdone] at hplace
  obtain ⟨hfeed, hexit, ht⟩ := hplace
  refine ⟨hfeed, fun hcut => Option.ne_none_iff_exists'.mp (hexit hcut), ?_, ?_⟩
  · rintro rfl
    exact h.exhausted ht
  · rintro rfl
    obtain ⟨hemptied, -, hcode⟩ := ht
    exact ⟨h.yielded_all hemptied, hcode⟩

/-- One chunk that is decoded to itself. -/
def decodedOnce : List (DecodeEvent Unit) :=
  [.start, .chunk (.chunk [1, 2]), .write [1, 2], .drain .ok, .read 2, .next, .chunk .stop,
    .exit 0, .read 0, .go, .go, .go]

theorem decoder_sound_once : ∃ s, Decoder.run id {} decodedOnce = some s ∧
    s.generator = .done .exhausted ∧ s.yielded = [[1, 2]] ∧
    s.yielded.flatten = id s.stdin.flatten :=
  ⟨_, rfl, rfl, rfl, (((decoder_sound id decodedOnce _ rfl).2.2.2 .exhausted rfl).2.2.1 rfl).1⟩

end runs

end Fakery.Transcription
