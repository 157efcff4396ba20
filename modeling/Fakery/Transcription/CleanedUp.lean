import Fakery.Transcription.Decoded

/-! A decoder that leaves is over after a few steps, once the process that it has killed ends. -/
namespace Fakery.Transcription
open Fakery.Concurrent.Task Fakery.Storage

variable {ε : Type} {ffmpeg : Bytes → Bytes} {s s' : Decoder ε}

/-- The steps of the program: neither a cancellation nor what the process does. -/
def DecodeEvent.isOwn : DecodeEvent ε → Bool
  | .cancel | .write _ | .closeOutput | .exit _ => false
  | _ => true

def Feeder.rank : Feeder ε → ℕ
  | .done _ => 0
  | _ => 1

def CleanUp.rank : CleanUp → ℕ
  | .feed => 3
  | .terminated => 2
  | .killed => 1

def Generator.rank : Generator ε → ℕ
  | .leaving cleanUp _ => cleanUp.rank
  | _ => 0

/-- The steps that are left to the program. -/
def Decoder.rank (s : Decoder ε) : ℕ := s.feed.rank + s.generator.rank

/-- The decoder leaves or is over. -/
def Decoder.Leaves (s : Decoder ε) : Prop :=
  (∃ cleanUp why, s.generator = .leaving cleanUp why) ∨ ∃ why, s.generator = .done why

theorem Decoder.rank_le (s : Decoder ε) : s.rank ≤ 4 := by
  have hfeed : s.feed.rank ≤ 1 := by cases s.feed <;> simp [Feeder.rank]
  have hgenerator : s.generator.rank ≤ 3 := by
    cases s.generator with
    | leaving cleanUp why => cases cleanUp <;> simp [Generator.rank, CleanUp.rank]
    | _ => simp [Generator.rank]
  unfold Decoder.rank
  omega

section decrease

/-- The feeding task of a decoder that leaves ends with its next step. -/
theorem Decoder.Leaves.feeding (h : s.Sound ffmpeg) (hl : s.Leaves)
    (hundone : ∀ ended, s.feed ≠ .done ended) : s.feedCancelled = true := by
  have hplace := h.place
  rcases hl with ⟨cleanUp, why, hg⟩ | ⟨why, hg⟩
  · rw [hg] at hplace
    exact hplace.1
  · rw [hg] at hplace
    obtain ⟨⟨ended, hended⟩, -⟩ := hplace
    exact absurd hended (hundone ended)

theorem startFeed_rank (hc : s.feedCancelled = true) (h : s.startFeed = some s') :
    s'.generator = s.generator ∧ 1 + s'.feed.rank ≤ s.feed.rank := by
  unfold Decoder.startFeed at h
  split at h
  · rename_i hfeed
    rw [if_pos hc] at h
    cases h
    exact ⟨rfl, by simp [hfeed, Feeder.rank]⟩
  · cases h

theorem feedChunk_rank {produced : Produced ε} (hc : s.feedCancelled = true)
    (h : s.feedChunk produced = some s') :
    s'.generator = s.generator ∧ 1 + s'.feed.rank ≤ s.feed.rank := by
  unfold Decoder.feedChunk at h
  split at h
  · rw [if_pos hc] at h
    cases h
  · rw [if_pos hc] at h
    cases h
  · rename_i e hfeed
    cases h
    exact ⟨rfl, by simp [hfeed, Feeder.rank, Decoder.closeFeed]⟩
  · cases h

theorem feedDrain_rank {answer : Drained ε} (hc : s.feedCancelled = true)
    (h : s.feedDrain answer = some s') :
    s'.generator = s.generator ∧ 1 + s'.feed.rank ≤ s.feed.rank := by
  unfold Decoder.feedDrain at h
  split at h
  · rw [if_pos hc] at h
    cases h
  · rename_i hfeed
    cases h
    exact ⟨rfl, by simp [hfeed, Feeder.rank, Decoder.closeFeed]⟩
  · rename_i e hfeed
    cases h
    exact ⟨rfl, by simp [hfeed, Feeder.rank, Decoder.closeFeed]⟩
  · cases h

theorem Decoder.Leaves.of_generator (hl : s.Leaves) (hg : s'.generator = s.generator) :
    s'.Leaves := by
  unfold Decoder.Leaves
  rw [hg]
  exact hl

/-- A wait of the cleaning up that is over leads to the next one. -/
theorem goOn_rank (hl : s.Leaves) (h : s.goOn = some s') :
    s'.Leaves ∧ s'.feed = s.feed ∧ 1 + s'.generator.rank ≤ s.generator.rank := by
  unfold Decoder.goOn at h
  rcases hl with ⟨cleanUp, why, hg⟩ | ⟨why, hg⟩
  · cases cleanUp with
    | feed =>
      simp only [hg] at h
      split at h
      · split_ifs at h
        · cases h
          exact ⟨.inr ⟨_, rfl⟩, rfl, by simp [hg, Generator.rank, CleanUp.rank]⟩
        · cases h
          exact ⟨.inl ⟨_, _, rfl⟩, rfl, by simp [hg, Generator.rank, CleanUp.rank]⟩
        · cases h
          exact ⟨.inr ⟨_, rfl⟩, rfl, by simp [hg, Generator.rank, CleanUp.rank]⟩
      · cases h
    | terminated =>
      simp only [hg] at h
      split_ifs at h
      cases h
      exact ⟨.inr ⟨_, rfl⟩, rfl, by simp [hg, Generator.rank, CleanUp.rank]⟩
    | killed =>
      simp only [hg] at h
      split_ifs at h
      cases h
      exact ⟨.inr ⟨_, rfl⟩, rfl, by simp [hg, Generator.rank, CleanUp.rank]⟩
  · simp only [hg] at h
    cases h

theorem goExpire_rank {lost : Bool} (h : s.goExpire lost = some s') :
    s'.Leaves ∧ s'.feed = s.feed ∧ 1 + s'.generator.rank ≤ s.generator.rank := by
  unfold Decoder.goExpire at h
  split at h
  · rename_i why hg
    split_ifs at h
    · cases h
      exact ⟨.inr ⟨_, rfl⟩, rfl, by simp [hg, Generator.rank, CleanUp.rank]⟩
    · cases h
      exact ⟨.inl ⟨_, _, rfl⟩, rfl, by simp [hg, Generator.rank, CleanUp.rank]⟩
  · cases h

/-- A cancellation of the cleaning up leaves no more to do. -/
theorem goCancel_rank (hl : s.Leaves) (h : s.goCancel = some s') :
    s'.Leaves ∧ s'.rank ≤ s.rank := by
  unfold Decoder.goCancel at h
  rcases hl with ⟨cleanUp, why, hg⟩ | ⟨why, hg⟩
  · cases cleanUp with
    | feed =>
      simp only [hg] at h
      cases h
      exact ⟨.inl ⟨_, _, rfl⟩, by simp [Decoder.rank, hg]⟩
    | terminated | killed =>
      simp only [hg] at h
      cases h
      exact ⟨.inr ⟨_, rfl⟩, by simp [Decoder.rank, Generator.rank]⟩
  · simp only [hg] at h
    cases h

theorem step_rank {e : DecodeEvent ε} (h : s.Sound ffmpeg) (hl : s.Leaves)
    (hstep : s.step ffmpeg e = some s') :
    s'.Leaves ∧ (if e.isOwn then 1 else 0) + s'.rank ≤ s.rank := by
  have hfeeding : FeederStep s s' → (s.feedCancelled = true → s'.generator = s.generator ∧
      1 + s'.feed.rank ≤ s.feed.rank) → s'.Leaves ∧ 1 + s'.rank ≤ s.rank := by
    intro hfeeder hless
    obtain ⟨hg, hrank⟩ := hless (hl.feeding h hfeeder.undone)
    refine ⟨hl.of_generator hg, ?_⟩
    unfold Decoder.rank
    rw [hg]
    omega
  have hgenerating : s'.Leaves ∧ s'.feed = s.feed ∧
      1 + s'.generator.rank ≤ s.generator.rank → s'.Leaves ∧ 1 + s'.rank ≤ s.rank := by
    rintro ⟨hl', hfeed, hrank⟩
    refine ⟨hl', ?_⟩
    unfold Decoder.rank
    rw [hfeed]
    omega
  cases e with
  | start => exact hfeeding (startFeed_step hstep) fun hc => startFeed_rank hc hstep
  | chunk produced => exact hfeeding (feedChunk_step hstep) fun hc => feedChunk_rank hc hstep
  | drain answer => exact hfeeding (feedDrain_step hstep) fun hc => feedDrain_rank hc hstep
  | read size =>
    simp only [Decoder.step, Decoder.goRead] at hstep
    split at hstep
    · rename_i hg
      exact absurd hl (by simp [Decoder.Leaves, hg])
    · cases hstep
  | next =>
    simp only [Decoder.step] at hstep
    split at hstep
    · rename_i hg
      exact absurd hl (by simp [Decoder.Leaves, hg])
    · cases hstep
  | close =>
    simp only [Decoder.step] at hstep
    split at hstep
    · rename_i hg
      exact absurd hl (by simp [Decoder.Leaves, hg])
    · cases hstep
  | go => exact hgenerating (goOn_rank hl hstep)
  | expire lost => exact hgenerating (goExpire_rank hstep)
  | cancel =>
    obtain ⟨hl', hrank⟩ := goCancel_rank hl hstep
    exact ⟨hl', by simpa [DecodeEvent.isOwn] using hrank⟩
  | write data =>
    simp only [Decoder.step] at hstep
    split_ifs at hstep
    cases hstep
    exact ⟨hl, by simp [DecodeEvent.isOwn, Decoder.rank]⟩
  | closeOutput =>
    cases Option.some.inj hstep
    exact ⟨hl, by simp [DecodeEvent.isOwn, Decoder.rank]⟩
  | exit code =>
    simp only [Decoder.step] at hstep
    split_ifs at hstep
    cases hstep
    exact ⟨hl, by simp [DecodeEvent.isOwn, Decoder.rank]⟩

theorem length_own {es : List (DecodeEvent ε)} (h : s.Sound ffmpeg) (hl : s.Leaves)
    (hrun : s.run ffmpeg es = some s') :
    s'.Leaves ∧ (es.filter DecodeEvent.isOwn).length + s'.rank ≤ s.rank := by
  induction es generalizing s with
  | nil =>
    cases Option.some.inj hrun
    exact ⟨hl, by simp⟩
  | cons e es ih =>
    obtain ⟨u, hu, hrun⟩ := Option.bind_eq_some_iff.mp hrun
    obtain ⟨hlu, hstep⟩ := step_rank h hl hu
    obtain ⟨hl', hrest⟩ := ih (h.step hu) hlu hrun
    refine ⟨hl', ?_⟩
    rw [List.filter_cons]
    split_ifs at hstep ⊢
    · rw [List.length_cons]
      omega
    · omega

end decrease

section progress

/-- The step that a cancelled `_feed` can take. -/
theorem feeding_goes_on (hc : s.feedCancelled = true) (hundone : ∀ ended, s.feed ≠ .done ended) :
    ∃ e : DecodeEvent ε, e.isOwn = true ∧ (s.step ffmpeg e).isSome = true := by
  cases hfeed : s.feed with
  | created => exact ⟨.start, rfl, by simp [Decoder.step, Decoder.startFeed, hfeed, hc]⟩
  | waiting =>
    exact ⟨.chunk (.raised .cancelled), rfl, by simp [Decoder.step, Decoder.feedChunk, hfeed]⟩
  | draining =>
    exact ⟨.drain (.raised .cancelled), rfl, by simp [Decoder.step, Decoder.feedDrain, hfeed]⟩
  | done ended => exact absurd hfeed (hundone ended)

/-- A decoder that leaves waits for nothing but the end of a process that it has killed. -/
theorem cleaning_goes_on {cleanUp : CleanUp} {why : Leave ε} (h : s.Sound ffmpeg)
    (hg : s.generator = .leaving cleanUp why) :
    (∃ e : DecodeEvent ε, e.isOwn = true ∧ (s.step ffmpeg e).isSome = true) ∨
      (cleanUp = .killed ∧ s.returncode = none) := by
  have hplace := h.place
  rw [hg] at hplace
  obtain ⟨hc, -, -⟩ := hplace
  cases cleanUp with
  | feed =>
    by_cases hdone : ∃ ended, s.feed = .done ended
    · obtain ⟨ended, hdone⟩ := hdone
      refine .inl ⟨.go, rfl, ?_⟩
      simp only [Decoder.step, Decoder.goOn, hg, hdone]
      split_ifs
      · rfl
      · rfl
      · rfl
    · exact .inl (feeding_goes_on hc fun ended hended => hdone ⟨ended, hended⟩)
  | terminated => exact .inl ⟨.expire false, rfl, by simp [Decoder.step, Decoder.goExpire, hg]⟩
  | killed =>
    by_cases hexit : s.returncode = none
    · exact .inr ⟨rfl, hexit⟩
    · exact .inl ⟨.go, rfl, by simp [Decoder.step, Decoder.goOn, hg, hexit]⟩

/-- Once the decoder leaves, for whatever reason, it takes four more steps at the most, in whatever
order and whatever the process does; and as long as it is not over one of them can be taken, or the
process has been killed and is still to end. -/
theorem decoder_stops (ffmpeg : Bytes → Bytes) (es fs : List (DecodeEvent ε)) (s s' : Decoder ε)
    (cleanUp : CleanUp) (why : Leave ε) (hrun : Decoder.run ffmpeg {} es = some s)
    (hleaves : s.generator = .leaving cleanUp why) (hrest : s.run ffmpeg fs = some s') :
    (fs.filter DecodeEvent.isOwn).length ≤ 4 ∧
      ((∃ why, s'.generator = .done why) ∨
        (∃ e, e.isOwn = true ∧ (s'.step ffmpeg e).isSome = true) ∨
        ∃ why, s'.generator = .leaving .killed why ∧ s'.returncode = none) := by
  have h := (Decoder.sound_start ffmpeg).run hrun
  obtain ⟨hl, hlen⟩ := length_own h (.inl ⟨cleanUp, why, hleaves⟩) hrest
  have hrank := s.rank_le
  refine ⟨by omega, ?_⟩
  rcases hl with ⟨cleanUp', why', hg⟩ | hdone
  · rcases cleaning_goes_on (h.run hrest) hg with hgo | ⟨rfl, hexit⟩
    · exact .inr (.inl hgo)
    · exact .inr (.inr ⟨why', hg, hexit⟩)
  · exact .inl hdone

/-- A decoder that is closed after its first block, with a process that has to be killed. -/
theorem decoder_stops_killed : ∃ s s' : Decoder Unit,
    Decoder.run id {} [.start, .write [1], .read 1, .close] = some s ∧
    s.run id [.chunk (.raised .cancelled), .go, .expire false, .exit (-9), .go] = some s' ∧
    s'.generator = .done .closed ∧
    (([.chunk (.raised .cancelled), .go, .expire false, .exit (-9), .go] :
      List (DecodeEvent Unit)).filter DecodeEvent.isOwn).length ≤ 4 :=
  ⟨_, _, rfl, rfl, rfl, (decoder_stops id [.start, .write [1], .read 1, .close] _ _ _ .feed .closed
    rfl rfl rfl).1⟩

end progress

end Fakery.Transcription
