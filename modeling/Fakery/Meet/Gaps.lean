import Fakery.Meet.Checkpointed
import Mathlib.Data.Nat.Find

/-! A block that is lost before another one is listed leaves a gap, and nothing else does. -/
namespace Fakery.Meet
open Fakery.Storage

variable {bucket : String} {sha256 : Bytes → String} {failures : ℕ → Failures}
  {w : World} {bot : ℕ}

variable {stored : List Bytes} {i j k : ℕ}

/-- What a checkpoint leaves when nothing is assumed of those before it. -/
structure Checkpointed (bucket : String) (sha256 : Bytes → String) (f : Failures) (bot : ℕ)
    (stored : List Bytes) (w w' : World) : Prop where
  spool : w'.recorder.spool = w.recorder.spool
  checkpointBuffer : w'.recorder.checkpointBuffer = []
  checkpointChunks : w'.recorder.checkpointChunks = 0
  checkpointSequence : w'.recorder.checkpointSequence = w.recorder.checkpointSequence + 1
  lost : f.chunk = true → Blocks bucket sha256 bot stored w'
  kept : f.chunk = false → Blocks bucket sha256 bot (stored ++ [w.recorder.checkpointBuffer]) w'
  listed : f.chunk = false → f.manifest = false → ∃ manifest,
    w'.objects (.manifest bot) = some (.json manifest) ∧
    manifest.chunks = describe sha256 bucket bot 0 (stored ++ [w.recorder.checkpointBuffer])
  moments : w.moments <+: w'.moments
  noted : f.chunk = false → f.manifest = false → w'.now ∈ w'.moments

variable (failures) in
theorem flush_checkpointed (h : Blocks bucket sha256 bot stored w)
    (hb : w.recorder.checkpointBuffer ≠ []) :
    Checkpointed bucket sha256 (failures w.recorder.checkpointSequence) bot stored w
      (flushCheckpoint (sinks bucket sha256 failures) w).2 := by
  have hclear : Blocks bucket sha256 bot stored w.clear := ⟨h.botId, h.chunks, h.intact⟩
  have hblock := hclear.addBlock w.recorder.checkpointBuffer
  obtain ⟨checkpointed, w', hf, hw⟩ := flush_cases bucket sha256 failures hb
  rw [hf]
  have hfields : w'.recorder = w.recorder.cleared := by
    rcases hw with ⟨-, rfl⟩ | ⟨-, -, rfl⟩ | ⟨-, -, uri, rfl⟩ <;> rfl
  refine ⟨?_, ?_, ?_, ?_, fun hl => ?_, fun hk => ?_, fun hk hm' => ?_, ?_, fun hk hm' => ?_⟩
  · simp [hfields, Recorder.cleared]
  · simp [hfields, Recorder.cleared]
  · simp [hfields, Recorder.cleared]
  · simp [hfields, Recorder.cleared]
  · rcases hw with ⟨-, rfl⟩ | ⟨hc, -⟩ | ⟨hc, -⟩
    · exact hclear.finish _
    · cases hc.symm.trans hl
    · cases hc.symm.trans hl
  · rcases hw with ⟨hc, -⟩ | ⟨-, -, rfl⟩ | ⟨-, -, uri, rfl⟩
    · cases hc.symm.trans hk
    · exact hblock.finish _
    · have hmanifest := hblock.addManifest
      have hcolumn : Blocks bucket sha256 bot (stored ++ [w.recorder.checkpointBuffer])
          (((w.clear.addBlock bucket sha256 w.recorder.checkpointBuffer).addManifest
            bucket).setColumn uri) := ⟨hmanifest.botId, hmanifest.chunks, hmanifest.intact⟩
      exact hcolumn.finish _
  · rcases hw with ⟨hc, -⟩ | ⟨-, hm, -⟩ | ⟨-, -, uri, rfl⟩
    · cases hc.symm.trans hk
    · cases hm.symm.trans hm'
    · have hlisted := listed_addManifest hblock
      rw [World.finish_objects]
      exact ⟨_, hlisted, hblock.chunks⟩
  · rw [World.finish_moments]
    rcases hw with ⟨-, rfl⟩ | ⟨-, -, rfl⟩ | ⟨-, -, uri, rfl⟩
    · exact List.prefix_rfl
    · exact List.prefix_append _ _
    · exact (List.prefix_append _ _).trans (List.prefix_append _ _)
  · rcases hw with ⟨hc, -⟩ | ⟨-, hm, -⟩ | ⟨-, -, uri, rfl⟩
    · cases hc.symm.trans hk
    · cases hm.symm.trans hm'
    · rw [World.finish_moments, World.now, World.finish_spool, World.finish_objects]
      exact List.mem_append_right _ (List.mem_singleton_self _)

/-- Five chunks of one byte: enough for a checkpoint. -/
def World.writeFive (b : UInt8) (w : World) : World :=
  ((((w.write [b]).write [b]).write [b]).write [b]).write [b]

theorem drain_five (hc : w.recorder.checkpointChunks = 0) (b : UInt8) :
    (drain (sinks bucket sha256 failures) (some (List.replicate 5 [b])) w).2 =
      (flushCheckpoint (sinks bucket sha256 failures) (w.writeFive b)).2 := by
  have hcons : ∀ (data : Bytes) (chunks : List Bytes) (w : World),
      drainChunks (sinks bucket sha256 failures) (data :: chunks) w =
        drainChunks (sinks bucket sha256 failures) chunks
          (drainChunk (sinks bucket sha256 failures) data w).2 := fun _ _ _ => rfl
  simp [drain, List.replicate, hcons, drainChunk_eq, World.write, Recorder.write, hc,
    CHECKPOINT_CHUNKS, World.writeFive]
  rfl

/-- Chunk lists in which the block with number `i` differs from all others. -/
def tone (i k : ℕ) : Input :=
  .drain (some (List.replicate 5 [if k = i then 1 else 0]))

def tones (i n : ℕ) : List Input := (List.range n).map (tone i)

/-- After `n` blocks of which the one with number `i` was the first to be lost. -/
structure Gapped (bucket : String) (sha256 : Bytes → String) (bot i n : ℕ) (stored : List Bytes)
    (w : World) : Prop extends Blocks bucket sha256 bot stored w where
  checkpointSequence : w.recorder.checkpointSequence = n
  checkpointBuffer : w.recorder.checkpointBuffer = []
  checkpointChunks : w.recorder.checkpointChunks = 0
  zeros : ∃ m, stored.flatten = List.replicate m 0 ∧ 5 * min i n ≤ m
  before : n ≤ i → w.recorder.spool = List.replicate (5 * n) 0
  after : i < n → ∃ rest, w.recorder.spool = List.replicate (5 * i) 0 ++ 1 :: rest

theorem writeFive_spool (b : UInt8) :
    (w.writeFive b).recorder.spool = w.recorder.spool ++ List.replicate 5 b := by
  simp [World.writeFive, World.write, Recorder.write, List.replicate]

theorem writeFive_buffer (b : UInt8) : (w.writeFive b).recorder.checkpointBuffer =
    w.recorder.checkpointBuffer ++ List.replicate 5 b := by
  simp [World.writeFive, World.write, Recorder.write, List.replicate]

theorem tones_succ (n : ℕ) : record bucket sha256 failures bot (tones i (n + 1)) =
    ((tone i n).perform bucket sha256 failures
      (record bucket sha256 failures bot (tones i n))).2 := by
  rw [tones, List.range_succ, List.map_append, List.map_singleton, record_concat]
  rfl

variable (failures) in
theorem tone_checkpointed {n : ℕ} (h : Gapped bucket sha256 bot i n stored w) :
    Checkpointed bucket sha256 (failures n) bot stored
      (w.writeFive (if n = i then 1 else 0))
      ((tone i n).perform bucket sha256 failures w).2 := by
  have hb : Blocks bucket sha256 bot stored (w.writeFive (if n = i then 1 else 0)) :=
    ⟨h.botId, h.chunks, h.intact⟩
  have hf := flush_checkpointed failures hb (by simp [writeFive_buffer])
  have hn : (w.writeFive (if n = i then 1 else 0)).recorder.checkpointSequence = n :=
    h.checkpointSequence
  rw [hn, ← drain_five h.checkpointChunks] at hf
  exact hf

theorem Gapped.step {n : ℕ} (hfirst : ∀ k < i, (failures k).chunk = false)
    (hlost : (failures i).chunk = true) (h : Gapped bucket sha256 bot i n stored w) :
    ∃ stored', Gapped bucket sha256 bot i (n + 1) stored'
      ((tone i n).perform bucket sha256 failures w).2 := by
  have ht := tone_checkpointed failures h
  have hseq := ht.checkpointSequence.trans (congrArg (· + 1) h.checkpointSequence)
  have hspool := ht.spool.trans (writeFive_spool _)
  have hbuffer := writeFive_buffer (w := w) (if n = i then 1 else 0)
  rw [h.checkpointBuffer, List.nil_append] at hbuffer
  obtain ⟨m, hm, hle⟩ := h.zeros
  rcases Nat.lt_trichotomy n i with hn | rfl | hn
  · have hblocks := ht.kept (hfirst n hn)
    rw [hbuffer, if_neg (Nat.ne_of_lt hn)] at hblocks
    rw [if_neg (Nat.ne_of_lt hn), h.before (Nat.le_of_lt hn), List.replicate_append_replicate] at hspool
    refine ⟨_, hblocks, hseq, ht.checkpointBuffer, ht.checkpointChunks, ⟨m + 5, ?_, by omega⟩,
      fun _ => hspool, fun hlt => by omega⟩
    rw [List.flatten_append, hm, List.flatten_singleton, List.replicate_append_replicate]
  · rw [if_pos rfl, h.before (Nat.le_refl _)] at hspool
    exact ⟨_, ht.lost hlost, hseq, ht.checkpointBuffer, ht.checkpointChunks, ⟨m, hm, by omega⟩,
      fun hlt => by omega, fun _ => ⟨_, hspool⟩⟩
  · obtain ⟨rest, hrest⟩ := h.after hn
    have hafter : ∃ rest, ((tone i n).perform bucket sha256 failures w).2.recorder.spool =
        List.replicate (5 * i) 0 ++ 1 :: rest := by
      refine ⟨rest ++ List.replicate 5 0, ?_⟩
      rw [hspool, hrest, if_neg (Nat.ne_of_gt hn)]
      simp
    cases hc : (failures n).chunk with
    | true =>
      exact ⟨_, ht.lost hc, hseq, ht.checkpointBuffer, ht.checkpointChunks, ⟨m, hm, by omega⟩,
        fun hlt => by omega, fun _ => hafter⟩
    | false =>
      have hblocks := ht.kept hc
      rw [hbuffer, if_neg (Nat.ne_of_gt hn)] at hblocks
      refine ⟨_, hblocks, hseq, ht.checkpointBuffer, ht.checkpointChunks, ⟨m + 5, ?_, by omega⟩,
        fun hlt => by omega, fun _ => hafter⟩
      rw [List.flatten_append, hm, List.flatten_singleton, List.replicate_append_replicate]

variable (bucket sha256 bot) in
theorem gapped_tones (hfirst : ∀ k < i, (failures k).chunk = false)
    (hlost : (failures i).chunk = true) (n : ℕ) :
    ∃ stored, Gapped bucket sha256 bot i n stored
      (record bucket sha256 failures bot (tones i n)) := by
  induction n with
  | zero =>
    exact ⟨[], ⟨rfl, rfl, trivial⟩, rfl, rfl, rfl, ⟨0, rfl, by omega⟩, fun _ => rfl, nofun⟩
  | succ n ih =>
    obtain ⟨stored, h⟩ := ih
    rw [tones_succ]
    exact h.step hfirst hlost

/-- What has been noted stays noted. -/
theorem moments_tones (hfirst : ∀ k < i, (failures k).chunk = false)
    (hlost : (failures i).chunk = true) {n m : ℕ} (h : n ≤ m) :
    (record bucket sha256 failures bot (tones i n)).moments <+:
      (record bucket sha256 failures bot (tones i m)).moments := by
  induction h with
  | refl => exact List.prefix_rfl
  | @step m _ ih =>
    obtain ⟨stored, h⟩ := gapped_tones bucket sha256 bot hfirst hlost m
    have ht := tone_checkpointed failures h
    rw [← tones_succ] at ht
    exact ih.trans ht.moments

theorem not_prefix_of_gap {m : ℕ} {rest : Bytes} (hm : 5 * i < m) :
    ¬List.replicate m (0 : UInt8) <+: List.replicate (5 * i) 0 ++ 1 :: rest := by
  intro hp
  have hget := hp.getElem (i := 5 * i) (by simpa using hm)
  simp at hget

variable (bucket sha256 bot) in
theorem gap_breaks (hfirst : ∀ k < i, (failures k).chunk = false)
    (hlost : (failures i).chunk = true) (hij : i < j) (hc : (failures j).chunk = false)
    (hm : (failures j).manifest = false) :
    ∃ moment ∈ (record bucket sha256 failures bot (tones i (j + 1))).moments,
      ¬Restores bucket sha256 bot moment := by
  obtain ⟨stored, h⟩ := gapped_tones bucket sha256 bot hfirst hlost j
  have ht := tone_checkpointed failures h
  rw [← tones_succ] at ht
  have hji : j ≠ i := Nat.ne_of_gt hij
  have hspool := ht.spool.trans (writeFive_spool _)
  obtain ⟨rest, hrest⟩ := h.after hij
  rw [hrest, if_neg hji, List.append_assoc, List.cons_append] at hspool
  have hbuffer := writeFive_buffer (w := record bucket sha256 failures bot (tones i j))
    (if j = i then 1 else 0)
  rw [h.checkpointBuffer, List.nil_append, if_neg hji] at hbuffer
  obtain ⟨m, hm', hle⟩ := h.zeros
  obtain ⟨manifest, hobj, hchunks⟩ := ht.listed hc hm
  have hrun := restored_describe sha256 hobj hchunks (ht.kept hc).intact
  refine ⟨_, ht.noted hc hm, fun hr => ?_⟩
  obtain ⟨data, damaged, checksum, hrun', hp⟩ := hr _ hobj
  have heq := hrun.symm.trans hrun'
  injection heq with heq
  injection heq with heq _
  rw [← heq, World.now, hspool, if_neg hji, hbuffer] at hp
  simp only [List.flatten_append, hm', List.flatten_cons, List.flatten_nil, List.append_nil,
    List.replicate_append_replicate] at hp
  exact not_prefix_of_gap (by omega) hp

/-- Whatever is drained and however it is flushed in a recording with `n` checkpoints, at every put
and at the end. -/
def AlwaysRestores (bucket : String) (sha256 : Bytes → String) (failures : ℕ → Failures)
    (bot n : ℕ) : Prop :=
  ∀ inputs, (record bucket sha256 failures bot inputs).recorder.checkpointSequence = n →
    ∀ moment ∈ (record bucket sha256 failures bot inputs).moments ++
      [(record bucket sha256 failures bot inputs).now], Restores bucket sha256 bot moment

theorem manifest_describes_start (bucket : String) (sha256 : Bytes → String)
    (failures : ℕ → Failures) (bot n : ℕ) :
    AlwaysRestores bucket sha256 failures bot n ↔ Gapless failures n := by
  constructor
  · intro h i j hij hjn hlost
    by_contra hne
    obtain ⟨hc, hm⟩ := not_or.mp hne
    have hex : ∃ i, (failures i).chunk = true := ⟨i, hlost⟩
    have hle := Nat.find_min' hex hlost
    have hfirst : ∀ k < Nat.find hex, (failures k).chunk = false := fun k hk =>
      (Bool.not_eq_true _).mp (Nat.find_min hex hk)
    obtain ⟨moment, hmem, hbad⟩ := gap_breaks bucket sha256 bot hfirst (Nat.find_spec hex)
      (Nat.lt_of_le_of_lt hle hij) ((Bool.not_eq_true _).mp hc) ((Bool.not_eq_true _).mp hm)
    obtain ⟨stored, hgapped⟩ := gapped_tones bucket sha256 bot hfirst (Nat.find_spec hex) n
    have hlater := (moments_tones hfirst (Nat.find_spec hex) hjn).subset hmem
    exact hbad (h _ hgapped.checkpointSequence _ (List.mem_append_left _ hlater))
  · intro hg inputs hn moment hmem
    obtain ⟨stored, h⟩ := inv_record bucket sha256 failures bot inputs
    have hkept := h.kept (hn ▸ hg)
    rcases List.mem_append.mp hmem with hmem | hmem
    · exact hkept.moments moment hmem
    · obtain rfl := List.mem_singleton.mp hmem
      exact hkept.listed.restores h.intact

/-- The put of the first block fails, and nothing after it. -/
def lostFirst (n : ℕ) : Failures := { chunk := n = 0 }

/-- Two lists of five chunks, each of which makes one checkpoint. -/
def twoDrains : List Input :=
  [.drain (some [[1], [2], [3], [4], [5]]), .drain (some [[6], [7], [8], [9], [10]])]

/-- A stand-in for the digest that tells the two blocks apart. -/
def mark (data : Bytes) : String := if data.head? = some 6 then "second" else "first"

theorem lostFirst_restored :
    (record "twin" mark lostFirst 7 twoDrains).recorder.spool = [1, 2, 3, 4, 5, 6, 7, 8, 9, 10] ∧
      restored mark (record "twin" mark lostFirst 7 twoDrains).objects ⟨"twin", .manifest 7⟩ =
        .ok ([6, 7, 8, 9, 10], false, "second") := by
  decide +kernel

/-- The manifest then describes a recording that starts with the second block. -/
theorem not_alwaysRestores : ¬AlwaysRestores "twin" mark lostFirst 7 2 := by
  intro h
  obtain ⟨hspool, hrun⟩ := lostFirst_restored
  have hput : ((record "twin" mark lostFirst 7 twoDrains).objects (.manifest 7)).isSome := by
    decide +kernel
  have hnow : Restores "twin" mark 7 (record "twin" mark lostFirst 7 twoDrains).now :=
    h twoDrains (by decide +kernel) _ (List.mem_append_right _ (List.mem_singleton_self _))
  generalize record "twin" mark lostFirst 7 twoDrains = w at hspool hrun hput hnow
  obtain ⟨object, hobj⟩ := Option.isSome_iff_exists.mp hput
  obtain ⟨data, damaged, checksum, hrun', hp⟩ := hnow object hobj
  have hdata : data = [6, 7, 8, 9, 10] := by
    have heq := hrun'.symm.trans hrun
    injection heq with heq
    injection heq
  have hstart : [6, 7, 8, 9, 10] <+: ([1, 2, 3, 4, 5, 6, 7, 8, 9, 10] : Bytes) := by
    rwa [hdata, World.now, hspool] at hp
  exact absurd hstart (by decide)

end Fakery.Meet
