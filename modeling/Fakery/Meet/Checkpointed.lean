import Fakery.Meet.Flush
import Mathlib.Data.List.Induction
import Mathlib.Tactic.SplitIfs

/-! While no block is lost before another is listed, every stored manifest describes the start of
what was spooled. -/
namespace Fakery.Meet
open Fakery.Storage

variable {bucket : String} {sha256 : Bytes → String} {failures : ℕ → Failures}
  {w : World} {bot : ℕ}

/-- The manifest of the bot, where there is one, restores to the start of what was spooled. -/
def Restores (bucket : String) (sha256 : Bytes → String) (bot : ℕ) (moment : Bytes × Objects) :
    Prop :=
  ∀ object, moment.2 (.manifest bot) = some object → ∃ data damaged checksum,
    restored sha256 moment.2 ⟨bucket, .manifest bot⟩ = .ok (data, damaged, checksum) ∧
      data <+: moment.1

/-- What is stored under the manifest lists blocks that start `stored` and start the spool. -/
def Listed (bucket : String) (sha256 : Bytes → String) (bot : ℕ) (stored : List Bytes)
    (moment : Bytes × Objects) : Prop :=
  ∀ object, moment.2 (.manifest bot) = some object → ∃ manifest ds, object = .json manifest ∧
    manifest.chunks = describe sha256 bucket bot 0 ds ∧ ds <+: stored ∧ ds.flatten <+: moment.1

variable {stored : List Bytes} {moment : Bytes × Objects}

theorem Listed.restores (h : Listed bucket sha256 bot stored moment)
    (hs : Stored bot moment.2 0 stored) : Restores bucket sha256 bot moment := by
  intro object ho
  obtain ⟨manifest, ds, rfl, hc, ⟨rest, rfl⟩, hp⟩ := h object ho
  have hrun := restored_describe sha256 ho hc (Stored.append.mp hs).1
  exact ⟨ds.flatten, false, sha256 ds.flatten, hrun, hp⟩

/-- `stored` are the blocks that the writer has listed. -/
structure Blocks (bucket : String) (sha256 : Bytes → String) (bot : ℕ) (stored : List Bytes)
    (w : World) : Prop where
  botId : w.writer.botId = bot
  chunks : w.writer.chunks = describe sha256 bucket bot 0 stored
  intact : Stored bot w.objects 0 stored

theorem Blocks.addBlock (h : Blocks bucket sha256 bot stored w) (data : Bytes) :
    Blocks bucket sha256 bot (stored ++ [data]) (w.addBlock bucket sha256 data) := by
  have hlen : w.writer.chunks.length = stored.length := by rw [h.chunks, length_describe]
  refine ⟨h.botId, ?_, Stored.append.mpr ⟨?_, ?_, trivial⟩⟩
  · rw [describe_concat, ← h.chunks]
    simp [World.addBlock, World.store, World.setWriter, CheckpointWriter.add, entry, h.botId, hlen]
  · simp only [World.addBlock, World.store, World.setWriter, h.botId, hlen]
    exact h.intact.update_of_le (by omega)
  · simp [World.addBlock, World.store, World.setWriter, h.botId, hlen]

theorem Blocks.addManifest (h : Blocks bucket sha256 bot stored w) :
    Blocks bucket sha256 bot stored (w.addManifest bucket) :=
  ⟨h.botId, h.chunks, h.intact.update_of_ne nofun⟩

theorem Blocks.finish (h : Blocks bucket sha256 bot stored w) (e : Except Unit Unit) :
    Blocks bucket sha256 bot stored (w.finish e) := by
  cases e <;> exact ⟨h.botId, h.chunks, h.intact⟩

/-- Besides, whatever was listed restores to the start of the spool. -/
structure Kept (bucket : String) (sha256 : Bytes → String) (bot : ℕ) (stored : List Bytes)
    (w : World) : Prop extends Blocks bucket sha256 bot stored w where
  listed : Listed bucket sha256 bot stored w.now
  moments : ∀ moment ∈ w.moments, Restores bucket sha256 bot moment

theorem Kept.of_recorder {w' : World} (h : Kept bucket sha256 bot stored w)
    (hw : w'.writer = w.writer) (ho : w'.objects = w.objects) (hm : w'.moments = w.moments)
    (hs : w.recorder.spool <+: w'.recorder.spool) : Kept bucket sha256 bot stored w' := by
  refine ⟨⟨hw ▸ h.botId, hw ▸ h.chunks, ho ▸ h.intact⟩, fun object hobj => ?_, hm ▸ h.moments⟩
  rw [World.now, ho] at hobj
  obtain ⟨manifest, ds, rfl, hc, hd, hp⟩ := h.listed object hobj
  exact ⟨manifest, ds, rfl, hc, hd, hp.trans hs⟩

theorem Kept.finish (h : Kept bucket sha256 bot stored w) (e : Except Unit Unit) :
    Kept bucket sha256 bot stored (w.finish e) := by
  cases e <;> exact h.of_recorder rfl rfl rfl List.prefix_rfl

/-- A put that leaves the listing good adds a good moment. -/
theorem Kept.put {w' : World} {stored' : List Bytes} (h : Kept bucket sha256 bot stored w)
    (hb : Blocks bucket sha256 bot stored' w') (hl : Listed bucket sha256 bot stored' w'.now)
    (hm : w'.moments = w.moments ++ [w'.now]) : Kept bucket sha256 bot stored' w' := by
  refine ⟨hb, hl, fun moment hmem => ?_⟩
  rw [hm] at hmem
  rcases List.mem_append.mp hmem with hmem | hmem
  · exact h.moments moment hmem
  · obtain rfl := List.mem_singleton.mp hmem
    exact hl.restores hb.intact

theorem Kept.addBlock (h : Kept bucket sha256 bot stored w) (data : Bytes) :
    Kept bucket sha256 bot (stored ++ [data]) (w.addBlock bucket sha256 data) := by
  refine h.put (h.toBlocks.addBlock data) (fun object hobj => ?_) rfl
  have hne : Key.manifest bot ≠ .chunk w.writer.botId w.writer.chunks.length := nofun
  simp only [World.now, World.addBlock, World.store, World.setWriter,
    Function.update_of_ne hne] at hobj
  obtain ⟨manifest, ds, rfl, hc, hd, hp⟩ := h.listed object hobj
  exact ⟨manifest, ds, rfl, hc, hd.trans (List.prefix_append _ _), hp⟩

theorem listed_addManifest (h : Blocks bucket sha256 bot stored w) :
    (w.addManifest bucket).objects (.manifest bot) = some (.json w.writer.manifest) := by
  simp [World.addManifest, World.store, World.setWriter, h.botId]

theorem Kept.addManifest (h : Kept bucket sha256 bot stored w)
    (hs : stored.flatten <+: w.recorder.spool) :
    Kept bucket sha256 bot stored (w.addManifest bucket) := by
  refine h.put h.toBlocks.addManifest (fun object hobj => ?_) rfl
  have hjson : object = .json w.writer.manifest :=
    Option.some.inj (hobj.symm.trans (listed_addManifest h.toBlocks))
  exact ⟨w.writer.manifest, stored, hjson, h.chunks, List.prefix_rfl, hs⟩

/-- None of the first `n` checkpoints lists its block once an earlier one has lost its own. -/
def Gapless (failures : ℕ → Failures) (n : ℕ) : Prop :=
  ∀ i j, i < j → j < n → (failures i).chunk = true →
    (failures j).chunk = true ∨ (failures j).manifest = true

theorem Gapless.mono {n m : ℕ} (h : Gapless failures m) (hn : n ≤ m) : Gapless failures n :=
  fun i j hij hj => h i j hij (Nat.lt_of_lt_of_le hj hn)

/-- While no block was lost, the blocks and the buffer are what was spooled. -/
structure Inv (bucket : String) (sha256 : Bytes → String) (failures : ℕ → Failures) (bot : ℕ)
    (stored : List Bytes) (w : World) : Prop extends Blocks bucket sha256 bot stored w where
  kept : Gapless failures w.recorder.checkpointSequence → Kept bucket sha256 bot stored w
  whole : (∀ i < w.recorder.checkpointSequence, (failures i).chunk = false) →
    stored.flatten ++ w.recorder.checkpointBuffer = w.recorder.spool

theorem Inv.write (h : Inv bucket sha256 failures bot stored w) (data : Bytes) :
    Inv bucket sha256 failures bot stored (w.write data) := by
  refine ⟨⟨h.botId, h.chunks, h.intact⟩, fun hg => ?_, fun hl => ?_⟩
  · exact (h.kept hg).of_recorder rfl rfl rfl (List.prefix_append _ _)
  · simp only [World.write, Recorder.write]
    rw [← h.whole hl, List.append_assoc]

theorem Inv.flush (h : Inv bucket sha256 failures bot stored w) :
    ∃ stored', Inv bucket sha256 failures bot stored'
      (flushCheckpoint (sinks bucket sha256 failures) w).2 := by
  by_cases hb : w.recorder.checkpointBuffer = []
  · rw [flush_empty hb]
    exact ⟨stored, h⟩
  have hclear : Blocks bucket sha256 bot stored w.clear := ⟨h.botId, h.chunks, h.intact⟩
  have hblock := hclear.addBlock w.recorder.checkpointBuffer
  have hkept : Gapless failures (w.recorder.checkpointSequence + 1) →
      Kept bucket sha256 bot stored w.clear := fun hg =>
    (h.kept (hg.mono (Nat.le_succ _))).of_recorder rfl rfl rfl List.prefix_rfl
  have hwhole : (∀ i < w.recorder.checkpointSequence, (failures i).chunk = false) →
      (stored ++ [w.recorder.checkpointBuffer]).flatten = w.recorder.spool := by
    intro hl
    rw [← h.whole hl]
    simp
  obtain ⟨checkpointed, w', hf, hw⟩ := flush_cases bucket sha256 failures hb
  rw [hf]
  rcases hw with ⟨hc, rfl⟩ | ⟨hc, hm, rfl⟩ | ⟨hc, hm, uri, rfl⟩
  · refine ⟨stored, hclear.finish _, fun hg => ?_, fun hl => ?_⟩
    · rw [World.finish_sequence] at hg
      exact (hkept hg).finish _
    · have hn := hl w.recorder.checkpointSequence (by simp [World.clear, Recorder.cleared])
      cases hc.symm.trans hn
  · refine ⟨_, hblock.finish _, fun hg => ?_, fun hl => ?_⟩
    · rw [World.finish_sequence] at hg
      exact ((hkept hg).addBlock _).finish _
    · simp only [World.finish_spool, World.finish_buffer, World.finish_sequence] at hl ⊢
      exact (List.append_nil _).trans (hwhole fun i hi => hl i (Nat.lt_succ_of_lt hi))
  · have hmanifest := hblock.addManifest
    have hcolumn : Blocks bucket sha256 bot (stored ++ [w.recorder.checkpointBuffer])
        (((w.clear.addBlock bucket sha256 w.recorder.checkpointBuffer).addManifest
          bucket).setColumn uri) := ⟨hmanifest.botId, hmanifest.chunks, hmanifest.intact⟩
    refine ⟨_, hcolumn.finish _, fun hg => ?_, fun hl => ?_⟩
    · rw [World.finish_sequence] at hg
      have hlossless : ∀ i < w.recorder.checkpointSequence, (failures i).chunk = false := by
        intro i hi
        by_contra hne
        rcases hg i _ hi (Nat.lt_succ_self _) ((Bool.not_eq_false _).mp hne) with hx | hx
        · cases hc.symm.trans hx
        · cases hm.symm.trans hx
      have hspool := hwhole hlossless
      have hlisted := ((hkept hg).addBlock w.recorder.checkpointBuffer).addManifest
        (hspool ▸ List.prefix_rfl)
      have hset : Kept bucket sha256 bot (stored ++ [w.recorder.checkpointBuffer])
          (((w.clear.addBlock bucket sha256 w.recorder.checkpointBuffer).addManifest
            bucket).setColumn uri) := hlisted.of_recorder rfl rfl rfl List.prefix_rfl
      exact hset.finish _
    · simp only [World.finish_spool, World.finish_buffer, World.finish_sequence] at hl ⊢
      exact (List.append_nil _).trans (hwhole fun i hi => hl i (Nat.lt_succ_of_lt hi))

theorem Inv.drainChunks (h : Inv bucket sha256 failures bot stored w) (chunks : List Bytes) :
    ∃ stored', Inv bucket sha256 failures bot stored'
      (drainChunks (sinks bucket sha256 failures) chunks w).2 := by
  induction chunks generalizing w stored with
  | nil => exact ⟨stored, h⟩
  | cons data chunks ih =>
    obtain ⟨stored₁, h₁⟩ : ∃ stored₁, Inv bucket sha256 failures bot stored₁
        (drainChunk (sinks bucket sha256 failures) data w).2 := by
      rw [drainChunk_eq]
      split_ifs with hn
      · exact (h.write data).flush
      · exact ⟨stored, h.write data⟩
    exact ih h₁

theorem Inv.perform (h : Inv bucket sha256 failures bot stored w) (input : Input) :
    ∃ stored', Inv bucket sha256 failures bot stored'
      (input.perform bucket sha256 failures w).2 := by
  cases input with
  | flush => exact h.flush
  | drain evaluated =>
    cases evaluated with
    | none => exact ⟨stored, h⟩
    | some chunks => exact h.drainChunks chunks

theorem record_concat (inputs : List Input) (input : Input) :
    record bucket sha256 failures bot (inputs ++ [input]) =
      (input.perform bucket sha256 failures (record bucket sha256 failures bot inputs)).2 := by
  simp [record]

variable (bucket sha256 failures bot) in
theorem inv_record (inputs : List Input) :
    ∃ stored, Inv bucket sha256 failures bot stored
      (record bucket sha256 failures bot inputs) := by
  induction inputs using List.reverseRecOn with
  | nil =>
    have hblocks : Blocks bucket sha256 bot [] (record bucket sha256 failures bot []) :=
      ⟨rfl, rfl, trivial⟩
    exact ⟨[], hblocks, fun _ => ⟨hblocks, nofun, nofun⟩, fun _ => rfl⟩
  | append_singleton inputs input ih =>
    obtain ⟨stored, h⟩ := ih
    rw [record_concat]
    exact h.perform input

end Fakery.Meet
