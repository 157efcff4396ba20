import Fakery.Storage.Represented

/-! Checkpoints as a journal with a published front: blocks are added at its end, and what the
manifest gives back is the front that was published last, whichever puts fail. -/
namespace Fakery.Storage

/-- The blocks whose puts were done, and those that the manifest in the store lists. -/
structure Journal where
  stored : List Bytes := []
  published : Option (List Bytes) := none
deriving DecidableEq

namespace Journal

/-- A block whose put raises is not in the journal, whether or not it was stored. -/
def append (j : Journal) (outcomes : List PutOutcome) (data : Bytes) :
    Journal × List PutOutcome :=
  if data = [] then (j, outcomes)
  else if (outcomes.head?.getD .done).raises then (j, outcomes.tail)
  else
    let stored := j.stored ++ [data]
    ({ stored, published := if (outcomes.tail.head?.getD .done).stores then some stored
        else j.published }, outcomes.tail.tail)

def appendAll (j : Journal) (outcomes : List PutOutcome) : List Bytes → Journal
  | [] => j
  | data :: blocks => (j.append outcomes data).1.appendAll (j.append outcomes data).2 blocks

variable {j : Journal} {outcomes : List PutOutcome} {data : Bytes} {blocks : List Bytes}

/-- What a step of the journal adds is the block, at the end. -/
theorem append_cases (j : Journal) (outcomes : List PutOutcome) (data : Bytes) :
    ((j.append outcomes data).1.stored = j.stored ∧
      (j.append outcomes data).1.published = j.published) ∨
    ((j.append outcomes data).1.stored = j.stored ++ [data] ∧
      ((j.append outcomes data).1.published = j.published ∨
        (j.append outcomes data).1.published = some (j.stored ++ [data]))) := by
  unfold append
  split_ifs
  · exact Or.inl ⟨rfl, rfl⟩
  · exact Or.inl ⟨rfl, rfl⟩
  · exact Or.inr ⟨rfl, Or.inr rfl⟩
  · exact Or.inr ⟨rfl, Or.inl rfl⟩

theorem append_outcomes (j : Journal) (outcomes : List PutOutcome) (data : Bytes) :
    ∀ o ∈ (j.append outcomes data).2, o ∈ outcomes := by
  unfold append
  split_ifs
  · exact fun o ho => ho
  · exact fun o ho => List.mem_of_mem_tail ho
  · exact fun o ho => List.mem_of_mem_tail (List.mem_of_mem_tail ho)
  · exact fun o ho => List.mem_of_mem_tail (List.mem_of_mem_tail ho)

/-- The blocks of a journal, and of its front, are some of those that were to be added. -/
structure Within (j : Journal) (blocks : List Bytes) : Prop where
  stored : j.stored.Sublist blocks
  published : ∀ front, j.published = some front → front.Sublist blocks

theorem Within.append (h : j.Within blocks) (outcomes : List PutOutcome) (data : Bytes) :
    (j.append outcomes data).1.Within (blocks ++ [data]) := by
  have hmore : blocks.Sublist (blocks ++ [data]) := List.sublist_append_left _ _
  have hboth : (j.stored ++ [data]).Sublist (blocks ++ [data]) :=
    h.stored.append (List.Sublist.refl _)
  rcases append_cases j outcomes data with ⟨hs, hp⟩ | ⟨hs, hp | hp⟩
  · exact ⟨hs ▸ h.stored.trans hmore, fun front hf => (h.published front (hp ▸ hf)).trans hmore⟩
  · exact ⟨hs ▸ hboth, fun front hf => (h.published front (hp ▸ hf)).trans hmore⟩
  · exact ⟨hs ▸ hboth, fun front hf => Option.some.inj (hp ▸ hf) ▸ hboth⟩

end Journal

section invariant

/-- The objects of a store in which the writer has got as far as the journal; `before` is what was
at the key of the manifest. -/
structure Journaled (bucket : String) (sha256 : Bytes → String) (bot : ℕ) (before : Option Object)
    (objects : Objects) (j : Journal) : Prop where
  stored : Stored bot objects 0 j.stored
  published : ∀ blocks, j.published = some blocks → blocks <+: j.stored ∧
    ∃ manifest, objects (.manifest bot) = some (.json manifest) ∧
      manifest.chunks = describe sha256 bucket bot 0 blocks
  unpublished : j.published = none → objects (.manifest bot) = before

/-- The state of the writer beside its store. -/
structure Journals (bucket : String) (sha256 : Bytes → String) (bot : ℕ) (before : Option Object)
    (w : CheckpointWriter) (s : Faulty Key Object) (j : Journal) : Prop where
  botId : w.botId = bot
  chunks : w.chunks = describe sha256 bucket bot 0 j.stored
  objects : Journaled bucket sha256 bot before s.objects j
  uri : ∀ uri, w.manifestUri = some uri → uri = ⟨bucket, .manifest bot⟩ ∧ j.published.isSome = true

variable {bucket : String} {sha256 : Bytes → String} {bot : ℕ} {before : Option Object}
  {w : CheckpointWriter}
  {s : Faulty Key Object} {objects : Objects} {j : Journal} {data : Bytes} {blocks : List Bytes}

theorem Stored.of_prefix {n : ℕ} {front : List Bytes} (h : Stored bot objects n blocks)
    (hp : front <+: blocks) : Stored bot objects n front := by
  obtain ⟨rest, rfl⟩ := hp
  exact (Stored.append.mp h).1

theorem Journaled.restored (h : Journaled bucket sha256 bot before objects j)
    (hp : j.published = some blocks) :
    Storage.restored sha256 objects ⟨bucket, .manifest bot⟩ =
      .ok (blocks.flatten, false, sha256 blocks.flatten) := by
  obtain ⟨hfront, manifest, hm, hc⟩ := h.published blocks hp
  exact restored_describe sha256 hm hc (h.stored.of_prefix hfront)

/-- What is stored where the next block goes does not count. -/
theorem Journaled.putChunk (h : Journaled bucket sha256 bot before objects j) (o : Option Object) :
    Journaled bucket sha256 bot before (Function.update objects (.chunk bot j.stored.length) o) j where
  stored := h.stored.update_of_le (Nat.le_of_eq (Nat.zero_add _))
  published blocks hp := by
    obtain ⟨hfront, manifest, hm, hc⟩ := h.published blocks hp
    exact ⟨hfront, manifest, by rw [Function.update_of_ne (by simp), hm], hc⟩
  unpublished hp := by rw [Function.update_of_ne (by simp), h.unpublished hp]

theorem Journaled.addChunk (h : Journaled bucket sha256 bot before objects j) (data : Bytes) :
    Journaled bucket sha256 bot before
      (Function.update objects (.chunk bot j.stored.length) (some (.bytes data)))
      { j with stored := j.stored ++ [data] } where
  stored := by
    refine Stored.append.mpr ⟨(h.putChunk _).stored, ?_, trivial⟩
    rw [Nat.zero_add, Function.update_self]
  published blocks hp := by
    obtain ⟨hfront, hmanifest⟩ := (h.putChunk _).published blocks hp
    exact ⟨hfront.trans (List.prefix_append _ _), hmanifest⟩
  unpublished := (h.putChunk _).unpublished

theorem Journaled.putManifest (h : Journaled bucket sha256 bot before objects j) {manifest : Manifest}
    (hc : manifest.chunks = describe sha256 bucket bot 0 j.stored) :
    Journaled bucket sha256 bot before (Function.update objects (.manifest bot) (some (.json manifest)))
      { j with published := some j.stored } where
  stored := h.stored.update_of_ne fun _ => by simp
  published blocks hp := by
    cases Option.some.inj hp
    exact ⟨List.prefix_rfl, manifest, Function.update_self _ _ _, hc⟩
  unpublished hp := by cases hp

/-- The put of a manifest, whatever comes of it. -/
theorem Journaled.put (h : Journaled bucket sha256 bot before objects j) (hs : s.objects = objects)
    (manifest : Manifest) (hc : manifest.chunks = describe sha256 bucket bot 0 j.stored) :
    Journaled bucket sha256 bot before (s.put (.manifest bot) (.json manifest)).objects
      { j with published := if s.outcome.stores then some j.stored else j.published } := by
  subst hs
  simp only [Faulty.put]
  split_ifs
  · exact h.putManifest hc
  · exact h

/-- One call of `append` is one step of the journal. -/
theorem Journals.append (h : Journals bucket sha256 bot before w s j) (data : Bytes) :
    Journals bucket sha256 bot before (w.append (faultyBlob bucket) sha256 data s).1.2
        (w.append (faultyBlob bucket) sha256 data s).2 (j.append s.outcomes data).1 ∧
      (w.append (faultyBlob bucket) sha256 data s).2.outcomes = (j.append s.outcomes data).2 := by
  obtain ⟨hbot, hchunks, hobjects, huri⟩ := h
  by_cases hd : data = []
  · have hr : w.append (faultyBlob bucket) sha256 data s = ((.ok w.manifestUri, w), s) := by
      simp only [CheckpointWriter.append, if_pos hd]
      rfl
    rw [hr, Journal.append, if_pos hd]
    exact ⟨⟨hbot, hchunks, hobjects, huri⟩, rfl⟩
  · have hlen : w.chunks.length = j.stored.length := by
      rw [hchunks, length_describe]
    subst hbot
    rw [Encoded.append_eq bucket sha256 w hd, Journal.append, if_neg hd, ← Faulty.outcome, hlen]
    dsimp only
    by_cases hchunk : s.outcome.raises = true
    · rw [if_pos hchunk, if_pos hchunk]
      refine ⟨⟨rfl, hchunks, ?_, huri⟩, rfl⟩
      simp only [Faulty.put]
      split_ifs
      · exact hobjects.putChunk _
      · exact hobjects
    · rw [if_neg hchunk, if_neg hchunk]
      have hadded := hobjects.addChunk data
      have hlisted : (w.add sha256 ⟨bucket, .chunk w.botId j.stored.length⟩
          (.chunk w.botId j.stored.length) data).chunks =
          describe sha256 bucket w.botId 0 (j.stored ++ [data]) := by
        rw [describe_concat, ← hchunks, Nat.zero_add, CheckpointWriter.add, hlen]
        rfl
      have hs₁ : (s.put (.chunk w.botId j.stored.length) (.bytes data)).outcome =
          s.outcomes.tail.head?.getD .done := rfl
      have hobj₁ : (s.put (.chunk w.botId j.stored.length) (.bytes data)).objects =
          Function.update s.objects (.chunk w.botId j.stored.length) (some (.bytes data)) :=
        if_pos (PutOutcome.stores_of_not_raises hchunk)
      have hobjects₂ := hadded.put (s := s.put (.chunk w.botId j.stored.length) (.bytes data))
        hobj₁ (w.add sha256 ⟨bucket, .chunk w.botId j.stored.length⟩
          (.chunk w.botId j.stored.length) data).manifest hlisted
      rw [hs₁] at hobjects₂ ⊢
      by_cases hmanifest : (s.outcomes.tail.head?.getD .done).raises = true
      · rw [if_pos hmanifest]
        refine ⟨⟨rfl, hlisted, hobjects₂, fun uri hu => ⟨(huri uri hu).1, ?_⟩⟩, rfl⟩
        dsimp only
        split_ifs
        · rfl
        · exact (huri uri hu).2
      · rw [if_neg hmanifest]
        refine ⟨⟨rfl, hlisted, hobjects₂, fun uri hu => ⟨(Option.some.inj hu).symm, ?_⟩⟩, rfl⟩
        dsimp only
        rw [if_pos (PutOutcome.stores_of_not_raises hmanifest)]
        rfl

end invariant

namespace Encoded
open Fakery.Texts

section runs

variable {names : BotNames} {bucket : Bucket} {admits : Text → Bool} {sha256 : Bytes → Text}
  {bot : ℕ} {before : Option Object} {w : CheckpointWriter} {t : Faulty Text Bytes} {j : Journal}
  {outcomes : List PutOutcome}

/-- A writer of texts whose store holds, in bytes, what the journal says. -/
def Writes (names : BotNames) (bucket : Bucket) (sha256 : Bytes → Text) (bot : ℕ)
    (before : Option Object) (w : CheckpointWriter) (t : Faulty Text Bytes) (j : Journal) : Prop :=
  ∃ s w₀, Represents names s t ∧ w = writerOf names w₀ ∧
    Journals (String.ofList bucket.name) (fun data => String.ofList (sha256 data)) bot before w₀ s j

theorem Writes.append (h : Writes names bucket sha256 bot before w t j) (data : Bytes) :
    Writes names bucket sha256 bot before (w.append (faultyBlob bucket.name) sha256 data t).1.2
        (w.append (faultyBlob bucket.name) sha256 data t).2 (j.append t.outcomes data).1 ∧
      (w.append (faultyBlob bucket.name) sha256 data t).2.outcomes =
        (j.append t.outcomes data).2 := by
  obtain ⟨s, w₀, hrep, rfl, hj⟩ := h
  obtain ⟨-, hwriter, hstore⟩ := append_represents (String.ofList bucket.name)
    (fun data => String.ofList (sha256 data)) w₀ data hrep
  obtain ⟨hstep, hleft⟩ := hj.append data
  simp only [String.toList_ofList] at hwriter hstore
  rw [hstore.outcomes, hrep.outcomes]
  exact ⟨⟨_, _, hstore, hwriter, hstep⟩, hleft⟩

theorem Writes.appendAll (h : Writes names bucket sha256 bot before w t j)
    (blocks : List Bytes) : Writes names bucket sha256 bot before
      (Encoded.appendAll (faultyBlob bucket.name) sha256 w blocks t).1
      (Encoded.appendAll (faultyBlob bucket.name) sha256 w blocks t).2
      (j.appendAll t.outcomes blocks) := by
  induction blocks generalizing w t j with
  | nil => exact h
  | cons data blocks ih =>
    obtain ⟨hstep, hleft⟩ := h.append data
    have hrest := ih hstep
    rw [hleft] at hrest
    exact hrest

/-- A call that tells a URI has published its block. -/
theorem Writes.told (h : Writes names bucket sha256 bot before w t j) {data : Bytes}
    (hd : data ≠ []) {told : Text}
    (ht : (w.append (faultyBlob bucket.name) sha256 data t).1.1 = .ok told) :
    told = uriText bucket.name (manifestKey (names.text bot)) ∧
      (j.append t.outcomes data).1 = ⟨j.stored ++ [data], some (j.stored ++ [data])⟩ := by
  obtain ⟨s, w₀, -, rfl, hj⟩ := h
  have hbot : (writerOf names w₀).botId = names.text bot := congrArg names.text hj.botId
  rw [append_text_eq _ _ _ hd] at ht
  dsimp only at ht
  split_ifs at ht with hchunk hmanifest
  have houtcome : (t.outcomes.tail.head?.getD .done).stores = true :=
    PutOutcome.stores_of_not_raises hmanifest
  have hraises : ¬(t.outcomes.head?.getD .done).raises = true := hchunk
  refine ⟨hbot ▸ (Except.ok.inj ht).symm, ?_⟩
  simp only [Journal.append, if_neg hd, if_neg hraises, if_pos houtcome]

/-- The writer knows no URI but that of its manifest, and knows it when that is published. -/
theorem Writes.manifestUri (h : Writes names bucket sha256 bot before w t j) {told : Text}
    (ht : w.manifestUri = some told) :
    told = uriText bucket.name (manifestKey (names.text bot)) ∧ j.published.isSome = true := by
  obtain ⟨s, w₀, -, rfl, hj⟩ := h
  obtain ⟨uri₀, hu, rfl⟩ := Option.map_eq_some_iff.mp ht
  obtain ⟨rfl, hpublished⟩ := hj.uri uri₀ hu
  refine ⟨?_, hpublished⟩
  rw [uriOf, String.toList_ofList]
  rfl

/-- The answer to a call is the URI of a published manifest, which lists the block of the call as
its last one; for an empty block it may be the empty text as well. -/
theorem Writes.answered (h : Writes names bucket sha256 bot before w t j) {data : Bytes}
    {told : Text} (ht : (w.append (faultyBlob bucket.name) sha256 data t).1.1 = .ok told) :
    data = [] ∧ told = [] ∨ told = uriText bucket.name (manifestKey (names.text bot)) ∧
      ∃ front, (j.append t.outcomes data).1.published = some front ∧
        (data ≠ [] → front = j.stored ++ [data]) := by
  by_cases hd : data = []
  · have hknown : w.manifestUri.getD [] = told := by
      rw [CheckpointWriter.append, if_pos hd] at ht
      exact Except.ok.inj ht
    cases hu : w.manifestUri with
    | none =>
      rw [hu] at hknown
      exact Or.inl ⟨hd, hknown.symm⟩
    | some uri =>
      rw [hu] at hknown
      subst hknown
      obtain ⟨huri, hpublished⟩ := h.manifestUri hu
      obtain ⟨front, hfront⟩ := Option.isSome_iff_exists.mp hpublished
      refine Or.inr ⟨huri, front, ?_, fun hne => absurd hd hne⟩
      rw [Journal.append, if_pos hd]
      exact hfront
  · obtain ⟨huri, hj⟩ := h.told hd ht
    exact Or.inr ⟨huri, _, congrArg Journal.published hj, fun _ => rfl⟩

/-- Where no put raises, a URI is told. -/
theorem exists_told (w : CheckpointWriter) {t : Faulty Text Bytes} {data : Bytes} (hd : data ≠ [])
    (bucket : Text) (sha256 : Bytes → Text) (h : ∀ o ∈ t.outcomes, o = .done) :
    ∃ told, (w.append (faultyBlob bucket) sha256 data t).1.1 = .ok told := by
  have htail : ∀ o ∈ t.outcomes.tail, o = .done := fun o ho => h o (List.mem_of_mem_tail ho)
  have hchunk : ¬t.outcome.raises = true := by
    rw [Faulty.outcome_of_done h]
    exact Bool.false_ne_true
  have hmanifest : ∀ key data, ¬(t.put key data).outcome.raises = true := fun key data => by
    rw [Faulty.outcome_of_done (s := t.put key data) htail]
    exact Bool.false_ne_true
  rw [append_text_eq w bucket sha256 hd]
  dsimp only
  rw [if_neg hchunk, if_neg (hmanifest _ _)]
  exact ⟨_, rfl⟩

variable (bucket sha256) in
/-- A call of `append` writes to no other key. -/
theorem append_of_ne (w : CheckpointWriter) (t : Faulty Text Bytes) (data : Bytes) {key : Text}
    (hchunk : ∀ n, key ≠ chunkKey w.botId n) (hmanifest : key ≠ manifestKey w.botId) :
    (w.append (faultyBlob bucket.name) sha256 data t).1.2.botId = w.botId ∧
      (w.append (faultyBlob bucket.name) sha256 data t).2.objects key = t.objects key := by
  by_cases hd : data = []
  · rw [CheckpointWriter.append, if_pos hd]
    exact ⟨rfl, rfl⟩
  · have h₁ := Faulty.put_of_ne t (hchunk w.chunks.length) data
    rw [append_text_eq w bucket.name sha256 hd]
    dsimp only
    split_ifs
    · exact ⟨rfl, h₁⟩
    · exact ⟨rfl, (Faulty.put_of_ne _ hmanifest _).trans h₁⟩
    · exact ⟨rfl, (Faulty.put_of_ne _ hmanifest _).trans h₁⟩

theorem appendAll_of_ne (w : CheckpointWriter) (t : Faulty Text Bytes) (blocks : List Bytes)
    {key : Text} (hchunk : ∀ n, key ≠ chunkKey w.botId n) (hmanifest : key ≠ manifestKey w.botId) :
    (Encoded.appendAll (faultyBlob bucket.name) sha256 w blocks t).2.objects key =
      t.objects key := by
  induction blocks generalizing w t with
  | nil => rfl
  | cons data blocks ih =>
    obtain ⟨hbot, hkey⟩ := append_of_ne bucket sha256 w t data hchunk hmanifest
    rw [← hbot] at hchunk hmanifest
    exact (ih _ _ hchunk hmanifest).trans hkey

theorem Writes.start (names : BotNames) (bucket : Bucket) (sha256 : Bytes → Text) (bot : ℕ)
    (files : Text → Option Bytes) (outcomes : List PutOutcome) :
    Writes names bucket sha256 bot ((files (manifestKey (names.text bot))).map .bytes)
      ⟨names.text bot, [], none⟩ ⟨files, outcomes⟩ {} := by
  refine ⟨⟨fun key => (files (keyText names key)).map .bytes, outcomes⟩, ⟨bot, [], none⟩,
    ⟨rfl, fun key => ?_⟩, rfl, rfl, rfl, ⟨trivial, ?_, fun _ => rfl⟩, ?_⟩
  · rw [Option.map_map]
    exact Option.map_id.symm ▸ rfl
  · exact fun _ h => by cases h
  · exact fun _ h => by cases h

theorem no_manifest_of_stored {objects : Objects} {n : ℕ} {blocks : List Bytes} {hash bucketName}
    (h : Stored bot objects n blocks) : ∀ c ∈ describe hash bucketName bot n blocks,
      ∀ manifest, objects c.key ≠ some (.json manifest) := by
  induction blocks generalizing n with
  | nil => exact fun _ hc => by cases hc
  | cons data blocks ih =>
    intro c hc manifest
    rw [describe] at hc
    rcases List.mem_cons.mp hc with rfl | hc
    · exact fun hjson => by cases h.1.symm.trans hjson
    · exact ih h.2 c hc manifest

theorem Writes.restored (h : Writes names bucket sha256 bot before w t j) {front : List Bytes}
    (hp : j.published = some front) :
    Encoded.restored admits sha256 t.objects (uriText bucket.name (manifestKey (names.text bot))) =
      .ok (front.flatten, false, sha256 front.flatten) := by
  obtain ⟨s, w₀, hrep, -, hj⟩ := h
  have hread := hj.objects.restored hp
  obtain ⟨hfront, m, hm, hc⟩ := hj.objects.published front hp
  have hsame := restored_represents bucket admits
    (fun data => String.ofList (sha256 data)) hrep.objects hm
    (hc ▸ no_manifest_of_stored (hj.objects.stored.of_prefix hfront))
  simp only [String.toList_ofList, hread, Except.map] at hsame
  exact hsame

/-- What a writer leaves in a store, whichever puts raise: its manifest gives back, undamaged and
with their checksum, the blocks it was published with last; the URI that it answers to one more call
of `append` is that of a manifest which then gives back what is stored, the block of the call at the
end; the URI that it keeps is that of a published manifest; without one the manifest is as it was;
and every other key is as it was. -/
theorem restored_published (names : BotNames) (bucket : Bucket) (admits : Text → Bool)
    (sha256 : Bytes → Text) (bot : ℕ) (files : Text → Option Bytes) (outcomes : List PutOutcome)
    (blocks : List Bytes) :
    let botId := names.text bot
    let uri := uriText bucket.name (manifestKey botId)
    let r := Encoded.appendAll (faultyBlob bucket.name) sha256 ⟨botId, [], none⟩ blocks
      ⟨files, outcomes⟩
    let j := ({} : Journal).appendAll outcomes blocks
    (∀ front, j.published = some front → Encoded.restored admits sha256 r.2.objects uri =
      .ok (front.flatten, false, sha256 front.flatten)) ∧
    (∀ data told, let a := r.1.append (faultyBlob bucket.name) sha256 data r.2
      a.1.1 = .ok told → data = [] ∧ told = [] ∨ told = uri ∧
        ∃ front, (data ≠ [] → front = j.stored ++ [data]) ∧
          Encoded.restored admits sha256 a.2.objects told =
            .ok (front.flatten, false, sha256 front.flatten)) ∧
    (∀ told, r.1.manifestUri = some told → told = uri ∧ j.published.isSome = true) ∧
    (j.published = none → r.2.objects (manifestKey botId) = files (manifestKey botId)) ∧
    ∀ key, (∀ n, key ≠ chunkKey botId n) → key ≠ manifestKey botId →
      r.2.objects key = files key := by
  intro botId uri r j
  have hrun := (Writes.start names bucket sha256 bot files outcomes).appendAll blocks
  refine ⟨fun front hp => hrun.restored hp, ?_, fun told ht => hrun.manifestUri ht, ?_,
    fun key hchunk hmanifest =>
      appendAll_of_ne ⟨botId, [], none⟩ ⟨files, outcomes⟩ blocks hchunk hmanifest⟩
  · intro data told a ht
    rcases hrun.answered ht with hempty | ⟨huri, front, hfront, hlast⟩
    · exact Or.inl hempty
    · subst huri
      exact Or.inr ⟨rfl, front, hlast, (hrun.append data).1.restored hfront⟩
  · obtain ⟨s, w₀, hrep, -, hj⟩ := hrun
    intro hp
    have hmanifest := hrep.objects (.manifest bot)
    rw [hj.objects.unpublished hp, Option.map_map] at hmanifest
    refine hmanifest.trans ?_
    exact Option.map_id.symm ▸ rfl

end runs

end Encoded

end Fakery.Storage
