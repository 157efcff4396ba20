import Fakery.Storage.Encoded

/-! The writer and the reader of texts and bytes do what the writer and the reader of structured
keys and manifests do, put for put and chunk for chunk. -/
namespace Fakery.Storage.Encoded
open Fakery.Json Fakery.Texts

section encoding

variable (names : BotNames)

def uriOf (uri : Uri) : Text := uriText uri.bucket.toList (keyText names uri.key)

def chunkOf (c : Storage.CheckpointChunk) : CheckpointChunk :=
  ⟨c.sequence, uriOf names c.uri, keyText names c.key, c.size, c.sha256.toList⟩

def writerOf (w : Storage.CheckpointWriter) : CheckpointWriter :=
  ⟨names.text w.botId, w.chunks.map (chunkOf names), w.manifestUri.map (uriOf names)⟩

/-- The bytes of an object. A manifest has the version and the format that the writer gives it. -/
def bytesOf : Object → Bytes
  | .bytes data => data
  | .json manifest =>
    manifestBytes (names.text manifest.botId) (manifest.chunks.map (chunkOf names))

abbrev Represents (s : Faulty Key Object) (t : Faulty Text Bytes) : Prop :=
  Faulty.Represents (keyText names) (bytesOf names) s t

end encoding

section append

variable {names : BotNames} {s : Faulty Key Object} {t : Faulty Text Bytes} {bucket : String}
  {sha256 : Bytes → String} {w : Storage.CheckpointWriter} {data : Bytes}

theorem add_writerOf (uri : Uri) (key : Key) (data : Bytes) :
    writerOf names (w.add sha256 uri key data) =
      { writerOf names w with chunks := (writerOf names w).chunks ++ [⟨w.chunks.length,
          uriOf names uri, keyText names key, data.length, (sha256 data).toList⟩] } := by
  simp [writerOf, Storage.CheckpointWriter.add, chunkOf]

variable (bucket sha256 w) in
theorem append_eq (hd : data ≠ []) : w.append (Storage.faultyBlob bucket) sha256 data s =
    let key := Key.chunk w.botId w.chunks.length
    let w₁ := w.add sha256 ⟨bucket, key⟩ key data
    let s₁ := s.put key (.bytes data)
    let s₂ := s₁.put (.manifest w.botId) (.json w₁.manifest)
    if s.outcome.raises then ((.error (), w), s₁)
    else if s₁.outcome.raises then ((.error (), w₁), s₂)
    else ((.ok (some ⟨bucket, .manifest w.botId⟩),
      { w₁ with manifestUri := some ⟨bucket, .manifest w.botId⟩ }), s₂) := by
  rw [Storage.CheckpointWriter.append, if_neg hd]
  refine (Faulty.bind_putting _ _ _ _ _).trans ?_
  dsimp only
  split_ifs with hchunk hmanifest
  · rfl
  · refine (Faulty.bind_putting _ _ _ _ _).trans ?_
    rw [if_pos hmanifest]
    rfl
  · refine (Faulty.bind_putting _ _ _ _ _).trans ?_
    rw [if_neg hmanifest]
    rfl

theorem append_text_eq (w : CheckpointWriter) (bucket : Text) (sha256 : Bytes → Text)
    (hd : data ≠ []) : w.append (faultyBlob bucket) sha256 data t =
    let key := chunkKey w.botId w.chunks.length
    let w₁ := { w with
      chunks := w.chunks ++ [⟨w.chunks.length, uriText bucket key, key, data.length, sha256 data⟩] }
    let t₁ := t.put key data
    let t₂ := t₁.put (manifestKey w.botId) (manifestBytes w.botId w₁.chunks)
    if t.outcome.raises then ((.error (), w), t₁)
    else if t₁.outcome.raises then ((.error (), w₁), t₂)
    else ((.ok (uriText bucket (manifestKey w.botId)),
      { w₁ with manifestUri := some (uriText bucket (manifestKey w.botId)) }), t₂) := by
  rw [CheckpointWriter.append, if_neg hd]
  refine (Faulty.bind_putting _ _ _ _ _).trans ?_
  dsimp only
  split_ifs with hchunk hmanifest
  · rfl
  · refine (Faulty.bind_putting _ _ _ _ _).trans ?_
    rw [if_pos hmanifest]
    rfl
  · refine (Faulty.bind_putting _ _ _ _ _).trans ?_
    rw [if_neg hmanifest]
    rfl

variable (bucket sha256 w data) in
/-- One call of `append`: the same answer, the same writer and the same store. -/
theorem append_represents (h : Represents names s t) :
    let r := w.append (Storage.faultyBlob bucket) sha256 data s
    let q := (writerOf names w).append (faultyBlob bucket.toList) (fun d => (sha256 d).toList) data t
    q.1.1 = r.1.1.map (fun uri => (uri.map (uriOf names)).getD []) ∧
      q.1.2 = writerOf names r.1.2 ∧ Represents names r.2 q.2 := by
  intro r q
  by_cases hd : data = []
  · have hr : r = ((.ok w.manifestUri, w), s) := by
      simp only [r, Storage.CheckpointWriter.append, if_pos hd]
      rfl
    have hq : q = ((.ok ((writerOf names w).manifestUri.getD []), writerOf names w), t) := by
      simp only [q, CheckpointWriter.append, if_pos hd]
      rfl
    rw [hr, hq]
    exact ⟨rfl, rfl, h⟩
  · let key := Key.chunk w.botId w.chunks.length
    let w₁ := w.add sha256 ⟨bucket, key⟩ key data
    have hlen : (writerOf names w).chunks.length = w.chunks.length := List.length_map _
    have h₁ := h.put (keyText_injective names) key (.bytes data)
    have h₂ := h₁.put (keyText_injective names) (.manifest w.botId) (.json w₁.manifest)
    have hs := h.outcome
    have hs₁ := h₁.outcome
    have hbytes : bytesOf names (.json w₁.manifest) =
        manifestBytes (writerOf names w).botId (writerOf names w₁).chunks := rfl
    have hq : q = if s.outcome.raises then
          ((.error (), writerOf names w), t.put (keyText names key) (bytesOf names (.bytes data)))
        else if (s.put key (.bytes data)).outcome.raises then
          ((.error (), writerOf names w₁), (t.put (keyText names key) (bytesOf names (.bytes data))).put
            (keyText names (.manifest w.botId)) (bytesOf names (.json w₁.manifest)))
        else ((.ok (uriOf names ⟨bucket, .manifest w.botId⟩),
          { writerOf names w₁ with manifestUri := some (uriOf names ⟨bucket, .manifest w.botId⟩) }),
          (t.put (keyText names key) (bytesOf names (.bytes data))).put
            (keyText names (.manifest w.botId)) (bytesOf names (.json w₁.manifest))) := by
      simp only [q, append_text_eq (t := t) (writerOf names w) bucket.toList
        (fun d => (sha256 d).toList) hd, hbytes, w₁, add_writerOf, hlen, ← hs, ← hs₁]
      rfl
    have hr : r = _ := append_eq (s := s) bucket sha256 w hd
    rw [hq, hr]
    dsimp only
    split_ifs
    · exact ⟨rfl, rfl, h₁⟩
    · exact ⟨rfl, rfl, h₂⟩
    · exact ⟨rfl, rfl, h₂⟩

end append

section restore

variable {names : BotNames} {objects : Objects} {files : Text → Option Bytes} {bucket : Bucket}
  {admits : Text → Bool} {sha256 : Bytes → String} {start : Bytes}

theorem nodup_fields (c : CheckpointChunk) : (c.fields.map Prod.fst).Nodup := by
  simp only [CheckpointChunk.fields, List.map_cons, List.map_nil]
  decide

theorem nodup_manifestFields (botId : Text) (chunks : List CheckpointChunk) :
    ((manifestFields botId chunks).map Prod.fst).Nodup := by
  simp only [manifestFields, List.map_cons, List.map_nil]
  decide

theorem distinct_asdict (chunks : List CheckpointChunk) :
    ItemsDistinct (chunks.map CheckpointChunk.asdict) := by
  induction chunks with
  | nil => trivial
  | cons c chunks ih =>
    refine ⟨?_, ih⟩
    rw [CheckpointChunk.asdict, Value.Distinct]
    exact ⟨nodup_fields c, trivial, trivial, trivial, trivial, trivial, trivial⟩

theorem distinct_manifest (botId : Text) (chunks : List CheckpointChunk) :
    (manifest botId chunks).Distinct := by
  have hitems := distinct_asdict chunks
  rw [manifest, Value.Distinct]
  refine ⟨nodup_manifestFields botId chunks, trivial, trivial, trivial, ?_, trivial⟩
  rw [Value.Distinct]
  exact hitems

/-- A chunk of a manifest as it is read back. -/
theorem asdict_sortKeys (c : CheckpointChunk) : ∃ fields, c.asdict.sortKeys = .obj fields ∧
    get? "key".toList fields = some (.str c.key) ∧
    get? "sha256".toList fields = some (.str c.sha256) := by
  have hkey : get? "key".toList c.fields = some (.str c.key) := rfl
  have hsha : get? "sha256".toList c.fields = some (.str c.sha256) := rfl
  refine ⟨_, by rw [CheckpointChunk.asdict, Value.sortKeys], ?_, ?_⟩
  · rw [get?_sorted (nodup_fields c), hkey]
    rfl
  · rw [get?_sorted (nodup_fields c), hsha]
    rfl

/-- A manifest as it is read back. -/
theorem loads_manifestBytes (botId : Text) (chunks : List CheckpointChunk) : ∃ fields,
    (decode (manifestBytes botId chunks)).bind loads = some (.obj fields) ∧
    get? "chunks".toList fields =
      some (.arr (sortItems (chunks.map CheckpointChunk.asdict))) := by
  have hread : (decode (manifestBytes botId chunks)).bind loads =
      some (manifest botId chunks).sortKeys := loads_decode_dumps (distinct_manifest botId chunks)
  have hchunks : get? "chunks".toList (manifestFields botId chunks) =
      some (.arr (chunks.map CheckpointChunk.asdict)) := rfl
  rw [manifest, Value.sortKeys] at hread
  refine ⟨_, hread, ?_⟩
  rw [get?_sorted (nodup_manifestFields botId chunks), hchunks]
  rfl

theorem restoreChunks_text_cons (c : CheckpointChunk) (rest : List Value) (digest : Bytes → Text) :
    (restoreChunks (intact files) digest (c.asdict.sortKeys :: rest) start).run =
      match files c.key with
      | some data =>
        if digest data ≠ c.sha256 then .ok (start, false)
        else (restoreChunks (intact files) digest rest (start ++ data)).run
      | none => .error () := by
  obtain ⟨fields, heq, hkey, hsha⟩ := asdict_sortKeys c
  rw [heq]
  cases h : files c.key with
  | none =>
    simp only [restoreChunks, hkey, Option.bind_some, strOf, intact, h]
    rfl
  | some data =>
    simp only [restoreChunks, hkey, Option.bind_some, strOf, intact, h, pure_bind, hsha]
    split_ifs <;> rfl

variable (sha256) in
/-- The chunks of a manifest give the same back from bytes as from objects. -/
theorem restoreChunks_represents (hrep : ∀ key, files (keyText names key) =
      (objects key).map (bytesOf names)) (cs : List Storage.CheckpointChunk)
    (hc : ∀ c ∈ cs, ∀ manifest, objects c.key ≠ some (.json manifest)) (start : Bytes) :
    (restoreChunks (intact files) (fun d => (sha256 d).toList)
      (sortItems ((cs.map (chunkOf names)).map CheckpointChunk.asdict)) start).run =
      (Storage.restoreChunks (Storage.intact objects) sha256 cs start).run := by
  induction cs generalizing start with
  | nil => rfl
  | cons c cs ih =>
    obtain ⟨hhead, hrest⟩ := List.forall_mem_cons.mp hc
    rw [List.map_cons, List.map_cons, sortItems, restoreChunks_text_cons, restoreChunks_cons]
    have hfile : files (chunkOf names c).key = (objects c.key).map (bytesOf names) := hrep c.key
    cases h : objects c.key with
    | none => rw [hfile, h, Option.map_none]
    | some object =>
      cases object with
      | json manifest => exact absurd h (hhead manifest)
      | bytes data =>
        rw [hfile, h, Option.map_some]
        have hdigest : (sha256 data).toList ≠ (chunkOf names c).sha256 ↔ sha256 data ≠ c.sha256 :=
          not_congr String.toList_inj
        simp only [bytesOf, hdigest]
        split_ifs
        · rfl
        · exact ih hrest (start ++ data)

variable (bucket admits sha256) in
/-- What a manifest of the writer gives back, read from bytes and read from objects. -/
theorem restored_represents (hrep : ∀ key, files (keyText names key) =
      (objects key).map (bytesOf names)) {bot : ℕ} {m : Manifest}
    (hm : objects (.manifest bot) = some (.json m))
    (hc : ∀ c ∈ m.chunks, ∀ manifest, objects c.key ≠ some (.json manifest)) :
    restored admits (fun d => (sha256 d).toList) files
        (uriText bucket.name (manifestKey (names.text bot))) =
      (Storage.restored sha256 objects ⟨String.ofList bucket.name, .manifest bot⟩).map
        fun answer => (answer.1, answer.2.1, answer.2.2.toList) := by
  have hkey : keyFromUri admits (uriText bucket.name (manifestKey (names.text bot))) =
      some (manifestKey (names.text bot)) :=
    keyFromUri_uriText names admits bucket (.manifest bot)
  have hfile : files (manifestKey (names.text bot)) =
      some (manifestBytes (names.text m.botId) (m.chunks.map (chunkOf names))) := by
    have hrepm := hrep (.manifest bot)
    rw [hm] at hrepm
    exact hrepm
  obtain ⟨fields, hread, hchunks⟩ :=
    loads_manifestBytes (names.text m.botId) (m.chunks.map (chunkOf names))
  have hrun := restoreChunks_represents sha256 hrep m.chunks hc []
  have hget : (intact files).get (manifestKey (names.text bot)) =
      pure (manifestBytes (names.text m.botId) (m.chunks.map (chunkOf names))) := by
    simp only [intact, hfile]
  rw [restored_eq, hm]
  simp only [restored, restorePrefix, hkey, hget, pure_bind, hread, hchunks, Option.getD_some,
    ExceptT.run_bind, hrun]
  cases (Storage.restoreChunks (Storage.intact objects) sha256 m.chunks []).run with
  | error e => rfl
  | ok answer => rfl

end restore

end Fakery.Storage.Encoded
