import Fakery.Storage.Blob
import Mathlib.Tactic.SplitIfs

/-! Checkpoints: a writer that stores each block of audio and then a manifest of all blocks, and
the reader that puts the blocks of a manifest together again. -/
namespace Fakery.Storage

structure CheckpointWriter where
  botId : ℕ
  chunks : List CheckpointChunk := []
  manifestUri : Option Uri := none
deriving DecidableEq

section code

variable {m : Type → Type} [Monad m] (blob : BlobStore m) (sha256 : Bytes → String)

namespace CheckpointWriter

def manifest (w : CheckpointWriter) : Manifest where
  botId := w.botId
  chunks := w.chunks

def add (w : CheckpointWriter) (uri : Uri) (key : Key) (data : Bytes) : CheckpointWriter :=
  { w with chunks := w.chunks ++ [⟨w.chunks.length, uri, key, data.length, sha256 data⟩] }

/-- The URI of the manifest, where `none` is the empty text. The writer keeps a block that it has
stored even if the put of the manifest raises. -/
def append (w : CheckpointWriter) (data : Bytes) :
    m (Except Unit (Option Uri) × CheckpointWriter) := do
  if data = [] then pure (.ok w.manifestUri, w)
  else do
    let key := Key.chunk w.botId w.chunks.length
    match ← (blob.put key (.bytes data)).run with
    | .error e => pure (.error e, w)
    | .ok uri => do
      let w := w.add sha256 uri key data
      match ← (blob.put (.manifest w.botId) (.json w.manifest)).run with
      | .error e => pure (.error e, w)
      | .ok uri => pure (.ok (some uri), { w with manifestUri := some uri })

end CheckpointWriter

/-- What the chunks hold, up to the first one that fails its checksum, and whether none did. -/
def restoreChunks : List CheckpointChunk → Bytes → ExceptT Unit m (Bytes × Bool)
  | [], restored => pure (restored, true)
  | c :: cs, restored => do
    match ← blob.get c.key with
    | .json _ => throw ()
    | .bytes data =>
      if sha256 data ≠ c.sha256 then pure (restored, false)
      else restoreChunks cs (restored ++ data)

def restorePrefix (manifestUri : Uri) : ExceptT Unit m (Bytes × Bool × String) := do
  match ← blob.get manifestUri.key with
  | .bytes _ => throw ()
  | .json manifest => do
    let (restored, complete) ← restoreChunks blob sha256 manifest.chunks []
    pure (restored, !complete, sha256 restored)

end code

/-- What a manifest gives back with the objects as they are. -/
def restored (sha256 : Bytes → String) (objects : Objects) (manifestUri : Uri) :
    Except Unit (Bytes × Bool × String) :=
  (restorePrefix (intact objects) sha256 manifestUri).run

section read

variable (sha256 : Bytes → String) (objects : Objects)

theorem restoreChunks_cons (c : CheckpointChunk) (cs : List CheckpointChunk) (start : Bytes) :
    (restoreChunks (intact objects) sha256 (c :: cs) start).run =
      match objects c.key with
      | some (.bytes data) =>
        if sha256 data ≠ c.sha256 then .ok (start, false)
        else (restoreChunks (intact objects) sha256 cs (start ++ data)).run
      | _ => .error () := by
  cases h : objects c.key with
  | none => simp only [restoreChunks, intact, h]; rfl
  | some object =>
    cases object with
    | json manifest => simp only [restoreChunks, intact, h]; rfl
    | bytes data =>
      simp only [restoreChunks, intact, h, pure_bind]
      split_ifs <;> rfl

theorem restored_eq (manifestUri : Uri) : restored sha256 objects manifestUri =
    match objects manifestUri.key with
    | some (.json manifest) =>
      match (restoreChunks (intact objects) sha256 manifest.chunks []).run with
      | .ok (data, complete) => .ok (data, !complete, sha256 data)
      | .error e => .error e
    | _ => .error () := by
  cases h : objects manifestUri.key with
  | none => simp only [restored, restorePrefix, intact, h]; rfl
  | some object =>
    cases object with
    | bytes data => simp only [restored, restorePrefix, intact, h]; rfl
    | json manifest =>
      simp only [restored, restorePrefix, ExceptT.run_bind]
      have hget : (intact objects).get manifestUri.key = pure (.json manifest) := by
        simp only [intact, h]
      rw [hget]
      cases hrun : (restoreChunks (intact objects) sha256 manifest.chunks []).run with
      | error e => simp only [ExceptT.run_pure, pure_bind, ExceptT.run_bind, hrun]; rfl
      | ok answer => simp only [ExceptT.run_pure, pure_bind, ExceptT.run_bind, hrun]; rfl

variable {sha256 objects}

theorem restored_checksum {manifestUri : Uri} {data : Bytes} {damaged : Bool} {checksum : String}
    (h : restored sha256 objects manifestUri = .ok (data, damaged, checksum)) :
    checksum = sha256 data := by
  rw [restored_eq] at h
  split at h
  · split at h
    · cases h
      rfl
    · cases h
  · cases h

end read

section described

variable (sha256 : Bytes → String) (bucket : String) (bot : ℕ)

/-- The entry of a manifest for the block `data` with number `n`. -/
def entry (n : ℕ) (data : Bytes) : CheckpointChunk :=
  ⟨n, ⟨bucket, .chunk bot n⟩, .chunk bot n, data.length, sha256 data⟩

/-- The entries of a manifest for blocks numbered from `n` on. -/
def describe : ℕ → List Bytes → List CheckpointChunk
  | _, [] => []
  | n, d :: ds => entry sha256 bucket bot n d :: describe (n + 1) ds

/-- Blocks numbered from `n` on are stored as they were written. -/
def Stored (objects : Objects) : ℕ → List Bytes → Prop
  | _, [] => True
  | n, d :: ds => objects (.chunk bot n) = some (.bytes d) ∧ Stored objects (n + 1) ds

variable {sha256 bucket bot} {objects : Objects} {n : ℕ} {d : Bytes} {ds : List Bytes}

theorem length_describe : (describe sha256 bucket bot n ds).length = ds.length := by
  induction ds generalizing n with
  | nil => rfl
  | cons d ds ih => simp [describe, ih]

theorem describe_concat : describe sha256 bucket bot n (ds ++ [d]) =
    describe sha256 bucket bot n ds ++ [entry sha256 bucket bot (n + ds.length) d] := by
  induction ds generalizing n with
  | nil => rfl
  | cons x ds ih =>
    have hn : n + 1 + ds.length = n + (ds.length + 1) := by omega
    simp [describe, ih, hn]

theorem Stored.append {es : List Bytes} : Stored bot objects n (ds ++ es) ↔
    Stored bot objects n ds ∧ Stored bot objects (n + ds.length) es := by
  induction ds generalizing n with
  | nil => simp [Stored]
  | cons x ds ih =>
    have hn : n + 1 + ds.length = n + (ds.length + 1) := by omega
    simp [Stored, ih, hn, and_assoc]

/-- A block is stored beyond those that the writer has listed. -/
theorem Stored.update_of_le {k : ℕ} {x : Option Object} (h : Stored bot objects n ds)
    (hk : n + ds.length ≤ k) :
    Stored bot (Function.update objects (.chunk bot k) x) n ds := by
  induction ds generalizing n with
  | nil => trivial
  | cons d ds ih =>
    rw [List.length_cons] at hk
    have hne : Key.chunk bot n ≠ .chunk bot k := by
      intro he
      injection he with _ hn
      omega
    refine ⟨?_, ih h.2 (by omega)⟩
    rw [Function.update_of_ne hne]
    exact h.1

theorem Stored.update_of_ne {key : Key} {x : Option Object} (h : Stored bot objects n ds)
    (hk : ∀ k, Key.chunk bot k ≠ key) : Stored bot (Function.update objects key x) n ds := by
  induction ds generalizing n with
  | nil => trivial
  | cons d ds ih =>
    refine ⟨?_, ih h.2⟩
    rw [Function.update_of_ne (hk n)]
    exact h.1

variable (sha256 bucket) in
theorem restoreChunks_describe (h : Stored bot objects n ds) (restored : Bytes) :
    (restoreChunks (intact objects) sha256 (describe sha256 bucket bot n ds) restored).run =
      .ok (restored ++ ds.flatten, true) := by
  induction ds generalizing n restored with
  | nil => simp [describe, restoreChunks, ExceptT.run, pure, ExceptT.pure, ExceptT.mk]
  | cons d ds ih =>
    have hget : (intact objects).get (.chunk bot n) = pure (.bytes d) := by
      simp only [intact, h.1]
    simp only [describe, restoreChunks, entry, hget, pure_bind, ne_eq, not_true_eq_false,
      if_false, ih h.2, List.flatten_cons, List.append_assoc]

variable (sha256) in
/-- A manifest of intact blocks gives the blocks back, in order. -/
theorem restored_describe {manifest : Manifest}
    (hm : objects (.manifest bot) = some (.json manifest))
    (hc : manifest.chunks = describe sha256 bucket bot 0 ds) (h : Stored bot objects 0 ds) :
    restored sha256 objects ⟨bucket, .manifest bot⟩ =
      .ok (ds.flatten, false, sha256 ds.flatten) := by
  have hget : (intact objects).get (.manifest bot) = pure (.json manifest) := by
    simp only [intact, hm]
  have hrun := restoreChunks_describe sha256 bucket h []
  simp only [restored, restorePrefix, hget, pure_bind, hc, ExceptT.run_bind, hrun]
  rfl

end described

end Fakery.Storage
