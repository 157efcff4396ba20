import Fakery.Json.Utf8
import Fakery.Storage.Checkpoints
import Fakery.Storage.Faults
import Fakery.Storage.Texts

/-! The checkpoint writer and the reader as they are: keys and URIs are texts, and a manifest is
JSON in UTF-8 among objects that are bytes. -/
namespace Fakery.Storage.Encoded
open Fakery.Json Fakery.Texts

structure BlobStore (m : Type → Type) where
  put : Text → Bytes → ExceptT Unit m Text
  get : Text → ExceptT Unit m Bytes

structure CheckpointChunk where
  sequence : ℕ
  uri : Text
  key : Text
  size : ℕ
  sha256 : Text
deriving DecidableEq

def CheckpointChunk.fields (c : CheckpointChunk) : List Field :=
  [("sequence".toList, .int c.sequence), ("uri".toList, .str c.uri), ("key".toList, .str c.key),
    ("size".toList, .int c.size), ("sha256".toList, .str c.sha256)]

/-- `asdict(chunk)` -/
def CheckpointChunk.asdict (c : CheckpointChunk) : Value := .obj c.fields

structure CheckpointWriter where
  botId : Text
  chunks : List CheckpointChunk := []
  manifestUri : Option Text := none
deriving DecidableEq

def manifestFields (botId : Text) (chunks : List CheckpointChunk) : List Field :=
  [("version".toList, .int 1), ("bot_id".toList, .str botId),
    ("format".toList, .str "audio/webm".toList),
    ("chunks".toList, .arr (chunks.map CheckpointChunk.asdict))]

def manifest (botId : Text) (chunks : List CheckpointChunk) : Value :=
  .obj (manifestFields botId chunks)

/-- `json.dumps(manifest, sort_keys=True).encode()` -/
def manifestBytes (botId : Text) (chunks : List CheckpointChunk) : Bytes :=
  encode (dumps (manifest botId chunks))

section code

variable {m : Type → Type} [Monad m] (blob : BlobStore m) (sha256 : Bytes → Text)

def CheckpointWriter.append (w : CheckpointWriter) (data : Bytes) :
    m (Except Unit Text × CheckpointWriter) := do
  if data = [] then pure (.ok (w.manifestUri.getD []), w)
  else do
    let sequence := w.chunks.length
    let key := chunkKey w.botId sequence
    match ← (blob.put key data).run with
    | .error e => pure (.error e, w)
    | .ok uri => do
      let w := { w with chunks := w.chunks ++ [⟨sequence, uri, key, data.length, sha256 data⟩] }
      match ← (blob.put (manifestKey w.botId) (manifestBytes w.botId w.chunks)).run with
      | .error e => pure (.error e, w)
      | .ok uri => pure (.ok uri, { w with manifestUri := some uri })

/-- `str(value)`, where that of a list or an object is left out. -/
def strOf : Value → Option Text
  | .str s => some s
  | .int n => some (intText n)
  | .bool true => some "True".toList
  | .bool false => some "False".toList
  | .null => some "None".toList
  | .arr _ | .obj _ => none

/-- The loop over `manifest.get("chunks", [])`. A chunk that is no object raises, as does one that
has no key or no checksum. -/
def restoreChunks : List Value → Bytes → ExceptT Unit m (Bytes × Bool)
  | [], restored => pure (restored, true)
  | .obj fields :: chunks, restored => do
    match (get? "key".toList fields).bind strOf with
    | some key => do
      let data ← blob.get key
      match get? "sha256".toList fields with
      | some (.str digest) =>
        if sha256 data ≠ digest then pure (restored, false)
        else restoreChunks chunks (restored ++ data)
      | some _ => pure (restored, false)
      | none => throw ()
    | none => throw ()
  | _ :: _, _ => throw ()

/-- `admits` is asked about an authority that is not plain. A manifest that is no object raises, and
so do chunks that are no list and not empty. -/
def restorePrefix (admits : Text → Bool) (manifestUri : Text) :
    ExceptT Unit m (Bytes × Bool × Text) := do
  match keyFromUri admits manifestUri with
  | none => throw ()
  | some key => do
    let data ← blob.get key
    match (decode data).bind loads with
    | some (.obj fields) =>
      match (get? "chunks".toList fields).getD (.arr []) with
      | .arr chunks => do
        let (restored, complete) ← restoreChunks blob sha256 chunks []
        pure (restored, !complete, sha256 restored)
      | .str [] | .obj [] => pure ([], false, sha256 [])
      | _ => throw ()
    | _ => throw ()

def appendAll (w : CheckpointWriter) : List Bytes → m CheckpointWriter
  | [] => pure w
  | data :: blocks => do
    let (_, w) ← w.append blob sha256 data
    appendAll w blocks

end code

/-- The object store of which `bucket` is the name. -/
def faultyBlob (bucket : Text) : BlobStore (StateM (Faulty Text Bytes)) where
  put key data := Faulty.putting key data (uriText bucket key)
  get key := Faulty.getting key

/-- A store that answers every read and takes no writes. -/
def intact (objects : Text → Option Bytes) : BlobStore Id where
  put _ _ := throw ()
  get key := match objects key with
    | some data => pure data
    | none => throw ()

/-- What a manifest gives back with the objects as they are. -/
def restored (admits : Text → Bool) (sha256 : Bytes → Text) (objects : Text → Option Bytes)
    (manifestUri : Text) : Except Unit (Bytes × Bool × Text) :=
  (restorePrefix (intact objects) sha256 admits manifestUri).run

end Fakery.Storage.Encoded
