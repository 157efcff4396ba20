import Mathlib.Data.Nat.Notation
import Mathlib.Logic.Function.Basic

/-! The object store. A call that raises ends in `.error ()`, and a put that raises stores
nothing. -/
namespace Fakery.Storage

abbrev Bytes := List UInt8

/-- `recordings/{bot}.webm`, `recordings/{bot}/checkpoints/{sequence:08d}.webm` and
`recordings/{bot}/checkpoints/manifest.json`. -/
inductive Key where
  | recording (bot : ℕ)
  | chunk (bot sequence : ℕ)
  | manifest (bot : ℕ)
deriving DecidableEq

/-- `s3://{bucket}/{key}`: whoever holds a URI cuts the key out of it again. -/
structure Uri where
  bucket : String
  key : Key
deriving DecidableEq

structure CheckpointChunk where
  sequence : ℕ
  uri : Uri
  key : Key
  size : ℕ
  sha256 : String
deriving DecidableEq

structure Manifest where
  version : ℕ := 1
  botId : ℕ
  format : String := "audio/webm"
  chunks : List CheckpointChunk
deriving DecidableEq

/-- A manifest is stored as JSON; reading audio as JSON raises. -/
inductive Object where
  | bytes (data : Bytes)
  | json (manifest : Manifest)
deriving DecidableEq

structure BlobStore (m : Type → Type) where
  put : Key → Object → ExceptT Unit m Uri
  get : Key → ExceptT Unit m Object

abbrev Objects := Key → Option Object

/-- A store that answers every read and takes no writes. -/
def intact (objects : Objects) : BlobStore Id where
  put _ _ := throw ()
  get key := match objects key with
    | some object => pure object
    | none => throw ()

end Fakery.Storage
