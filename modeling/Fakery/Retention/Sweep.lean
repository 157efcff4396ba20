import Fakery.Recording.Writers

/-! The retention sweep, as far as it deals with one bot, beside the passes of the finalizer. -/
namespace Fakery.Retention
open Fakery.Bots Fakery.Concurrent Fakery.Core Fakery.Recording Fakery.Storage

/-- An object as the store lists it. -/
structure Entry where
  key : Key
  size : ℕ
  modified : ℕ
deriving DecidableEq

structure Summary where
  scanned : ℕ := 0
  deleted : ℕ := 0
  wouldDelete : ℕ := 0
  kept : ℕ := 0
  failed : ℕ := 0
  freedBytes : ℕ := 0
deriving DecidableEq

structure Settings where
  retentionDays : ℕ
  dryRun : Bool := true

/-- The calls of the finalizer, and those of the sweep: reading `recording_expires_at`, listing and
removing objects, and the transaction of `mark_expired`. `log` ends a pass of the finalizer. -/
inductive Call where
  | finalizer (i : Recording.Call)
  | expiresAt
  | list
  | remove (key : Key)
  | markExpired (key : Key)
  | log

abbrev Answer : Call → Type
  | .finalizer i => Recording.Answer i
  | .expiresAt => Except TwinError (Option ℕ)
  | .list => Except Unit (List Entry)
  | .remove _ => Except Unit Unit
  | .markExpired _ => Except TwinError Unit
  | .log => Unit

abbrev Prg := Prog Call Answer

def ask (i : Call) : Prg (Answer i) := Prog.ask i

/-- A program of the finalizer. -/
def lift {α : Type} (p : Recording.Prg α) : Prg α := p.embed .finalizer fun _ r => r

def SECONDS_PER_DAY : ℕ := 86400

def expired (modified now retentionDays : ℕ) : Bool :=
  modified + retentionDays * SECONDS_PER_DAY ≤ now

/-- The column of the row, where there is one, goes before the age of the object. -/
def isExpired (settings : Settings) (now : ℕ) (expiry : Option ℕ) (entry : Entry) : Bool :=
  match expiry with
  | some expiry => expiry ≤ now
  | none => expired entry.modified now settings.retentionDays

section code

variable (settings : Settings)

/-- A transaction of `mark_expired` that raises ends the sweep. -/
def sweepEach (now : ℕ) (expiry : Option ℕ) : List Entry → Summary → Prg (Option Summary)
  | [], n => pure (some n)
  | entry :: entries, n => do
    let n := { n with scanned := n.scanned + 1 }
    if isExpired settings now expiry entry then
      if settings.dryRun then
        sweepEach now expiry entries
          { n with wouldDelete := n.wouldDelete + 1, freedBytes := n.freedBytes + entry.size }
      else do
        match ← ask (.remove entry.key) with
        | .error _ => sweepEach now expiry entries { n with failed := n.failed + 1 }
        | .ok _ => do
          let n := { n with deleted := n.deleted + 1, freedBytes := n.freedBytes + entry.size }
          match ← ask (.markExpired entry.key) with
          | .error _ => pure none
          | .ok _ => sweepEach now expiry entries n
    else sweepEach now expiry entries { n with kept := n.kept + 1 }

/-- `none` is a sweep that raises. -/
def sweep : Prg (Option Summary) := do
  match ← ask .expiresAt with
  | .error _ => pure none
  | .ok expiry => do
    let now ← ask (.finalizer .utcnow)
    match ← ask .list with
    | .error _ => pure none
    | .ok entries => sweepEach settings now expiry entries {}

end code

inductive Op where
  | sweep (settings : Settings)
  | recoverOnce

def Op.prog (C : Context) : Op → Prg Unit
  | sweep settings => do let _ ← Retention.sweep settings
  | recoverOnce => do
    let _ ← lift (Recording.recoverOnce C)
    ask .log

/-- `reading` lists the passes that have read the manifest and are not yet through with the run.
`expired` notes that the run was committed as expired, and `resurrected` that its recording was
stored or its URI set after that. -/
structure Store where
  base : Recording.Store
  reading : List ℕ := []
  expired : Bool := false
  resurrected : Bool := false

namespace Store

variable (s : Store)

def removed (key : Key) : Store :=
  { s with base := { s.base with objects := Function.update s.base.objects key none } }

def quit (t : ℕ) : Store := { s with reading := s.reading.filter (· ≠ t) }

def marked (key : Key) (now : ℕ) : Store :=
  let run := BotRun.flushed s.base.run now (s.base.run.markExpired key)
  { s with base := s.base.setRun run, expired := s.expired || run.recordingStatus = "expired" }

/-- What a call of the finalizer that leads to `base` adds to the history. -/
def observed (C : Context) (t : ℕ) (base : Recording.Store) : (i : Recording.Call) →
    Recording.Answer i → Store
  | .get _, .ok (.json _) => { s with base := base, reading := t :: s.reading }
  | .put key _, .ok _ =>
    { s with base := base, resurrected := s.resurrected || (s.expired && key = .recording C.bot) }
  | .transaction _, _ =>
    { s.quit t with
      base := base
      resurrected := s.resurrected || (s.expired && base.run.recordingUri.isSome &&
        base.run.recordingUri ≠ s.base.run.recordingUri) }
  | _, _ => { s with base := base }

end Store

/-- The outcome of a call, and the objects that a listing names. -/
structure Outcome extends Recording.Outcome where
  entries : List Entry := []

/-- A listing is not atomic: it names objects of the store, and may miss some. -/
def exec (C : Context) (t : ℕ) : (i : Call) → Outcome → Store → Option (Store × Answer i)
  | .finalizer i, c, s =>
    (Recording.exec C t i c.toOutcome s.base).map fun r => (s.observed C t r.1 i r.2, r.2)
  | .expiresAt, _, s =>
    some (s, if s.base.down then .error (makeError "internal" "connection lost")
      else .ok s.base.run.recordingExpiresAt)
  | .list, c, s =>
    if c.raises then some (s, .error ())
    else if c.entries.all fun e => (s.base.objects e.key).isSome then some (s, .ok c.entries)
    else none
  | .remove key, c, s => if c.raises then some (s, .error ()) else some (s.removed key, .ok ())
  | .markExpired key, c, s =>
    if s.base.down then some (s, .error (makeError "internal" "connection lost"))
    else some (s.marked key c.now, .ok ())
  | .log, _, s => some (s.quit t, ())

def retention (C : Context) : Machine Call Answer Op Store Outcome Recording.World where
  prog := Op.prog C
  begin _ _ s := some s
  exec := exec C
  kill t s := { s.quit t with base := s.base.settle t }
  env e s := some { s with base := { s.base with down := e.down } }

end Fakery.Retention
