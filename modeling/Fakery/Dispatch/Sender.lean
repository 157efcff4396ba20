import Fakery.Bots.Database
import Fakery.Concurrent.RelyGuarantee
import Fakery.Dispatch.Rows

/-! The sender, the requests of operators and the transactions that emit events, and the machine
that interleaves them over one table of deliveries. -/
namespace Fakery.Dispatch
open Fakery.Bots Fakery.Concurrent

/-- `leaseRow` is a transaction of its own, in which the row is locked from the read to the commit.
`get` reads a row without a lock and `update` is the flush of its changes with the commit. `emit`
takes the locks on the subscriptions and keeps them to the commit. -/
inductive Call where
  | utcnow
  | uuid4
  | uniform (bound : ℕ)
  | selectOpen
  | acquireLease (stream : ℕ × ℕ)
  | getLease (stream : ℕ × ℕ)
  | deleteLease (stream : ℕ × ℕ)
  | leaseRow (id token : ℕ)
  | post (item : WebhookDelivery)
  | response (id : ℕ)
  | get (id : ℕ)
  | update (id : ℕ) (loaded now : WebhookDelivery)
  | selectPurgeable (cutoff : ℕ)
  | delete (ids : List ℕ)
  | emit (payload : Payload)
  | commit

/-- The response to a POST, or the name of the exception that the client raises. -/
abbrev Answer : Call → Type
  | .utcnow | .uuid4 | .uniform _ => ℕ
  | .selectOpen | .selectPurgeable _ => List WebhookDelivery
  | .acquireLease _ | .getLease _ | .leaseRow _ _ => Bool
  | .response _ => Except String Response
  | .get _ => Option WebhookDelivery
  | _ => Unit

/-- Exceptions are known by their names. -/
abbrev Act := Task Call Answer String

def perform (i : Call) : Act (Answer i) := Task.perform i

inductive SendOutcome where
  | sent | failed | dead
deriving DecidableEq

/-- The row is counted as failed; a time that no datetime can hold raises before the update. -/
def recordFailure (item : WebhookDelivery) (token : ℕ) (response : Option Response)
    (error : String) : Act SendOutcome := do
  match ← perform (.get item.id) with
  | none => pure .failed
  | some loaded =>
    if loaded.leaseToken ≠ some token then pure .failed
    else do
      let fresh := failedRow response error loaded
      if !isRetryable response || fresh.attempts ≥ MAX_ATTEMPTS then do
        let now ← perform .utcnow
        perform (.update item.id loaded (deadRow now fresh))
        pure .dead
      else do
        let delay := backoff response fresh.attempts * SECOND
        let jitter ← perform (.uniform (min SECOND (delay / 10)))
        let now ← perform .utcnow
        if now + delay + jitter > MAX_DATETIME then throw "OverflowError"
        else do
          perform (.update item.id loaded (retryRow (now + delay + jitter) fresh))
          pure .failed

def recordSent (item : WebhookDelivery) (token : ℕ) : Act SendOutcome := do
  match ← perform (.get item.id) with
  | none => pure .sent
  | some loaded =>
    if loaded.leaseToken = some token then do
      let now ← perform .utcnow
      perform (.update item.id loaded (sentRow now loaded))
      pure .sent
    else pure .sent

/-- What comes of the response: `none` is a response below 300. -/
def awaitResponse (item : WebhookDelivery) (token : ℕ) : Act (Option SendOutcome) :=
  Task.except (do
    match ← perform (.response item.id) with
    | .error e => throw e
    | .ok response =>
      if response.statusCode ≥ 300 then do
        let outcome ← recordFailure item token (some response) "HTTPStatusError"
        pure (some outcome)
      else pure none)
  fun e => do
    let outcome ← recordFailure item token none e
    pure (some outcome)

def attempt (item : WebhookDelivery) : Act SendOutcome := do
  let token ← perform .uuid4
  if ← perform (.leaseRow item.id token) then do
    perform (.post item)
    match ← awaitResponse item token with
    | some outcome => pure outcome
    | none => recordSent item token
  else pure .failed

structure Summary where
  sent : ℕ := 0
  failed : ℕ := 0
  dead : ℕ := 0
  purged : ℕ := 0
deriving DecidableEq

def Summary.count (s : Summary) : SendOutcome → Summary
  | .sent => { s with sent := s.sent + 1 }
  | .failed => { s with failed := s.failed + 1 }
  | .dead => { s with dead := s.dead + 1 }

def sendItems (summary : Summary) : List WebhookDelivery → Act Summary
  | [] => pure summary
  | item :: items => do
    let outcome ← attempt item
    sendItems (summary.count outcome) items

/-- Every sender writes the same owner into the lease, so that each can delete that of another. -/
def releaseLease (stream : ℕ × ℕ) : Act Unit := do
  if ← perform (.getLease stream) then perform (.deleteLease stream) else pure ()

def sendGroups (summary : Summary) : List Group → Act Summary
  | [] => pure summary
  | (stream, items) :: groups => do
    if ← perform (.acquireLease stream) then do
      let summary ← Task.ensuring (sendItems summary items) (releaseLease stream)
      sendGroups summary groups
    else sendGroups summary groups

def purge (moment : ℕ) : Act ℕ := do
  let rows ← perform (.selectPurgeable (moment - ROW_TTL_DAYS * 86400 * SECOND))
  perform (.delete (rows.map WebhookDelivery.id))
  pure rows.length

def runOnce : Act Summary := do
  let moment ← perform .utcnow
  let rows ← perform .selectOpen
  let summary ← sendGroups {} (groupByStream (readyDeliveries rows moment))
  let purged ← purge moment
  pure { summary with purged := purged }

/-- `none` is the answer 404. -/
def replayDelivery (id : ℕ) : Act (Option WebhookDelivery) := do
  match ← perform (.get id) with
  | none => pure none
  | some loaded => do
    let now ← perform .utcnow
    perform (.update id loaded (replayedRow now loaded))
    pure (some (replayedRow now loaded))

def skipDelivery (id : ℕ) : Act (Option WebhookDelivery) := do
  match ← perform (.get id) with
  | none => pure none
  | some loaded => do
    let now ← perform .utcnow
    perform (.update id loaded (skippedRow now loaded))
    pure (some (skippedRow now loaded))

/-- A transaction of the service that emits these events. -/
def emitEvents : List Payload → Act Unit
  | [] => perform .commit
  | payload :: payloads => do
    perform (.emit payload)
    emitEvents payloads

inductive Op where
  | runOnce
  | replay (id : ℕ)
  | skip (id : ℕ)
  | emit (payloads : List Payload)

def Op.act : Op → Act Unit
  | runOnce => do let _ ← Dispatch.runOnce
  | replay id => do let _ ← replayDelivery id
  | skip id => do let _ ← skipDelivery id
  | emit payloads => emitEvents payloads

def Op.prog (op : Op) : Prog Call Answer Unit := do
  let _ ← op.act.run

/-- A row as it was emitted, with the rows that had been purged by then. -/
structure Emission where
  row : WebhookDelivery
  removed : List ℕ

/-- `emitter` holds the locks on the subscriptions, and `staged` is what it has emitted so far.
`emitted` lists all emissions ever committed; `answered`, `skipped` and `purged` the rows that were
answered with a status below 300, that had a skip committed, and that `_purge` removed. -/
structure Table where
  subscriptions : List WebhookSubscription := []
  rows : List WebhookDelivery := []
  emitter : Option ℕ := none
  staged : List Emission := []
  leases : ℕ × ℕ → Bool := fun _ => false
  emitted : List Emission := []
  answered : List ℕ := []
  skipped : List ℕ := []
  purged : List ℕ := []
  posted : List WebhookDelivery := []

namespace Table

variable (s : Table)

def find (id : ℕ) : Option WebhookDelivery := s.rows.find? fun d => d.id = id

def setRow (id : ℕ) (f : WebhookDelivery → WebhookDelivery) : Table :=
  { s with rows := s.rows.map fun d => if d.id = id then f d else d }

/-- A change that makes the row a skipped one is the commit of a skip. -/
def update (id : ℕ) (loaded now : WebhookDelivery) : Table :=
  { s.setRow id (WebhookDelivery.store loaded now) with
    skipped := if now.status = .skipped ∧ (s.find id).isSome then s.skipped ++ [id]
      else s.skipped }

def delete (ids : List ℕ) : Table :=
  { s with
    rows := s.rows.filter fun d => d.id ∉ ids
    purged := s.purged ++ (s.rows.filter fun d => d.id ∈ ids).map WebhookDelivery.id }

/-- The sequence after the highest one of the stream, in what the transaction sees. -/
def nextSequence (stream : ℕ × ℕ) : ℕ :=
  (((Db.highest ((s.rows ++ s.staged.map Emission.row).filter fun d => d.stream = stream)).map
    WebhookDelivery.sequence).getD 0) + 1

def addDelivery (payload : Payload) (now : ℕ) (subscription : WebhookSubscription) (id : ℕ) :
    Table :=
  { s with staged := s.staged ++
      [⟨{ id := id, subscriptionId := subscription.id, eventId := payload.eventId
          sequence := s.nextSequence (payload.botId, subscription.id), url := subscription.url
          payload := payload, nextTryAt := now, createdAt := now }, s.purged⟩] }

def used : List ℕ := (s.emitted ++ s.staged).map fun e => e.row.id

def storeInSession (payload : Payload) (now : ℕ) (ids : List ℕ) : Table :=
  (s.subscriptions.zip ids).foldl (fun s x => s.addDelivery payload now x.1 x.2) s

def commit : Table :=
  { s with
    rows := s.rows ++ s.staged.map Emission.row
    emitted := s.emitted ++ s.staged
    emitter := none
    staged := [] }

def rollback : Table := { s with emitter := none, staged := [] }

end Table

/-- The outcome of a call: a clock reading, a token or a random number, the response to a POST, or
the identifiers of new rows, which are never used twice. -/
structure Outcome where
  number : ℕ := 0
  response : Except String Response := .ok { statusCode := 200 }
  ids : List ℕ := []

def exec (t : ℕ) : (i : Call) → Outcome → Table → Option (Table × Answer i)
  | .utcnow, c, s => some (s, c.number)
  | .uuid4, c, s => some (s, c.number)
  | .uniform bound, c, s => if c.number ≤ bound then some (s, c.number) else none
  | .selectOpen, _, s => some (s, Dispatch.selectOpen s.rows)
  | .acquireLease stream, _, s =>
    if s.leases stream then some (s, false)
    else some ({ s with leases := Function.update s.leases stream true }, true)
  | .getLease stream, _, s => some (s, s.leases stream)
  | .deleteLease stream, _, s =>
    some ({ s with leases := Function.update s.leases stream false }, ())
  | .leaseRow id token, c, s =>
    match (s.find id).bind (leased token c.number) with
    | none => some (s, false)
    | some _ => some (s.setRow id fun d => (leased token c.number d).getD d, true)
  | .post item, _, s => some ({ s with posted := s.posted ++ [item] }, ())
  | .response id, c, s =>
    match c.response with
    | .error e => some (s, .error e)
    | .ok r =>
      if r.statusCode < 300 then some ({ s with answered := s.answered ++ [id] }, .ok r)
      else some (s, .ok r)
  | .get id, _, s => some (s, s.find id)
  | .update id loaded now, _, s => some (s.update id loaded now, ())
  | .selectPurgeable cutoff, _, s => some (s, s.rows.filter (isPurgeable cutoff))
  | .delete ids, _, s => some (s.delete ids, ())
  | .emit payload, c, s =>
    if s.emitter.any (· ≠ t) then none
    else if c.ids.length = s.subscriptions.length ∧ c.ids.Nodup ∧ ∀ id ∈ c.ids, id ∉ s.used then
      some ({ s.storeInSession payload c.number c.ids with emitter := some t }, ())
    else none
  | .commit, _, s => if s.emitter = some t then some (s.commit, ()) else some (s, ())

inductive World where
  | subscribe (w : WebhookSubscription)
  | unsubscribe (id : ℕ)
  | expire (stream : ℕ × ℕ)

/-- A subscription that a transaction has locked cannot be deleted. -/
def World.step : World → Table → Option Table
  | subscribe w, s => some { s with subscriptions := s.subscriptions ++ [w] }
  | unsubscribe id, s =>
    if s.emitter = none then
      some { s with subscriptions := s.subscriptions.filter fun w => w.id ≠ id }
    else none
  | expire stream, s => some { s with leases := Function.update s.leases stream false }

def dispatch : Machine Call Answer Op Table Outcome World where
  prog := Op.prog
  begin _ _ s := some s
  exec := exec
  kill t s := if s.emitter = some t then s.rollback else s
  env := World.step

end Fakery.Dispatch
