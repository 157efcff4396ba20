import Fakery.Bots.Models
import Mathlib.Algebra.Group.Nat.Defs
import Mathlib.Data.List.Sort

/-! Rows of the outbox as the sender sees them: which one of a stream comes next, and what an
attempt makes of a row. Times are in microseconds. -/
namespace Fakery.Bots.WebhookDelivery

/-- The bot and the subscription of a row. -/
def stream (d : WebhookDelivery) : ℕ × ℕ := (d.payload.botId, d.subscriptionId)

/-- The statuses that hold up the rows behind them. -/
def isOpen (d : WebhookDelivery) : Bool :=
  d.status = .pending || d.status = .retry || d.status = .dead

/-- `ORDER BY sequence, next_try_at, id`. -/
def Selects (d e : WebhookDelivery) : Prop :=
  d.sequence < e.sequence ∨ d.sequence = e.sequence ∧
    (d.nextTryAt < e.nextTryAt ∨ d.nextTryAt = e.nextTryAt ∧ d.id ≤ e.id)

/-- The order within a group. -/
def Precedes (d e : WebhookDelivery) : Prop :=
  d.sequence < e.sequence ∨ d.sequence = e.sequence ∧ d.id ≤ e.id

instance : DecidableRel Selects := fun _ _ => inferInstanceAs (Decidable (_ ∨ _))

instance : DecidableRel Precedes := fun _ _ => inferInstanceAs (Decidable (_ ∨ _))

instance : Std.Total Selects where
  total d e := by
    unfold Selects
    omega

instance : IsTrans WebhookDelivery Selects where
  trans d e f := by
    unfold Selects
    omega

instance : Std.Total Precedes where
  total d e := by
    unfold Precedes
    omega

instance : IsTrans WebhookDelivery Precedes where
  trans d e f := by
    unfold Precedes
    omega

/-- The UPDATE of a flush writes the columns that were changed. -/
def store (loaded now row : WebhookDelivery) : WebhookDelivery where
  id := row.id
  subscriptionId := row.subscriptionId
  eventId := row.eventId
  sequence := row.sequence
  url := row.url
  payload := row.payload
  status := changed loaded.status now.status row.status
  attempts := changed loaded.attempts now.attempts row.attempts
  nextTryAt := changed loaded.nextTryAt now.nextTryAt row.nextTryAt
  createdAt := row.createdAt
  lastError := changed loaded.lastError now.lastError row.lastError
  lastStatusCode := changed loaded.lastStatusCode now.lastStatusCode row.lastStatusCode
  deadAt := changed loaded.deadAt now.deadAt row.deadAt
  sentAt := changed loaded.sentAt now.sentAt row.sentAt
  leaseToken := changed loaded.leaseToken now.leaseToken row.leaseToken
  leaseExpiresAt := changed loaded.leaseExpiresAt now.leaseExpiresAt row.leaseExpiresAt

end Fakery.Bots.WebhookDelivery

namespace Fakery.Dispatch
open Fakery.Bots WebhookDelivery

def SECOND : ℕ := 1000000

def RETRY_BASE_S : ℕ := 2

def RETRY_CAP_S : ℕ := 300

def MAX_ATTEMPTS : ℕ := 10

def SEND_BATCH : ℕ := 50

def ROW_TTL_DAYS : ℕ := 30

def SEND_LEASE_TTL_S : ℕ := 120

section selection

/-- The rows that `run_once` reads. -/
def selectOpen (rows : List WebhookDelivery) : List WebhookDelivery :=
  ((rows.filter WebhookDelivery.isOpen).insertionSort Selects).take SEND_BATCH

abbrev Group := (ℕ × ℕ) × List WebhookDelivery

/-- `groups.setdefault(key, []).append(item)`. -/
def addToGroup (item : WebhookDelivery) : List Group → List Group
  | [] => [(item.stream, [item])]
  | (key, group) :: groups =>
    if key = item.stream then (key, group ++ [item]) :: groups
    else (key, group) :: addToGroup item groups

def groupByStream (items : List WebhookDelivery) : List Group :=
  (items.foldl (fun groups item => addToGroup item groups) []).map fun g =>
    (g.1, g.2.insertionSort Precedes)

def isReady (moment : ℕ) (d : WebhookDelivery) : Bool :=
  (d.status = .pending || d.status = .retry) && d.nextTryAt ≤ moment

def readyDeliveries (items : List WebhookDelivery) (moment : ℕ) : List WebhookDelivery :=
  (groupByStream items).filterMap fun g => g.2.head?.filter (isReady moment)

end selection

section attempt

/-- `retryAfter` is the header, if there is one, and what `int` makes of it, if it can. -/
structure Response where
  statusCode : ℕ
  retryAfter : Option (Option ℤ) := none
deriving DecidableEq

def retryAfterSeconds (response : Option Response) : Option ℕ := do
  let value ← response.bind Response.retryAfter
  let seconds ← value
  some seconds.toNat

def isRetryable : Option Response → Bool
  | none => true
  | some r => r.statusCode = 408 || r.statusCode = 429 || (500 ≤ r.statusCode && r.statusCode ≤ 599)

/-- The last instant of the year 9999. -/
def MAX_DATETIME : ℕ := 315537897599999999

/-- What the lease of `_attempt` makes of the row, unless the row is not to be sent now. -/
def leased (token now : ℕ) (d : WebhookDelivery) : Option WebhookDelivery :=
  if d.status ≠ .pending ∧ d.status ≠ .retry then none
  else if d.leaseExpiresAt.any (now < ·) then none
  else some { d with leaseToken := some token
                     leaseExpiresAt := some (now + SEND_LEASE_TTL_S * SECOND) }

def sentRow (now : ℕ) (d : WebhookDelivery) : WebhookDelivery :=
  { d with status := .sent, sentAt := some now, leaseToken := none, leaseExpiresAt := none }

/-- The row with the failed attempt counted. -/
def failedRow (response : Option Response) (error : String) (d : WebhookDelivery) :
    WebhookDelivery :=
  { d with
    attempts := d.attempts + 1
    lastStatusCode := response.map Response.statusCode
    lastError := some error }

def deadRow (now : ℕ) (d : WebhookDelivery) : WebhookDelivery :=
  { d with status := .dead, deadAt := some now, leaseToken := none, leaseExpiresAt := none }

def retryRow (nextTryAt : ℕ) (d : WebhookDelivery) : WebhookDelivery :=
  { d with
    status := .retry, nextTryAt := nextTryAt, leaseToken := none, leaseExpiresAt := none }

/-- The delay without its jitter, in seconds. -/
def backoff (response : Option Response) (attempts : ℕ) : ℕ :=
  max (min RETRY_CAP_S (RETRY_BASE_S * 2 ^ (attempts - 1)))
    ((retryAfterSeconds response).getD 0)

def replayedRow (now : ℕ) (d : WebhookDelivery) : WebhookDelivery :=
  { d with
    status := .pending, nextTryAt := now, deadAt := none, leaseToken := none
    leaseExpiresAt := none }

def skippedRow (now : ℕ) (d : WebhookDelivery) : WebhookDelivery :=
  { d with
    status := .skipped, nextTryAt := now + 30 * 86400 * SECOND, leaseToken := none
    leaseExpiresAt := none }

def isPurgeable (cutoff : ℕ) (d : WebhookDelivery) : Bool :=
  d.createdAt < cutoff && (d.status = .sent || d.status = .dead || d.status = .skipped)

end attempt

end Fakery.Dispatch
