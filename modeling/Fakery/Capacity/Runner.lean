import Fakery.Bots.State
import Fakery.Concurrent.RelyGuarantee
import Fakery.Postgres.Row

/-! The capacity transactions of the runner and the machine that interleaves them. A session keeps
the counter that it has loaded: fetching it again, even FOR UPDATE, does not refresh it. -/
namespace Fakery.Capacity
open Fakery.Bots Fakery.Concurrent Fakery.Postgres

structure CapacityCounter where
  activeCount : ℕ
  limit : ℕ
deriving DecidableEq

/-- The UPDATE of a flush writes the attributes that were changed. -/
def CapacityCounter.store (loaded now row : CapacityCounter) : CapacityCounter where
  activeCount := if now.activeCount = loaded.activeCount then row.activeCount else now.activeCount
  limit := if now.limit = loaded.limit then row.limit else now.limit

structure CapacityReservation where
  id : ℕ
  tenant : ℕ
  botId : ℕ
  owner : ℕ
  acquiredAt : ℕ
  releasedAt : Option ℕ := none
deriving DecidableEq

def CapacityReservation.release (moment : ℕ) (r : CapacityReservation) : CapacityReservation :=
  { r with releasedAt := some moment }

inductive Stmt where
  | utcnow
  | uuid4
  | getCounter (tenant : ℕ)
  | getCounterForUpdate (tenant : ℕ)
  | insertCounter (tenant : ℕ) (counter : CapacityCounter)
  | assignCounter (tenant : ℕ) (f : CapacityCounter → CapacityCounter)
  | flushCounter (tenant : ℕ)
  | findOpen (bot : ℕ)
  | selectOpen
  | getRun (bot : ℕ)
  | insertReservation (reservation : CapacityReservation)
  | updateReservation (id moment : ℕ)
  | commit
  | rollback

/-- The insertions answer `false` for an IntegrityError. -/
abbrev Answer : Stmt → Type
  | .utcnow | .uuid4 => ℕ
  | .getCounter _ | .getCounterForUpdate _ => Option CapacityCounter
  | .insertCounter _ _ | .insertReservation _ => Bool
  | .findOpen _ => Option CapacityReservation
  | .selectOpen => List CapacityReservation
  | .getRun _ => Option BotStatus
  | _ => Unit

structure Obj where
  loaded : CapacityCounter
  now : CapacityCounter

/-- `ids` lists every reservation ever inserted; `counterOf` is the identity map of a session. -/
structure Db where
  counters : ℕ → Row (Option CapacityCounter) := fun _ => .new none
  ids : List ℕ := []
  reservations : ℕ → Row (Option CapacityReservation) := fun _ => .new none
  counterOf : ℕ → ℕ → Option Obj := fun _ _ => none

namespace Db

variable (s : Db) (t : ℕ)

def setCounter (tenant : ℕ) (r : Row (Option CapacityCounter)) : Db :=
  { s with counters := Function.update s.counters tenant r }

def setReservation (id : ℕ) (r : Row (Option CapacityReservation)) : Db :=
  { s with reservations := Function.update s.reservations id r }

def setObj (tenant : ℕ) (o : Obj) : Db :=
  { s with counterOf :=
    Function.update s.counterOf t (Function.update (s.counterOf t) tenant (some o)) }

/-- A counter that comes back from a SELECT: the loaded object wins over the columns. -/
def load (tenant : ℕ) : Option CapacityCounter → Db × Option CapacityCounter
  | none => (s, none)
  | some c =>
    match s.counterOf t tenant with
    | some o => (s, some o.now)
    | none => (s.setObj t tenant ⟨c, c⟩, some c)

def isOpen (r : CapacityReservation) : Bool := r.releasedAt = none

/-- The open reservations that `t` sees. -/
def openReservations : List CapacityReservation :=
  s.ids.filterMap fun i => ((s.reservations i).visible t).filter isOpen

/-- `uq_capacity_active_bot` admits one open reservation for each bot. -/
def clashes (reservation : CapacityReservation) : Option CapacityReservation → Bool
  | none => false
  | some r => r.id = reservation.id || (r.botId = reservation.botId && isOpen r)

/-- An insert waits while another transaction holds a row that may clash. -/
def insertReservation (reservation : CapacityReservation) : Option (Db × Bool) :=
  if s.ids.any fun i => (s.reservations i).holder.any (· ≠ t) &&
      (clashes reservation (s.reservations i).committed ||
        clashes reservation (s.reservations i).written) then none
  else if ((s.reservations reservation.id).visible t).isSome ||
      s.ids.any fun i => clashes reservation ((s.reservations i).visible t) then some (s, false)
  else ((s.reservations reservation.id).update t fun _ => some reservation).map fun r =>
    ({ s.setReservation reservation.id r with
      ids := if reservation.id ∈ s.ids then s.ids else s.ids ++ [reservation.id] }, true)

def flushCounter (tenant : ℕ) : Option Db :=
  match s.counterOf t tenant with
  | none => some s
  | some o =>
    if o.now = o.loaded then some s
    else ((s.counters tenant).update t fun x => x.map (CapacityCounter.store o.loaded o.now)).map
      fun r => (s.setCounter tenant r).setObj t tenant ⟨o.now, o.now⟩

def commit : Db :=
  { s with
    counters := fun i => (s.counters i).commit t
    reservations := fun i => (s.reservations i).commit t
    counterOf := Function.update s.counterOf t fun _ => none }

def rollback : Db :=
  { s with
    counters := fun i => (s.counters i).rollback t
    reservations := fun i => (s.reservations i).rollback t
    counterOf := Function.update s.counterOf t fun _ => none }

end Db

/-- The outcome of a call: a clock reading or fresh identifier, and the status of the run that
the sweeper looks at, which other transactions change as they like. -/
structure Outcome where
  number : ℕ := 0
  status : Option BotStatus := none

def exec (t : ℕ) : (i : Stmt) → Outcome → Db → Option (Db × Answer i)
  | .utcnow, c, s => some (s, c.number)
  | .uuid4, c, s => some (s, c.number)
  | .getCounter tenant, _, s =>
    match s.counterOf t tenant with
    | some o => some (s, some o.now)
    | none => some (s.load t tenant ((s.counters tenant).visible t))
  | .getCounterForUpdate tenant, _, s =>
    match (s.counters tenant).visible t with
    | none => some (s, none)
    | some c => ((s.counters tenant).lock t).map fun r =>
        (s.setCounter tenant r).load t tenant (some c)
  | .insertCounter tenant counter, _, s =>
    match (s.counters tenant).visible t with
    | some _ => some (s, false)
    | none => ((s.counters tenant).update t fun _ => some counter).map fun r =>
        ((s.setCounter tenant r).setObj t tenant ⟨counter, counter⟩, true)
  | .assignCounter tenant f, _, s =>
    match s.counterOf t tenant with
    | none => some (s, ())
    | some o => some (s.setObj t tenant ⟨o.loaded, f o.now⟩, ())
  | .flushCounter tenant, _, s => (s.flushCounter t tenant).map fun s' => (s', ())
  | .findOpen bot, _, s => some (s, (s.openReservations t).find? fun r => r.botId = bot)
  | .selectOpen, _, s => some (s, s.openReservations t)
  | .getRun _, c, s => some (s, c.status)
  | .insertReservation reservation, _, s => s.insertReservation t reservation
  | .updateReservation id moment, _, s =>
    ((s.reservations id).update t fun x => x.map (CapacityReservation.release moment)).map fun r =>
      (s.setReservation id r, ())
  | .commit, _, s => some (s.commit t, ())
  | .rollback, _, s => some (s.rollback t, ())

/-- A transaction raises nothing here but the IntegrityError of an insertion. -/
abbrev Txn := Task Stmt Answer Unit

def perform (i : Stmt) : Txn (Answer i) := Task.perform i

def issue (i : Stmt) : Prog Stmt Answer (Answer i) := Prog.ask i

def RESERVATION_STALE_S : ℕ := 300

/-- The counter of the tenant, created or locked, with the limit of this worker. The SELECT that
comes next flushes the limit. -/
def lockedCounter (tenant limit : ℕ) : Txn CapacityCounter := do
  match ← perform (.getCounter tenant) with
  | none =>
    let counter : CapacityCounter := ⟨0, limit⟩
    if ← perform (.insertCounter tenant counter) then pure counter else throw ()
  | some _ => do
    match ← perform (.getCounterForUpdate tenant) with
    | none => throw ()
    | some counter => do
      perform (.assignCounter tenant fun c => { c with limit := limit })
      perform (.flushCounter tenant)
      pure { counter with limit := limit }

def tryReserveCapacity (tenant limit bot owner : ℕ) : Txn Bool := do
  let counter ← lockedCounter tenant limit
  match ← perform (.findOpen bot) with
  | some current => pure (current.owner = owner)
  | none =>
    if counter.activeCount ≥ counter.limit then pure false
    else do
      let id ← perform .uuid4
      let acquiredAt ← perform .utcnow
      if ← perform (.insertReservation
          { id := id, tenant := tenant, botId := bot, owner := owner, acquiredAt := acquiredAt })
      then do
        perform (.assignCounter tenant fun c => { c with activeCount := c.activeCount + 1 })
        perform (.flushCounter tenant)
        pure true
      else throw ()

def decrement (tenant : ℕ) : Txn Unit := do
  match ← perform (.getCounterForUpdate tenant) with
  | none => pure ()
  | some _ => do
    perform (.assignCounter tenant fun c => { c with activeCount := c.activeCount - 1 })
    perform (.flushCounter tenant)
    pure ()

/-- The SELECT of the counter flushes the reservation. -/
def release (r : CapacityReservation) (moment : ℕ) : Txn Unit := do
  perform (.updateReservation r.id moment)
  decrement r.tenant

def releaseCapacity (bot : ℕ) : Txn Unit := do
  match ← perform (.findOpen bot) with
  | none => pure ()
  | some reservation => do
    let moment ← perform .utcnow
    release reservation moment

/-- The runs whose reservation the sweeper takes back. -/
def isSwept (r : CapacityReservation) (moment : ℕ) : Option BotStatus → Bool
  | none => true
  | some status => status = .completed || status = .failed ||
      (status = .queued && moment - r.acquiredAt > RESERVATION_STALE_S)

def sweepEach (moment : ℕ) : List CapacityReservation → Txn ℕ
  | [] => pure 0
  | r :: rs => do
    if isSwept r moment (← perform (.getRun r.botId)) then do
      release r moment
      let released ← sweepEach moment rs
      pure (released + 1)
    else sweepEach moment rs

def sweepCapacity : Txn ℕ := do
  let moment ← perform .utcnow
  let reservations ← perform .selectOpen
  sweepEach moment reservations

def transaction {α : Type} (body : Txn α) : Prog Stmt Answer Unit := do
  match ← body.run with
  | .ok _ => issue .commit
  | .error _ => issue .rollback

inductive Op where
  | tryReserve (tenant limit bot owner : ℕ)
  | release (bot : ℕ)
  | sweep

def Op.prog : Op → Prog Stmt Answer Unit
  | tryReserve tenant limit bot owner => transaction (tryReserveCapacity tenant limit bot owner)
  | release bot => transaction (releaseCapacity bot)
  | sweep => transaction sweepCapacity

def capacity : Machine Stmt Answer Op Db Outcome Empty where
  prog := Op.prog
  begin t _ s := some { s with counterOf := Function.update s.counterOf t fun _ => none }
  exec := exec
  kill t s := s.rollback t
  env := nofun

end Fakery.Capacity
