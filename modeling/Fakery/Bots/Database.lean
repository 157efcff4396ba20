import Fakery.Bots.Models
import Fakery.Concurrent.RelyGuarantee
import Fakery.Postgres.Row

/-! The statements of a service transaction and what each does to the database and to the
session that issues it. A session keeps the attributes of a row it has loaded: selecting the
row again, even FOR UPDATE, does not refresh them. -/
namespace Fakery.Bots
open Fakery.Postgres

inductive Stmt where
  | utcnow
  | uuid4
  | get (b : ℕ)
  | selectForUpdate (b : ℕ)
  | getByIdempotency (key : String)
  | findActiveMeeting (key : String)
  | selectStale (cutoff : ℕ)
  | heartbeat (b : ℕ)
  | assign (b : ℕ) (f : BotRun → BotRun)
  | flush (b : ℕ)
  | insertRun (run : BotRun)
  | lockSubscriptions
  | lastDelivery (subscription b : ℕ)
  | addDelivery (delivery : WebhookDelivery)
  | findSegment (b : ℕ) (segment : Segment)
  | insertSegment (segment : TranscriptSegment)
  | insertNote (note : MeetingNote)
  | commit
  | rollback
  | openBrowser (b : ℕ)

/-- `insertRun` and `insertNote` answer `false` for an IntegrityError. -/
abbrev Answer : Stmt → Type
  | .utcnow | .uuid4 => ℕ
  | .get _ | .selectForUpdate _ | .getByIdempotency _ | .findActiveMeeting _ => Option BotRun
  | .selectStale _ => List BotRun
  | .heartbeat _ | .insertRun _ | .insertNote _ => Bool
  | .lockSubscriptions => List WebhookSubscription
  | .lastDelivery _ _ => Option WebhookDelivery
  | .findSegment _ _ => Option TranscriptSegment
  | _ => Unit

/-- An object of the identity map: its attributes at the last load or flush, and now. -/
structure Obj where
  loaded : BotRun
  now : BotRun

structure Session where
  objs : ℕ → Option Obj := fun _ => none
  deliveries : List WebhookDelivery := []
  segments : List TranscriptSegment := []
  statuses : List (ℕ × BotStatus) := []

/-- `ids` lists every run ever inserted. `history` and `statusLog` are not stored: the first
lists the statuses each run was seen in, commit by commit, the second every status that a
committed transaction wrote. Nor are `joinedBy`, the transaction that took a run from queued to
joining, and `openedBy`, the callers of `CloakBrowser.open`. -/
structure Db where
  ids : List ℕ := []
  bots : ℕ → Row (Option BotRun) := fun _ => .new none
  subscriptions : List WebhookSubscription := []
  subscriptionLock : ℕ → Option ℕ := fun _ => none
  deliveries : List WebhookDelivery := []
  segments : List TranscriptSegment := []
  notes : ℕ → Row (Option MeetingNote) := fun _ => .new none
  heartbeat : ℕ → Bool := fun _ => false
  session : ℕ → Session := fun _ => {}
  history : ℕ → List BotStatus := fun _ => []
  statusLog : List (ℕ × BotStatus) := []
  joinedBy : ℕ → Option ℕ := fun _ => none
  openedBy : ℕ → List ℕ := fun _ => []

namespace Db

variable (s : Db) (t : ℕ)

def setSession (x : Session) : Db := { s with session := Function.update s.session t x }

def setBot (b : ℕ) (r : Row (Option BotRun)) : Db :=
  { s with bots := Function.update s.bots b r }

def setNote (b : ℕ) (r : Row (Option MeetingNote)) : Db :=
  { s with notes := Function.update s.notes b r }

def setObj (b : ℕ) (o : Obj) : Db :=
  s.setSession t { s.session t with objs := Function.update (s.session t).objs b (some o) }

/-- A row that comes back from a SELECT: the loaded object wins over the columns. -/
def load (b : ℕ) (run : BotRun) : Db × BotRun :=
  match (s.session t).objs b with
  | some o => (s, o.now)
  | none => (s.setObj t b ⟨run, run⟩, run)

def loadSome : Option (ℕ × BotRun) → Db × Option BotRun
  | none => (s, none)
  | some x => ((s.load t x.1 x.2).1, some (s.load t x.1 x.2).2)

def loadAll (s : Db) : List (ℕ × BotRun) → Db × List BotRun
  | [] => (s, [])
  | x :: xs => ((loadAll (s.load t x.1 x.2).1 xs).1,
      (s.load t x.1 x.2).2 :: (loadAll (s.load t x.1 x.2).1 xs).2)

/-- The rows that `t` sees and that satisfy `p`, by their key. -/
def select (p : BotRun → Bool) : List (ℕ × BotRun) :=
  s.ids.filterMap fun b => (((s.bots b).visible t).filter p).map fun run => (b, run)

def active (status : BotStatus) : Bool := status ∈ .queued :: liveStatuses

/-- The rows that a unique index would not admit next to `run`. -/
def clashes (run : BotRun) : Option BotRun → Bool
  | none => false
  | some r => r.id = run.id || (r.idempotencyKey.isSome && r.idempotencyKey = run.idempotencyKey) ||
      (r.meetingKey = run.meetingKey && active r.status && active run.status)

/-- An insert waits while another transaction holds a row that may clash. -/
def insertRun (run : BotRun) : Option (Db × Bool) :=
  if s.ids.any fun b => (s.bots b).holder.any (· ≠ t) &&
      (clashes run (s.bots b).committed || clashes run (s.bots b).written) then none
  else if ((s.bots run.id).visible t).isSome ||
      s.ids.any fun b => clashes run ((s.bots b).visible t) then some (s, false)
  else ((s.bots run.id).update t fun _ => some run).map fun r =>
    let x := s.session t
    ({ s.setBot run.id r with
        ids := if run.id ∈ s.ids then s.ids else s.ids ++ [run.id]
        session := Function.update s.session t
          { x with
            objs := Function.update x.objs run.id (some ⟨run, run⟩)
            statuses := x.statuses ++ [(run.id, run.status)] } }, true)

/-- Nothing is sent for an object whose attributes are as they were loaded. -/
def flush (b moment : ℕ) : Option Db :=
  match (s.session t).objs b with
  | none => some s
  | some o =>
    if o.now = o.loaded then some s
    else ((s.bots b).update t fun x => x.map (BotRun.store o.loaded o.now moment)).map fun r =>
      let x := s.session t
      (s.setBot b r).setSession t
        { x with
          objs := Function.update x.objs b (some ⟨o.now.touched moment, o.now.touched moment⟩)
          statuses := x.statuses ++
            if o.now.status = o.loaded.status then [] else [(b, o.now.status)] }

def ownsSubscription (w : WebhookSubscription) : Bool :=
  s.subscriptionLock w.id = none || s.subscriptionLock w.id = some t

def lockSubscriptions : Option (Db × List WebhookSubscription) :=
  if s.subscriptions.all (s.ownsSubscription t) then
    some ({ s with subscriptionLock := fun w =>
      if w ∈ s.subscriptions.map WebhookSubscription.id then some t else s.subscriptionLock w },
      s.subscriptions)
  else none

/-- The rows of one stream that `t` sees: the committed ones and its own. -/
def stream (subscription b : ℕ) : List WebhookDelivery :=
  (s.deliveries ++ (s.session t).deliveries).filter fun d =>
    d.subscriptionId = subscription && d.payload.botId = b

/-- The row with the highest sequence. -/
def highest (rows : List WebhookDelivery) : Option WebhookDelivery :=
  rows.foldl (fun best d => match best with
    | none => some d
    | some e => if e.sequence < d.sequence then some d else some e) none

def sameSegment (b : ℕ) (segment : Segment) (row : TranscriptSegment) : Bool :=
  row.botRunId = b && row.startMs = segment.startMs && row.endMs = segment.endMs &&
    row.text = segment.text

def release (lock : ℕ → Option ℕ) : ℕ → Option ℕ := fun w => if lock w = some t then none else lock w

/-- The statuses a run was seen in, with the one that a commit shows if it is another. -/
def seen (before after : Option BotRun) (h : List BotStatus) : List BotStatus :=
  match after with
  | none => h
  | some run => if before.map BotRun.status = some run.status then h else h ++ [run.status]

def commit : Db :=
  { s with
    bots := fun b => (s.bots b).commit t
    notes := fun b => (s.notes b).commit t
    subscriptionLock := release t s.subscriptionLock
    deliveries := s.deliveries ++ (s.session t).deliveries
    segments := s.segments ++ (s.session t).segments
    session := Function.update s.session t {}
    history := fun b =>
      seen (s.bots b).committed ((s.bots b).commit t).committed (s.history b)
    statusLog := s.statusLog ++ (s.session t).statuses
    joinedBy := fun b =>
      if (s.bots b).committed.map BotRun.status = some .queued ∧
          ((s.bots b).commit t).committed.map BotRun.status = some .joining then some t
      else s.joinedBy b }

def rollback : Db :=
  { s with
    bots := fun b => (s.bots b).rollback t
    notes := fun b => (s.notes b).rollback t
    subscriptionLock := release t s.subscriptionLock
    session := Function.update s.session t {} }

end Db

/-- The outcome `c` of a statement is used for clock readings and fresh identifiers. -/
def exec (t : ℕ) : (i : Stmt) → ℕ → Db → Option (Db × Answer i)
  | .utcnow, c, s => some (s, c)
  | .uuid4, c, s => some (s, c)
  | .get b, _, s =>
    match (s.session t).objs b with
    | some o => some (s, some o.now)
    | none => some (s.loadSome t (((s.bots b).visible t).map fun run => (b, run)))
  | .selectForUpdate b, _, s =>
    match (s.bots b).visible t with
    | none => some (s, none)
    | some run => ((s.bots b).lock t).map fun r => (s.setBot b r).loadSome t (some (b, run))
  | .getByIdempotency key, _, s =>
    some (s.loadSome t (s.select t fun run => run.idempotencyKey = some key).head?)
  | .findActiveMeeting key, _, s =>
    some (s.loadSome t
      (s.select t fun run => run.meetingKey = key && Db.active run.status).head?)
  | .selectStale cutoff, _, s =>
    some (s.loadAll t
      (s.select t fun run => run.status ∈ liveStatuses && run.updatedAt < cutoff))
  | .heartbeat b, _, s => some (s, s.heartbeat b)
  | .assign b f, _, s =>
    match (s.session t).objs b with
    | none => some (s, ())
    | some o => some (s.setObj t b ⟨o.loaded, f o.now⟩, ())
  | .flush b, c, s => (s.flush t b c).map fun s' => (s', ())
  | .insertRun run, _, s => s.insertRun t run
  | .lockSubscriptions, _, s => s.lockSubscriptions t
  | .lastDelivery subscription b, _, s => some (s, Db.highest (s.stream t subscription b))
  | .addDelivery delivery, _, s =>
    let x := s.session t
    some (s.setSession t { x with deliveries := x.deliveries ++ [delivery] }, ())
  | .findSegment b segment, _, s =>
    some (s, (s.segments ++ (s.session t).segments).find? (Db.sameSegment b segment))
  | .insertSegment segment, _, s =>
    let x := s.session t
    some (s.setSession t { x with segments := x.segments ++ [segment] }, ())
  | .insertNote note, _, s =>
    match (s.notes note.botRunId).visible t with
    | some _ => some (s, false)
    | none => ((s.notes note.botRunId).update t fun _ => some note).map fun r =>
      (s.setNote note.botRunId r, true)
  | .commit, _, s => some (s.commit t, ())
  | .rollback, _, s => some (s.rollback t, ())
  | .openBrowser b, _, s =>
    some ({ s with openedBy := Function.update s.openedBy b (s.openedBy b ++ [t]) }, ())

end Fakery.Bots
