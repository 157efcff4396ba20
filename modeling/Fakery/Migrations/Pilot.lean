import Fakery.Meetings.Urls
import Fakery.Windows.RowNumber
import Mathlib.Data.Prod.Lex

/-! The migration to revision 0005, statement by statement, on the tables of bots and of webhook
deliveries. It is one transaction: a statement that fails undoes it. -/
namespace Fakery.Migrations
open Fakery.Meetings Fakery.Windows

variable {Id : Type} [LinearOrder Id]

section tables

/-- A row of revision 0004. Identifiers are of any type with a collation. -/
structure BotRow (Id : Type) where
  id : Id
  meetingUrl : Text
  status : String
  errorCode : Option String
  createdAt : ℕ
deriving DecidableEq

/-- The columns of the recording that no statement reads are left out. -/
structure PilotBot (Id : Type) extends BotRow Id where
  meetingKey : Option Text := none
  idempotencyKey : Option Text := none
  stopReason : Option String := none
  recordingStatus : String := "pending"
  finalizationStatus : String := "pending"
deriving DecidableEq

/-- What `->>` gives for the two fields that are read. -/
structure Payload where
  botId : Option Text := none
  eventId : Option Text := none
deriving DecidableEq

structure Delivery (Id : Type) where
  id : Id
  url : Text
  payload : Option Payload
  attempts : Option ℕ
  createdAt : ℕ
deriving DecidableEq

structure PilotDelivery (Id : Type) extends Delivery Id where
  subscriptionId : Option Id := none
  eventId : Option Text := none
  sequence : ℕ := 0
deriving DecidableEq

structure Subscription (Id : Type) where
  id : Id
  url : Text

/-- The tables of revision 0004, with their primary keys. -/
structure Tables (Id : Type) where
  bots : List (BotRow Id)
  deliveries : List (Delivery Id)
  subscriptions : List (Subscription Id)
  botsKey : (bots.map BotRow.id).Nodup
  deliveriesKey : (deliveries.map Delivery.id).Nodup

end tables

section statements

variable {α κ : Type}

/-- An UPDATE fails if a new row does not fit its columns. -/
def update (set : α → α) (fits : α → Bool) (rows : List α) : Option (List α) :=
  if (rows.map set).all fits then some (rows.map set) else none

/-- A unique index can be created if no two entries are the same. A row with a NULL has none. -/
def uniqueIndex [DecidableEq κ] (entry : α → Option κ) (rows : List α) : Bool :=
  (rows.filterMap entry).Nodup

def varchar (size : ℕ) (text : Option Text) : Bool := text.all (·.length ≤ size)

end statements

section bots

def addBotColumns (bots : List (BotRow Id)) : List (PilotBot Id) :=
  bots.map fun b => { toBotRow := b }

def markUnknown (b : PilotBot Id) : PilotBot Id :=
  { b with recordingStatus := "unknown", finalizationStatus := "unknown" }

/-- `https://meet.google.com/` -/
def site : Text := https ++ ':' :: '/' :: '/' :: (meetHost ++ ['/'])

/-- `regexp_replace(_, '^https://meet.google.com/', '')`, where a dot stands for any character. -/
def withoutSite (url : Text) : Text :=
  if site.length ≤ url.length && (site.zip url).all fun c => c.1 = '.' || c.1 = c.2 then
    url.drop site.length
  else url

/-- `regexp_replace(_, '[/?#].*$', '')` -/
def withoutTail (s : Text) : Text := s.takeWhile (!delimiter ·)

/-- The locale of the database agrees with `str.lower` on the letters of a code. -/
def sqlKey (url : Text) : Text := meetHost ++ '/' :: lower (withoutTail (withoutSite url))

def setMeetingKey (b : PilotBot Id) : PilotBot Id :=
  if b.meetingKey.isNone && site.isPrefixOf b.meetingUrl then
    { b with meetingKey := some (sqlKey b.meetingUrl) }
  else b

def activeStatuses : List String := ["queued", "joining", "joined", "recording", "processing"]

def BotRow.active (b : BotRow Id) : Bool := b.status ∈ activeStatuses

def BotRow.place (b : BotRow Id) : ℕ ×ₗ Id := toLex (b.createdAt, b.id)

/-- The common table expression of the duplicates. -/
def rankedBots (bots : List (PilotBot Id)) : List (Id × ℕ) :=
  let keyed := bots.filter fun b => b.meetingKey.isSome && b.active
  keyed.map fun b => (b.id, rowNumber PilotBot.meetingKey (fun b => b.place) keyed b)

def failDuplicate (ranked : List (Id × ℕ)) (b : PilotBot Id) : PilotBot Id :=
  if (ranked.lookup b.id).any (1 < ·) then
    { b with
      status := "failed"
      errorCode := some "duplicate-meeting"
      stopReason := some "failure" }
  else b

def PilotBot.activeEntry (b : PilotBot Id) : Option Text := if b.active then b.meetingKey else none

def upgradeBots (bots : List (BotRow Id)) : Option (List (PilotBot Id)) := do
  let bots := (addBotColumns bots).map markUnknown
  let bots ← update setMeetingKey (fun b => varchar 256 b.meetingKey) bots
  let bots := bots.map (failDuplicate (rankedBots bots))
  if uniqueIndex PilotBot.activeEntry bots && uniqueIndex PilotBot.idempotencyKey bots then
    some bots
  else none

end bots

section deliveries

def addDeliveryColumns (deliveries : List (Delivery Id)) : List (PilotDelivery Id) :=
  deliveries.map fun d => { toDelivery := d }

def fillNulls (d : PilotDelivery Id) : PilotDelivery Id :=
  { d with attempts := some (d.attempts.getD 0), payload := some (d.payload.getD {}) }

def PilotDelivery.botId (d : PilotDelivery Id) : Option Text := d.payload.bind Payload.botId

/-- `pick` stands for which of the subscriptions of its URL a delivery gets. -/
def setSubscription (pick : Id → List (Subscription Id) → Option (Subscription Id))
    (subscriptions : List (Subscription Id)) (d : PilotDelivery Id) : PilotDelivery Id :=
  let matching := subscriptions.filter fun w => w.url = d.url
  if d.subscriptionId.isNone && !matching.isEmpty then
    { d with subscriptionId := (pick d.id matching).map Subscription.id }
  else d

/-- `text` gives the text of an identifier. -/
def setEventId (text : Id → Text) (d : PilotDelivery Id) : PilotDelivery Id :=
  if d.eventId.isNone then
    { d with eventId := some ((d.payload.bind Payload.eventId).getD (text d.id)) }
  else d

def PilotDelivery.place (d : PilotDelivery Id) : ℕ ×ₗ Id := toLex (d.createdAt, d.id)

def PilotDelivery.stream (d : PilotDelivery Id) : Option Id × Option Text :=
  (d.subscriptionId, d.botId)

/-- The common table expression of the sequences. -/
def rankedDeliveries (deliveries : List (PilotDelivery Id)) : List (Id × ℕ) :=
  deliveries.map fun d =>
    (d.id, rowNumber PilotDelivery.stream PilotDelivery.place deliveries d - 1)

def setSequence (ranked : List (Id × ℕ)) (d : PilotDelivery Id) : PilotDelivery Id :=
  match ranked.lookup d.id with
  | some next => { d with sequence := next }
  | none => d

def PilotDelivery.streamEntry (d : PilotDelivery Id) : Option (Id × Text × ℕ) := do
  let subscription ← d.subscriptionId
  let bot ← d.botId
  return (subscription, bot, d.sequence)

def upgradeDeliveries (text : Id → Text)
    (pick : Id → List (Subscription Id) → Option (Subscription Id))
    (subscriptions : List (Subscription Id)) (deliveries : List (Delivery Id)) :
    Option (List (PilotDelivery Id)) := do
  let deliveries := (addDeliveryColumns deliveries).map fillNulls
  let deliveries := deliveries.map (setSubscription pick subscriptions)
  let deliveries ← update (setEventId text) (fun d => varchar 64 d.eventId) deliveries
  let deliveries ← update (setSequence (rankedDeliveries deliveries))
    (fun d => d.sequence < 2147483648) deliveries
  if uniqueIndex PilotDelivery.streamEntry deliveries then some deliveries else none

end deliveries

def upgrade (text : Id → Text)
    (pick : Id → List (Subscription Id) → Option (Subscription Id)) (tables : Tables Id) :
    Option (List (PilotBot Id) × List (PilotDelivery Id)) := do
  let bots ← upgradeBots tables.bots
  let deliveries ← upgradeDeliveries text pick tables.subscriptions tables.deliveries
  return (bots, deliveries)

end Fakery.Migrations
