import Fakery.Concurrent.Prog
import Fakery.Concurrent.Machine
import Fakery.Concurrent.RelyGuarantee
import Fakery.Concurrent.History
import Fakery.Concurrent.Alone
import Fakery.Concurrent.Along
import Fakery.Postgres.Row
import Fakery.Core.Errors
import Fakery.Intervals.Sweep
import Fakery.Batching.Greedy
import Fakery.Paging.Descending
import Fakery.Windows.RowNumber
import Fakery.Sequential.Fallible
import Fakery.Queue.Batch
import Fakery.Storage.Blob
import Fakery.Storage.Checkpoints
import Fakery.Storage.Damage
import Fakery.Bots.State
import Fakery.Bots.Pages
import Fakery.Bots.Database
import Fakery.Bots.Service
import Fakery.Bots.Atomic
import Fakery.Bots.Lifecycle
import Fakery.Bots.RowInvariant
import Fakery.Bots.Transactions
import Fakery.Bots.Bodies
import Fakery.Bots.Edits
import Fakery.Bots.Tabled
import Fakery.Bots.Inside
import Fakery.Bots.Serial
import Fakery.Bots.Discipline
import Fakery.Bots.Soundness
import Fakery.Bots.Absorbing
import Fakery.Bots.SingleBrowser
import Fakery.Webhooks.Outbox
import Fakery.Webhooks.Emission
import Fakery.Webhooks.Mirror
import Fakery.Dispatch.Rows
import Fakery.Dispatch.Selection
import Fakery.Dispatch.Starvation
import Fakery.Dispatch.Sender
import Fakery.Dispatch.Ordering
import Fakery.Dispatch.Ordered
import Fakery.Dispatch.Commands
import Fakery.Dispatch.Commanded
import Fakery.Dispatch.Operators
import Fakery.Dispatch.Policy
import Fakery.Capacity.Runner
import Fakery.Capacity.Counter
import Fakery.Capacity.Balance
import Fakery.Capacity.Admission
import Fakery.Capacity.Ledger
import Fakery.Meet.Recorder
import Fakery.Meet.Flush
import Fakery.Meet.Checkpointed
import Fakery.Meet.Gaps
import Fakery.Recording.Writers
import Fakery.Recording.Settled
import Fakery.Recording.Served
import Fakery.Recording.Degraded
import Fakery.Recording.Finalizer
import Fakery.Recording.Recovered
import Fakery.Transcription.Coverage
import Fakery.Transcription.Speakers
import Fakery.Transcription.Annotated
import Fakery.Transcription.Confident
import Fakery.Notes.Summarizer
import Fakery.Notes.Batches
import Fakery.Attend.Finalize
import Fakery.Attend.Ingest
import Fakery.Attend.Merge
import Fakery.Attend.Survival
import Fakery.Attend.Truthful
import Fakery.Concurrent.LockOrder
import Fakery.Locking.Transactions
import Fakery.Locking.Discipline
import Fakery.Locking.Deadlock
import Fakery.Redis.Keys
import Fakery.Profiles.Lease
import Fakery.Meet.Stop
import Fakery.Retention.Sweep
import Fakery.Retention.Expired
import Fakery.Retention.Tolerance
import Fakery.Runtime.Attend
import Fakery.Runtime.Rows
import Fakery.Profiles.Stored
import Fakery.Heartbeat.Attendance
import Fakery.Heartbeat.Reaped
import Fakery.Worker.Cluster
import Fakery.Worker.Programs
import Fakery.Worker.Calls
import Fakery.Worker.Uses
import Fakery.Worker.Onward
import Fakery.Worker.Admission
import Fakery.Worker.Attending
import Fakery.Worker.Rivals
import Fakery.Worker.Duplicates
import Fakery.Worker.Queued
import Fakery.Worker.Guarded
import Fakery.Worker.Delivered
import Fakery.Worker.Pacer
import Fakery.Worker.Relay
import Fakery.Worker.Relayed
import Fakery.Shutdown.Checks
import Fakery.Shutdown.Attended
import Fakery.Shutdown.Recorded
import Fakery.Spawn.Runtimes
import Fakery.Spawn.Terminal
import Fakery.Meetings.Urls
import Fakery.Meetings.Canonical
import Fakery.Requests.Create
import Fakery.Requests.Stored
import Fakery.Requests.Columns
import Fakery.Requests.Decision
import Fakery.Requests.Committed
import Fakery.Labels.Rfc1123
import Fakery.Jobs.Names
import Fakery.Jobs.Runtimes
import Fakery.Jobs.Adoption
import Fakery.Migrations.Pilot
import Fakery.Migrations.Keys
import Fakery.Migrations.Rows
import Fakery.Migrations.Agreement
import Fakery.Creates.Retries
import Fakery.Creates.Idempotent
import Fakery.Texts.Strings
import Fakery.Json.Value
import Fakery.Json.Tokens
import Fakery.Json.Codec
import Fakery.Json.Utf8
import Fakery.Webhooks.Signed
import Fakery.Storage.Texts
import Fakery.Storage.Faults
import Fakery.Storage.Encoded
import Fakery.Storage.Represented
import Fakery.Storage.Published
import Fakery.Transcription.Stream
import Fakery.Transcription.Streamed
import Fakery.Transcription.Stopped
import Fakery.Transcription.LiveQueue
import Fakery.Transcription.Decoder
import Fakery.Transcription.Decoded
import Fakery.Transcription.CleanedUp
import Fakery.Transcription.Heard
import Fakery.Transcription.Hearing
import Fakery.Texts.Base64
import Fakery.Meet.Page
import Fakery.Meet.Collected
import Fakery.Polling.Deadline
import Fakery.Meet.JoinFlow
import Fakery.Meet.Recovered
import Fakery.Meet.Recorders
import Fakery.Sequential.Simulation
import Fakery.Retention.Keyed
import Fakery.Files.Tree
import Fakery.Profiles.Archive
import Fakery.Counting.Tally
import Fakery.Transcription.Provider
import Fakery.Jobs.Waiting
