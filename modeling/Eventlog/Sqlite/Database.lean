import Eventlog.Core.Platform
import Eventlog.File.Requests

/-!
# Eventlog.Sqlite.Database

The tables of one owner's SQLite database, and what is read from them.

The tables history is made of are apart (`Ledger`): the events, the receipts of commands,
claims and groups, the identities of tenants and the blobs.  Callbacks write none of them.

Bodies are stored as their text and parsed when they are read, so a body comes back as
`Json.reread` of what was written.  Positions and versions are numbers without a bound; the
bounds of caller's numbers are checked where they are read.
-/

namespace Eventlog.Sqlite

open File (Table RecordedEvent.isOn StreamId.key StreamSlice FeedPage)

/-! ## Tables -/

/-- Where a copied event stood in the branchable history it was copied from. -/
structure EventOrigin where
  version : Nat
  digest : String
  parents : List String
  deriving DecidableEq

/-- The identity and instant one replayed event had when it was first recorded. -/
structure RestoredEvent where
  eventId : String
  recordedAt : OffsetDateTime
  origin : Option EventOrigin
  deriving DecidableEq

/-- The tables of history.  `events` is in the order of its positions, `position` is the last
    one handed out. -/
structure Ledger where
  events : List RecordedEvent
  position : Nat
  commands : Table (String × Nat × Nat)
  claims : Table (String × GroupRange)
  groups : Table (String × List GroupRange)
  batches : Table (List String)
  identities : Table String
  blobs : Table Bytes
  origins : Table EventOrigin

/-- One row of a projection: its body, and the text of each indexed field. -/
structure Row where
  body : Json
  indexed : List (Option String)
  deriving DecidableEq

/-- All tables.  A projection's table exists if its name is in the registry. -/
structure Db extends Ledger where
  cursors : Table Nat
  snapshots : Table Snapshot
  generations : Table (String × Option String)
  counters : Table Int
  registry : Table (List String)
  rows : Table Row

/-- The tables as `create_tables` leaves them. -/
def Db.empty : Db where
  events := []
  position := 0
  commands := ∅
  claims := ∅
  groups := ∅
  batches := ∅
  identities := ∅
  blobs := ∅
  origins := ∅
  cursors := ∅
  snapshots := ∅
  generations := ∅
  counters := ∅
  registry := ∅
  rows := ∅

/-! ## Reading events -/

variable (P : Platform)

/-- `build_event`: the body is parsed from its text. -/
def readEvent (e : RecordedEvent) : Except EventLogError RecordedEvent :=
  match Json.reread P.toFloatText e.data with
  | some data => .ok { e with data }
  | none => .error (.Backend "stored body is not JSON")

namespace Ledger

variable (l : Ledger)

/-- The rows of one stream.  They are written in the order of their versions. -/
def ofStream (stream : StreamId) : List RecordedEvent :=
  l.events.filter fun e => RecordedEvent.isOn e stream

/-- `SELECT MAX(version)`, with 0 for a stream that does not exist. -/
def head (stream : StreamId) : Nat :=
  ((l.ofStream stream).map RecordedEvent.version).foldr max 0

/-- `select_versions`. -/
def selectVersions (stream : StreamId) (first last : Nat) :
    Except EventLogError (List RecordedEvent) :=
  ((l.ofStream stream).filter fun e =>
    decide (first ≤ e.version) && decide (e.version ≤ last)).mapM (readEvent P)

/-- The answer for a range a receipt names. -/
def recorded (range : GroupRange) : Except EventLogError AppendResult := do
  let events ← l.selectVersions P range.stream range.firstVersion range.lastVersion
  return ⟨range.firstVersion, range.lastVersion, events, true⟩

/-- `to_i64` on a number the caller gave. -/
def bounded (n : Nat) : Except EventLogError Unit :=
  if n < 2 ^ 63 then .ok () else .error (.Backend "number is too large")

/-- `read_stream`. -/
def readStream (stream : StreamId) (after limit : Nat) : Except EventLogError StreamSlice := do
  bounded after
  let waiting := (l.ofStream stream).filter fun e => decide (e.version > after)
  let page ← (waiting.take (boundedLimit limit + 1)).mapM (readEvent P)
  let events := page.take (boundedLimit limit)
  return {
    events
    nextVersion := (events.getLast?.map RecordedEvent.version).getD after
    endOfStream := decide (page.length ≤ boundedLimit limit) }

/-- `stream_version`. -/
def streamVersion (stream : StreamId) : Option Nat :=
  if (l.ofStream stream).isEmpty then none else some (l.head stream)

/-- The events of a tenant after a position. -/
def feedAfter (tenant : TenantId) (after : Nat) : List RecordedEvent :=
  l.events.filter fun e => e.tenant == tenant && decide (e.globalSeq > after)

/-- `read_feed`. -/
def readFeed (tenant : TenantId) (after limit : Nat) : Except EventLogError FeedPage := do
  bounded after
  let page ← ((l.feedAfter tenant after).take (boundedLimit limit + 1)).mapM (readEvent P)
  let events := page.take (boundedLimit limit)
  return {
    events
    nextPosition := (events.getLast?.map RecordedEvent.globalSeq).getD after
    hasMore := decide (page.length > boundedLimit limit) }

/-- `recorded_command`. -/
def recordedCommand (stream : StreamId) (key hash : String) :
    Except EventLogError (Option AppendResult) :=
  match l.commands[StreamId.key stream ++ [key]]? with
  | none => .ok none
  | some (stored, first, last) =>
      if stored ≠ hash then .error (.IdempotencyMismatch key)
      else (l.recorded P ⟨stream, first, last⟩).map some

/-- `recorded_claim`, and the first question of an append. -/
def recordedClaim (tenant : TenantId) (claim : Claim) :
    Except EventLogError (Option GroupRange) :=
  match l.claims[[tenant.value, claim.scope, claim.key]]? with
  | none => .ok none
  | some (digest, range) =>
      if digest ≠ claim.digest then .error (.IdempotencyMismatch claim.key)
      else .ok (some range)

/-- The key of a group's receipt. -/
def groupKey (group : AppendGroup) : List String :=
  [group.tenant.value, group.command.idempotencyKey]

/-- `receipt`: the recorded fingerprint and ranges under a group's key. -/
def receipt (group : AppendGroup) : Option (String × List GroupRange) :=
  l.groups[groupKey group]?

/-- The answer for one range of a committed group. -/
def replayRange (group : AppendGroup) (range : GroupRange) :
    Except EventLogError AppendResult := do
  if range.stream.tenant ≠ group.tenant then
    throw (.Invalid "stored group crosses tenants")
  l.recorded P range

/-- `Inner::replay`: the original result of a committed group. -/
def replay (group : AppendGroup) (ranges : List GroupRange) :
    Except EventLogError AppendGroupResult := do
  let appends ← ranges.mapM (l.replayRange P group)
  return ⟨appends, true⟩

/-- `bound_blob`, and `get_blob`.  The integrity columns of a row are what this store wrote
    beside its bytes, so they agree with them. -/
def boundBlob (tenant : TenantId) (digest : String) : Option Bytes :=
  l.blobs[[tenant.value, digest]]?

end Ledger

/-- `load_snapshot`: the text of a snapshot that cannot be read is no snapshot. -/
def Db.loadSnapshot (db : Db) (stream : StreamId) : Option Snapshot := do
  let (generation, cached) ← db.generations[StreamId.key stream]?
  let snapshot ← db.snapshots[StreamId.key stream]?
  let state ← Json.reread P.toFloatText snapshot.state
  if cached = some generation then some { snapshot with state } else none

end Eventlog.Sqlite
