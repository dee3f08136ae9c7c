import Eventlog.File.Transaction

/-!
# Eventlog.File.Requests

What a File store does for each call of its port, inside one transaction.

Reads decide from the transaction and leave it alone.  Writes record operations.  Redaction
and erasure are apart: they rewrite the transactions the journal was read from and replay
them.
-/

namespace Eventlog.File

open Durable

variable (P : Primitives)

/-! ## Answers -/

/-- A window on one stream. -/
structure StreamSlice where
  events : List RecordedEvent
  nextVersion : Nat
  endOfStream : Bool
  deriving DecidableEq

/-- A window on one tenant's feed. -/
structure FeedPage where
  events : List RecordedEvent
  nextPosition : Nat
  hasMore : Bool
  deriving DecidableEq

/-- One read of a batch. -/
inductive Read where
  | Stream (stream : StreamId) (afterVersion limit : Nat)
  | Blob (tenant : TenantId) (digest : String)
  deriving DecidableEq

/-- What one `Read` returned. -/
inductive ReadResult where
  | Stream (slice : StreamSlice)
  | Blob (bytes : Option Bytes)
  deriving DecidableEq

/-- The answers of the port, by the type the call returns. -/
inductive Response where
  | unit
  | appended (result : AppendResult)
  | grouped (result : AppendGroupResult)
  | command (result : Option AppendResult)
  | claim (range : Option GroupRange)
  | slice (slice : StreamSlice)
  | reads (results : List ReadResult)
  | version (head : Option Nat)
  | feed (page : FeedPage)
  | text (value : String)
  | saved (kept : Bool)
  | snapshot (snapshot : Option Snapshot)
  | blob (bytes : Option Bytes)
  | event (event : RecordedEvent)
  | progress (progress : CatchUpProgress)
  | applied (count : Nat)
  | row (body : Option Json)
  | rows (bodies : List Json)
  | page (rows : List (String × Json))
  deriving DecidableEq

/-! ## Reads -/

/-- `slice`. -/
def State.slice (s : State) (stream : StreamId) (after limit : Nat) : StreamSlice :=
  let waiting := (s.ofStream stream).filter fun e => decide (e.version > after)
  let events := waiting.take (boundedLimit limit)
  { events
    nextVersion := (events.getLast?.map RecordedEvent.version).getD after
    endOfStream := decide (waiting.length ≤ boundedLimit limit) }

/-- `read_feed`. -/
def State.feed (s : State) (tenant : TenantId) (after limit : Nat) : FeedPage :=
  let waiting := s.events.filter fun e => e.tenant == tenant && decide (e.globalSeq > after)
  let events := waiting.take (boundedLimit limit)
  { events
    nextPosition := (events.getLast?.map RecordedEvent.globalSeq).getD after
    hasMore := decide (waiting.length > boundedLimit limit) }

/-- One read of `read_many`. -/
def Tx.readOne (tx : Tx) : Read → Except EventLogError ReadResult
  | .Stream stream after limit => .ok (.Stream (tx.state.slice stream after limit))
  | .Blob tenant digest => (tx.blob P tenant digest).map .Blob

/-- `projection_list`. -/
def State.list (s : State) (spec : ProjectionSpec) (tenant : TenantId) (after : Option String)
    (limit : Nat) : Except EventLogError (List (String × Json)) := do
  (projectorView tenant).validate s spec tenant
  let rows := s.rows.toList.filter fun row =>
    row.1.take 2 == [tenant.value, spec.name] &&
      after.all fun a => decide (a < (row.1.drop 2).headD "")
  return (rows.take (boundedLimit limit)).map fun row => ((row.1.drop 2).headD "", row.2)

/-! ## Snapshots -/

/-- `snapshot_path`: the name of a stream's snapshot is the hash of its key. -/
def snapshotName (stream : StreamId) : String :=
  P.sha256 (Json.toVec P.toFloatText (toValue (StreamId.key stream)))

/-- What a snapshot file holds: the generation it was proven under, and the snapshot. -/
def keptBytes (generation : String) (snapshot : Snapshot) : Bytes :=
  Json.toVec P.toFloatText (.arr [toValue generation, toValue snapshot])

/-- What is kept in a snapshot file, if it can be read. -/
def readKept (bytes : Bytes) : Option (String × Snapshot) :=
  match Json.fromSlice P.toFloatText bytes with
  | some (.arr [generation, snapshot]) => do
      return (← fromValue generation, ← fromValue snapshot)
  | _ => none

/-- `fs::write`: the file holds exactly these bytes, whether or not it existed. -/
def Disk.overwrite (p : Path) (bytes : Bytes) (d : Disk) : Except EventLogError Disk :=
  match d.files.lookup p with
  | some f => .ok (d.set p (d.rewritten f bytes))
  | none => .ok { d.set p (d.rewritten d.emptyFile bytes) with inodes := d.inodes + 1 }

/-- `load_snapshot`. -/
def Tx.loadSnapshot (tx : Tx) (stream : StreamId) : Option Snapshot := do
  let bytes ← tx.disk.read (.snapshot (snapshotName P stream))
  let (generation, snapshot) ← readKept P bytes
  if tx.state.generations[StreamId.key stream]? = some generation then some snapshot else none

/-! ## Rewriting history -/

/-- `redaction_tombstone`. -/
def redactionTombstone (reason : String) : Json :=
  .obj [("reason", .str reason), ("redacted", .bool true)]

/-- The event a redaction is about is replaced. -/
def redactOp (event : RecordedEvent) : Op → Op
  | .Event old => if old.eventId = event.eventId then .Event event else .Event old
  | op => op

/-- A derived row of a tenant, which can carry an old body, or how far it was derived. -/
def Op.derivedFor (tenant : TenantId) : Op → Bool
  | .Row owner _ _ _ | .Cursor owner _ _ => owner == tenant
  | _ => false

/-- What redaction makes of the operations of one transaction: the event is replaced, and
    the tenant's derived rows are dropped. -/
def redactOps (tenant : TenantId) (event : RecordedEvent) (ops : List Op) : List Op :=
  (ops.map (redactOp event)).filter fun op => !op.derivedFor tenant

/-- What erasure leaves of the operations of one transaction. -/
def forgetOps (tenant : TenantId) (ops : List Op) : List Op :=
  ops.filter fun op => op.tenant? ≠ some tenant

/-- The receipt of a group, if its key is committed. -/
def State.receipt (s : State) (group : AppendGroup) :
    Option (String × List GroupRange × List String) :=
  s.groups[[group.tenant.value, group.command.idempotencyKey]]?

namespace Work

/-- The loop of `redact` and `forget_tenant` over the journal's transactions, in place. -/
def rewrite (f : List Op → List Op) : List Json → List Json → Work Unit
  | done, [] => Session.change fun tx => { tx with journal := { tx.journal with transactions := done } }
  | done, t :: rest =>
      match (fromValue t : Option (List Op)) with
      | some ops => rewrite f (done ++ [toValue (f ops)]) rest
      | none => do
          Session.change fun tx =>
            { tx with journal := { tx.journal with transactions := done ++ t :: rest } }
          Session.refuse State.unreadable

/-- Rewrites the journal's transactions and replays them. -/
def replayRewritten (f : List Op → List Op) : Work Unit := do
  let transactions ← Session.ask fun tx => .ok tx.journal.transactions
  rewrite f [] transactions
  let state ← Session.ask fun tx => State.replay tx.journal.transactions
  Session.change fun tx => { tx with state }

/-- `redact`. -/
def redact (stream : StreamId) (version : Nat) (reason : String) : Work RecordedEvent := do
  check (validateField "redaction reason" reason)
  let old ← Session.ask fun tx =>
    match (tx.state.ofStream stream).find? fun e => e.version == version with
    | some event => .ok event
    | none => .error .NotFound
  let now ← Session.ask fun tx => .ok (P.utc tx.disk.clock)
  let event := { old with data := redactionTombstone reason, redactedAt := some now }
  replayRewritten (redactOps stream.tenant event)
  let names ← Session.ask fun tx => .ok tx.state.projections.keys.flatten
  names.forM fun name => record (.DirtyView stream.tenant name true)
  let id ← newEventId P
  record (.Generation stream id)
  Session.change fun tx => { tx with privacy := true }
  return event

/-- `forget_tenant`. -/
def forgetTenant (tenant : TenantId) : Work Unit := do
  replayRewritten (forgetOps tenant)
  Session.change fun tx => { tx with privacy := true }

/-! ## Appends and groups -/

/-- The part of `append_guarded` after its key is found to be new. -/
def appendNew (stream : StreamId) (expected : Expected) (events : List NewEvent)
    (command : CommandMeta) (guard : Callback) : Work AppendResult := do
  Session.ask fun tx => tx.state.expect stream expected
  (guardView stream.tenant).call P guard
  let result ← append P stream expected events command
  record (.Command stream command.idempotencyKey command.requestHash result.firstVersion
    result.lastVersion)
  match command.claim with
  | none => pure result
  | some claim => do
      record (.Claim stream.tenant claim.scope claim.key claim.digest
        ⟨stream, result.firstVersion, result.lastVersion⟩)
      return result

/-- What `append_guarded` finds recorded for a command: its claim first, then its key. -/
def recordedAppend (s : State) (stream : StreamId) (command : CommandMeta) :
    Except EventLogError (Option AppendResult) := do
  let claimed ← match command.claim with
    | some claim => s.claim stream.tenant claim
    | none => .ok none
  match claimed with
  | some range => .ok (some (s.result range true))
  | none => s.command stream command.idempotencyKey command.requestHash

/-- `append_guarded`, in its transaction. -/
def appendGuarded (stream : StreamId) (expected : Expected) (events : List NewEvent)
    (command : CommandMeta) (guard : Callback) : Work AppendResult := do
  let found ← Session.ask fun tx => recordedAppend tx.state stream command
  match found with
  | some result => pure result
  | none => appendNew P stream expected events command guard

/-- The loop of a group over its entries. -/
def appendEntries (command : CommandMeta) : List StreamAppend →
    Work (List (GroupRange × AppendResult))
  | [] => pure []
  | entry :: rest => do
      let result ← append P entry.stream entry.expected entry.events command
      let others ← appendEntries command rest
      return (⟨entry.stream, result.firstVersion, result.lastVersion⟩, result) :: others

/-- The part of a group commit that both forms share: entries, then the receipt. -/
def commitEntries (group : AppendGroup) (digest : String) (blobs : List String) :
    Work AppendGroupResult := do
  let entries ← appendEntries P group.command group.appends
  record (.Group group.tenant group.command.idempotencyKey digest (entries.map Prod.fst) blobs)
  return ⟨entries.map Prod.snd, false⟩

/-- The answer to a retry of a committed group. -/
def deduplicated (ranges : List GroupRange) : Work AppendGroupResult :=
  Session.ask fun tx => .ok ⟨ranges.map fun r => tx.state.result r true, true⟩

/-- A retry that carries a batch is admitted before anything is said about the batch. -/
def admitRetry (group : AppendGroup) (guard : Callback) (blobs : List BlobWrite) : Work Unit :=
  if blobs.isEmpty then pure () else (guardView group.tenant).call P guard

/-- The part of `group` for a key that is committed, with the fingerprint, the ranges and
    the digests its receipt holds. -/
def groupCommitted (group : AppendGroup) (guard : Callback) (blobs : List BlobWrite)
    (digest old : String) (ranges : List GroupRange) (bound : List String) :
    Work AppendGroupResult := do
  admitRetry P group guard blobs
  if old ≠ digest ∧ blobFingerprint P group blobs = some old then
    deduplicated ranges
  else if old ≠ digest then
    Session.refuse (.IdempotencyMismatch group.command.idempotencyKey)
  else do
    Session.ask fun tx =>
      tx.verifyBatch P group.tenant blobs bound group.command.idempotencyKey
    deduplicated ranges

/-- The part of `group` for a key that is new. -/
def groupNew (group : AppendGroup) (guard : Callback) (blobs : List BlobWrite)
    (digest : String) : Work AppendGroupResult := do
  (guardView group.tenant).call P guard
  bindBlobs P group.tenant blobs
  commitEntries P group digest (batch blobs)

/-- `FileEventStore::group`, in its transaction. -/
def group (group : AppendGroup) (guard : Callback) (blobs : List BlobWrite) (digest : String) :
    Work AppendGroupResult := do
  let committed ← Session.ask fun tx => .ok (tx.state.receipt group)
  match committed with
  | some (old, ranges, bound) => groupCommitted P group guard blobs digest old ranges bound
  | none => groupNew P group guard blobs digest

/-- The part of `append_atomic_group` for a key that is new. -/
def atomicNew (group : AppendGroup) (guard : Callback) (blobs : List BlobWrite)
    (digest : String) : Work AppendGroupResult := do
  blobs.forM (bindBlob P group.tenant)
  Session.change fun tx => { tx with atomicContent := !blobs.isEmpty }
  (guardView group.tenant).call P guard
  commitEntries P group digest (batch blobs)

/-- `append_atomic_group`, in its transaction. -/
def atomicGroup (group : AppendGroup) (guard : Callback) (blobs : List BlobWrite)
    (digest : String) : Work AppendGroupResult := do
  let committed ← Session.ask fun tx => .ok (tx.state.receipt group)
  match committed with
  | some (old, ranges, _) =>
      if old ≠ digest then
        Session.refuse (.IdempotencyMismatch group.command.idempotencyKey)
      else deduplicated ranges
  | none => atomicNew P group guard blobs digest

/-! ## Identities, generations and rebuilds -/

/-- `stream_identity`. -/
def streamIdentity (tenant : TenantId) : Work String := do
  let known ← Session.ask fun tx => .ok tx.state.identities[[tenant.value]]?
  match known with
  | some id => pure id
  | none => do
      let id ← newEventId P
      record (.Identity tenant id)
      return id

/-- `snapshot_generation`. -/
def snapshotGeneration (stream : StreamId) : Work String := do
  let id ← generation P stream
  if P.isEventId id then pure id
  else Session.refuse (.Invalid "invalid snapshot generation")

/-- `save_snapshot_checked`. -/
def saveSnapshotChecked (stream : StreamId) (snapshot : Snapshot) (generation : String) :
    Work Bool := do
  let current ← Session.ask fun tx => .ok tx.state.generations[StreamId.key stream]?
  if current ≠ some generation then pure false
  else do
    run (Program.perform (Disk.overwrite (.snapshot (snapshotName P stream))
      (keptBytes P generation snapshot)))
    return true

/-- `rebuild_projection`. -/
def rebuildProjection (projector : Projector) (tenant : TenantId) : Work Nat := do
  register projector
  projector.projections.forM fun spec => do
    record (.DirtyView tenant spec.name false)
    record (.ClearRows tenant spec.name)
  let events ← Session.ask fun tx => .ok (tx.state.events.filter fun e => e.tenant == tenant)
  events.forM fun event => (projectorView tenant).call P (projector.apply event)
  record (.Cursor tenant projector.name ((events.getLast?.map RecordedEvent.globalSeq).getD 0))
  return events.length

end Work

/-! ## The port -/

/-- The calls a File store answers in one ordinary transaction. -/
inductive Request where
  | append (stream : StreamId) (expected : Expected) (events : List NewEvent)
      (command : CommandMeta) (guard : Callback)
  | group (group : AppendGroup) (guard : Callback) (blobs : List BlobWrite)
  | atomicGroup (group : BlobAppendGroup) (guard : Callback)
  | recordedCommand (stream : StreamId) (id digest : String)
  | recordedClaim (tenant : TenantId) (claim : Claim)
  | readStream (stream : StreamId) (after limit : Nat)
  | readMany (reads : List Read)
  | streamVersion (stream : StreamId)
  | readFeed (tenant : TenantId) (after limit : Nat)
  | streamIdentity (tenant : TenantId)
  | snapshotGeneration (stream : StreamId)
  | saveSnapshotChecked (stream : StreamId) (snapshot : Snapshot) (generation : String)
  | loadSnapshot (stream : StreamId)
  | putBlob (tenant : TenantId) (digest : String) (bytes : Bytes)
  | getBlob (tenant : TenantId) (digest : String)
  | deleteBlob (tenant : TenantId) (digest : String)
  | redact (stream : StreamId) (version : Nat) (reason : String)
  | forgetTenant (tenant : TenantId)
  | createProjections (projector : Projector)
  | runCatchUp (projector : Projector) (tenant : TenantId) (batch : Nat)
  | rebuildProjection (projector : Projector) (tenant : TenantId)
  | projectionGet (spec : ProjectionSpec) (tenant : TenantId) (key : String)
  | projectionFind (spec : ProjectionSpec) (tenant : TenantId) (field value : String)
      (limit : Nat)
  | projectionList (spec : ProjectionSpec) (tenant : TenantId) (after : Option String)
      (limit : Nat)

namespace Request

/-- What a call checks before it enters a transaction. -/
def precheck : Request → Except EventLogError Unit
  | .append _ _ events command _ => validateAppend events command
  | .group g _ _ => (g.fingerprint P).map fun _ => ()
  | .atomicGroup g _ => (g.fingerprint P).map fun _ => ()
  | _ => .ok ()

/-- Whether a call freezes the handle's inline projectors. -/
def freezes : Request → Bool
  | .append .. | .group .. | .atomicGroup .. => true
  | _ => false

/-- What a call does in its transaction. -/
def work : Request → Work Response
  | .append stream expected events command guard =>
      .appended <$> Work.appendGuarded P stream expected events command guard
  | .group g guard blobs => do
      let digest ← Work.check (g.fingerprint P)
      .grouped <$> Work.group P g guard blobs digest
  | .atomicGroup g guard => do
      let digest ← Work.check (g.fingerprint P)
      .grouped <$> Work.atomicGroup P g.group guard (sortByDigest g.blobs) digest
  | .recordedCommand stream id digest =>
      Session.ask fun tx => (tx.state.command stream id digest).map .command
  | .recordedClaim tenant claim => Session.ask fun tx => (tx.state.claim tenant claim).map .claim
  | .readStream stream after limit =>
      Session.ask fun tx => .ok (.slice (tx.state.slice stream after limit))
  | .readMany reads => Session.ask fun tx => (reads.mapM (tx.readOne P)).map .reads
  | .streamVersion stream => Session.ask fun tx =>
      .ok (.version (if tx.state.head stream > 0 then some (tx.state.head stream) else none))
  | .readFeed tenant after limit =>
      Session.ask fun tx => .ok (.feed (tx.state.feed tenant after limit))
  | .streamIdentity tenant => .text <$> Work.streamIdentity P tenant
  | .snapshotGeneration stream => .text <$> Work.snapshotGeneration P stream
  | .saveSnapshotChecked stream snapshot generation =>
      .saved <$> Work.saveSnapshotChecked P stream snapshot generation
  | .loadSnapshot stream => Session.ask fun tx => .ok (.snapshot (tx.loadSnapshot P stream))
  | .putBlob tenant digest bytes => do
      Work.bindBlobs P tenant [⟨digest, bytes⟩]
      return .unit
  | .getBlob tenant digest => Session.ask fun tx => (tx.blob P tenant digest).map .blob
  | .deleteBlob tenant digest => do
      Work.record (.Blob tenant digest none)
      return .unit
  | .redact stream version reason => .event <$> Work.redact P stream version reason
  | .forgetTenant tenant => do
      Work.forgetTenant tenant
      return .unit
  | .createProjections projector => do
      Work.register projector
      return .unit
  | .runCatchUp projector tenant batch => .progress <$> Work.catchUp P projector tenant batch
  | .rebuildProjection projector tenant =>
      .applied <$> Work.rebuildProjection P projector tenant
  | .projectionGet spec tenant key => Session.ask fun tx =>
      ((projectorView tenant).get tx.state spec tenant key).map .row
  | .projectionFind spec tenant field value limit => Session.ask fun tx =>
      ((projectorView tenant).find P tx.state spec tenant field value limit).map .rows
  | .projectionList spec tenant after limit =>
      Session.ask fun tx => (tx.state.list spec tenant after limit).map .page

/-- Redaction and erasure, which replace history. -/
def rewrites : Request → Bool
  | .redact .. | .forgetTenant .. => true
  | _ => false

end Request

end Eventlog.File
