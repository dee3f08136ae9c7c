import Eventlog.Core.Capture
import Eventlog.Sqlite.Appending

/-!
# Eventlog.Sqlite.Store

One SQLite handle: its tables, its registrations, and each call of its port.

A call that writes is one transaction.  It is committed when its work succeeds and rolled
back when it is refused, the restored identities it took included.  A retry that carries a
batch is rolled back in either case: it wrote nothing, whatever its admission staged.

Nothing is assumed to fail but what the calls themselves refuse: the database is in memory
or its file operations succeed.
-/

namespace Eventlog.Sqlite

open Durable
open File (Table StreamId.key StreamSlice FeedPage redactionTombstone)

variable (P : Platform)

/-- `validate_prefix`. -/
def validatePrefix (tablePrefix : String) : Except EventLogError Unit :=
  if tablePrefix.isEmpty || tablePrefix.utf8ByteSize > 32 ||
      !tablePrefix.toList.all fun c => ('a' ≤ c && c ≤ 'z') || c == '_' then
    .error (.Invalid "a table prefix is lowercase ASCII and underscores, up to 32 bytes")
  else .ok ()

/-- `Inner`.  `registration` is set once serving has begun: no inline projector is registered
    after that.  `tablePrefix` begins the name of every table of this owner. -/
structure Engine where
  db : Db
  serving : Serving
  registration : Bool
  restored : List RestoredEvent
  tablePrefix : String

/-- `in_memory`, as the tree makes its engine. -/
def Engine.inMemory : Engine := ⟨Db.empty, ⟨[], [], 0⟩, false, [], "tree"⟩

/-- `from_image`: the tables of an image, and nothing registered. -/
def Engine.fromImage (image : Db) : Engine := ⟨image, ⟨[], [], 0⟩, false, [], "tree"⟩

/-- `in_memory`, for an owner of its own. -/
def Engine.inMemoryOf (tablePrefix : String) : Except EventLogError Engine := do
  validatePrefix tablePrefix
  return { Engine.inMemory with tablePrefix }

/-- What a call leaves: its answer, and the handle. -/
abbrev Answer (α : Type) : Type := Except EventLogError α × Engine

namespace Engine

/-- Commits the work, or rolls it back. -/
def transact (e : Engine) (w : Work α) : Answer α :=
  match w ⟨e.db, e.restored, 0, 0⟩ with
  | (.ok a, tx) => (.ok a, { e with db := tx.db, restored := tx.restored })
  | (.error error, _) => (.error error, e)

/-- Serving has begun. -/
def freeze (e : Engine) : Engine := { e with registration := true }

/-- A statement outside the append paths. -/
def update (e : Engine) (f : Db → Db) : Engine := { e with db := f e.db }

/-! ## Restoring -/

/-- `restore_events`. -/
def restoreEvents (e : Engine) (events : List RestoredEvent) : Answer Unit :=
  if e.restored.isEmpty then (.ok (), { e with restored := events })
  else (.error (.Invalid "restored identities from an earlier replay were never used"), e)

/-- `restore_stream_identity`. -/
def restoreStreamIdentity (e : Engine) (tenant : TenantId) (identity : String) : Answer Unit :=
  match validateField "stream identity" identity with
  | .error error => (.error error, e)
  | .ok () =>
      match e.db.identities[[tenant.value]]? with
      | none => (.ok (), e.update fun db =>
          { db with identities := db.identities.insert [tenant.value] identity })
      | some stored =>
          if stored ≠ identity then
            (.error (.Invalid "tenant already has a different stream identity"), e)
          else (.ok (), e)

/-! ## Appends and groups -/

/-- `append_guarded`. -/
def appendGuarded (e : Engine) (D : Draws) (stream : StreamId) (expected : Expected)
    (events : List NewEvent) (command : CommandMeta) (guard : Callback) : Answer AppendResult :=
  match validateAppend events command with
  | .error error => (.error error, e)
  | .ok () => e.freeze.transact
      (Work.appendInTransaction P e.serving D stream expected events command guard true)

/-- `append_group_guarded`. -/
def appendGroupGuarded (e : Engine) (D : Draws) (group : AppendGroup) (guard : Callback) :
    Answer AppendGroupResult :=
  match group.fingerprint P.toPrimitives with
  | .error error => (.error error, e)
  | .ok fingerprint => e.freeze.transact
      (Work.groupInTransaction P e.serving D group fingerprint [] guard)

/-- `append_group_with_blobs_guarded`. -/
def appendGroupWithBlobsGuarded (e : Engine) (D : Draws) (request : BlobAppendGroup)
    (guard : Callback) : Answer AppendGroupResult :=
  match request.fingerprint P.toPrimitives with
  | .error error => (.error error, e)
  | .ok fingerprint => e.freeze.transact
      (Work.groupInTransaction P e.serving D request.group fingerprint
        (sortByDigest request.blobs) guard)

/-- The loop of `Batch::new`: equal repetitions collapse, a digest repeated with other bytes
    refuses. -/
def uniqueWrites : List BlobWrite → List BlobWrite → Except EventLogError (List BlobWrite)
  | unique, [] => .ok unique
  | unique, b :: rest => do
      validateField "blob digest" b.digest
      match unique.find? fun u => u.digest == b.digest with
      | some earlier =>
          if earlier.bytes ≠ b.bytes then .error File.contradicted else uniqueWrites unique rest
      | none => uniqueWrites (unique ++ [b]) rest

/-- `Batch::new`: the distinct blobs by digest, and the fingerprint the other blob-bearing
    entry point records for the same group and batch. -/
def newBatch (group : AppendGroup) (blobs : List BlobWrite) :
    Except EventLogError (List BlobWrite × String) := do
  let unique ← uniqueWrites [] blobs
  let writes := sortByDigest unique
  return (writes, ← BlobAppendGroup.fingerprint P.toPrimitives ⟨group, writes⟩)

/-- What `append_group_guarded_with_blobs` decides from the request alone. -/
def planBatch (group : AppendGroup) (blobs : List BlobWrite) :
    Except EventLogError (String × List BlobWrite × String) := do
  let fingerprint ← group.fingerprint P.toPrimitives
  return (fingerprint, ← newBatch P group blobs)

/-- `append_group_guarded_with_blobs`. -/
def appendGroupGuardedWithBlobs (e : Engine) (D : Draws) (group : AppendGroup)
    (guard : Callback) (blobs : List BlobWrite) : Answer AppendGroupResult :=
  if blobs.isEmpty then e.appendGroupGuarded P D group guard
  else
    match planBatch P group blobs with
    | .error error => (.error error, e)
    | .ok (fingerprint, writes, blobFingerprint) =>
        let (answer, committed) := e.freeze.transact (Work.guardedBatchInTransaction P e.serving D
          group fingerprint blobFingerprint writes guard)
        match answer with
        -- a deduplicated answer commits nothing its admission may have staged
        | .ok result => (.ok result, if result.deduplicated then e.freeze else committed)
        | .error error => (.error error, committed)

/-! ## Redaction and erasure -/

/-- An event once its body is gone. -/
def redactedAs (reason : String) (now : OffsetDateTime) (event : RecordedEvent) : RecordedEvent :=
  { event with data := redactionTombstone reason, redactedAt := some now }

/-- Whether an event is at a place of a stream. -/
def isAt (stream : StreamId) (version : Nat) (event : RecordedEvent) : Bool :=
  File.RecordedEvent.isOn event stream && event.version == version

/-- The tables once the event at a place is redacted. -/
def redactedDb (stream : StreamId) (version : Nat) (reason generation : String)
    (now : OffsetDateTime) (db : Db) : Db :=
  let cached := (db.generations[StreamId.key stream]?.bind Prod.snd)
  { db with
    events := db.events.map fun event =>
      if isAt stream version event then redactedAs reason now event else event
    generations := db.generations.insert (StreamId.key stream) (generation, cached)
    snapshots := db.snapshots.filter fun key snapshot =>
      key != StreamId.key stream || decide (snapshot.version < version) }

/-- `redact`. -/
def redact (e : Engine) (D : Draws) (stream : StreamId) (version : Nat) (reason : String) :
    Answer RecordedEvent :=
  match (do validateField "redaction reason" reason; checkTime P (D.now 0)
            Ledger.bounded version : Except EventLogError Unit) with
  | .error error => (.error error, e)
  | .ok () =>
      match e.db.events.find? (isAt stream version) with
      | none => (.error .NotFound, e)
      | some event =>
          match readEvent P (redactedAs reason (D.now 0) event) with
          | .error error => (.error error, e)
          | .ok redacted =>
              (.ok redacted, e.update (redactedDb stream version reason (D.id 0) (D.now 0)))

/-- Whether a counter is one of a tenant's. -/
def ownsCounter (tenant : TenantId) (coordinate : String) : Bool :=
  ("t" ++ lengthPrefixed tenant.value).toList.isPrefixOf coordinate.toList

/-- The rows of a table that are not under `tenant`, which is the key's place `at`. -/
def without (tenant : TenantId) (place : Nat) (table : Table V) : Table V :=
  table.filter fun key _ => key[place]? != some tenant.value

/-- The tables once a tenant is erased. -/
def forgottenDb (tenant : TenantId) (db : Db) : Db where
  events := db.events.filter fun event => event.tenant != tenant
  position := db.position
  commands := without tenant 0 db.commands
  claims := without tenant 0 db.claims
  groups := without tenant 0 db.groups
  batches := without tenant 0 db.batches
  identities := without tenant 0 db.identities
  blobs := without tenant 0 db.blobs
  origins := without tenant 0 db.origins
  cursors := without tenant 1 db.cursors
  snapshots := without tenant 0 db.snapshots
  generations := without tenant 0 db.generations
  counters := db.counters.filter fun key _ => !ownsCounter tenant (key.headD "")
  registry := db.registry
  rows := without tenant 1 db.rows

/-- `forget_tenant`. -/
def forgetTenant (e : Engine) (tenant : TenantId) : Answer Unit :=
  (.ok (), e.update (forgottenDb tenant))

/-! ## Identities and blobs -/

/-- `stream_identity`. -/
def streamIdentity (e : Engine) (D : Draws) (tenant : TenantId) : Answer String :=
  match e.db.identities[[tenant.value]]? with
  | some identity => (.ok identity, e)
  | none => (.ok (D.id 0), e.update fun db =>
      { db with identities := db.identities.insert [tenant.value] (D.id 0) })

/-- `put_blob`. -/
def putBlob (e : Engine) (tenant : TenantId) (digest : String) (bytes : Bytes) : Answer Unit :=
  match validateField "digest" digest with
  | .error error => (.error error, e)
  | .ok () =>
      match e.db.boundBlob tenant digest with
      | some bound => if bound ≠ bytes then (.error File.contradicted, e) else (.ok (), e)
      | none => (.ok (), e.update fun db =>
          { db with toLedger := db.toLedger.bind tenant ⟨digest, bytes⟩ })

/-- `delete_blob`. -/
def deleteBlob (e : Engine) (tenant : TenantId) (digest : String) : Answer Unit :=
  (.ok (), e.update fun db => { db with blobs := db.blobs.erase [tenant.value, digest] })

end Engine

end Eventlog.Sqlite
