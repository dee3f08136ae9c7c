import Eventlog.Tree.Commit

/-!
# Eventlog.Tree.Store

The other calls of a tree store, opening one, and a call as a value (`Request`).

Reads are the engine's, with each event's digest and parents filled in from the files.  A call
that writes files outside a commit goes to the engine first, and poisons the handle if the
files do not follow.
-/

namespace Eventlog.Tree

open Durable
open File (Table StreamId.key StreamSlice FeedPage redactionTombstone)
open Sqlite (Engine Answer ProjectionPage)

variable (P : Platform)

/-- The record of an event whose body is erased. -/
def EventRecord.redactedFor (r : EventRecord) (reason : String) : EventRecord :=
  { r with data := redactionTombstone reason, redacted := some reason }

/-- The rewriting of an event's file. -/
def EventRecord.rewrite (r : EventRecord) : Io Unit := do
  let digest ← Program.ask fun _ => r.digest P
  let format ← Program.ask fun d => storeFormat P d.files
  let value ← Program.ask fun _ => r.toValue P
  writeAtomic (eventPath P format r.tenant r.streamType r.streamId digest) (canonical P value)

/-- Every file of a tenant, and what is staged beside them. -/
def removeTenant (tenant : String) : Io Unit := do
  let paths ← Program.ask fun d => .ok (d.files.keys.filter fun path => pathTenant path == some tenant)
  paths.forM fun path => Program.perform (Disk.remove path)
  Program.perform fun d =>
    .ok { d with staged := d.staged.filter fun path _ => pathTenant path != some tenant }

/-- The state once a tenant is erased; `names` are the group files that are left. -/
def State.without (s : State) (tenant : TenantId) (names : Finset Path) :
    State :=
  let records := s.records.filter fun _ record => record.tenant != tenant.value
  { s with
    heads := s.heads.filter fun key _ => key.head? != some tenant.value
    records
    digests := s.digests.filter fun id _ => records.contains id
    identities := s.identities.erase tenant.value
    groupFiles := names }

namespace Store

/-- The handle once its engine has moved on. -/
def withEngine (s : Store) (engine : Engine) : Store :=
  { s with state := { s.state with engine } }

/-- The handle once its engine holds what the directory does not. -/
def poison (s : Store) : Store :=
  { s with state := { s.state with poisoned := true } }

/-- Runs file operations for a handle whose engine has already followed; a failure poisons it. -/
def persist (s : Store) (io : Io α) : Reply α :=
  let after := { s with root := { s.root with disk := io.last s.root.disk } }
  match (io s.root.disk).result with
  | .ok a => (.ok a, after)
  | .error error => (.error error, after.poison)

/-- A call of the engine on a handle that is not poisoned. -/
def onEngine (s : Store) (call : Engine → Answer α) : Reply α :=
  if s.state.poisoned then (.error .Closed, s)
  else
    let (answer, engine) := call s.state.engine
    (answer, s.withEngine engine)

/-- A read of the engine on a handle that is not poisoned. -/
def ofEngine (s : Store) (read : Engine → Except EventLogError α) : Except EventLogError α :=
  if s.state.poisoned then .error .Closed else read s.state.engine

/-! ## Reading -/

/-- `read_stream`. -/
def readStream (s : Store) (stream : StreamId) (after limit : Nat) :
    Except EventLogError StreamSlice := do
  let slice ← s.ofEngine fun e => e.db.readStream P stream after limit
  return { slice with events := slice.events.map s.state.decorate }

/-- `read_feed`. -/
def readFeed (s : Store) (tenant : TenantId) (after limit : Nat) :
    Except EventLogError FeedPage := do
  let page ← s.ofEngine fun e => e.db.readFeed P tenant after limit
  return { page with events := page.events.map s.state.decorate }

/-- `recorded_command`. -/
def recordedCommand (s : Store) (stream : StreamId) (key hash : String) :
    Except EventLogError (Option AppendResult) := do
  let found ← s.ofEngine fun e => e.db.recordedCommand P stream key hash
  return found.map s.state.decorated

/-- `heads`. -/
def heads (s : Store) (stream : StreamId) : Except EventLogError (List String) :=
  if s.state.poisoned then .error .Closed else .ok (s.state.headsOf stream)

/-- `capture_tenant`. -/
def captureTenant (s : Store) (tenant : TenantId) (specs : List ProjectionSpec)
    (limits : CaptureLimits) : Except CaptureError TenantCapture :=
  if s.state.poisoned then .error (.Store .Closed)
  else do
    let capture ← s.state.engine.captureTenant P tenant specs limits
    return { capture with events := capture.events.map s.state.decorate }

/-! ## Redaction and erasure -/

/-- The end of `redact`: the event's file follows. -/
def redactFile (s : Store) (redacted : RecordedEvent) (reason : String) : Reply RecordedEvent :=
  match s.state.records[redacted.eventId]? with
  | none => (.error (corrupt "a redacted event with no file"), s.poison)
  | some held =>
      let record := held.redactedFor reason
      let s := { s with state :=
        { s.state with records := s.state.records.insert redacted.eventId record } }
      match s.persist (record.rewrite P) with
      | (.error error, s) => (.error error, s)
      | (.ok (), s) =>
          (.ok { redacted with digest := (record.digest P).toOption, parents := record.parents }, s)

/-- `redact` on a refreshed handle. -/
def redactEngine (E : Env) (s : Store) (stream : StreamId) (version : Nat) (reason : String) :
    Reply RecordedEvent :=
  let (answer, engine) := s.state.engine.redact P E.draws stream version reason
  match answer with
  | .error error => (.error error, s.withEngine engine)
  | .ok redacted => (s.withEngine engine).redactFile P redacted reason

/-- `redact`. -/
def redact (E : Env) (s : Store) (stream : StreamId) (version : Nat) (reason : String) :
    Reply RecordedEvent :=
  if s.state.poisoned then (.error .Closed, s)
  else
    match s.refresh P E with
    | (.error error, s) => (.error error, s)
    | (.ok (), s) => s.redactEngine P E stream version reason

/-- `forget_tenant`: it does not refresh. -/
def forgetTenant (s : Store) (tenant : TenantId) : Reply Unit :=
  if s.state.poisoned then (.error .Closed, s)
  else
    let (_, engine) := s.state.engine.forgetTenant tenant
    match (s.withEngine engine).persist (removeTenant tenant.value) with
    | (.error error, s) => (.error error, s)
    | (.ok (), s) =>
        (.ok (), { s with state := s.state.without tenant (groupFiles s.root.disk.files) })

/-! ## Identities and blobs -/

/-- The file of a tenant's identity: the first one on disk wins. -/
def identityFile (s : Store) (tenant : TenantId) (identity : String) : Reply String :=
  let named := { s with state :=
    { s.state with identities := insert tenant.value s.state.identities } }
  match s.root.disk.files[identityPath tenant.value]? with
  | some bytes =>
      match (do
        let value ← readJson P bytes "tenant identity"
        match getText value "stream_identity" with
        | some stored => .ok stored
        | none => .error (corrupt "tenant identity") : Except EventLogError String) with
      | .error error => (.error error, s)
      | .ok stored =>
          if stored ≠ identity then
            (.error (corrupt "another writer named this tenant's identity"), s.poison)
          else (.ok identity, named)
  | none =>
      let io := writeOnce (identityPath tenant.value)
        (canonical P (.obj [("stream_identity", .str identity)]))
      let root := { s.root with disk := io.last s.root.disk }
      match (io s.root.disk).result with
      | .error error => (.error error, { s with root })
      | .ok () => (.ok identity, { named with root })

/-- `stream_identity`. -/
def streamIdentity (E : Env) (s : Store) (tenant : TenantId) : Reply String :=
  if s.state.poisoned then (.error .Closed, s)
  else
    let (answer, engine) := s.state.engine.streamIdentity E.draws tenant
    let s := s.withEngine engine
    match answer with
    | .error error => (.error error, s)
    | .ok identity =>
        if tenant.value ∈ s.state.identities then (.ok identity, s)
        else s.identityFile P tenant identity

/-- `put_blob`: it does not refresh. -/
def putBlob (s : Store) (tenant : TenantId) (digest : String) (bytes : Bytes) : Reply Unit :=
  if s.state.poisoned then (.error .Closed, s)
  else
    match s.state.engine.putBlob tenant digest bytes with
    | (.error error, engine) => (.error error, s.withEngine engine)
    | (.ok (), engine) => (s.withEngine engine).persist (do
        let format ← Program.ask fun d => storeFormat P d.files
        writeBlob P tenant.value digest bytes format.splits)

/-- `delete_blob`: it does not refresh. -/
def deleteBlob (s : Store) (tenant : TenantId) (digest : String) : Reply Unit :=
  if s.state.poisoned then (.error .Closed, s)
  else
    let (_, engine) := s.state.engine.deleteBlob tenant digest
    (s.withEngine engine).persist (Tree.deleteBlob P tenant.value digest)

/-! ## Projectors -/

/-- `create_projections`. -/
def createProjections (s : Store) (projector : Projector) : Reply Unit :=
  match s.state.engine.createProjections projector with
  | (.error error, engine) => (.error error, s.withEngine engine)
  | (.ok (), engine) =>
      (.ok (), { s with state := { s.state with engine, catchUp := s.state.catchUp ++ [projector] } })

/-- The state built anew with one projector more. -/
def rebuildWith (E : Env) (s : Store) (projector : Projector) : Reply Unit :=
  match build P E.rebuilding E.settled (s.state.inline ++ [projector]) s.state.catchUp s.root with
  | (.ok state, root) => (.ok (), ⟨state, root⟩)
  | (.error error, root) => (.error error, { s with root })

/-- `register_inline`: rebuilt where the engine has served and there is history to project. -/
def registerInline (E : Env) (s : Store) (projector : Projector) : Reply Unit :=
  if s.state.poisoned then (.error .Closed, s)
  else
    match s.state.engine.registerInline projector with
    | (.ok (), engine) =>
        (.ok (), { s with state := { s.state with engine, inline := s.state.inline ++ [projector] } })
    | (.error (.Invalid message), engine) =>
        if s.state.records.isEmpty then (.error (.Invalid message), s.withEngine engine)
        else (s.withEngine engine).rebuildWith P E projector
    | (.error error, engine) => (.error error, s.withEngine engine)

/-- `attach_inline_existing`. -/
def attachInlineExisting (E : Env) (s : Store) (projector : Projector) : Reply Unit :=
  if s.state.poisoned then (.error .Closed, s) else s.rebuildWith P E projector

end Store

end Eventlog.Tree
