import Eventlog.Core.Usage
import Eventlog.File.InlineAdmin
import Eventlog.Sqlite.Store

/-!
# Eventlog.Sqlite.Projections

Read models, captures and snapshots of one SQLite handle: registration, catching up,
rebuilding, and what is read of them.

A rebuild runs its projector over temporary tables, made for its specifications only, and
replaces the tenant's rows by theirs when all events are through (`exchange`).
-/

namespace Eventlog.Sqlite

open Durable
open File (Table StreamId.key)

variable (P : Platform)

/-- A page of a read model. -/
structure ProjectionPage where
  rows : List (String × Json)
  nextCursor : Option String
  deriving DecidableEq

/-- What serves once a projector is driven inline. -/
def Serving.driving (S : Serving) (projector : Projector) : Serving where
  inline := S.inline ++ [projector]
  inlineNames := S.inlineNames ++ projector.projections.map ProjectionSpec.name
  permit := S.permit

/-- A projector over events, one after another. -/
def View.applyAll (v : View) (projector : Projector)
    (events : List RecordedEvent) : Session Db EventLogError Unit :=
  events.forM fun event => v.call P (projector.apply event)

namespace Engine

/-! ## Registration -/

/-- The loop of `create_projections` over the registry. -/
def createTables : List ProjectionSpec → Db → Except EventLogError Db
  | [], db => .ok db
  | spec :: rest, db =>
      match db.registry[[spec.name]]? with
      | none => createTables rest { db with registry := db.registry.insert [spec.name] spec.indexed }
      | some recorded =>
          if recorded ≠ spec.indexed then
            .error (.Invalid "projection registration shape changed")
          else createTables rest db

/-- What `create_projections` makes of the tables. -/
def planTables (projector : Projector) (db : Db) : Except EventLogError Db := do
  projector.projections.forM ProjectionSpec.validate
  createTables projector.projections db

theorem createTables_ledger {specs : List ProjectionSpec} {db db' : Db}
    (h : createTables specs db = .ok db') : db'.toLedger = db.toLedger := by
  induction specs generalizing db with
  | nil => rw [Except.ok.inj h]
  | cons spec rest ih =>
      unfold createTables at h
      split at h
      · rw [ih h]
      · split_ifs at h
        exact ih h

theorem planTables_ledger {projector : Projector} {db db' : Db}
    (h : planTables projector db = .ok db') : db'.toLedger = db.toLedger := by
  obtain ⟨_, -, hcreate⟩ := Checks.bind_eq_ok_iff.mp h
  exact createTables_ledger hcreate

/-- `create_projections`. -/
def createProjections (e : Engine) (projector : Projector) : Answer Unit :=
  match planTables projector e.db with
  | .ok db => (.ok (), { e with db })
  | .error error => (.error error, e)

/-- The loop of `register_inline` over the specifications, with the names already declared. -/
def checkDeclared : List String → List ProjectionSpec → Except EventLogError Unit
  | _, [] => .ok ()
  | declared, spec :: rest => do
      spec.validate
      if spec.name ∈ declared then
        throw (.Invalid "duplicate projection in one registration")
      checkDeclared (spec.name :: declared) rest

/-- The checks of `register_inline`. -/
def checkInline (e : Engine) (projector : Projector) : Except EventLogError Unit := do
  if e.registration then
    throw (.Invalid "inline registration is frozen after serving begins")
  if e.serving.inline.any fun existing => existing.name == projector.name then
    throw (.Invalid "duplicate inline projector")
  if projector.projections.any fun spec => e.serving.inlineNames.contains spec.name then
    throw (.Invalid "duplicate inline projection")
  checkDeclared [] projector.projections

/-- `register_inline`. -/
def registerInline (e : Engine) (projector : Projector) : Answer Unit :=
  match (do e.checkInline projector; planTables projector e.db : Except EventLogError Db) with
  | .error error => (.error error, e)
  | .ok db => (.ok (), { e with db, serving := e.serving.driving projector })

/-- `is_inline`. -/
def isInline (e : Engine) (name : String) : Bool :=
  e.serving.inline.any fun projector => projector.name == name

/-! ## Catching up and rebuilding -/

/-- The view a projector gets outside appends. -/
def replayView (e : Engine) (tenant : TenantId) (selected : Option (List ProjectionSpec)) : View :=
  ⟨tenant, none, e.serving.inlineNames, selected, false⟩

/-- `run_catch_up`. -/
def runCatchUp (e : Engine) (D : Draws) (projector : Projector) (tenant : TenantId)
    (batch : Nat) : Answer CatchUpProgress :=
  let position := e.db.cursors[[projector.name, tenant.value]]?.getD 0
  match e.db.readFeed P tenant position batch with
  | .error error => (.error error, e)
  | .ok page =>
      match (e.replayView tenant none).applyAll P projector page.events e.db with
      | (.error error, _) => (.error error, e)
      | (.ok (), db) =>
          match checkTime P (D.now 0) with
          | .error error => (.error error, e)
          | .ok () =>
              let cursors := db.cursors.insert [projector.name, tenant.value] page.nextPosition
              (.ok ⟨page.events.length, page.nextPosition, page.hasMore⟩,
                { e with db := { db with cursors } })

/-! A rebuild fills temporary tables and exchanges their rows for those of the active ones.
    Both kinds are named by a prefix and the projection, and a name is looked up among the
    temporary tables before the others: a table of the database that is named as a temporary
    one is out of reach while that one exists. -/

/-- `projection_table`. -/
def projectionTable (tablePrefix name : String) : String := tablePrefix ++ "_p_" ++ name

/-- The temporary table a rebuild fills for a projection. -/
def shadowTable (spec : ProjectionSpec) : String := projectionTable "eventlog_rebuild" spec.name

/-- The temporary table a name is found to be. -/
def hiddenBy (temporary : List ProjectionSpec) (table : String) : Option ProjectionSpec :=
  temporary.find? fun spec => shadowTable spec == table

/-- The temporary tables of a rebuild, with nothing in them, in place of the active ones. -/
def shadow (projector : Projector) (db : Db) : Except EventLogError Db :=
  if (projector.projections.map ProjectionSpec.name).Nodup then
    .ok { db with
      rows := ∅
      registry := projector.projections.foldl (fun t s => t.insert [s.name] s.indexed) ∅ }
  else .error missing

/-- The view a projector gets in a rebuild. -/
def rebuildView (e : Engine) (projector : Projector) (tenant : TenantId)
    (selected : Option (List ProjectionSpec)) : View :=
  { e.replayView tenant selected with
    hidden := (hiddenBy projector.projections (e.tablePrefix ++ "_blobs")).isSome }

/-- The loop of `rebuild_projection` over the pages of a tenant's events, for at most `fuel`
    pages: how many events were applied, and the position of the last. -/
def replayPages (v : View) (projector : Projector) :
    (fuel applied position : Nat) → Session Db EventLogError (Nat × Nat)
  | 0, applied, position => pure (applied, position)
  | fuel + 1, applied, position => do
      let events ← Session.ask fun db =>
        ((db.feedAfter v.tenant position).take MAX_READ_LIMIT).mapM (readEvent P)
      if events.isEmpty then
        return (applied, position)
      v.applyAll P projector events
      replayPages v projector fuel (applied + events.length)
        ((events.getLast?.map RecordedEvent.globalSeq).getD position)

/-- `DELETE FROM`, for the rows of a tenant. -/
def cleared (name : String) (tenant : TenantId) (rows : Table Row) : Table Row :=
  rows.filter fun key _ => !(key.take 2 == [name, tenant.value])

/-- `INSERT INTO` the table of `name`, the rows of a tenant that `source` is `SELECT`ed for. -/
def copied (source name : String) (tenant : TenantId) (selected rows : Table Row) : Table Row :=
  rows.insertMany ((selected.toList.filter fun row => row.1.take 2 == [source, tenant.value]).map
    fun row => (name :: row.1.drop 1, row.2))

/-- The loop of a rebuild over its projections, each of which drops its temporary table. -/
def exchange (tablePrefix : String) (tenant : TenantId) :
    List ProjectionSpec → (active temporary : Db) → Except EventLogError Db
  | [], active, _ => .ok active
  | spec :: rest, active, temporary =>
      match hiddenBy (spec :: rest) (projectionTable tablePrefix spec.name) with
      | none =>
          if active.registry[[spec.name]]?.map List.length == some spec.indexed.length then
            exchange tablePrefix tenant rest
              { active with
                rows := copied spec.name spec.name tenant temporary.rows
                  (cleared spec.name tenant active.rows) } temporary
          else .error missing
      | some other =>
          if other.indexed.length == spec.indexed.length then
            let left := cleared other.name tenant temporary.rows
            exchange tablePrefix tenant rest active
              { temporary with rows := copied spec.name other.name tenant left left }
          else .error missing

/-- The end of a rebuild: the rows are exchanged, and the cursor is set. -/
def exchanged (e : Engine) (D : Draws) (projector : Projector) (tenant : TenantId)
    (temporary : Db) (position : Nat) : Except EventLogError Engine := do
  let active ← exchange e.tablePrefix tenant projector.projections e.db temporary
  checkTime P (D.now 0)
  return { e with db := { active with
    cursors := active.cursors.insert [projector.name, tenant.value] position } }

/-- What `rebuild_projection` does in its transaction. -/
def planRebuild (e : Engine) (D : Draws) (projector : Projector) (tenant : TenantId) :
    Except EventLogError (Nat × Engine) := do
  let start ← shadow projector e.db
  if (hiddenBy projector.projections (e.tablePrefix ++ "_events")).isSome then
    throw missing
  match replayPages P (e.rebuildView projector tenant none) projector (e.db.events.length + 1)
      0 0 start with
  | (.error error, _) => throw error
  | (.ok (applied, position), temporary) =>
      let after ← e.exchanged P D projector tenant temporary position
      return (applied, after)

/-- `rebuild_projection`. -/
def rebuildProjection (e : Engine) (D : Draws) (projector : Projector) (tenant : TenantId) :
    Answer Nat :=
  if e.isInline projector.name then
    (.error (.Invalid "rebuild requires a catch-up projection"), e)
  else
    match e.planRebuild P D projector tenant with
    | .error error => (.error error, e)
    | .ok (applied, after) => (.ok applied, after)

/-- The events of a tenant, as they are read. -/
def history (e : Engine) (tenant : TenantId) : Except EventLogError (List RecordedEvent) :=
  (e.db.feedAfter tenant 0).mapM (readEvent P)

/-- `admit_projection`: the registry has the specification as it is. -/
def checkAdmitted (e : Engine) (spec : ProjectionSpec) : Except EventLogError Unit :=
  if e.db.registry[[spec.name]]? = some spec.indexed then .ok ()
  else .error (.Invalid "projection admission does not match durable structure")

/-- What `rebuild_inline_projection` checks and reads before it rebuilds. -/
def planInlineRebuild (e : Engine) (name : String) (tenant : TenantId) :
    Except EventLogError (Projector × List RecordedEvent) := do
  validateIdentifier "projector name" name
  match e.serving.inline.find? fun projector => projector.name == name with
  | none => throw (.Invalid "inline projector is not attached to this handle")
  | some projector =>
      File.Projector.validate projector
      projector.projections.forM e.checkAdmitted
      if (hiddenBy projector.projections (e.tablePrefix ++ "_events")).isSome then
        throw missing
      let events ← e.history P tenant
      if !capturedOrder tenant events then
        throw (.Backend "projection admission encountered corrupt storage")
      return (projector, events)

/-- The rebuild itself: every event through the projector, which may use its own tables only. -/
def rebuildInline (e : Engine) (D : Draws) (projector : Projector) (tenant : TenantId)
    (events : List RecordedEvent) : Except EventLogError ((Nat × Nat) × Engine) := do
  let start ← shadow projector e.db
  let view := e.rebuildView projector tenant (some projector.projections)
  match view.applyAll P projector events start with
  | (.error error, _) => throw error
  | (.ok (), temporary) =>
      let position := (events.getLast?.map RecordedEvent.globalSeq).getD 0
      let after ← e.exchanged P D projector tenant temporary position
      return ((events.length, position), after)

/-- `rebuild_inline_projection`. -/
def rebuildInlineProjection (e : Engine) (D : Draws) (name : String) (tenant : TenantId) :
    Answer (Nat × Nat) :=
  match (do
    let (projector, events) ← e.planInlineRebuild P name tenant
    e.rebuildInline P D projector tenant events : Except EventLogError _) with
  | .error error => (.error error, e)
  | .ok (answer, after) => (.ok answer, after)

/-! ## Reading -/

/-- `projection_get`. -/
def projectionGet (e : Engine) (spec : ProjectionSpec) (tenant : TenantId) (key : String) :
    Except EventLogError (Option Json) := do
  spec.validate
  e.db.rowBody P spec tenant key

/-- The loop of `projection_page` over what was fetched. -/
def pageRows (pre : String) (limit : Nat) (fetched : List (String × Json)) : ProjectionPage :=
  let rows := fetched.takeWhile fun row => pre.toList.isPrefixOf row.1.toList
  if rows.length > limit then
    ⟨rows.take limit, (rows.take limit).getLast?.map Prod.fst⟩
  else ⟨rows, none⟩

/-- `projection_page`. -/
def projectionPage (e : Engine) (spec : ProjectionSpec) (tenant : TenantId)
    (pre cursor : Option String) (limit : Nat) : Except EventLogError ProjectionPage := do
  let after := cursor.getD (pre.getD "")
  let fetched ← e.db.listRows P spec tenant (some after) (boundedLimit limit + 1)
  return pageRows (pre.getD "") (boundedLimit limit) fetched

/-! ## Captures -/

/-- `admit_projection`: the registry has the specification as it is.  The table itself is the
    one `create_projections` made. -/
def admitProjection (e : Engine) (spec : ProjectionSpec) : Except CaptureError Unit :=
  match e.db.registry[[spec.name]]? with
  | none => .error (.ProjectionUnavailable spec.name .Undeclared)
  | some declared =>
      if declared ≠ spec.indexed then
        .error (.ProjectionUnavailable spec.name .DeclarationMismatch)
      else .ok ()

/-- The blobs of a tenant, by digest. -/
def capturedBlobs (e : Engine) (tenant : TenantId) : List (String × Bytes) :=
  (e.db.blobs.toList.filter fun row => row.1.head? == some tenant.value).map
    fun row => ((row.1.drop 1).headD "", row.2)

/-- `preflight`: the caps that counts and lengths alone prove crossed. -/
def preflight (e : Engine) (tenant : TenantId) (specs : List ProjectionSpec)
    (b : CaptureBudget) : Except CaptureError Unit := do
  b.proven .Events (e.db.feedAfter tenant 0).length
  b.proven .Blobs (e.capturedBlobs tenant).length
  b.proven .PayloadBytes ((e.capturedBlobs tenant).map fun blob => blob.2.length).sum
  b.proven .ProjectionRows (specs.map fun spec => (e.db.tenantRows spec tenant).length).sum

/-- How many rows one read of a capture fetches. -/
def CHUNK : Nat := 1000

/-- `read_events`, for at most `fuel` pages: each page is read, then admitted. -/
def readEvents : (fuel : Nat) → CaptureBudget → List RecordedEvent →
    Except CaptureError (List RecordedEvent × CaptureBudget)
  | 0, b, _ => .ok ([], b)
  | fuel + 1, b, events => do
      let page ← ((events.take CHUNK).mapM (readEvent P)).mapError fun _ => .Corrupt .Event
      if page.isEmpty then
        return ([], b)
      let b ← page.foldlM (CaptureBudget.admitEvent P.toFloatText) b
      let (rest, b) ← readEvents fuel b (events.drop CHUNK)
      return (page ++ rest, b)

/-- One step of `read_blobs`. -/
def readBlob (b : CaptureBudget) (blob : String × Bytes) : Except CaptureError CaptureBudget := do
  (validateField "blob digest" blob.1).mapError fun _ => .Corrupt .Blob
  b.admitBlob blob.2.length

/-- One step of `read_rows`. -/
def readRow (found : List (String × Json) × CaptureBudget) (row : String × Row) :
    Except CaptureError (List (String × Json) × CaptureBudget) := do
  let body ← (row.2.read P).mapError fun _ => .Corrupt .Projection
  let b ← found.2.admitProjectionRow P.toFloatText body
  return (found.1 ++ [(row.1, body)], b)

/-- One step of `observe` over the admitted projections. -/
def readProjection (e : Engine) (tenant : TenantId)
    (found : List (ProjectionSpec × List (String × Json)) × CaptureBudget)
    (spec : ProjectionSpec) :
    Except CaptureError (List (ProjectionSpec × List (String × Json)) × CaptureBudget) := do
  let (rows, b) ← (e.db.tenantRows spec tenant).foldlM (readRow P) ([], found.2)
  return (found.1 ++ [(spec, rows)], b)

/-- `observe`: a capture and its usage. -/
def observe (e : Engine) (tenant : TenantId) (specs : List ProjectionSpec)
    (limits : CaptureLimits) : Except CaptureError (TenantCapture × CaptureUsage) := do
  match e.db.identities[[tenant.value]]? with
  | none => throw .TenantIdentityMissing
  | some streamIdentity =>
      if e.db.events.any fun event => event.tenant == tenant && event.isRedacted then
        throw .RedactedHistory
      specs.forM e.admitProjection
      e.preflight tenant specs (.new limits)
      let stored := e.db.feedAfter tenant 0
      let (events, b) ← readEvents P (stored.length + 1) (.new limits) stored
      if !capturedOrder tenant events then
        throw (.Corrupt .Event)
      let blobs := e.capturedBlobs tenant
      let b ← blobs.foldlM readBlob b
      let (projections, b) ← specs.foldlM (readProjection P e tenant) ([], b)
      return (⟨tenant, streamIdentity, events, blobs, projections⟩, b.usage)

/-- `capture_tenant`. -/
def captureTenant (e : Engine) (tenant : TenantId) (specs : List ProjectionSpec)
    (limits : CaptureLimits) : Except CaptureError TenantCapture := do
  validateCaptureRequest [] specs
  return (← e.observe P tenant specs limits).1

/-! ## Snapshots -/

/-- `snapshot_generation`. -/
def snapshotGeneration (e : Engine) (D : Draws) (stream : StreamId) : Answer String :=
  match e.db.generations[StreamId.key stream]? with
  | some (generation, _) => (.ok generation, e)
  | none => (.ok (D.id 0), e.update fun db =>
      { db with generations := db.generations.insert (StreamId.key stream) (D.id 0, none) })

/-- `save_snapshot_checked`. -/
def saveSnapshotChecked (e : Engine) (stream : StreamId) (snapshot : Snapshot)
    (generation : String) : Answer Bool :=
  match e.db.generations[StreamId.key stream]? with
  | none => (.ok false, e)
  | some (current, _) =>
      if current ≠ generation then (.ok false, e)
      else
        match checkTime P snapshot.recordedAt with
        | .error error => (.error error, e)
        | .ok () => (.ok true, e.update fun db =>
            { db with
              generations := db.generations.insert (StreamId.key stream) (current, some current)
              snapshots := db.snapshots.insert (StreamId.key stream) snapshot })

end Engine

end Eventlog.Sqlite
