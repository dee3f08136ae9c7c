import Eventlog.Tree.Store

/-!
# Eventlog.Tree.World

One directory and the handles opened on it: every call of the port as a value, its answer, and
runs of calls by any number of handles.

The writer lock serialises the calls that write, so a run is a sequence of whole calls.
-/

namespace Eventlog.Tree

open Durable
open File (Table StreamSlice FeedPage)
open Sqlite (ProjectionPage)

variable (P : Platform)

/-- A call of the port. -/
inductive Request where
  | Append (stream : StreamId) (expected : Expected) (events : List NewEvent)
      (command : CommandMeta) (guard : Callback)
  | Group (group : AppendGroup) (guard : Callback) (blobs : List (String × Bytes))
  | Redact (stream : StreamId) (version : Nat) (reason : String)
  | ForgetTenant (tenant : TenantId)
  | StreamIdentity (tenant : TenantId)
  | PutBlob (tenant : TenantId) (digest : String) (bytes : Bytes)
  | GetBlob (tenant : TenantId) (digest : String)
  | DeleteBlob (tenant : TenantId) (digest : String)
  | CreateProjections (projector : Projector)
  | RegisterInline (projector : Projector)
  | AttachInlineExisting (projector : Projector)
  | IsInline (name : String)
  | RunCatchUp (projector : Projector) (tenant : TenantId) (batch : Nat)
  | RebuildProjection (projector : Projector) (tenant : TenantId)
  | RebuildInlineProjection (name : String) (tenant : TenantId)
  | ReadStream (stream : StreamId) (after limit : Nat)
  | StreamVersion (stream : StreamId)
  | ReadFeed (tenant : TenantId) (after limit : Nat)
  | RecordedCommand (stream : StreamId) (key hash : String)
  | RecordedClaim (tenant : TenantId) (claim : Claim)
  | ProjectionGet (spec : ProjectionSpec) (tenant : TenantId) (key : String)
  | ProjectionFind (spec : ProjectionSpec) (tenant : TenantId) (field value : String) (limit : Nat)
  | ProjectionList (spec : ProjectionSpec) (tenant : TenantId) (after : Option String)
      (limit : Nat)
  | ProjectionPage (spec : ProjectionSpec) (tenant : TenantId) (pre cursor : Option String)
      (limit : Nat)
  | SnapshotGeneration (stream : StreamId)
  | SaveSnapshot (stream : StreamId) (snapshot : Snapshot)
  | SaveSnapshotChecked (stream : StreamId) (snapshot : Snapshot) (generation : String)
  | LoadSnapshot (stream : StreamId)
  | Heads (stream : StreamId)
  | CaptureTenant (tenant : TenantId) (specs : List ProjectionSpec) (limits : CaptureLimits)
  | Torn
  | Repair

/-- The answer of a call. -/
inductive Response where
  | Unit (answer : Except EventLogError Unit)
  | Flag (answer : Except EventLogError Bool)
  | Number (answer : Except EventLogError Nat)
  | Text (answer : Except EventLogError String)
  | Texts (answer : Except EventLogError (List String))
  | Paths (answer : Except EventLogError (List Path))
  | Appended (answer : Except EventLogError AppendResult)
  | Grouped (answer : Except EventLogError AppendGroupResult)
  | Event (answer : Except EventLogError RecordedEvent)
  | Found (answer : Except EventLogError (Option AppendResult))
  | Claimed (answer : Except EventLogError (Option GroupRange))
  | Slice (answer : Except EventLogError StreamSlice)
  | Page (answer : Except EventLogError FeedPage)
  | Version (answer : Except EventLogError (Option Nat))
  | Blob (answer : Except EventLogError (Option Bytes))
  | Row (answer : Except EventLogError (Option Json))
  | Rows (answer : Except EventLogError (List Json))
  | Listed (answer : Except EventLogError (List (String × Json)))
  | Paged (answer : Except EventLogError Sqlite.ProjectionPage)
  | Progress (answer : Except EventLogError CatchUpProgress)
  | Rebuilt (answer : Except EventLogError (Nat × Nat))
  | Kept (answer : Except EventLogError (Option Snapshot))
  | Captured (answer : Except CaptureError TenantCapture)

/-- `repair`: every torn event file is removed. -/
def repair (s : Store) : Reply (List Path) :=
  match load P s.root.disk.files with
  | .error error => (.error error, s)
  | .ok loaded =>
      let io : Io Unit := loaded.torn.forM fun path => Program.perform (Disk.remove path)
      let root := { s.root with disk := io.last s.root.disk }
      match (io s.root.disk).result with
      | .error error => (.error error, { s with root })
      | .ok () => (.ok loaded.torn, { s with root })

def provenanceRequired : EventLogError :=
  .Invalid ("snapshot provenance is required; capture snapshot_generation before folding " ++
    "and use save_snapshot_checked")

/-- Pairs an answer with what the call left. -/
def answered (f : Except EventLogError α → Response) (r : Reply α) : Response × Store :=
  (f r.1, r.2)

/-- Runs a call on a handle. -/
def Request.run (E : Env) (s : Store) : Request → Response × Store
  | .Append stream expected events command guard =>
      answered .Appended (s.appendGuarded P E stream expected events command guard)
  | .Group group guard blobs => answered .Grouped (s.group P E group guard blobs)
  | .Redact stream version reason => answered .Event (s.redact P E stream version reason)
  | .ForgetTenant tenant => answered .Unit (s.forgetTenant tenant)
  | .StreamIdentity tenant => answered .Text (s.streamIdentity P E tenant)
  | .PutBlob tenant digest bytes => answered .Unit (s.putBlob P tenant digest bytes)
  | .GetBlob tenant digest => (.Blob (s.ofEngine fun e => .ok (e.db.boundBlob tenant digest)), s)
  | .DeleteBlob tenant digest => answered .Unit (s.deleteBlob P tenant digest)
  | .CreateProjections projector => answered .Unit (s.createProjections projector)
  | .RegisterInline projector => answered .Unit (s.registerInline P E projector)
  | .AttachInlineExisting projector => answered .Unit (s.attachInlineExisting P E projector)
  | .IsInline name => (.Flag (.ok (s.state.engine.isInline name)), s)
  | .RunCatchUp projector tenant batch =>
      answered .Progress (s.onEngine fun e => e.runCatchUp P E.draws projector tenant batch)
  | .RebuildProjection projector tenant =>
      answered .Number (s.onEngine fun e => e.rebuildProjection P E.draws projector tenant)
  | .RebuildInlineProjection name tenant =>
      answered .Rebuilt (s.onEngine fun e => e.rebuildInlineProjection P E.draws name tenant)
  | .ReadStream stream after limit => (.Slice (s.readStream P stream after limit), s)
  | .StreamVersion stream => (.Version (s.ofEngine fun e => .ok (e.db.streamVersion stream)), s)
  | .ReadFeed tenant after limit => (.Page (s.readFeed P tenant after limit), s)
  | .RecordedCommand stream key hash => (.Found (s.recordedCommand P stream key hash), s)
  | .RecordedClaim _ _ => (.Claimed (.error (.Unsupported "claims")), s)
  | .ProjectionGet spec tenant key =>
      (.Row (s.ofEngine fun e => e.projectionGet P spec tenant key), s)
  | .ProjectionFind spec tenant field value limit =>
      (.Rows (s.ofEngine fun e => e.db.findRows P spec tenant field value limit), s)
  | .ProjectionList spec tenant after limit =>
      (.Listed (s.ofEngine fun e => e.db.listRows P spec tenant after limit), s)
  | .ProjectionPage spec tenant pre cursor limit =>
      (.Paged (s.ofEngine fun e => e.projectionPage P spec tenant pre cursor limit), s)
  | .SnapshotGeneration stream =>
      answered .Text (s.onEngine fun e => e.snapshotGeneration E.draws stream)
  | .SaveSnapshot _ _ => (.Unit (s.ofEngine fun _ => .error provenanceRequired), s)
  | .SaveSnapshotChecked stream snapshot generation =>
      answered .Flag (s.onEngine fun e => e.saveSnapshotChecked P stream snapshot generation)
  | .LoadSnapshot stream => (.Kept (s.ofEngine fun e => .ok (e.db.loadSnapshot P stream)), s)
  | .Heads stream => (.Texts (s.heads stream), s)
  | .CaptureTenant tenant specs limits => (.Captured (s.captureTenant P tenant specs limits), s)
  | .Torn => (.Paths ((load P s.root.disk.files).map Loaded.torn), s)
  | .Repair => answered .Paths (repair P s)

/-! ## Opening -/

/-- The layout an owner asks for. -/
inductive TreeLayout where
  | Nested
  | Hashed
  deriving DecidableEq

/-- `prepare`: a directory without a `store.json` gets one. -/
def prepare (layout : TreeLayout) (identity : String) : Io Unit := do
  let files ← Program.ask fun d => .ok d.files
  if files.contains storePath then do
    let _ ← Program.ask fun d => storeFormat P d.files
    pure ()
  else
    let format := if layout = .Hashed ∧ (tenantNames files).isEmpty then StoreFormat.V3 else .V2
    writeOnce storePath
      (canonical P (.obj [("format", .str format.tag), ("identity", .str identity)]))

/-- `open_in_with_inline`. -/
def openStore (E : Env) (layout : TreeLayout) (inline : List Projector) (root : Root) :
    Except EventLogError Store × Root :=
  let io := prepare P layout (E.draws.id 0)
  let prepared := { root with disk := io.last root.disk }
  match (io root.disk).result with
  | .error error => (.error error, prepared)
  | .ok () =>
      match build P E.rebuilding E.settled inline [] prepared with
      | (.error error, root) => (.error error, root)
      | (.ok state, root) => (.ok ⟨state, root⟩, root)

/-! ## Runs -/

/-- A directory and the handles open on it. -/
structure World where
  root : Root
  handles : List State

inductive Action where
  | Open (env : Env) (layout : TreeLayout) (inline : List Projector)
  | Call (handle : Nat) (env : Env) (request : Request)

/-- What an action leaves, and the answer if it was a call on an open handle. -/
def World.act (w : World) : Action → Option Response × World
  | .Open E layout inline =>
      match openStore P E layout inline w.root with
      | (.ok s, root) => (none, ⟨root, w.handles ++ [s.state]⟩)
      | (.error _, root) => (none, { w with root })
  | .Call i E request =>
      match w.handles[i]? with
      | none => (none, w)
      | some state =>
          let (response, s) := request.run P E ⟨state, w.root⟩
          (some response, ⟨s.root, w.handles.set i s.state⟩)

/-- A run. -/
def World.run (w : World) (actions : List Action) : World :=
  actions.foldl (fun w a => (w.act P a).2) w

/-- Nothing at all. -/
def World.empty : World := ⟨⟨⟨∅, ∅⟩, none⟩, []⟩

/-- An open handle with the root it works on. -/
def World.store (w : World) (i : Nat) : Option Store :=
  w.handles[i]?.map fun state => ⟨state, w.root⟩

/-- What a call that draws one identifier takes, on files too young to be trusted by a stamp. -/
def sampleEnv (id : String) (h : ValidField id) : Env :=
  ⟨sampleDraws id h, sampleDraws id h, false⟩

end Eventlog.Tree
