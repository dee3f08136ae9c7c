import Eventlog.Core.Projection
import Eventlog.Durable.Session
import Eventlog.File.Journal
import Eventlog.File.State

/-!
# Eventlog.File.Transaction

One transaction of a File store: the operations it stages, the objects it writes, and what
callbacks and appends do inside it.

A transaction holds the writers' lock, so it owns the directory.  Every operation it
records is applied to its state at once and goes to `pending`; what becomes of both is
decided when its work has ended.

The handle's cache of verified content is left out: content it remembers under a hash has
that hash, so it accepts exactly what hashing would accept.
-/

namespace Eventlog.File

open Durable

variable (P : Primitives)

/-- `Transaction`. -/
structure Tx where
  journal : Journal
  state : State
  pending : List Op
  inline : List Projector
  privacy : Bool
  permit : Nat
  written : List String
  stagedBlobs : List String
  atomicContent : Bool
  disk : Disk

/-- Work inside a transaction. -/
abbrev Work (α : Type) : Type := Session Tx EventLogError α

namespace Work

/-- A program on the directory the transaction owns. -/
def run (p : Io α) : Work α := fun tx =>
  ((p tx.disk).result, { tx with disk := p.last tx.disk })

/-- `Transaction::record`: staged before it is applied, so that a refused operation still
    tells that the state is not the committed one. -/
def record (op : Op) : Work Unit := fun tx =>
  match tx.state.apply op with
  | .ok state => (.ok (), { tx with pending := tx.pending ++ [op], state })
  | .error e => (.error e, { tx with pending := tx.pending ++ [op] })

/-- Checks that need no state. -/
def check (r : Except EventLogError α) : Work α := Session.ask fun _ => r

/-- `new_event_id`. -/
def newEventId : Work String := run (File.newEventId P)

end Work

/-! ## Receipts -/

/-- `Transaction::result`: the events a receipt names, as history holds them. -/
def State.result (s : State) (range : GroupRange) (deduplicated : Bool) : AppendResult where
  firstVersion := range.firstVersion
  lastVersion := range.lastVersion
  events := (s.ofStream range.stream).filter fun e =>
    decide (range.firstVersion ≤ e.version) && decide (e.version ≤ range.lastVersion)
  deduplicated := deduplicated

/-- `Transaction::command`. -/
def State.command (s : State) (stream : StreamId) (id digest : String) :
    Except EventLogError (Option AppendResult) :=
  match s.commands[StreamId.key stream ++ [id]]? with
  | none => .ok none
  | some (stored, range) =>
      if stored ≠ digest then .error (.IdempotencyMismatch id)
      else .ok (some (s.result range true))

/-- `Transaction::claim`. -/
def State.claim (s : State) (tenant : TenantId) (claim : Claim) :
    Except EventLogError (Option GroupRange) :=
  match s.claims[[tenant.value, claim.scope, claim.key]]? with
  | none => .ok none
  | some (digest, range) =>
      if digest ≠ claim.digest then .error (.IdempotencyMismatch claim.key)
      else .ok (some range)

/-! ## Content -/

/-- `validate_object`. -/
def validateObject (id : String) : Except EventLogError Unit :=
  if P.isEventId id then .ok () else .error (.Backend "invalid blob object name")

/-- The object of a binding, once it is shown to be the content its record names. -/
def Disk.object (d : Disk) (b : Blob) : Except EventLogError Bytes := do
  validateObject P b.id
  let bytes ← d.readFile (.object b.id)
  if P.sha256 bytes = b.hash then .ok bytes
  else .error (.Backend "referenced blob integrity check failed")

/-- `Transaction::blob`. -/
def Tx.blob (tx : Tx) (tenant : TenantId) (digest : String) :
    Except EventLogError (Option Bytes) :=
  match tx.state.blobs[[tenant.value, digest]]? with
  | none => .ok none
  | some b => (tx.disk.object P b).map some

/-- The refusal of content that contradicts what a digest already names. -/
def contradicted : EventLogError := .Invalid "blob digest already names different content"

/-- `fs::create_dir_all` of `blobs/`. -/
def Disk.createBlobs (d : Disk) : Except EventLogError Disk := .ok { d with blobs := true }

namespace Work

/-- Creates an object and fills it; `note` remembers it as soon as it exists. -/
def writeObject (note : String → Tx → Tx) (id : String) (bytes : Bytes) : Work Unit := do
  run (Program.perform (Disk.createNew (.object id)))
  Session.change (note id)
  run (Program.perform (Disk.writeAt (.object id) 0 bytes))

/-- `Transaction::bind_blob`. -/
def bindBlob (tenant : TenantId) (blob : BlobWrite) : Work Unit := do
  let old ← Session.ask fun tx => tx.blob P tenant blob.digest
  match old with
  | some old => if old ≠ blob.bytes then Session.refuse contradicted else pure ()
  | none => do
      let id ← newEventId P
      run (Program.perform Disk.createBlobs)
      writeObject (fun id tx => { tx with stagedBlobs := tx.stagedBlobs ++ [id] }) id blob.bytes
      record (.Blob tenant blob.digest (some ⟨id, P.sha256 blob.bytes⟩))

/-- The first loop of `bind_blobs`: what of a batch has to be written.  A digest repeated
    in the batch binds once. -/
def planBatch (tenant : TenantId) : List (Blob × BlobWrite) → List BlobWrite →
    Work (List (Blob × BlobWrite))
  | fresh, [] => pure fresh
  | fresh, b :: rest => do
      check (validateField "blob digest" b.digest)
      match fresh.find? fun f => f.2.digest == b.digest with
      | some earlier =>
          if earlier.1.hash ≠ P.sha256 b.bytes then Session.refuse contradicted
          else planBatch tenant fresh rest
      | none => do
          let old ← Session.ask fun tx => tx.blob P tenant b.digest
          match old with
          | some old =>
              if old ≠ b.bytes then Session.refuse contradicted else planBatch tenant fresh rest
          | none => do
              let id ← newEventId P
              planBatch tenant (fresh ++ [(⟨id, P.sha256 b.bytes⟩, b)]) rest

/-- `Transaction::bind_blobs`: every object is written before any binding is recorded. -/
def bindBlobs (tenant : TenantId) (blobs : List BlobWrite) : Work Unit := do
  let fresh ← planBatch P tenant [] blobs
  if fresh.isEmpty then pure ()
  else do
    run (Program.perform Disk.createBlobs)
    fresh.forM fun f =>
      writeObject (fun id tx => { tx with written := tx.written ++ [id] }) f.1.id f.2.bytes
    fresh.forM fun f => record (.Blob tenant f.2.digest (some f.1))

end Work

/-- `batch`: the digests of a batch, sorted and without repeats. -/
def batch (blobs : List BlobWrite) : List String :=
  ((blobs.map BlobWrite.digest).insertionSort (· ≤ ·)).destutter (· ≠ ·)

/-- `Transaction::verify_batch`: a retry's batch is held to the digests the commit recorded,
    and what is still bound to its bytes. -/
def Tx.verifyBatch (tx : Tx) (tenant : TenantId) (blobs : List BlobWrite)
    (committed : List String) (key : String) : Except EventLogError Unit := do
  if blobs.isEmpty then .ok ()
  else do
    blobs.forM fun b => validateField "blob digest" b.digest
    if batch blobs ≠ committed then .error (.IdempotencyMismatch key)
    else
      blobs.forM fun b => do
        match ← tx.blob P tenant b.digest with
        | some bound => if bound ≠ b.bytes then .error contradicted else .ok ()
        | none => .ok ()

/-- The first loop of `blob_fingerprint`: the batch by digest, unless a digest is repeated
    with other bytes. -/
def uniqueBlobs : List BlobWrite → List BlobWrite → Option (List BlobWrite)
  | unique, [] => some unique
  | unique, b :: rest =>
      match unique.find? fun u => u.digest == b.digest with
      | some earlier => if earlier.bytes = b.bytes then uniqueBlobs unique rest else none
      | none => uniqueBlobs (unique ++ [b]) rest

/-- `blob_fingerprint`: the fingerprint `AtomicBlobEventStore` records for this group and
    batch, if it can have recorded one. -/
def blobFingerprint (group : AppendGroup) (blobs : List BlobWrite) : Option String :=
  match uniqueBlobs [] blobs with
  | none => none
  | some unique => (BlobAppendGroup.fingerprint P ⟨group, unique⟩).toOption

/-! ## Callbacks -/

/-- `projection::View`: what a callback may touch. -/
structure ProjectionView where
  tenant : TenantId
  admission : Bool
  selected : Option (List ProjectionSpec)

/-- `View::validate`. -/
def ProjectionView.validate (v : ProjectionView) (s : State) (spec : ProjectionSpec) (tenant : TenantId) :
    Except EventLogError Unit := do
  spec.validate
  if v.selected.any fun selected => !selected.contains spec then
    throw (.Invalid "projection is outside this rebuild's selected tables")
  if tenant ≠ v.tenant then
    throw (.Invalid "projection crosses tenant boundary")
  if s.dirtyViews.contains [tenant.value, spec.name] then
    throw (.Invalid "projection requires a complete rebuild after redaction")
  if s.projections[[spec.name]]? ≠ some spec.indexed then
    throw (.Invalid "projection was not admitted with this shape")

/-- The refusal of a reservation that would leave its bounds. -/
def ceilingRefused : EventLogError := .Invalid "admission ceiling or release bound refused"

/-- What one reservation of `View::reserve` comes to. -/
def State.reserved (s : State) (located : String × Reservation) : Except EventLogError (Op × Int) :=
  match checkedAddInt (s.counters[[located.1]]?.getD 0) located.2.delta with
  | none => .error ceilingRefused
  | some value =>
      if value < 0 ∨ value > located.2.ceiling then .error ceilingRefused
      else .ok (.Counter located.2.scope.tenant? located.1 value, value)

/-- The checks of `View::reserve`, and what it then writes. -/
def ProjectionView.planReserve (v : ProjectionView) (tx : Tx) (permit : Nat) (rs : List Reservation) :
    Except EventLogError (List (Op × Int)) := do
  if !v.admission || tx.permit ≠ permit then
    throw (.Invalid "admission requires the trusted guard's permit")
  let ordered ← orderedReservations v.tenant rs
  ordered.mapM tx.state.reserved

namespace ProjectionView

/-- `View::reserve`: a refusal changes no counter. -/
def reserve (v : ProjectionView) (permit : Nat) (rs : List Reservation) : Work (List Int) := do
  let writes ← Session.ask fun tx => v.planReserve tx permit rs
  writes.forM fun w => Work.record w.1
  return writes.map Prod.snd

/-- `View::upsert`. -/
def upsert (v : ProjectionView) (spec : ProjectionSpec) (tenant : TenantId) (key : String) (body : Json) :
    Work Unit := do
  Session.ask fun tx => v.validate tx.state spec tenant
  Work.record (.Row tenant spec.name key (some body))

/-- `View::delete`. -/
def delete (v : ProjectionView) (spec : ProjectionSpec) (tenant : TenantId) (key : String) : Work Unit := do
  Session.ask fun tx => v.validate tx.state spec tenant
  Work.record (.Row tenant spec.name key none)

/-- `View::get`. -/
def get (v : ProjectionView) (s : State) (spec : ProjectionSpec) (tenant : TenantId) (key : String) :
    Except EventLogError (Option Json) := do
  v.validate s spec tenant
  return s.rows[[tenant.value, spec.name, key]]?

/-- `View::get_for_update`. -/
def getForUpdate (v : ProjectionView) (tx : Tx) (spec : ProjectionSpec) (tenant : TenantId) (key : String) :
    Except EventLogError (Option Json) :=
  if tx.inline.any fun p => p.projections.any fun s => s.name == spec.name then
    v.get tx.state spec tenant key
  else
    .error (.Invalid "guard reads a projection not driven inline")

/-- `View::find`. -/
def find (v : ProjectionView) (s : State) (spec : ProjectionSpec) (tenant : TenantId)
    (field value : String) (limit : Nat) : Except EventLogError (List Json) := do
  v.validate s spec tenant
  if field ∉ spec.indexed then
    throw (.Invalid "field was not declared indexed")
  let rows := s.rows.toList.filter fun row =>
    row.1.take 2 == [tenant.value, spec.name] &&
      indexedValue P.toFloatText row.2 field == some value
  return (rows.take (boundedLimit limit)).map Prod.snd

/-- Runs a callback against the transaction. -/
def call (v : ProjectionView) : Callback → Work Unit
  | .done result => Work.check result
  | .reserve permit rs next => fun tx =>
      v.call (next (v.reserve permit rs tx).1) (v.reserve permit rs tx).2
  | .getBlob digest next => fun tx => v.call (next (tx.blob P v.tenant digest)) tx
  | .upsert spec tenant key body next => fun tx =>
      v.call (next (v.upsert spec tenant key body tx).1) (v.upsert spec tenant key body tx).2
  | .delete spec tenant key next => fun tx =>
      v.call (next (v.delete spec tenant key tx).1) (v.delete spec tenant key tx).2
  | .get spec tenant key next => fun tx => v.call (next (v.get tx.state spec tenant key)) tx
  | .getForUpdate spec tenant key next => fun tx =>
      v.call (next (v.getForUpdate tx spec tenant key)) tx
  | .find spec tenant field value limit next => fun tx =>
      v.call (next (v.find P tx.state spec tenant field value limit)) tx

end ProjectionView

/-- The view a guard gets. -/
def guardView (tenant : TenantId) : ProjectionView := ⟨tenant, true, none⟩

/-- The view a projector gets. -/
def projectorView (tenant : TenantId) : ProjectionView := ⟨tenant, false, none⟩

/-! ## Appending -/

/-- What an expectation asks the head to be. -/
def Expected.wanted (head : Nat) : Expected → Except EventLogError Nat
  | .Any => .ok head
  | .NoStream => .ok 0
  | .Exact version => .ok version
  -- a linear store never forks, so there is no head set for a merge to join
  | .Merge _ => .error (.Unsupported "merge expectations")

/-- The check of an expectation against the head. -/
def State.expect (s : State) (stream : StreamId) (expected : Expected) :
    Except EventLogError Unit := do
  let wanted ← Expected.wanted (s.head stream) expected
  if wanted ≠ s.head stream then
    throw (.Conflict wanted (s.head stream))

/-- `checked_add`, or the failure it stands for. -/
def roomFor (message : String) (a b : Nat) : Except EventLogError Nat :=
  match checkedAdd a b with
  | some n => .ok n
  | none => .error (.Backend message)

/-- An event as history will hold it. -/
def NewEvent.recorded (e : NewEvent) (stream : StreamId) (command : CommandMeta)
    (version globalSeq : Nat) (eventId : String) (recordedAt : OffsetDateTime) :
    RecordedEvent where
  globalSeq := globalSeq
  tenant := stream.tenant
  streamType := stream.streamType
  streamId := stream.streamId
  version := version
  eventId := eventId
  name := e.name
  schemaVersion := e.schemaVersion
  occurredAt := command.occurredAt
  recordedAt := recordedAt
  subject := command.subject
  actor := command.actor
  requestId := command.requestId
  traceId := command.traceId
  causationId := command.causationId
  causationDepth := command.causationDepth
  redactedAt := none
  data := e.data
  digest := none
  parents := []

namespace Work

/-- One round of the loop of `Transaction::append`: the event gets its identifier and its
    moment, and is recorded. -/
def recordEvent (stream : StreamId) (command : CommandMeta) (version globalSeq : Nat)
    (e : NewEvent) : Work RecordedEvent := do
  let id ← newEventId P
  let now ← Session.ask fun tx => .ok (P.utc tx.disk.clock)
  let event := NewEvent.recorded e stream command version globalSeq id now
  record (.Event event)
  return event

/-- The loop of `Transaction::append` over its events, with those already written. -/
def recordEvents (stream : StreamId) (command : CommandMeta) (first : Nat) :
    List RecordedEvent → List NewEvent → Work (List RecordedEvent)
  | written, [] => pure written
  | written, e :: rest => do
      let version ← check (roomFor "stream version overflow" first written.length)
      let globalSeq ← Session.ask fun tx =>
        roomFor "feed position overflow" tx.state.nextPosition 1
      let event ← recordEvent P stream command version globalSeq e
      recordEvents stream command first (written ++ [event]) rest

/-- The loop of `Transaction::append` over the inline projectors. -/
def project (tenant : TenantId) (written : List RecordedEvent) (projector : Projector) :
    Work Unit := do
  projector.projections.forM fun spec =>
    Session.ask fun tx => (projectorView tenant).validate tx.state spec tenant
  written.forM fun event => (projectorView tenant).call P (projector.apply event)

/-- `Transaction::append`. -/
def append (stream : StreamId) (expected : Expected) (events : List NewEvent)
    (command : CommandMeta) : Work AppendResult := do
  Session.ask fun tx => tx.state.expect stream expected
  let head ← Session.ask fun tx => .ok (tx.state.head stream)
  let first ← check (roomFor "stream version overflow" head 1)
  let written ← recordEvents P stream command first [] events
  let inline ← Session.ask fun tx => .ok tx.inline
  inline.forM (project P stream.tenant written)
  return ⟨first, head + written.length, written, false⟩

/-! ## Administration -/

/-- The loop of `Transaction::register` over its tables, with the names already seen. -/
def registerSpecs : List String → List ProjectionSpec → Work Unit
  | _, [] => pure ()
  | names, spec :: rest => do
      check spec.validate
      if spec.name ∈ names then
        Session.refuse (.Invalid "duplicate projection in one registration")
      else do
        let old ← Session.ask fun tx => .ok tx.state.projections[[spec.name]]?
        match old with
        | some old =>
            if old ≠ spec.indexed then
              Session.refuse (.Invalid "projection registration shape changed")
            else registerSpecs (spec.name :: names) rest
        | none => do
            record (.Projection spec.name spec.indexed)
            registerSpecs (spec.name :: names) rest

/-- `Transaction::register`. -/
def register (projector : Projector) : Work Unit :=
  registerSpecs [] projector.projections

/-- `Transaction::generation`. -/
def generation (stream : StreamId) : Work String := do
  let known ← Session.ask fun tx => .ok tx.state.generations[StreamId.key stream]?
  match known with
  | some id => pure id
  | none => do
      let id ← newEventId P
      record (.Generation stream id)
      return id

/-- `Transaction::catch_up`. -/
def catchUp (projector : Projector) (tenant : TenantId) (limit : Nat) : Work CatchUpProgress := do
  Session.ask fun tx =>
    if tx.inline.any fun p => p.name == projector.name then
      .error (.Invalid "projection is driven inline")
    else .ok ()
  let position ← Session.ask fun tx =>
    .ok (tx.state.cursors[[tenant.value, projector.name]]?.getD 0)
  let waiting ← Session.ask fun tx => .ok (tx.state.events.filter fun e =>
    e.tenant == tenant && decide (e.globalSeq > position))
  let events := waiting.take (boundedLimit limit)
  events.forM fun event => (projectorView tenant).call P (projector.apply event)
  let reached := (events.getLast?.map RecordedEvent.globalSeq).getD position
  record (.Cursor tenant projector.name reached)
  return ⟨events.length, reached, decide (waiting.length > boundedLimit limit)⟩

end Work

end Eventlog.File
