import Eventlog.File.Requests

/-!
# Eventlog.Aggregate.Repository

Deciding, folding, and the cache that keeps a fold from starting at zero every time.

An aggregate is a fold and a decision, and knows of no store; the `Repository` loads one, decides,
appends and, now and then, saves a snapshot.  The store is any that answers the six calls made
here (`EventStore`).
-/

namespace Eventlog

open Durable
open File (StreamSlice)

/-- `Applied`: what `apply` receives. -/
inductive Applied (E : Type) where
  | Happened (event : E) (recorded : RecordedEvent)
  | Redacted (recorded : RecordedEvent)

/-- `Aggregate`, with its `DomainEvent`. -/
structure Aggregate where
  State : Type
  Command : Type
  Event : Type
  Error : Type
  /-- `From<EventLogError>`. -/
  refused : EventLogError → Error
  TYPE : String
  STATE_SCHEMA_VERSION : Nat
  name : Event → String
  schemaVersion : Event → Nat
  toData : Event → Except EventLogError Json
  fromData : String → Nat → Json → Except EventLogError Event
  empty : String → State
  apply : State → Applied Event → State
  decides : State → Command → Except Error (List Event)
  /-- `Serialize` and `DeserializeOwned`. -/
  serialized : State → Option Json
  deserialized : Json → Option State

/-- The calls of `EventStore` that a repository makes. -/
structure EventStore (σ : Type) where
  recordedCommand : StreamId → String → String → Session σ EventLogError (Option AppendResult)
  snapshotGeneration : StreamId → Session σ EventLogError (Option String)
  loadSnapshot : StreamId → Session σ EventLogError (Option Snapshot)
  readStream : StreamId → Nat → Nat → Session σ EventLogError StreamSlice
  appendGuarded : StreamId → Expected → List NewEvent → CommandMeta → Callback →
    Session σ EventLogError AppendResult
  saveSnapshotChecked : StreamId → Snapshot → String → Session σ EventLogError Bool

/-- `Loaded`. -/
structure Loaded (A : Aggregate) where
  state : A.State
  version : Nat
  isNew : Bool

/-- `Outcome`. -/
structure Outcome (A : Aggregate) where
  state : A.State
  version : Nat
  events : List RecordedEvent
  deduplicated : Bool

/-- `Repository`, with the `every` of its policy. -/
structure Repository (A : Aggregate) (σ : Type) where
  store : EventStore σ
  every : Nat

/-- A command to handle: what `handle_guarded` is given, and the time it is given it. -/
structure Call (A : Aggregate) where
  command : A.Command
  about : CommandMeta
  guard : Callback
  now : OffsetDateTime

namespace Aggregate

variable (A : Aggregate)

/-- `apply_recorded`. -/
def applyRecorded (state : A.State) (recorded : RecordedEvent) : Except EventLogError A.State :=
  if recorded.isRedacted then .ok (A.apply state (.Redacted recorded))
  else do
    let event ← A.fromData recorded.name recorded.schemaVersion recorded.data
    return A.apply state (.Happened event recorded)

/-- One turn of the loop of `load_observed` over a slice. -/
def foldSlice (reached : A.State × Nat) (recorded : RecordedEvent) :
    Except EventLogError (A.State × Nat) := do
  return (← A.applyRecorded reached.1 recorded, recorded.version)

/-- One turn of the loop of `finish`. -/
def foldNew (reached : A.State × Nat) (recorded : RecordedEvent) :
    Except EventLogError (A.State × Nat) :=
  if recorded.version > reached.2 then A.foldSlice reached recorded else .ok reached

/-- `to_new_events`. -/
def toNewEvents (events : List A.Event) : Except EventLogError (List NewEvent) :=
  events.mapM fun event => do
    let new : NewEvent := ⟨A.name event, A.schemaVersion event, ← A.toData event⟩
    new.validate
    return new

/-- Where a fold starts: at the snapshot, if it can be read. -/
def start (id : String) (snapshot : Option Snapshot) : A.State × Nat :=
  match snapshot with
  | some snapshot =>
      if snapshot.stateSchemaVersion = A.STATE_SCHEMA_VERSION then
        match A.deserialized snapshot.state with
        | some state => (state, snapshot.version)
        | none => (A.empty id, 0)
      else (A.empty id, 0)
  | none => (A.empty id, 0)

end Aggregate

namespace Repository

variable {A : Aggregate} {σ : Type} (R : Repository A σ) (stream : StreamId)

/-- The loop of `load_observed`, for as many slices as there is fuel. -/
def readOn : Nat → A.State → Nat → Bool → Session σ EventLogError (Loaded A)
  | 0, _, _, _ => Session.refuse (.Backend "the stream does not end")
  | fuel + 1, state, version, seen => do
      let slice ← R.store.readStream stream version MAX_READ_LIMIT
      if slice.events.isEmpty then
        return ⟨state, version, !seen⟩
      let reached ← Session.ask fun _ => slice.events.foldlM A.foldSlice (state, version)
      if slice.endOfStream then
        return ⟨reached.1, reached.2, false⟩
      readOn fuel reached.1 reached.2 true

/-- `load_observed`. -/
def loadObserved (fuel : Nat) : Session σ EventLogError (Loaded A × Option String) := do
  let generation ← R.store.snapshotGeneration stream
  let snapshot ← if generation.isSome then R.store.loadSnapshot stream else pure none
  let (state, version) := A.start stream.streamId snapshot
  let loaded ← R.readOn stream fuel state version (decide (version > 0))
  return (loaded, generation)

/-- The snapshot `finish` writes, if it writes one. -/
def due (state : A.State) (version : Nat) (now : OffsetDateTime) : Option Snapshot :=
  if R.every > 0 ∧ version % R.every = 0 then
    (A.serialized state).map fun serialized => ⟨version, A.STATE_SCHEMA_VERSION, serialized, now⟩
  else none

/-- `finish`.  What becomes of the snapshot is nobody's failure. -/
def finish (loaded : Loaded A) (generation : Option String) (result : AppendResult)
    (now : OffsetDateTime) : Session σ EventLogError (Outcome A) := do
  let (state, version) ← Session.ask fun _ =>
    result.events.foldlM A.foldNew (loaded.state, loaded.version)
  match generation, R.due state version now with
  | some generation, some snapshot =>
      fun s => (.ok ⟨state, version, result.events, result.deduplicated⟩,
        (R.store.saveSnapshotChecked stream snapshot generation s).2)
  | _, _ => return ⟨state, version, result.events, result.deduplicated⟩

/-- `?` on a store's error. -/
def lift (p : Session σ EventLogError α) : Session σ A.Error α := fun s =>
  ((p s).1.mapError A.refused, (p s).2)

/-- One turn of the loop of `handle_guarded`; `conflicted` is what a conflict leads to. -/
def attempt (fuel : Nat) (call : Call A)
    (conflicted : EventLogError → Session σ A.Error (Outcome A)) :
    Session σ A.Error (Outcome A) := do
  let (loaded, generation) ← lift (R.loadObserved stream fuel)
  let decided ← Session.ask fun _ => A.decides loaded.state call.command
  if decided.isEmpty then
    return ⟨loaded.state, loaded.version, [], false⟩
  let expected : Expected := if loaded.isNew then .NoStream else .Exact loaded.version
  let events ← lift (Session.ask fun _ => A.toNewEvents decided)
  fun s => match R.store.appendGuarded stream expected events call.about call.guard s with
    | (.ok result, s') => lift (R.finish stream loaded generation result call.now) s'
    | (.error (.Conflict wanted actual), s') => conflicted (.Conflict wanted actual) s'
    | (.error e, s') => (.error (A.refused e), s')

/-- `handle_guarded` on a stream: a conflict is retried exactly once. -/
def handleStream (fuel : Nat) (call : Call A) : Session σ A.Error (Outcome A) := do
  let recorded ← lift
    (R.store.recordedCommand stream call.about.idempotencyKey call.about.requestHash)
  match recorded with
  | some recorded =>
      let (loaded, _) ← lift (R.loadObserved stream fuel)
      return ⟨loaded.state, loaded.version, recorded.events, true⟩
  | none =>
      R.attempt stream fuel call fun _ =>
        R.attempt stream fuel call fun e => Session.refuse (A.refused e)

/-- `handle_guarded`. -/
def handleGuarded (tenant : TenantId) (id : String) (fuel : Nat) (call : Call A) :
    Session σ A.Error (Outcome A) :=
  match StreamId.new tenant A.TYPE id with
  | .ok stream => R.handleStream stream fuel call
  | .error e => Session.refuse (A.refused e)

end Repository

end Eventlog
