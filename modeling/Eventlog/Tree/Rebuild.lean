import Eventlog.Sqlite.Projections
import Eventlog.Tree.History

/-!
# Eventlog.Tree.Rebuild

What an open handle holds, and how it is built from the files: replayed group by group into an
in-memory SQLite store, or read back from the state an earlier open kept.

A kept state is named by the stamps of every history file.  Equal stamps mean equal files, so
here it is named by the files themselves, with the names of the projectors it was folded by.
-/

namespace Eventlog.Tree

open Durable
open File (Table StreamId.key)
open Sqlite (Engine RestoredEvent Answer)

variable (P : Platform)

/-- What a handle knows beyond what the engine holds. -/
structure State where
  engine : Engine
  /-- Each stream's head digests, sorted.  More than one means the stream has forked. -/
  heads : Table (List String)
  /-- Each committed event's file record, by event id. -/
  records : Named EventRecord
  digests : Named String
  /-- The group files this state was built from. -/
  groupFiles : Finset Path
  /-- Tenants whose identity file exists. -/
  identities : Finset String
  inline : List Projector
  catchUp : List Projector
  /-- Set when a write reached the engine but not the files. -/
  poisoned : Bool
  replayed : Bool

/-- The answer of a call that the replay cannot go on without. -/
def done (answer : Answer α) : Except EventLogError (α × Engine) :=
  match answer with
  | (.ok a, engine) => .ok (a, engine)
  | (.error error, _) => .error error

/-! ## Replaying one group -/

/-- The identities and instants a group's events had. -/
def Committed.restored (c : Committed) : List RestoredEvent :=
  c.events.flatten.map fun record => ⟨record.eventId, record.recordedAt, none⟩

/-- One member as its writer appended it. -/
def replayEntry (tenant : TenantId) (entry : Member × List EventRecord) :
    Except EventLogError StreamAppend := do
  let stream ← StreamId.new tenant entry.1.streamType entry.1.streamId
  let events ← entry.2.mapM EventRecord.newEvent
  return ⟨stream, entry.1.expected, events⟩

/-- `blob_group`. -/
def blobGroup (group : AppendGroup) (blobs : List (String × Bytes)) : BlobAppendGroup :=
  ⟨group, blobs.map fun b => ⟨b.1, b.2⟩⟩

/-- The call the group's writer made, with nothing to admit. -/
def replayCall (D : Draws) (tenant : TenantId) (c : Committed) (appends : List StreamAppend)
    (engine : Engine) : Except EventLogError (List AppendResult × Engine) :=
  match c.record.kind, appends with
  | .Append, append :: _ => do
      let (result, engine) ← done (engine.appendGuarded P D append.stream append.expected
        append.events c.record.command noGuard)
      return ([result], engine)
  | .Append, [] => .error (corrupt "group members")
  | .Group, appends => do
      let group : AppendGroup := ⟨tenant, appends, c.record.command⟩
      let (result, engine) ← done (if c.blobs.isEmpty then engine.appendGroupGuarded P D group noGuard
        else engine.appendGroupWithBlobsGuarded P D (blobGroup group c.blobs) noGuard)
      return (result.appends, engine)

/-- `replay`: the version of each event, in the group's order. -/
def replay (D : Draws) (tenant : TenantId) (c : Committed) (engine : Engine) :
    Except EventLogError (List Nat × Engine) := do
  let (_, engine) ← done (engine.restoreEvents c.restored)
  let appends ← (c.record.members.zip c.events).mapM (replayEntry tenant)
  let (results, engine) ← replayCall P D tenant c appends engine
  if !engine.restored.isEmpty ∨ results.any fun result => result.events.isEmpty then
    throw (corrupt "a replayed group the engine did not append in full")
  return (results.flatMap fun result => result.events.map RecordedEvent.version, engine)

/-! ## Replaying everything -/

/-- What a replay has so far; `redactions` are to be applied at the end. -/
structure Replayed where
  engine : Engine
  heads : Table (Finset String)
  records : Named EventRecord
  digests : Named String
  identities : Finset String
  redactions : List (StreamId × Nat × String)

/-- The key of a record's stream. -/
def EventRecord.streamKey (r : EventRecord) : List String :=
  [r.tenant, r.streamType, r.streamId]

/-- One event, at the version the engine gave it. -/
def noteEvent (r : Replayed) (placed : EventRecord × Nat) : Except EventLogError Replayed := do
  let record := placed.1
  let before := r.heads[record.streamKey]?.getD ∅
  let digest ← record.digest P
  let redactions ← match record.redacted with
    | none => pure r.redactions
    | some reason => do pure (r.redactions ++ [(← record.stream, placed.2, reason)])
  return { r with
    heads := r.heads.insert record.streamKey (insert digest (before \ record.parents.toFinset))
    records := r.records.insert record.eventId record
    digests := r.digests.insert record.eventId digest
    redactions }

/-- One group. -/
def replayGroup (D : Draws) (tenant : TenantId) (r : Replayed) (c : Committed) :
    Except EventLogError Replayed := do
  let (versions, engine) ← replay P D tenant c r.engine
  (c.events.flatten.zip versions).foldlM (noteEvent P) { r with engine }

/-- The identity of a tenant. -/
def replayIdentity (name : String) (tenant : TenantId) (identity : Option String) (r : Replayed) :
    Except EventLogError Replayed :=
  match identity with
  | none => .ok r
  | some identity => do
      let (_, engine) ← done (r.engine.restoreStreamIdentity tenant identity)
      return { r with engine, identities := insert name r.identities }

/-- The blobs of a tenant. -/
def replayBlobs (tenant : TenantId) (blobs : List (String × Bytes)) (engine : Engine) :
    Except EventLogError Engine :=
  blobs.foldlM (fun engine b => do return (← done (engine.putBlob tenant b.1 b.2)).2) engine

/-- One tenant: its identity, its blobs, its groups. -/
def replayTenant (D : Draws) (r : Replayed) (t : String × TenantHistory) :
    Except EventLogError Replayed := do
  let tenant ← TenantId.new t.1
  let r ← replayIdentity t.1 tenant t.2.identity r
  let engine ← replayBlobs tenant t.2.blobs r.engine
  t.2.groups.foldlM (replayGroup P D tenant) { r with engine }

/-- The redactions, each with draws of its own. -/
def replayRedactions : Draws → List (StreamId × Nat × String) → Engine →
    Except EventLogError Engine
  | _, [], engine => .ok engine
  | D, (stream, version, reason) :: rest, engine => do
      let (_, engine) ← done (engine.redact P D stream version reason)
      replayRedactions (D.from 1) rest engine

/-- A fresh engine with the projectors registered. -/
def register (inline catchUp : List Projector) (engine : Engine) : Except EventLogError Engine := do
  let engine ← catchUp.foldlM
    (fun engine p => do return (← done (engine.createProjections p)).2) engine
  inline.foldlM (fun engine p => do return (← done (engine.registerInline p)).2) engine

-- Names are sorted by their own order.

instance stringLe_trans : IsTrans String (· ≤ ·) := ⟨fun _ _ _ => le_trans⟩

instance stringLe_antisymm : Std.Antisymm (α := String) (· ≤ ·) := ⟨fun _ _ => le_antisymm⟩

/-- The state a replay ends in. -/
def Replayed.state (r : Replayed) (engine : Engine) (groupFiles : Finset Path)
    (inline catchUp : List Projector) : State where
  engine := engine
  heads := r.heads.map fun _ heads => heads.sort
  records := r.records
  digests := r.digests
  groupFiles := groupFiles
  identities := r.identities
  inline := inline
  catchUp := catchUp
  poisoned := false
  replayed := true

/-- `replay_all`. -/
def replayAll (D : Draws) (files : Files) (inline catchUp : List Projector) :
    Except EventLogError State := do
  let loaded ← load P files
  let engine ← register inline catchUp Engine.inMemory
  let r ← loaded.tenants.foldlM (replayTenant P D) ⟨engine, ∅, ∅, ∅, ∅, []⟩
  let engine ← replayRedactions P D r.redactions r.engine
  return r.state engine loaded.groupFiles inline catchUp

/-! ## The kept state -/

/-- What is under `.cache/state/`: the files and projectors its name stands for, the engine's
    image, and the rest of the state. -/
structure Kept where
  files : List (Path × Bytes)
  inline : List String
  catchUp : List String
  image : Sqlite.Db
  state : Bytes

/-- `kept_state`, with the format `keep` adds.  A path is kept as its names. -/
def keptState (s : State) : Json :=
  .obj [("format", .str "eventlog-tree-fold/1"),
    ("group_files", toValue (s.groupFiles.sort (· ≤ ·))),
    ("heads", .arr (s.heads.toList.map fun h => .arr (h.1.map Json.str ++ [toValue h.2]))),
    ("identities", toValue (s.identities.sort (· ≤ ·))),
    ("records", .arr (s.records.toList.filterMap fun r => (r.2.toValue P).toOption))]

def unreadable : EventLogError := corrupt "a kept state that does not read back"

/-- A member of a kept state. -/
def keptMember [Serde α] (fs : List (String × Json)) (name : String) : Except EventLogError α :=
  match (get? fs name).bind fromValue with
  | some a => .ok a
  | none => .error unreadable

/-- The heads of one stream, as they are kept. -/
def keptHeads : Json → Except EventLogError (List String × List String)
  | .arr [.str tenant, .str streamType, .str streamId, digests] =>
      match (fromValue digests : Option (List String)) with
      | some digests => .ok ([tenant, streamType, streamId], digests)
      | none => .error unreadable
  | _ => .error unreadable

/-- `from_kept`: nothing but the projectors is computed again. -/
def fromKept (kept : Kept) (inline catchUp : List Projector) : Except EventLogError State := do
  let value ← match Json.fromSlice P.toFloatText kept.state with
    | some value => pure value
    | none => throw unreadable
  let engine ← register inline catchUp (Engine.fromImage kept.image)
  let fs ← object value "a kept state that does not read back"
  let heads ← (← keptMember fs "heads" : List Json).mapM keptHeads
  let records ← (← keptMember fs "records" : List Json).mapM (EventRecord.fromValue P)
  let groupFiles : List Path ← keptMember fs "group_files"
  let identities : List String ← keptMember fs "identities"
  return {
    engine
    heads := .ofList heads
    records := .ofList (records.map fun r => (r.1.eventId, r.1))
    digests := .ofList (records.map fun r => (r.1.eventId, r.2))
    groupFiles := groupFiles.toFinset
    identities := identities.toFinset
    inline
    catchUp
    poisoned := false
    replayed := false }

/-- The root of a store: its files, and the state kept beside them. -/
structure Root where
  disk : Disk
  kept : Option Kept

/-- Whether a kept state is the one for these files and projectors. -/
def Kept.matches (k : Kept) (files : Files) (inline catchUp : List Projector) : Bool :=
  decide (k.files = files.toList ∧ k.inline = inline.map Projector.name ∧
    k.catchUp = catchUp.map Projector.name)

/-- The state kept for exactly these files, if it reads back. -/
def Root.recalled (root : Root) (inline catchUp : List Projector) : Option State :=
  match root.kept with
  | none => none
  | some kept =>
      if kept.matches root.disk.files inline catchUp then
        (fromKept P kept inline catchUp).toOption
      else none

/-- `keep`: the newest state replaces whatever was kept before. -/
def Root.keep (root : Root) (s : State) : Root :=
  { root with kept := some {
      files := root.disk.files.toList
      inline := s.inline.map Projector.name
      catchUp := s.catchUp.map Projector.name
      image := s.engine.db
      state := canonical P (keptState P s) } }

/-- `build`.  `settled` says whether every file was old enough to be trusted by its stamp. -/
def build (D : Draws) (settled : Bool) (inline catchUp : List Projector) (root : Root) :
    Except EventLogError State × Root :=
  match root.recalled P inline catchUp with
  | some s => (.ok s, root)
  | none =>
      match replayAll P D root.disk.files inline catchUp with
      | .error error => (.error error, root)
      | .ok s => (.ok s, if settled then root.keep P s else root)

end Eventlog.Tree
