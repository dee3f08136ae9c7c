import Eventlog.Tree.Rebuild

/-!
# Eventlog.Tree.Commit

Appending through the engine and committing the same facts to the files.

A commit refreshes its state under the writer lock, holds every stream to what its caller
expects of its heads, appends to the engine, and then publishes blobs, event files and, last,
the group file that commits them.  If a file operation fails the handle is poisoned: its engine
holds history the directory does not.
-/

namespace Eventlog.Tree

open Durable
open File (Table StreamId.key)
open Sqlite (Engine Answer)

variable (P : Platform)

/-- What a call takes from outside: its draws, those of a rebuild it may need, and whether the
    files are old enough for the rebuilt state to be kept. -/
structure Env where
  draws : Draws
  rebuilding : Draws
  settled : Bool

/-- A handle and the root it works on. -/
structure Store where
  state : State
  root : Root

/-- What a call leaves. -/
abbrev Reply (α : Type) : Type := Except EventLogError α × Store

/-- `refresh`: rebuilt when the names of the group files are not those remembered. -/
def Store.refresh (E : Env) (s : Store) : Reply Unit :=
  if groupFiles s.root.disk.files = s.state.groupFiles then (.ok (), s)
  else
    match build P E.rebuilding E.settled s.state.inline s.state.catchUp s.root with
    | (.ok state, root) => (.ok (), ⟨state, root⟩)
    | (.error error, root) => (.error error, { s with root })

/-! ## Heads -/

/-- `HeadSetDigest::of`. -/
def headSetDigest (heads : List String) : HeadSetDigest :=
  ⟨P.sha256 ((heads.toFinset.sort (· ≤ ·)).flatMap fun head =>
    Json.utf8 head.toList ++ [Json.lineFeed])⟩

/-- The heads of a stream. -/
def State.headsOf (s : State) (stream : StreamId) : List String :=
  s.heads[StreamId.key stream]?.getD []

/-- The refusal of a stream that has forked. -/
def forked (stream : StreamId) (heads : List String) : EventLogError :=
  .Forked (stream.streamType ++ "/" ++ stream.streamId) heads

/-- What the engine is to expect of a member, given the stream's heads. -/
def passed (stream : StreamId) (expected : Expected) (heads : List String) :
    Except EventLogError Expected :=
  match expected with
  | .Merge digest =>
      if heads.length > 1 then
        if digest ≠ headSetDigest P heads then .error (forked stream heads) else .ok .Any
      else .error (.Invalid "a merge expectation names a stream that has not forked")
  | other => if heads.length > 1 then .error (forked stream heads) else .ok other

/-- What the engine is to expect of every member. -/
def State.checkHeads (s : State) (members : List (StreamId × Expected)) :
    Except EventLogError (List Expected) :=
  members.mapM fun m => passed P m.1 m.2 (s.headsOf m.1)

/-! ## The records -/

/-- An event's digest and parents, from the files. -/
def State.decorate (s : State) (event : RecordedEvent) : RecordedEvent :=
  match s.records[event.eventId]? with
  | some record => { event with digest := s.digests[event.eventId]?, parents := record.parents }
  | none => event

def State.decorated (s : State) (result : AppendResult) : AppendResult :=
  { result with events := result.events.map s.decorate }

/-- The record of an appended event. -/
def eventRecord (tenant : TenantId) (stream : StreamId) (key : String) (parents : List String)
    (index : Nat) (event : RecordedEvent) : EventRecord where
  tenant := tenant.value
  streamType := stream.streamType
  streamId := stream.streamId
  eventId := event.eventId
  name := event.name
  schemaVersion := event.schemaVersion
  recordedAt := event.recordedAt
  parents := parents
  group := key
  index := index
  dataDigest := P.sha256 (canonical P event.data)
  data := event.data
  redacted := none

/-- The events of a member: each follows the one before it.  The records come with their
    digests. -/
def planEvents (tenant : TenantId) (stream : StreamId) (key : String) :
    List String → Nat → List RecordedEvent → Except EventLogError (List (EventRecord × String))
  | _, _, [] => .ok []
  | parents, index, event :: rest => do
      let record := eventRecord P tenant stream key parents index event
      let digest ← record.digest P
      let others ← planEvents tenant stream key [digest] (index + 1) rest
      return (record, digest) :: others

/-- The members of a group: one that appends to a stream again follows what the group appended
    to it before. -/
def planMembers (tenant : TenantId) (key : String) (s : State) :
    Table (List String) → Nat → List (StreamId × AppendResult) →
    Except EventLogError (List (List (EventRecord × String)))
  | _, _, [] => .ok []
  | running, index, (stream, result) :: rest => do
      let parents := running[StreamId.key stream]?.getD (s.headsOf stream)
      let planned ← planEvents P tenant stream key parents index result.events
      let last := (planned.getLast?.map fun r => [r.2]).getD parents
      let others ← planMembers tenant key s (running.insert (StreamId.key stream) last)
        (index + result.events.length) rest
      return planned :: others

/-- The later of two moments. -/
def later (a b : OffsetDateTime) : OffsetDateTime :=
  if a.instant ≤ b.instant then b else a

/-- The latest moment of a group's events. -/
def latest (command : CommandMeta) (results : List AppendResult) : OffsetDateTime :=
  match (results.flatMap AppendResult.events).map RecordedEvent.recordedAt with
  | [] => command.occurredAt
  | t :: ts => ts.foldl later t

/-- One call of `commit`. -/
structure Commit where
  kind : Kind
  tenant : TenantId
  members : List (StreamId × Expected)
  command : CommandMeta
  blobs : List (String × Bytes)
  call : Engine → List Expected → Answer (List AppendResult × Bool)

/-- The group's record without the digests of its events. -/
def Commit.record (c : Commit) (expected : List Expected) (results : List AppendResult) :
    GroupRecord where
  tenant := c.tenant.value
  kind := c.kind
  command := { c.command with claim := none }
  members := (c.members.zip expected).map fun m => ⟨m.1.1.streamType, m.1.1.streamId, m.2, []⟩
  blobs := (c.blobs.map Prod.fst).toFinset.sort (· ≤ ·)
  recordedAt := latest c.command results

/-- The group's record with the digests of its events. -/
def GroupRecord.holding (g : GroupRecord) (events : List (List (EventRecord × String))) :
    GroupRecord :=
  { g with members := (g.members.zip events).map fun m =>
      { m.1 with events := m.2.map Prod.snd } }

/-- What a commit writes: the group and the events of each member. -/
structure Plan where
  group : GroupRecord
  events : List (List (EventRecord × String))

/-- The name of the plan's group. -/
def Plan.key (p : Plan) : String := p.group.keyDigest P

/-- What a commit is to write, once the engine has appended. -/
def Commit.plan (c : Commit) (s : State) (expected : List Expected)
    (results : List AppendResult) : Except EventLogError Plan := do
  let record := c.record expected results
  let events ← planMembers P c.tenant (record.keyDigest P) s ∅ 0
    ((c.members.map Prod.fst).zip results)
  return ⟨record.holding events, events⟩

/-! ## Persisting -/

/-- One event file. -/
def writeEvent (format : StoreFormat) (record : EventRecord) (digest : String) : Io Unit := do
  let value ← Program.ask fun _ => record.toValue P
  writeOnce (eventPath P format record.tenant record.streamType record.streamId digest)
    (canonical P value)

/-- The files of a commit: its blobs, its events, and last its group. -/
def Plan.persist (p : Plan) (tenant : TenantId) (blobs : List (String × Bytes)) : Io Path := do
  let format ← Program.ask fun d => storeFormat P d.files
  blobs.forM fun b => writeBlob P tenant.value b.1 b.2 format.splits
  p.events.flatten.forM fun r => writeEvent P format r.1 r.2
  let value ← Program.ask fun _ => p.group.toValue P
  writeOnce (groupPath tenant.value (p.key P)) (canonical P value)
  return groupPath tenant.value (p.key P)

/-- The state once a plan is persisted. -/
def State.committed (s : State) (p : Plan) (path : Path) (streams : List StreamId) : State :=
  { s with
    groupFiles := insert path s.groupFiles
    heads := (streams.zip p.events).foldl (fun heads m =>
      match m.2.getLast? with
      | some last => heads.insert (StreamId.key m.1) [last.2]
      | none => heads) s.heads
    digests := p.events.flatten.foldl (fun t r => t.insert r.1.eventId r.2) s.digests
    records := p.events.flatten.foldl (fun t r => t.insert r.1.eventId r.1) s.records }

/-- The results a commit answers with: each event has the digest and parents of its record. -/
def Plan.results (p : Plan) (results : List AppendResult) : List AppendResult :=
  (results.zip p.events).map fun r =>
    { r.1 with events := (r.1.events.zip r.2).map fun e =>
        { e.1 with digest := some e.2.2, parents := e.2.1.parents } }

/-! ## Committing -/

/-- The end of a commit: what the engine appended goes to the files. -/
def Commit.publish (c : Commit) (expected : List Expected) (results : List AppendResult)
    (s : Store) : Reply (List AppendResult × Bool) :=
  match c.plan P s.state expected results with
  | .error error => (.error error, s)
  | .ok plan =>
      let persist := plan.persist P c.tenant c.blobs
      let root := { s.root with disk := persist.last s.root.disk }
      match (persist s.root.disk).result with
      | .error error => (.error error, ⟨{ s.state with poisoned := true }, root⟩)
      | .ok path =>
          (.ok (plan.results results, false),
            ⟨s.state.committed plan path (c.members.map Prod.fst), root⟩)

/-- A commit on a refreshed handle. -/
def Commit.append (c : Commit) (s : Store) : Reply (List AppendResult × Bool) :=
  match s.state.checkHeads P c.members with
  | .error error => (.error error, s)
  | .ok expected =>
      let (answer, engine) := c.call s.state.engine expected
      let s := { s with state := { s.state with engine } }
      match answer with
      | .error error => (.error error, s)
      | .ok (results, true) => (.ok (results.map s.state.decorated, true), s)
      | .ok (results, false) => c.publish P expected results s

/-- `commit`. -/
def Commit.run (E : Env) (c : Commit) (s : Store) : Reply (List AppendResult × Bool) :=
  if c.command.claim.isSome then (.error (.Unsupported "claims"), s)
  else if s.state.poisoned then (.error .Closed, s)
  else
    match s.refresh P E with
    | (.error error, s) => (.error error, s)
    | (.ok (), s) => c.append P s

/-! ## The two kinds of commit -/

/-- The commit `append_guarded` makes. -/
def appendCommit (D : Draws) (stream : StreamId) (expected : Expected) (events : List NewEvent)
    (command : CommandMeta) (guard : Callback) : Commit where
  kind := .Append
  tenant := stream.tenant
  members := [(stream, expected)]
  command := command
  blobs := []
  call engine passed :=
    let (answer, engine) :=
      engine.appendGuarded P D stream (passed.headD expected) events command guard
    (answer.map fun result => ([result], result.deduplicated), engine)

/-- A group whose members expect what the engine is to. -/
def rewritten (group : AppendGroup) (passed : List Expected) : AppendGroup :=
  { group with appends := (group.appends.zip passed).map fun a => { a.1 with expected := a.2 } }

/-- The commit `group` makes. -/
def groupCommit (D : Draws) (group : AppendGroup) (guard : Callback)
    (blobs : List (String × Bytes)) : Commit where
  kind := .Group
  tenant := group.tenant
  members := group.appends.map fun a => (a.stream, a.expected)
  command := group.command
  blobs := blobs
  call engine passed :=
    let (answer, engine) :=
      if blobs.isEmpty then engine.appendGroupGuarded P D (rewritten group passed) guard
      else engine.appendGroupWithBlobsGuarded P D (blobGroup (rewritten group passed) blobs) guard
    (answer.map fun result => (result.appends, result.deduplicated), engine)

namespace Store

/-- `append_guarded`. -/
def appendGuarded (E : Env) (s : Store) (stream : StreamId) (expected : Expected)
    (events : List NewEvent) (command : CommandMeta) (guard : Callback) : Reply AppendResult :=
  match validateAppend events command with
  | .error error => (.error error, s)
  | .ok () =>
      match (appendCommit P E.draws stream expected events command guard).run P E s with
      | (.ok (result :: _, _), s) => (.ok result, s)
      | (.ok ([], _), s) => (.error (corrupt "group members"), s)
      | (.error error, s) => (.error error, s)

/-- `group`: the two group entry points, with and without a batch. -/
def group (E : Env) (s : Store) (group : AppendGroup) (guard : Callback)
    (blobs : List (String × Bytes)) : Reply AppendGroupResult :=
  match group.fingerprint P.toPrimitives with
  | .error error => (.error error, s)
  | .ok _ =>
      let (answer, s) := (groupCommit P E.draws group guard blobs).run P E s
      (answer.map fun r => ⟨r.1, r.2⟩, s)

end Store

end Eventlog.Tree
