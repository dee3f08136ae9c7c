import Eventlog.Core.Types

/-!
# Eventlog.Core.Records

The JSON forms of what history holds: moments, streams, recorded events and the ranges a
receipt names.

Members are written in the order of their names, as `serde_json::to_value` keeps them.
An event's digest and parents are left out where they are absent or empty, and a reader
accepts members it does not know; a range is closed.
-/

namespace Eventlog

/-! ## Moments -/

/-- `time` writes a moment as a sequence of nine numbers. -/
def OffsetDateTime.toJson (t : OffsetDateTime) : Json :=
  .arr [toValue t.year, toValue t.ordinal, toValue t.hour, toValue t.minute, toValue t.second,
    toValue t.nanosecond, toValue t.offsetHours, toValue t.offsetMinutes,
    toValue t.offsetSeconds]

def OffsetDateTime.ofJson : Json → Option OffsetDateTime
  | .arr [y, o, h, m, s, n, oh, om, os] => do
      return {
        year := ← fromValue y, ordinal := ← fromValue o, hour := ← fromValue h
        minute := ← fromValue m, second := ← fromValue s, nanosecond := ← fromValue n
        offsetHours := ← fromValue oh, offsetMinutes := ← fromValue om
        offsetSeconds := ← fromValue os }
  | _ => none

instance : Serde OffsetDateTime := ⟨OffsetDateTime.toJson, OffsetDateTime.ofJson⟩

instance : LawfulSerde OffsetDateTime := ⟨fun _ => rfl⟩

instance : NeverNull OffsetDateTime := ⟨fun _ => Json.noConfusion⟩

instance : Floatless OffsetDateTime := ⟨fun F t => by
  simp [toValue, OffsetDateTime.toJson, Json.Stable, Json.StableItems, Json.Number.Stable]⟩

/-! ## Streams and ranges -/

def StreamId.toJson (s : StreamId) : Json :=
  .obj [("stream_id", toValue s.streamId), ("stream_type", toValue s.streamType),
    ("tenant", toValue s.tenant)]

def StreamId.ofJson (j : Json) : Option StreamId := do
  let fs ← Json.openMembers j
  let streamId ← Json.member "stream_id" fs
  let streamType ← Json.member "stream_type" fs
  let tenant ← Json.member "tenant" fs
  (StreamId.new tenant streamType streamId).toOption

instance : Serde StreamId := ⟨StreamId.toJson, StreamId.ofJson⟩

/-- The constructor accepts the parts of a stream it already made. -/
theorem StreamId.new_parts (s : StreamId) :
    StreamId.new s.tenant s.streamType s.streamId = .ok s :=
  StreamId.new_eq_ok_iff.mpr ⟨rfl, rfl, rfl⟩

instance : LawfulSerde StreamId := ⟨fun s => by
  change StreamId.ofJson s.toJson = some s
  simp [StreamId.toJson, StreamId.ofJson, Json.openMembers, Json.member, List.lookup,
    StreamId.new_parts, Except.toOption]⟩

/-- The versions of one stream that a commit wrote. -/
structure GroupRange where
  stream : StreamId
  firstVersion : Nat
  lastVersion : Nat
  deriving DecidableEq

def GroupRange.toJson (r : GroupRange) : Json :=
  .obj [("first_version", toValue r.firstVersion), ("last_version", toValue r.lastVersion),
    ("stream", toValue r.stream)]

def GroupRange.ofJson (j : Json) : Option GroupRange := do
  let fs ← Json.members ["first_version", "last_version", "stream"] j
  let firstVersion ← Json.member "first_version" fs
  let lastVersion ← Json.member "last_version" fs
  let stream ← Json.member "stream" fs
  return { stream, firstVersion, lastVersion }

instance : Serde GroupRange := ⟨GroupRange.toJson, GroupRange.ofJson⟩

instance : LawfulSerde GroupRange := ⟨fun r => by
  change GroupRange.ofJson r.toJson = some r
  simp [GroupRange.toJson, GroupRange.ofJson, Json.members, Json.member, List.lookup]⟩

/-! ## Recorded events -/

def RecordedEvent.toJson (e : RecordedEvent) : Json :=
  .obj ([("actor", toValue e.actor), ("causation_depth", toValue e.causationDepth),
    ("causation_id", toValue e.causationId), ("data", e.data)] ++
    (match e.digest with
      | none => []
      | some digest => [("digest", toValue digest)]) ++
    [("event_id", toValue e.eventId), ("global_seq", toValue e.globalSeq),
    ("name", toValue e.name), ("occurred_at", toValue e.occurredAt)] ++
    (match e.parents with
      | [] => []
      | parents => [("parents", toValue parents)]) ++
    [("recorded_at", toValue e.recordedAt), ("redacted_at", toValue e.redactedAt),
    ("request_id", toValue e.requestId), ("schema_version", toValue e.schemaVersion),
    ("stream_id", toValue e.streamId), ("stream_type", toValue e.streamType),
    ("subject", toValue e.subject), ("tenant", toValue e.tenant),
    ("trace_id", toValue e.traceId), ("version", toValue e.version)])

def RecordedEvent.ofJson (j : Json) : Option RecordedEvent := do
  let fs ← Json.openMembers j
  let globalSeq ← Json.member "global_seq" fs
  let tenant ← Json.member "tenant" fs
  let streamType ← Json.member "stream_type" fs
  let streamId ← Json.member "stream_id" fs
  let version ← Json.member "version" fs
  let eventId ← Json.member "event_id" fs
  let name ← Json.member "name" fs
  let schemaVersion ← Json.member "schema_version" fs
  let occurredAt ← Json.member "occurred_at" fs
  let recordedAt ← Json.member "recorded_at" fs
  let subject ← Json.member "subject" fs
  let actor ← Json.member "actor" fs
  let requestId ← Json.member "request_id" fs
  let traceId ← Json.member "trace_id" fs
  let causationId ← Json.memberOr "causation_id" none fs
  let causationDepth ← Json.member "causation_depth" fs
  let redactedAt ← Json.memberOr "redacted_at" none fs
  let data ← Json.member "data" fs
  let digest ← Json.memberOr "digest" none fs
  let parents ← Json.memberOr "parents" [] fs
  return {
    globalSeq, tenant, streamType, streamId, version, eventId, name, schemaVersion, occurredAt
    recordedAt, subject, actor, requestId, traceId, causationId, causationDepth, redactedAt
    data, digest, parents }

instance : Serde RecordedEvent := ⟨RecordedEvent.toJson, RecordedEvent.ofJson⟩

/-- A present digest is a string, never `null`. -/
theorem fromValue_some (s : String) :
    (fromValue (toValue s) : Option (Option String)) = some (some s) :=
  LawfulSerde.fromValue_toValue (some s)

instance : LawfulSerde RecordedEvent := ⟨by
  intro e
  change RecordedEvent.ofJson e.toJson = some e
  obtain ⟨_, _, _, _, _, _, _, _, _, _, _, _, _, _, _, _, _, _, digest, parents⟩ := e
  cases digest <;> cases parents
  all_goals
    refine (Json.bind_openMembers ?_ _).trans ?_
    · simp only [List.map_append, List.map_cons, List.map_nil]
      decide
    -- one step for each member, in the order they are read
    iterate 14 refine (Json.bind_member (by rfl) _).trans ?_
    refine (Json.bind_memberOr (by rfl) _).trans ?_
    refine (Json.bind_member (by rfl) _).trans ?_
    refine (Json.bind_memberOr (by rfl) _).trans ?_
    refine (Json.bind_member (by rfl) _).trans ?_
    simp [Json.memberOr, List.lookup, fromValue_some]⟩

/-! ## Snapshots -/

/-- A fold, cached.  It is never the record. -/
structure Snapshot where
  version : Nat
  stateSchemaVersion : Nat
  state : Json
  recordedAt : OffsetDateTime
  deriving DecidableEq

def Snapshot.toJson (s : Snapshot) : Json :=
  .obj [("version", toValue s.version), ("state_schema_version", toValue s.stateSchemaVersion),
    ("state", s.state), ("recorded_at", toValue s.recordedAt)]

def Snapshot.ofJson (j : Json) : Option Snapshot := do
  let fs ← Json.openMembers j
  let version ← Json.member "version" fs
  let stateSchemaVersion ← Json.member "state_schema_version" fs
  let state ← Json.member "state" fs
  let recordedAt ← Json.member "recorded_at" fs
  return { version, stateSchemaVersion, state, recordedAt }

instance : Serde Snapshot := ⟨Snapshot.toJson, Snapshot.ofJson⟩

end Eventlog
