import Eventlog.Core.Platform

/-!
# Eventlog.Tree.Records

The two records a tree store is made of: one event, and one command with the events it
committed.

An event's digest covers its envelope, and its body only through the digest of the body: a
redaction replaces the body and leaves the digest, so it breaks no chain.
-/

namespace Eventlog.Tree

variable (P : Platform)

def corrupt (what : String) : EventLogError :=
  .Backend ("tree store is corrupt: " ++ what)

/-- `canonical`.  A `serde_json` object keeps its members by name, so there is nothing left to
    sort: every object below is written with its members in that order. -/
def canonical (value : Json) : Bytes :=
  Json.toVec P.toFloatText value

/-! ## Reading members -/

def formatTime (t : OffsetDateTime) : Except EventLogError String :=
  match P.formatTime t with
  | some s => .ok s
  | none => .error (.Backend "moment has no RFC 3339 text")

def text (value : Json) (what : String) : Except EventLogError String :=
  match value with
  | .str s => .ok s
  | _ => .error (corrupt what)

def parseTime (value : Json) (what : String) : Except EventLogError OffsetDateTime := do
  match P.parseTime (← text value what) with
  | some t => .ok t
  | none => .error (corrupt what)

/-- `Value::as_object`. -/
def object (value : Json) (what : String) : Except EventLogError (List (String × Json)) :=
  match value with
  | .obj fs => .ok fs
  | _ => .error (corrupt what)

/-- A member by name; of a name written twice the last one is kept. -/
def get? (fs : List (String × Json)) (name : String) : Option Json :=
  fs.reverse.lookup name

/-- An object that was written and read again has the same members, each read again. -/
theorem forall₂_refloatFields {F : Json.FloatText} {fs fs' : List (String × Json)}
    (h : Json.refloatFields F fs = some fs') :
    List.Forall₂ (fun f f' => f'.1 = f.1 ∧ Json.refloat F f.2 = some f'.2) fs fs' := by
  induction fs generalizing fs' with
  | nil =>
      obtain rfl := Option.some.inj h
      exact .nil
  | cons f fs ih =>
      simp only [Json.refloatFields, Option.bind_eq_bind, Option.bind_eq_some_iff] at h
      obtain ⟨value, hvalue, rest, hrest, heq⟩ := h
      obtain rfl := Option.some.inj heq
      exact .cons ⟨rfl, hvalue⟩ (ih hrest)

theorem get?_refloatFields {F : Json.FloatText} {fs fs' : List (String × Json)}
    (h : Json.refloatFields F fs = some fs') (name : String) :
    get? fs' name = (get? fs name).bind (Json.refloat F) := by
  have hreads := List.rel_reverse (forall₂_refloatFields h)
  unfold get?
  generalize fs.reverse = xs at hreads
  generalize fs'.reverse = ys at hreads
  induction hreads with
  | nil => rfl
  | @cons f f' _ _ hf _ ih =>
      rw [List.lookup_cons, List.lookup_cons, hf.1]
      cases name == f.1 with
      | true => exact hf.2.symm
      | false => exact ih

def field (fs : List (String × Json)) (name : String) : Except EventLogError Json :=
  match get? fs name with
  | some value => .ok value
  | none => .error (corrupt name)

def closed (fs : List (String × Json)) (allowed : List String) (what : String) :
    Except EventLogError Unit :=
  if fs.all fun f => allowed.contains f.1 then .ok ()
  else .error (corrupt (what ++ " carries a field this reader does not know"))

/-- `Value::as_array`. -/
def array (value : Json) (what : String) : Except EventLogError (List Json) :=
  match value with
  | .arr items => .ok items
  | _ => .error (corrupt what)

def strings (value : Json) (what : String) : Except EventLogError (List String) := do
  (← array value what).mapM fun item => text item what

/-- `Value::as_u64`. -/
def number (value : Json) (what : String) : Except EventLogError Nat :=
  match (fromValue value : Option Nat) with
  | some n => .ok n
  | none => .error (corrupt what)

/-! ## Groups -/

/-- Whether a group was one stream's append or a tenant's atomic group. -/
inductive Kind where
  | Append
  | Group
  deriving DecidableEq

def Kind.asStr : Kind → String
  | .Append => "append"
  | .Group => "group"

/-- One stream's share of a group; `events` are the digests of its events, in order. -/
structure Member where
  streamType : String
  streamId : String
  expected : Expected
  events : List String
  deriving DecidableEq

def expectedValue : Expected → Except EventLogError Json
  | .Any => .ok (.str "any")
  | .NoStream => .ok (.str "no-stream")
  | .Exact version => .ok (.arr [.str "exact", toValue version])
  | .Merge _ => .error (.Invalid "only a linear expectation reaches the engine")

def parseExpected : Json → Except EventLogError Expected
  | .str s =>
      if s = "any" then .ok .Any
      else if s = "no-stream" then .ok .NoStream
      else .error (corrupt "member expectation")
  | .arr [.str s, version] =>
      if s = "exact" then (number version "member expectation").map .Exact
      else .error (corrupt "member expectation")
  | _ => .error (corrupt "member expectation")

/-- One command, as the file that commits it holds it.  `blobs` are the digests the group
    committed with its events, sorted. -/
structure GroupRecord where
  tenant : String
  kind : Kind
  command : CommandMeta
  members : List Member
  blobs : List String
  recordedAt : OffsetDateTime
  deriving DecidableEq

def GROUP_FORMAT : String := "eventlog-tree/group/1"

/-- Where the receipt of a command lives. -/
def scope (kind : Kind) (tenant : String) (members : List Member) : Json :=
  match kind, members with
  | .Append, member :: _ =>
      .arr [.str "append", .str tenant, .str member.streamType, .str member.streamId]
  | _, _ => .arr [.str "group", .str tenant]

namespace GroupRecord

/-- The name of the group's file. -/
def keyDigest (g : GroupRecord) : String :=
  P.sha256 (canonical P (.arr [scope g.kind g.tenant g.members, .str g.command.idempotencyKey]))

def memberValue (m : Member) : Except EventLogError Json := do
  let expected ← expectedValue m.expected
  return .obj [("events", toValue m.events), ("expected", expected),
    ("stream_id", toValue m.streamId), ("stream_type", toValue m.streamType)]

/-- The members of a group's file, given the texts of its moments and the values of its
    members. -/
def fields (g : GroupRecord) (occurredAt recordedAt : String) (members : List Json) :
    List (String × Json) :=
  [("actor", toValue g.command.actor), ("blobs", toValue g.blobs),
    ("causation_depth", toValue g.command.causationDepth),
    ("causation_id", toValue g.command.causationId), ("format", .str GROUP_FORMAT),
    ("idempotency_key", toValue g.command.idempotencyKey), ("kind", .str g.kind.asStr),
    ("members", .arr members), ("occurred_at", .str occurredAt),
    ("recorded_at", .str recordedAt), ("request_hash", toValue g.command.requestHash),
    ("request_id", toValue g.command.requestId), ("subject", toValue g.command.subject),
    ("tenant", toValue g.tenant), ("trace_id", toValue g.command.traceId)]

def toValue (g : GroupRecord) : Except EventLogError Json := do
  let occurredAt ← formatTime P g.command.occurredAt
  let members ← g.members.mapM memberValue
  let recordedAt ← formatTime P g.recordedAt
  return .obj (g.fields occurredAt recordedAt members)

def parseKind (value : Json) : Except EventLogError Kind := do
  let kind ← text value "group kind"
  if kind = "append" then .ok .Append
  else if kind = "group" then .ok .Group
  else .error (corrupt "group kind")

def parseCausation : Json → Except EventLogError (Option String)
  | .null => .ok none
  | other => (text other "causation id").map some

def parseCommand (fs : List (String × Json)) : Except EventLogError CommandMeta := do
  let causationId ← parseCausation (← field fs "causation_id")
  let idempotencyKey ← text (← field fs "idempotency_key") "idempotency key"
  let requestHash ← text (← field fs "request_hash") "request hash"
  let subject ← text (← field fs "subject") "subject"
  let actor ← text (← field fs "actor") "actor"
  let requestId ← text (← field fs "request_id") "request id"
  let traceId ← text (← field fs "trace_id") "trace id"
  let causationDepth ← number (← field fs "causation_depth") "causation depth"
  let occurredAt ← parseTime P (← field fs "occurred_at") "occurred at"
  return { idempotencyKey, requestHash, subject, actor, requestId, traceId, causationId
           causationDepth, occurredAt, claim := none }

def parseMember (value : Json) : Except EventLogError Member := do
  let fs ← object value "group member"
  closed fs ["stream_type", "stream_id", "expected", "events"] "a group member"
  let streamType ← text (← field fs "stream_type") "stream type"
  let streamId ← text (← field fs "stream_id") "stream id"
  let expected ← parseExpected (← field fs "expected")
  let events ← strings (← field fs "events") "member events"
  return { streamType, streamId, expected, events }

/-- What a group's file may hold. -/
def allowed : List String :=
  ["format", "tenant", "kind", "idempotency_key", "request_hash", "subject", "actor", "request_id",
    "trace_id", "causation_id", "causation_depth", "occurred_at", "members", "blobs", "recorded_at"]

def fromValue (value : Json) : Except EventLogError GroupRecord := do
  let fs ← object value "group file"
  closed fs allowed "a group file"
  let format ← text (← field fs "format") "group format"
  if format ≠ GROUP_FORMAT then
    throw (corrupt "group format")
  let kind ← parseKind (← field fs "kind")
  let command ← parseCommand P fs
  let members ← (← array (← field fs "members") "group members").mapM parseMember
  if members.isEmpty || (kind == .Append && members.length != 1) then
    throw (corrupt "group members")
  let tenant ← text (← field fs "tenant") "group tenant"
  let blobs ← strings (← field fs "blobs") "group blobs"
  let recordedAt ← parseTime P (← field fs "recorded_at") "group recorded at"
  return { tenant, kind, command, members, blobs, recordedAt }

end GroupRecord

/-! ## Events -/

/-- One event, as its file holds it.  Its version is not stored: it is the event's place in
    the replay order.  `group` and `index` say which group committed it and where among all of
    the group's events; `redacted` is the reason, once the body is gone. -/
structure EventRecord where
  tenant : String
  streamType : String
  streamId : String
  eventId : String
  name : String
  schemaVersion : Nat
  recordedAt : OffsetDateTime
  parents : List String
  group : String
  index : Nat
  dataDigest : String
  data : Json
  redacted : Option String
  deriving DecidableEq

def EVENT_FORMAT : String := "eventlog-tree/event/1"

namespace EventRecord

/-- The members of the envelope: everything but the body. -/
def envelopeFields (r : EventRecord) (recordedAt : String) : List (String × Json) :=
  [("data_digest", .str r.dataDigest), ("event_id", .str r.eventId), ("format", .str EVENT_FORMAT),
    ("group", .str r.group), ("index", Serde.toValue r.index), ("name", .str r.name),
    ("parents", Serde.toValue r.parents), ("recorded_at", .str recordedAt),
    ("schema_version", Serde.toValue r.schemaVersion), ("stream_id", .str r.streamId),
    ("stream_type", .str r.streamType), ("tenant", .str r.tenant)]

/-- The digest that names the file and that children name as their parent. -/
def digest (r : EventRecord) : Except EventLogError String := do
  let recordedAt ← formatTime P r.recordedAt
  return P.sha256 (canonical P (.obj (r.envelopeFields recordedAt)))

/-- The members of an event's file, given the text of its moment and its digest. -/
def fields (r : EventRecord) (recordedAt digest : String) : List (String × Json) :=
  [("data", r.data), ("data_digest", .str r.dataDigest), ("digest", .str digest),
    ("event_id", .str r.eventId), ("format", .str EVENT_FORMAT), ("group", .str r.group),
    ("index", Serde.toValue r.index), ("name", .str r.name), ("parents", Serde.toValue r.parents),
    ("recorded_at", .str recordedAt)] ++
    (match r.redacted with
      | none => []
      | some reason => [("redacted", .obj [("reason", .str reason)])]) ++
    [("schema_version", Serde.toValue r.schemaVersion), ("stream_id", .str r.streamId),
      ("stream_type", .str r.streamType), ("tenant", .str r.tenant)]

def toValue (r : EventRecord) : Except EventLogError Json := do
  let recordedAt ← formatTime P r.recordedAt
  let digest ← r.digest P
  return .obj (r.fields recordedAt digest)

def parseRedacted : Option Json → Except EventLogError (Option String)
  | none => .ok none
  | some value => do
      let fs ← object value "redaction"
      closed fs ["reason"] "a redaction"
      return some (← text (← field fs "reason") "redaction reason")

/-- What an event's file may hold. -/
def allowed : List String :=
  ["format", "tenant", "stream_type", "stream_id", "event_id", "name", "schema_version",
    "recorded_at", "parents", "group", "index", "data_digest", "data", "redacted", "digest"]

/-- The record, and the digest its file states. -/
def fromValue (value : Json) : Except EventLogError (EventRecord × String) := do
  let fs ← object value "event file"
  closed fs allowed "an event file"
  let format ← text (← field fs "format") "event format"
  if format ≠ EVENT_FORMAT then
    throw (corrupt "event format")
  let redacted ← parseRedacted (get? fs "redacted")
  let tenant ← text (← field fs "tenant") "event tenant"
  let streamType ← text (← field fs "stream_type") "stream type"
  let streamId ← text (← field fs "stream_id") "stream id"
  let eventId ← text (← field fs "event_id") "event id"
  let name ← text (← field fs "name") "event name"
  let schemaVersion ← number (← field fs "schema_version") "schema version"
  let recordedAt ← parseTime P (← field fs "recorded_at") "event recorded at"
  let parents ← strings (← field fs "parents") "event parents"
  let group ← text (← field fs "group") "event group"
  let index ← number (← field fs "index") "event index"
  let dataDigest ← text (← field fs "data_digest") "data digest"
  let data ← field fs "data"
  let stated ← text (← field fs "digest") "event digest"
  return ({ tenant, streamType, streamId, eventId, name, schemaVersion, recordedAt, parents, group
            index, dataDigest, data, redacted }, stated)

def stream (r : EventRecord) : Except EventLogError StreamId := do
  StreamId.new (← TenantId.new r.tenant) r.streamType r.streamId

/-- `new_event`: `NewEvent::new` refuses what `NewEvent::validate` does. -/
def newEvent (r : EventRecord) : Except EventLogError NewEvent := do
  let event : NewEvent := ⟨r.name, r.schemaVersion, r.data⟩
  event.validate
  return event

end EventRecord

end Eventlog.Tree
