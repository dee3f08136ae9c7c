import Eventlog.Json.Decimal
import Eventlog.Json.Serde

/-!
# Eventlog.Core.Types

The vocabulary of `eventlog-core`: the error type, the validated identifiers, what a
command asks for and what history holds.

A tenant and a stream cannot be built with a field the constructor would refuse: the
structures carry the check.
-/

namespace Eventlog

/-- A date and time with its offset, in the nine numbers `time` serialises it as. -/
structure OffsetDateTime where
  year : Int
  ordinal : Nat
  hour : Nat
  minute : Nat
  second : Nat
  nanosecond : Nat
  offsetHours : Int
  offsetMinutes : Int
  offsetSeconds : Int
  deriving DecidableEq

/-- What the stores take from their libraries: the text of binary64 values, SHA-256 as
    lower-case hexadecimal, the sequence of identifiers `new_event_id` draws, and the
    calendar that turns the system clock into a moment.

    Identifiers never repeat.  The texts of UUIDs are many but finitely many, so the test
    that a text is one (36 hexadecimal digits and dashes) is a parameter too.

    Nothing is assumed of `sha256`; a result that needs the absence of collisions says so. -/
structure Primitives extends Json.FloatText where
  sha256 : Bytes → String
  eventId : Nat → String
  eventId_injective : Function.Injective eventId
  isEventId : String → Bool
  isEventId_eventId : ∀ n, isEventId (eventId n)
  utc : Int → OffsetDateTime

/-- A digest that has no collisions: the bytes themselves, one character each. -/
def sampleDigest (bytes : Bytes) : String :=
  String.ofList (bytes.map fun b => Char.ofNat b.toNat)

theorem sampleDigest_injective : Function.Injective sampleDigest := by
  intro x y h
  have hlists := String.ofList_injective h
  refine List.map_injective_iff.mpr (fun a b hab => ?_) hlists
  have hbyte : ∀ n < 256, (Char.ofNat n).toNat = n := by decide +kernel
  have hnat := congrArg Char.toNat hab
  rw [hbyte _ a.toNat_lt, hbyte _ b.toNat_lt] at hnat
  exact UInt8.toNat_inj.mp hnat

/-- Primitives to run the stores with: `sampleFloats` for the text of binary64 values, a
    digest without collisions and numbers for identifiers. -/
def samplePrimitives : Primitives where
  toFloatText := Json.sampleFloats
  sha256 := sampleDigest
  eventId n := String.ofList (Nat.toDigits 10 n)
  eventId_injective := by
    intro m n h
    have hread := congrArg Json.readDigits (String.ofList_injective h)
    rw [Json.readDigits_toDigits, Json.readDigits_toDigits] at hread
    exact Option.some.inj hread
  isEventId _ := true
  isEventId_eventId _ := rfl
  utc clock := ⟨clock, 1, 0, 0, 0, 0, 0, 0, 0⟩

/-- `EventLogError`, without the variants only the blob migrations raise. -/
inductive EventLogError where
  | Invalid (message : String)
  | GuardRefused (code : String)
  | Overloaded
  | Closed
  | Deadline (operation : String)
  | UnknownCommit
  | Conflict (expected actual : Nat)
  | IdempotencyMismatch (key : String)
  | CausationDepthExceeded (depth limit : Nat)
  | NotFound
  | Backend (message : String)
  | Forked (stream : String) (heads : List String)
  | Unsupported (capability : String)
  deriving DecidableEq

/-! ## Limits -/

/-- The longest any identity, key or name may be, in bytes. -/
def MAX_FIELD_LEN : Nat := 512

/-- The most events one command may produce. -/
def MAX_EVENTS_PER_APPEND : Nat := 1024

/-- The most events any single read returns. -/
def MAX_READ_LIMIT : Nat := 1000

/-- How far a chain of automation may go. -/
def MAX_CAUSATION_DEPTH : Nat := 16

/-- The first value a `u64` cannot hold. -/
def u64Limit : Nat := 2 ^ 64

/-- `u64::checked_add`. -/
def checkedAdd (a b : Nat) : Option Nat :=
  if a + b < u64Limit then some (a + b) else none

/-- What a caller asked for, clamped to what a page may be. -/
def boundedLimit (limit : Nat) : Nat :=
  min (max limit 1) MAX_READ_LIMIT

theorem boundedLimit_pos (limit : Nat) : 0 < boundedLimit limit := by
  unfold boundedLimit MAX_READ_LIMIT
  omega

/-! ## Field checks -/

/-- `byte.is_ascii_graphic() || byte == b' '`. -/
def isPlainByte (b : UInt8) : Bool :=
  (0x21 ≤ b && b ≤ 0x7e) || b == 0x20

/-- `validate_field`. -/
def validateField (what value : String) : Except EventLogError Unit :=
  if value.isEmpty then .error (.Invalid (what ++ " is required"))
  else if value.utf8ByteSize > MAX_FIELD_LEN then .error (.Invalid (what ++ " is too long"))
  else if !(Json.utf8 value.toList).all isPlainByte then
    .error (.Invalid (what ++ " carries bytes that cannot be stored and logged verbatim"))
  else .ok ()

/-- `validate_identity`: an opaque id, never an address or a display name. -/
def validateIdentity (what value : String) : Except EventLogError Unit := do
  validateField what value
  if value.toList.contains '@' || value.toList.contains ' ' then
    throw (.Invalid (what ++ " must be an opaque id: an address or display name in an " ++
      "append-only log outlives every request to erase it"))

/-- A field check says whether the value is usable; what it is called matters only for
    the message. -/
def ValidField (value : String) : Prop :=
  validateField "" value = .ok ()

instance : Decidable (ValidField value) :=
  inferInstanceAs (Decidable (_ = _))

theorem validateField_eq_ok_iff (what value : String) :
    validateField what value = .ok () ↔ ValidField value := by
  unfold ValidField validateField
  split_ifs <;> simp

/-! ## Tenants and streams -/

/-- Whose history this is. -/
@[ext] structure TenantId where
  value : String
  valid : ValidField value
  deriving DecidableEq

/-- `TenantId::new`. -/
def TenantId.new (value : String) : Except EventLogError TenantId :=
  match h : validateField "tenant" value with
  | .error e => .error e
  | .ok () => .ok ⟨value, (validateField_eq_ok_iff _ _).mp h⟩

theorem TenantId.new_value (t : TenantId) : TenantId.new t.value = .ok t := by
  have hok := (validateField_eq_ok_iff "tenant" t.value).mpr t.valid
  unfold TenantId.new
  split
  · next h => rw [hok] at h; contradiction
  · rfl

theorem TenantId.value_of_new {value : String} {t : TenantId} (h : TenantId.new value = .ok t) :
    t.value = value := by
  unfold TenantId.new at h
  split at h
  · exact nomatch h
  · rw [← Except.ok.inj h]

/-- One aggregate's history: whose it is, what kind of thing it is, and which one. -/
structure StreamId where
  tenant : TenantId
  streamType : String
  streamId : String
  validType : ValidField streamType
  validId : ValidField streamId
  deriving DecidableEq

/-- `StreamId::new`. -/
def StreamId.new (tenant : TenantId) (streamType streamId : String) :
    Except EventLogError StreamId :=
  match htype : validateField "stream type" streamType with
  | .error e => .error e
  | .ok () =>
      match hid : validateField "stream id" streamId with
      | .error e => .error e
      | .ok () =>
          .ok ⟨tenant, streamType, streamId, (validateField_eq_ok_iff _ _).mp htype,
            (validateField_eq_ok_iff _ _).mp hid⟩

theorem StreamId.new_eq_ok_iff {t : TenantId} {ty id : String} {s : StreamId} :
    StreamId.new t ty id = .ok s ↔ s.tenant = t ∧ s.streamType = ty ∧ s.streamId = id := by
  unfold StreamId.new
  split
  · next e h =>
      constructor
      · intro h'; contradiction
      · rintro ⟨rfl, rfl, rfl⟩
        rw [(validateField_eq_ok_iff _ _).mpr s.validType] at h; contradiction
  · split
    · next e h =>
        constructor
        · intro h'; contradiction
        · rintro ⟨rfl, rfl, rfl⟩
          rw [(validateField_eq_ok_iff _ _).mpr s.validId] at h; contradiction
    · constructor
      · intro h; cases h; exact ⟨rfl, rfl, rfl⟩
      · rintro ⟨rfl, rfl, rfl⟩; rfl

instance : Serde TenantId where
  toValue t := toValue t.value
  fromValue j := (fromValue j).bind fun s => (TenantId.new s).toOption

instance : LawfulSerde TenantId := ⟨fun t => by
  change ((fromValue (toValue t.value)).bind fun s => (TenantId.new s).toOption) = some t
  simp [TenantId.new_value, Except.toOption]⟩

instance : NeverNull TenantId := ⟨fun t => NeverNull.toValue_ne_null t.value⟩

/-! ## Commands -/

/-- `HeadSetDigest`, by its hexadecimal form. -/
structure HeadSetDigest where
  hex : String
  deriving DecidableEq

/-- What the caller believes the stream's head is. -/
inductive Expected where
  | Any
  | NoStream
  | Exact (version : Nat)
  | Merge (heads : HeadSetDigest)
  deriving DecidableEq

/-- A fact a command decided on, before the store gave it a place in history. -/
structure NewEvent where
  name : String
  schemaVersion : Nat
  data : Json
  deriving DecidableEq

/-- `Value::is_object`. -/
def isObject : Json → Bool
  | .obj _ => true
  | _ => false

/-- `NewEvent::validate`. -/
def NewEvent.validate (e : NewEvent) : Except EventLogError Unit := do
  validateField "event name" e.name
  if !isObject e.data then
    throw (.Invalid "an event body must be a JSON object")

/-- A caller's claim on an idempotency key, across every stream. -/
structure Claim where
  scope : String
  key : String
  digest : String
  deriving DecidableEq

/-- `Claim::validate`. -/
def Claim.validate (c : Claim) : Except EventLogError Unit := do
  validateField "claim scope" c.scope
  validateField "claim key" c.key
  validateField "claim digest" c.digest

/-- Who issued a command, under which key, and what caused it. -/
structure CommandMeta where
  idempotencyKey : String
  requestHash : String
  subject : String
  actor : String
  requestId : String
  traceId : String
  causationId : Option String
  causationDepth : Nat
  occurredAt : OffsetDateTime
  claim : Option Claim
  deriving DecidableEq

/-- `CommandMeta::validate`. -/
def CommandMeta.validate (m : CommandMeta) : Except EventLogError Unit := do
  validateField "idempotency key" m.idempotencyKey
  validateField "request hash" m.requestHash
  validateIdentity "subject" m.subject
  validateIdentity "actor" m.actor
  validateField "request id" m.requestId
  validateField "trace id" m.traceId
  if let some id := m.causationId then
    validateField "causation id" id
  if let some claim := m.claim then
    claim.validate
  if m.causationDepth > MAX_CAUSATION_DEPTH then
    throw (.CausationDepthExceeded m.causationDepth MAX_CAUSATION_DEPTH)

/-- `validate_append`. -/
def validateAppend (events : List NewEvent) (command : CommandMeta) :
    Except EventLogError Unit := do
  if events.isEmpty then
    throw (.Invalid "a command that decided nothing has nothing to append")
  if events.length > MAX_EVENTS_PER_APPEND then
    throw (.Invalid "a command may produce at most 1024 events")
  events.forM NewEvent.validate
  command.validate

/-! ## History -/

/-- One fact, as history holds it. -/
structure RecordedEvent where
  globalSeq : Nat
  tenant : TenantId
  streamType : String
  streamId : String
  version : Nat
  eventId : String
  name : String
  schemaVersion : Nat
  occurredAt : OffsetDateTime
  recordedAt : OffsetDateTime
  subject : String
  actor : String
  requestId : String
  traceId : String
  causationId : Option String
  causationDepth : Nat
  redactedAt : Option OffsetDateTime
  data : Json
  digest : Option String
  parents : List String
  deriving DecidableEq

/-- `RecordedEvent::stream`. -/
def RecordedEvent.stream (e : RecordedEvent) : Except EventLogError StreamId :=
  StreamId.new e.tenant e.streamType e.streamId

/-- `RecordedEvent::is_redacted`. -/
def RecordedEvent.isRedacted (e : RecordedEvent) : Bool :=
  e.redactedAt.isSome

/-- What an append did. -/
structure AppendResult where
  firstVersion : Nat
  lastVersion : Nat
  events : List RecordedEvent
  deduplicated : Bool
  deriving DecidableEq

end Eventlog
