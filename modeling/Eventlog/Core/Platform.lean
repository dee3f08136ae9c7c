import Eventlog.Core.Groups

/-!
# Eventlog.Core.Platform

What the SQLite and Tree stores take from their libraries beyond `Primitives`: the RFC 3339
text of moments, and the order of moments on the time line.

What a call draws from outside itself, identifiers and readings of the clock, is an argument
of the call (`Draws`): a result about every call is a result about every clock.
-/

namespace Eventlog

/-- `Primitives` with the text of moments, and the test that a text is a digest.

    Not every moment has a text: RFC 3339 has four digits for a year and no seconds in an
    offset.  The texts of SHA-256 digests are many but finitely many, so the test for 64
    lower-case hexadecimal digits is a parameter. -/
structure Platform extends Primitives where
  isSha256 : String → Bool
  isSha256_sha256 : ∀ bytes, isSha256 (sha256 bytes)
  formatTime : OffsetDateTime → Option String
  parseTime : String → Option OffsetDateTime
  parseTime_formatTime : ∀ {t s}, formatTime t = some s → parseTime s = some t

/-- A platform to run the stores with: a moment is written as the numbers it is made of. -/
def samplePlatform : Platform where
  toPrimitives := samplePrimitives
  isSha256 _ := true
  isSha256_sha256 _ := rfl
  formatTime t := some (String.ofList (Json.print Json.sampleFloats t.toJson))
  parseTime s := (Json.parse Json.sampleFloats s.toList).bind OffsetDateTime.ofJson
  parseTime_formatTime := by
    intro t s h
    obtain rfl := Option.some.inj h
    have hstable : Json.Stable Json.sampleFloats t.toJson :=
      Floatless.stable_toValue Json.sampleFloats t
    have hdepth : t.toJson.depth ≤ Json.maxDepth := by
      simp [OffsetDateTime.toJson, toValue, Json.depth, Json.depthItems, Json.maxDepth]
    rw [String.toList_ofList, (Json.parse_print_eq_some_iff _ _).mpr ⟨hstable, hdepth⟩]
    exact LawfulSerde.fromValue_toValue t

/-- Days from the first of January of the year 1 to the first of January of `year`. -/
def daysBefore (year : Int) : Int :=
  let y := year - 1
  365 * y + y / 4 - y / 100 + y / 400

/-- Where a moment is on the time line, in nanoseconds.  `OffsetDateTime` is ordered by it:
    the same moment told in two offsets is the same. -/
def OffsetDateTime.instant (t : OffsetDateTime) : Int :=
  let days := daysBefore t.year + t.ordinal
  let seconds := ((days * 24 + t.hour) * 60 + t.minute) * 60 + t.second
  let offset := (t.offsetHours * 60 + t.offsetMinutes) * 60 + t.offsetSeconds
  (seconds - offset) * 1000000000 + t.nanosecond

/-- What one call draws: the identifiers `new_event_id` gives it, and what it reads from the
    clock, each in the order it asks.  An identifier is the text of a UUID, so it can be stored
    wherever a field can. -/
structure Draws where
  id : Nat → String
  now : Nat → OffsetDateTime
  valid : ∀ n, ValidField (id n)

/-- What is left once `n` identifiers and readings are taken. -/
def Draws.from (D : Draws) (n : Nat) : Draws :=
  ⟨fun i => D.id (n + i), fun i => D.now (n + i), fun i => D.valid (n + i)⟩

/-! ## Values to run the stores with -/

def sampleTime : OffsetDateTime := ⟨2026, 1, 0, 0, 0, 0, 0, 0, 0⟩

def sampleTenant : TenantId := ⟨"t", by decide +kernel⟩

def sampleStream : StreamId := ⟨sampleTenant, "account", "a", by decide +kernel, by decide +kernel⟩

def sampleCommand (key : String) : CommandMeta where
  idempotencyKey := key
  requestHash := "h"
  subject := "s"
  actor := "a"
  requestId := "r"
  traceId := "t"
  causationId := none
  causationDepth := 0
  occurredAt := sampleTime
  claim := none

def sampleGroup (key : String) (body : Json) : AppendGroup :=
  ⟨sampleTenant, [⟨sampleStream, .Any, [⟨"e", 1, body⟩]⟩], sampleCommand key⟩

theorem validField_e : ValidField "e" := by decide +kernel

theorem validField_i : ValidField "i" := by decide +kernel

/-- Draws of a call that needs one identifier. -/
def sampleDraws (id : String) (h : ValidField id) : Draws := ⟨fun _ => id, fun _ => sampleTime, fun _ => h⟩

end Eventlog
