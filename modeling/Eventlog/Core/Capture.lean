import Eventlog.Core.Records

/-!
# Eventlog.Core.Capture

The checks a reader makes of stored events before it hands them on: that a constructor of
this kit could have produced each one, and that positions and versions are in order.

The order of a store whose streams can fork is another one: an event carries its digest and
those of its parents, and its version is one more than the highest of theirs.
-/

namespace Eventlog

/-- `validate_captured_event`; every refusal is the same. -/
def capturedEvent (tenant : TenantId) (e : RecordedEvent) : Bool :=
  decide (e.tenant = tenant) && e.version != 0 && e.globalSeq != 0 && e.stream.isOk &&
    [("event name", e.name), ("event id", e.eventId), ("request id", e.requestId),
      ("trace id", e.traceId)].all (fun f => (validateField f.1 f.2).isOk) &&
    [("subject", e.subject), ("actor", e.actor)].all (fun f => (validateIdentity f.1 f.2).isOk) &&
    e.causationId.all (fun id => (validateField "causation id" id).isOk) &&
    decide (e.causationDepth ≤ MAX_CAUSATION_DEPTH) && isObject e.data

/-- The head of an event's stream among those read before it. -/
def capturedHead (earlier : List RecordedEvent) (e : RecordedEvent) : Nat :=
  let same := earlier.filter fun o => o.streamType == e.streamType && o.streamId == e.streamId
  (same.getLast?.map RecordedEvent.version).getD 0

/-- The loop of `validate_captured_order`, after the events read so far. -/
def capturedFrom (tenant : TenantId) (position : Nat) :
    List RecordedEvent → List RecordedEvent → Bool
  | _, [] => true
  | earlier, e :: rest =>
      capturedEvent tenant e && decide (position < e.globalSeq) &&
        checkedAdd (capturedHead earlier e) 1 == some e.version &&
        capturedFrom tenant e.globalSeq (earlier ++ [e]) rest

/-- `validate_captured_order`. -/
def capturedOrder (tenant : TenantId) (events : List RecordedEvent) : Bool :=
  capturedFrom tenant 0 [] events

end Eventlog
