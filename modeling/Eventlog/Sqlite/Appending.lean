import Eventlog.Sqlite.Callbacks

/-!
# Eventlog.Sqlite.Appending

Appends and groups inside one `BEGIN IMMEDIATE`.

An append takes the identity of each event from the queue of restored ones while there are
any, and mints it otherwise; while there are any, its expectation is not checked.  A group
appends its members in order under one receipt.

The two forms that bind blobs differ in when they ask admission.  `groupInTransaction`
compares fingerprints and binds the content first; `guardedBatchInTransaction` admits first.
-/

namespace Eventlog.Sqlite

open Durable
open File (Table StreamId.key)

variable (P : Platform)

/-- A transaction: the tables, the restored identities not taken yet, and how much of its
    draws the call has used. -/
structure Tx where
  db : Db
  restored : List RestoredEvent
  drawn : Nat
  reads : Nat

/-- Work inside a transaction. -/
abbrev Work (α : Type) : Type := Session Tx EventLogError α

/-- What a handle's transactions run with: its inline projectors, the names of their
    projections, and its permit. -/
structure Serving where
  inline : List Projector
  inlineNames : List String
  permit : Nat

/-- `format_time`, for its failure only. -/
def checkTime (t : OffsetDateTime) : Except EventLogError Unit :=
  if (P.formatTime t).isSome then .ok () else .error (.Backend "moment has no RFC 3339 text")

/-- `check_expected`. -/
def checkExpected (expected : Expected) (head : Nat) : Except EventLogError Unit :=
  match expected with
  | .Any => .ok ()
  | .NoStream => if head = 0 then .ok () else .error (.Conflict 0 head)
  | .Exact version => if version = head then .ok () else .error (.Conflict version head)
  -- a linear store never forks, so there is no head set for a merge to join
  | .Merge _ => .error (.Unsupported "merge expectations")

/-- An event with its identity, at its place. -/
def recordedAs (stream : StreamId) (command : CommandMeta) (version position : Nat)
    (e : NewEvent) (identity : RestoredEvent) : RecordedEvent :=
  File.NewEvent.recorded e stream command version position identity.eventId identity.recordedAt

/-- The tables once an event is inserted. -/
def Ledger.insertEvent (l : Ledger) (stream : StreamId) (command : CommandMeta) (version : Nat)
    (e : NewEvent) (identity : RestoredEvent) : Ledger :=
  { l with
    events := l.events ++ [recordedAs stream command version (l.position + 1) e identity]
    position := l.position + 1
    origins := match identity.origin with
      | some origin => l.origins.insert (StreamId.key stream ++ [toString version]) origin
      | none => l.origins }

namespace Ledger

/-- The tables once a command's receipt is inserted. -/
def recordCommand (l : Ledger) (stream : StreamId) (command : CommandMeta) (first last : Nat) :
    Ledger :=
  let key := StreamId.key stream ++ [command.idempotencyKey]
  { l with commands := l.commands.insert key (command.requestHash, first, last) }

/-- The tables once a claim is inserted. -/
def recordClaim (l : Ledger) (stream : StreamId) (claim : Claim) (first last : Nat) : Ledger :=
  let key := [stream.tenant.value, claim.scope, claim.key]
  { l with claims := l.claims.insert key (claim.digest, ⟨stream, first, last⟩) }

/-- The tables once a group's receipt is inserted. -/
def recordGroup (l : Ledger) (group : AppendGroup) (fingerprint : String)
    (ranges : List GroupRange) : Ledger :=
  { l with groups := l.groups.insert (groupKey group) (fingerprint, ranges) }

/-- The tables once the digests a group bound are inserted. -/
def recordBatch (l : Ledger) (group : AppendGroup) (digests : List String) : Ledger :=
  { l with batches := l.batches.insert (groupKey group) digests }

/-- The tables once a blob is bound. -/
def bind (l : Ledger) (tenant : TenantId) (b : BlobWrite) : Ledger :=
  { l with blobs := l.blobs.insert [tenant.value, b.digest] b.bytes }

/-- The comparison of a retry's batch with what is still bound. -/
def holdsBatch (l : Ledger) (tenant : TenantId) (writes : List BlobWrite) :
    Except EventLogError Unit :=
  writes.forM fun b =>
    match l.boundBlob tenant b.digest with
    | some bound => if bound ≠ b.bytes then .error File.contradicted else .ok ()
    | none => .ok ()

/-- The digests the commit of a group recorded; none if it carried no batch. -/
def batch (l : Ledger) (group : AppendGroup) : List String :=
  l.batches[groupKey group]?.getD []

end Ledger

namespace Work

/-- Checks that need no state. -/
def check (r : Except EventLogError α) : Work α := Session.ask fun _ => r

/-- Changes the tables of history. -/
def changeLedger (f : Ledger → Ledger) : Work Unit :=
  Session.change fun tx => { tx with db := { tx.db with toLedger := f tx.db.toLedger } }

/-- Runs a callback. -/
def call (v : View) (c : Callback) : Work Unit := fun tx =>
  ((v.call P c tx.db).1, { tx with db := (v.call P c tx.db).2 })

/-- `OffsetDateTime::now_utc`. -/
def now (D : Draws) : Work OffsetDateTime := fun tx =>
  (.ok (D.now tx.reads), { tx with reads := tx.reads + 1 })

/-- The identity of the next event: the first restored one, or a new one. -/
def identity (D : Draws) (minted : OffsetDateTime) : Work RestoredEvent := fun tx =>
  match tx.restored with
  | restored :: rest => (.ok restored, { tx with restored := rest })
  | [] => (.ok ⟨D.id tx.drawn, minted, none⟩, { tx with drawn := tx.drawn + 1 })

/-- One round of the loop of an append over its events. -/
def insertEvent (D : Draws) (stream : StreamId) (command : CommandMeta) (minted : OffsetDateTime)
    (version : Nat) (e : NewEvent) : Work RecordedEvent := do
  let identity ← identity D minted
  check (checkTime P identity.recordedAt)
  let position ← Session.ask fun tx => .ok (tx.db.position + 1)
  changeLedger fun l => l.insertEvent stream command version e identity
  return recordedAs stream command version position e identity

/-- The loop of an append over its events. -/
def insertEvents (D : Draws) (stream : StreamId) (command : CommandMeta)
    (minted : OffsetDateTime) : Nat → List NewEvent → Work (List RecordedEvent)
  | _, [] => pure []
  | version, e :: rest => do
      let event ← insertEvent P D stream command minted version e
      let events ← insertEvents D stream command minted (version + 1) rest
      return event :: events

/-- The view a guard gets. -/
def guardView (S : Serving) (tenant : TenantId) : View :=
  ⟨tenant, some S.permit, S.inlineNames, none, false⟩

/-- The view an inline projector gets. -/
def projectorView (S : Serving) (tenant : TenantId) : View :=
  ⟨tenant, none, S.inlineNames, none, false⟩

/-- The loop of an append over the inline projectors. -/
def project (S : Serving) (tenant : TenantId) (written : List RecordedEvent) : Work Unit :=
  S.inline.forM fun projector =>
    written.forM fun event => call P (projectorView S tenant) (projector.apply event)

/-- The part of an append after its key is found to be new: admission, the events, their
    receipts and projections. -/
def appendNew (S : Serving) (D : Draws) (stream : StreamId) (expected : Expected)
    (events : List NewEvent) (command : CommandMeta) (guard : Callback)
    (recordCommand : Bool) : Work AppendResult := do
  let head ← Session.ask fun tx => .ok (tx.db.head stream)
  -- a replayed append passed its expectation when it was first written
  Session.ask fun tx => if tx.restored.isEmpty then checkExpected expected head else .ok ()
  call P (guardView S stream.tenant) guard
  let minted ← now D
  check (checkTime P command.occurredAt)
  let written ← insertEvents P D stream command minted (head + 1) events
  let first := head + 1
  let last := head + events.length
  check (checkTime P ((written.getLast?.map RecordedEvent.recordedAt).getD minted))
  if recordCommand then
    changeLedger fun l => l.recordCommand stream command first last
  project P S stream.tenant written
  if let some claim := command.claim then
    changeLedger fun l => l.recordClaim stream claim first last
  return ⟨first, last, written, false⟩

/-- What an append finds recorded for its command: the claim first, then the key. -/
def recordedAppend (l : Ledger) (stream : StreamId) (command : CommandMeta) :
    Except EventLogError (Option AppendResult) := do
  let claimed ← match command.claim with
    | some claim => l.recordedClaim stream.tenant claim
    | none => .ok none
  match claimed with
  | some range => return some (← l.recorded P range)
  | none => l.recordedCommand P stream command.idempotencyKey command.requestHash

/-- `append_in_transaction`; `record_command` is false for the members of a group, whose
    receipt is the group's. -/
def appendInTransaction (S : Serving) (D : Draws) (stream : StreamId) (expected : Expected)
    (events : List NewEvent) (command : CommandMeta) (guard : Callback)
    (recordCommand : Bool) : Work AppendResult := do
  let found ← Session.ask fun tx =>
    if recordCommand then recordedAppend P tx.db.toLedger stream command else .ok none
  match found with
  | some result => pure result
  | none => appendNew P S D stream expected events command guard recordCommand

/-! ## Groups -/

/-- `bind_group_blobs`: an equal binding is kept, a different one is refused. -/
def bindGroupBlobs (tenant : TenantId) : List BlobWrite → Work Unit
  | [] => pure ()
  | b :: rest => do
      let bound ← Session.ask fun tx => .ok (tx.db.boundBlob tenant b.digest)
      match bound with
      | some bytes =>
          if bytes ≠ b.bytes then Session.refuse File.contradicted
          else bindGroupBlobs tenant rest
      | none => do
          changeLedger fun l => l.bind tenant b
          bindGroupBlobs tenant rest

/-- `admit`. -/
def admission (S : Serving) (group : AppendGroup) (guard : Callback) : Work Unit :=
  call P (guardView S group.tenant) guard

/-- The loop of `append_members` over the entries. -/
def appendEntries (S : Serving) (D : Draws) (command : CommandMeta) :
    List StreamAppend → Work (List (GroupRange × AppendResult))
  | [] => pure []
  | entry :: rest => do
      let result ← appendInTransaction P S D entry.stream entry.expected entry.events command
        noGuard false
      let others ← appendEntries S D command rest
      return (⟨entry.stream, result.firstVersion, result.lastVersion⟩, result) :: others

/-- `append_members`. -/
def appendMembers (S : Serving) (D : Draws) (group : AppendGroup) (fingerprint : String) :
    Work AppendGroupResult := do
  let entries ← appendEntries P S D group.command group.appends
  changeLedger fun l => l.recordGroup group fingerprint (entries.map Prod.fst)
  return ⟨entries.map Prod.snd, false⟩

/-- `group_in_transaction`: the receipt, then the content, then admission. -/
def groupInTransaction (S : Serving) (D : Draws) (group : AppendGroup) (fingerprint : String)
    (blobs : List BlobWrite) (guard : Callback) : Work AppendGroupResult := do
  let receipt ← Session.ask fun tx => .ok (tx.db.receipt group)
  match receipt with
  | some (recorded, ranges) =>
      if recorded ≠ fingerprint then
        Session.refuse (.IdempotencyMismatch group.command.idempotencyKey)
      else Session.ask fun tx => tx.db.replay P group ranges
  | none => do
      bindGroupBlobs group.tenant blobs
      admission P S group guard
      appendMembers P S D group fingerprint

/-- The part of `guarded_batch_in_transaction` for a key that is committed: admission before
    anything is said about the batch. -/
def batchCommitted (S : Serving) (group : AppendGroup) (fingerprint blobFingerprint : String)
    (writes : List BlobWrite) (guard : Callback) (recorded : String)
    (ranges : List GroupRange) : Work AppendGroupResult := do
  admission P S group guard
  if recorded ≠ fingerprint ∧ recorded ≠ blobFingerprint then
    Session.refuse (.IdempotencyMismatch group.command.idempotencyKey)
  else if recorded ≠ fingerprint then
    Session.ask fun tx => tx.db.replay P group ranges
  else do
    Session.ask fun tx =>
      if tx.db.batch group ≠ writes.map BlobWrite.digest then
        .error (.IdempotencyMismatch group.command.idempotencyKey)
      else tx.db.holdsBatch group.tenant writes
    Session.ask fun tx => tx.db.replay P group ranges

/-- The part of `guarded_batch_in_transaction` for a key that is new. -/
def batchNew (S : Serving) (D : Draws) (group : AppendGroup) (fingerprint : String)
    (writes : List BlobWrite) (guard : Callback) : Work AppendGroupResult := do
  admission P S group guard
  bindGroupBlobs group.tenant writes
  let result ← appendMembers P S D group fingerprint
  changeLedger fun l => l.recordBatch group (writes.map BlobWrite.digest)
  return result

/-- `guarded_batch_in_transaction`. -/
def guardedBatchInTransaction (S : Serving) (D : Draws) (group : AppendGroup)
    (fingerprint blobFingerprint : String) (writes : List BlobWrite) (guard : Callback) :
    Work AppendGroupResult := do
  let receipt ← Session.ask fun tx => .ok (tx.db.receipt group)
  match receipt with
  | some (recorded, ranges) =>
      batchCommitted P S group fingerprint blobFingerprint writes guard recorded ranges
  | none => batchNew P S D group fingerprint writes guard

end Work

end Eventlog.Sqlite
