import Eventlog.Sqlite.Admission
import Eventlog.Sqlite.Filling

/-!
# Eventlog.Sqlite.Calls

The calls of one handle, and what each does to its events and its queue.

A writing call is refused, answers from what is recorded, or fills the shelf
(`Engine.write_wrote`).
-/

namespace Eventlog.Sqlite

open Durable Session
open File (Table RecordedEvent.isOn)

variable {P : Platform} {D : Draws} {tx tx' : Tx}

/-! ## Transactions -/

/-- Events, origins and queue are as they were. -/
def Tx.Kept (tx : Tx) (_ : Bool) (tx' : Tx) : Prop := tx'.shelf = tx.shelf

theorem kept_composes : Composes Tx.Kept := ⟨fun _ _ => rfl, fun _ _ _ _ h h' => h'.trans h⟩

theorem call_kept (v : View) (c : Callback) : Obeys Tx.Kept (Work.call P v c) := fun tx => by
  have h := Work.call_framed P v c tx
  have hl := h.rows.ledger
  unfold Tx.Kept Tx.shelf
  rw [h.restored, hl]

theorem bindGroupBlobs_kept (tenant : TenantId) (blobs : List BlobWrite) :
    Obeys Tx.Kept (Work.bindGroupBlobs tenant blobs) := by
  induction blobs with
  | nil => exact obeys_pure kept_composes _
  | cons b rest ih =>
      refine (obeys_ask kept_composes _).bind kept_composes fun bound => ?_
      cases bound with
      | none => exact Obeys.bind kept_composes (fun _ => rfl) fun _ => ih
      | some bytes =>
          dsimp only
          split
          · exact obeys_refuse kept_composes _
          · exact ih

theorem shelf_of_kept {w : Work α} (h : Obeys Tx.Kept w) {a : α} (hrun : w tx = (.ok a, tx')) :
    tx'.shelf = tx.shelf := by
  have := h tx
  rwa [hrun] at this

section Groups

variable {S : Serving} {group : AppendGroup} {fingerprint : String} {result : AppendGroupResult}
  (hvalid : ∀ a ∈ group.appends, validateAppend a.events group.command = .ok ())

include hvalid

theorem appendMembers_fills
    (h : Work.appendMembers P S D group fingerprint tx = (.ok result, tx')) :
    result.deduplicated = false ∧
      Shelf.Fills D tx.shelf (result.appends.flatMap AppendResult.events) tx'.shelf := by
  simp only [Work.appendMembers, bind_eq_ok_iff, Work.changeLedger, change_eq_ok_iff,
    pure_eq_ok_iff] at h
  obtain ⟨out, tx₁, hentries, _, _, rfl, rfl, rfl⟩ := h
  exact ⟨rfl, ((Work.appendEntries_entered P hentries).1.fills hvalid :)⟩

theorem groupInTransaction_fills {blobs : List BlobWrite} {guard : Callback}
    (h : Work.groupInTransaction P S D group fingerprint blobs guard tx = (.ok result, tx')) :
    (result.deduplicated = true ∧ tx' = tx) ∨ (result.deduplicated = false ∧
      Shelf.Fills D tx.shelf (result.appends.flatMap AppendResult.events) tx'.shelf) := by
  rw [Work.groupInTransaction, get_bind] at h
  rcases hreceipt : tx.db.receipt group with _ | ⟨recorded, ranges⟩ <;> rw [hreceipt] at h
  · obtain ⟨_, tx₁, hbound, h⟩ := bind_eq_ok_iff.mp h
    obtain ⟨_, tx₂, hadmitted, h⟩ := bind_eq_ok_iff.mp h
    rw [← shelf_of_kept (bindGroupBlobs_kept _ _) hbound, ← shelf_of_kept (call_kept _ _) hadmitted]
    exact .inr (appendMembers_fills hvalid h)
  · dsimp only at h
    split at h
    · cases h
    · obtain ⟨hreplay, rfl⟩ := ask_eq_ok_iff.mp h
      obtain ⟨_, -, hresult⟩ := Checks.bind_eq_ok_iff.mp hreplay
      exact .inl ⟨by rw [← Checks.pure_eq_ok_iff.mp hresult], rfl⟩

theorem guardedBatch_fills {blobFingerprint : String} {writes : List BlobWrite} {guard : Callback}
    (h : Work.guardedBatchInTransaction P S D group fingerprint blobFingerprint writes guard tx =
      (.ok result, tx')) :
    result.deduplicated = true ∨ (result.deduplicated = false ∧
      Shelf.Fills D tx.shelf (result.appends.flatMap AppendResult.events) tx'.shelf) := by
  rw [Work.guardedBatchInTransaction, get_bind] at h
  rcases hreceipt : tx.db.receipt group with _ | ⟨recorded, ranges⟩ <;> rw [hreceipt] at h
  · right
    obtain ⟨_, tx₁, hadmitted, h⟩ := bind_eq_ok_iff.mp h
    obtain ⟨_, tx₂, hbound, h⟩ := bind_eq_ok_iff.mp h
    obtain ⟨_, tx₃, hmembers, h⟩ := bind_eq_ok_iff.mp h
    simp only [Work.changeLedger, bind_eq_ok_iff, change_eq_ok_iff, pure_eq_ok_iff] at h
    obtain ⟨_, _, rfl, rfl, rfl⟩ := h
    rw [← shelf_of_kept (call_kept _ _) hadmitted, ← shelf_of_kept (bindGroupBlobs_kept _ _) hbound]
    exact (appendMembers_fills hvalid hmembers :)
  · left
    have hreplayed : ∀ {tx tx' : Tx}, Session.ask (fun tx => tx.db.replay P group ranges) tx =
        (.ok result, tx') → result.deduplicated = true := by
      intro tx tx' hask
      obtain ⟨hreplay, -⟩ := ask_eq_ok_iff.mp hask
      obtain ⟨_, -, hresult⟩ := Checks.bind_eq_ok_iff.mp hreplay
      rw [← Checks.pure_eq_ok_iff.mp hresult]
    obtain ⟨_, tx₁, -, h⟩ := bind_eq_ok_iff.mp h
    split at h
    · cases h
    · split at h
      · exact hreplayed h
      · obtain ⟨_, tx₂, -, h⟩ := bind_eq_ok_iff.mp h
        exact hreplayed h

end Groups

/-! ## Writing calls -/

/-- A call that appends. -/
inductive Write where
  | append (stream : StreamId) (expected : Expected) (events : List NewEvent)
      (command : CommandMeta) (guard : Callback)
  | group (group : AppendGroup) (guard : Callback)
  | blobGroup (request : BlobAppendGroup) (guard : Callback)
  | batch (group : AppendGroup) (guard : Callback) (blobs : List BlobWrite)

/-- What a writing call answers: whether it found its command recorded, and the events. -/
def ofAppend (r : AppendResult) : Bool × List RecordedEvent := (r.deduplicated, r.events)

@[inherit_doc ofAppend]
def ofGroup (r : AppendGroupResult) : Bool × List RecordedEvent :=
  (r.deduplicated, r.appends.flatMap AppendResult.events)

namespace Engine

/-- A writing call. -/
def write (P : Platform) (e : Engine) (D : Draws) : Write → Answer (Bool × List RecordedEvent)
  | .append stream expected events command guard =>
      (e.appendGuarded P D stream expected events command guard).map (Except.map ofAppend) id
  | .group group guard => (e.appendGroupGuarded P D group guard).map (Except.map ofGroup) id
  | .blobGroup request guard =>
      (e.appendGroupWithBlobsGuarded P D request guard).map (Except.map ofGroup) id
  | .batch group guard blobs =>
      (e.appendGroupGuardedWithBlobs P D group guard blobs).map (Except.map ofGroup) id

variable {e : Engine}

/-- What a writing call leaves: the shelf as it was, or filled with the events it answers. -/
inductive Wrote (D : Draws) (s : Shelf) :
    Except EventLogError (Bool × List RecordedEvent) → Shelf → Prop
  | refused (error : EventLogError) : Wrote D s (.error error) s
  | deduplicated (events : List RecordedEvent) : Wrote D s (.ok (true, events)) s
  | filled {events : List RecordedEvent} {s' : Shelf} (h : Shelf.Fills D s events s') :
      Wrote D s (.ok (false, events)) s'

/-- The answer of a transaction that deduplicates or fills. -/
theorem wrote_of_transact {α : Type} {w : Work α} (f : α → Bool × List RecordedEvent)
    (h : ∀ a tx, w e.start = (.ok a, tx) → ((f a).1 = true ∧ tx = e.start) ∨
      ((f a).1 = false ∧ Shelf.Fills D e.shelf (f a).2 tx.shelf)) :
    Wrote D e.shelf ((e.freeze.transact w).1.map f) (e.freeze.transact w).2.shelf := by
  rcases hanswer : e.freeze.transact w with ⟨error | a, e'⟩
  · obtain rfl := transact_error hanswer
    exact .refused error
  · obtain ⟨tx, hrun, rfl⟩ := transact_eq_ok_iff.mp hanswer
    have hcases := h a tx hrun
    simp only [Except.map]
    generalize f a = answer at hcases ⊢
    obtain ⟨dedup, events⟩ := answer
    rcases hcases with ⟨hflag, hrest⟩ | ⟨hflag, hrest⟩
    · obtain rfl : dedup = true := hflag
      rw [hrest]
      exact .deduplicated events
    · obtain rfl : dedup = false := hflag
      exact .filled hrest

theorem group_wrote {group : AppendGroup} (hcheck : group.check = .ok ()) (fingerprint : String)
    (blobs : List BlobWrite) (guard : Callback) :
    let answer := e.freeze.transact (Work.groupInTransaction P e.serving D group fingerprint blobs
      guard)
    Wrote D e.shelf (answer.1.map ofGroup) answer.2.shelf :=
  wrote_of_transact ofGroup fun _ _ hrun => groupInTransaction_fills
    (fun a ha => ((AppendGroup.entries_of_check hcheck).2 a ha).2) hrun

theorem appendGroupGuarded_wrote (group : AppendGroup) (guard : Callback) :
    Wrote D e.shelf ((e.appendGroupGuarded P D group guard).1.map ofGroup)
      (e.appendGroupGuarded P D group guard).2.shelf := by
  unfold appendGroupGuarded
  cases hf : group.fingerprint P.toPrimitives with
  | error error => exact .refused error
  | ok fingerprint => exact group_wrote ((AppendGroup.fingerprint_eq_ok_iff _).mp hf).1 _ _ _

/-- **A writing call** is refused or deduplicated and leaves events and queue alone, or fills the
    shelf with the events it answers. -/
theorem write_wrote (e : Engine) (D : Draws) (w : Write) :
    Wrote D e.shelf (e.write P D w).1 (e.write P D w).2.shelf := by
  cases w with
  | append stream expected events command guard =>
      simp only [write, Prod.map, id, appendGuarded]
      cases hvalid : validateAppend events command with
      | error error => exact .refused error
      | ok u =>
          refine wrote_of_transact ofAppend fun result tx hrun => ?_
          rcases Work.appendInTransaction_cases P hrun with ⟨-, hfound, rfl⟩ | ⟨-, hwrote⟩
          · exact .inl ⟨Work.deduplicated_of_recordedAppend hfound, rfl⟩
          · exact .inr ⟨by rw [ofAppend, hwrote.result], hwrote.fills hvalid⟩
  | group group guard => exact appendGroupGuarded_wrote group guard
  | blobGroup request guard =>
      simp only [write, Prod.map, id, appendGroupWithBlobsGuarded]
      cases hf : request.fingerprint P.toPrimitives with
      | error error => exact .refused error
      | ok fingerprint =>
          exact group_wrote ((BlobAppendGroup.fingerprint_eq_ok_iff _).mp hf).1 _ _ _
  | batch group guard blobs =>
      simp only [write, Prod.map, id, appendGroupGuardedWithBlobs]
      split
      · exact appendGroupGuarded_wrote group guard
      rcases hplan : planBatch P group blobs with error | ⟨fingerprint, writes, blobFingerprint⟩
      · exact .refused error
      obtain ⟨_, hf, -⟩ := Checks.bind_eq_ok_iff.mp hplan
      have hcheck := ((AppendGroup.fingerprint_eq_ok_iff _).mp hf).1
      have hvalid := fun a ha => ((AppendGroup.entries_of_check hcheck).2 a ha).2
      rcases hanswer : e.freeze.transact (Work.guardedBatchInTransaction P e.serving D group
        fingerprint blobFingerprint writes guard) with ⟨error | result, engine'⟩
      · obtain rfl := transact_error hanswer
        simp only [hanswer]
        exact .refused error
      · obtain ⟨tx, hrun, rfl⟩ := transact_eq_ok_iff.mp hanswer
        simp only [hanswer]
        rcases guardedBatch_fills hvalid hrun with hdedup | ⟨hfresh, hfills⟩
        · simp only [Except.map, ofGroup, hdedup, if_true]
          exact .deduplicated _
        · simp only [Except.map, ofGroup, hfresh, Bool.false_eq_true, if_false]
          exact .filled hfills

end Engine

/-! ## All calls -/

/-- A shelf whose event at a version was redacted. -/
def Shelf.redacted (s : Shelf) (stream : StreamId) (version : Nat) (reason : String)
    (now : OffsetDateTime) : Shelf :=
  { s with events := s.events.map fun event =>
      if Engine.isAt stream version event then Engine.redactedAs reason now event else event }

/-- A shelf without a tenant's events. -/
def Shelf.forgot (s : Shelf) (tenant : TenantId) : Shelf :=
  { s with
    events := s.events.filter fun event => event.tenant != tenant
    origins := Engine.without tenant 0 s.origins }

/-- **What a call does to a shelf.** -/
inductive Shelf.Turns (s : Shelf) : Shelf → Prop
  | kept : Turns s s
  | queued (events : List RestoredEvent) : Turns s { s with restored := events }
  | filled {D : Draws} {written : List RecordedEvent} {s' : Shelf}
      (h : Fills D s written s') : Turns s s'
  | redacted (stream : StreamId) (version : Nat) (reason : String) (now : OffsetDateTime) :
      Turns s (s.redacted stream version reason now)
  | forgot (tenant : TenantId) : Turns s (s.forgot tenant)

namespace Engine

/-- A call of a handle; `reopen` is a new handle on the same tables. -/
inductive Call where
  | restoreEvents (events : List RestoredEvent)
  | write (D : Draws) (w : Write)
  | redact (D : Draws) (stream : StreamId) (version : Nat) (reason : String)
  | forgetTenant (tenant : TenantId)
  | reopen (serving : Serving)
  | restoreStreamIdentity (tenant : TenantId) (identity : String)
  | streamIdentity (D : Draws) (tenant : TenantId)
  | putBlob (tenant : TenantId) (digest : String) (bytes : Bytes)
  | deleteBlob (tenant : TenantId) (digest : String)
  | createProjections (projector : Projector)
  | registerInline (projector : Projector)
  | runCatchUp (D : Draws) (projector : Projector) (tenant : TenantId) (batch : Nat)
  | rebuildProjection (D : Draws) (projector : Projector) (tenant : TenantId)
  | rebuildInlineProjection (D : Draws) (name : String) (tenant : TenantId)
  | snapshotGeneration (D : Draws) (stream : StreamId)
  | saveSnapshotChecked (stream : StreamId) (snapshot : Snapshot) (generation : String)

/-- The handle after a call. -/
def serve (P : Platform) (e : Engine) : Call → Engine
  | .restoreEvents events => (e.restoreEvents events).2
  | .write D w => (e.write P D w).2
  | .redact D stream version reason => (e.redact P D stream version reason).2
  | .forgetTenant tenant => (e.forgetTenant tenant).2
  | .reopen serving => { e with serving, registration := false, restored := [] }
  | .restoreStreamIdentity tenant identity => (e.restoreStreamIdentity tenant identity).2
  | .streamIdentity D tenant => (e.streamIdentity D tenant).2
  | .putBlob tenant digest bytes => (e.putBlob tenant digest bytes).2
  | .deleteBlob tenant digest => (e.deleteBlob tenant digest).2
  | .createProjections projector => (e.createProjections projector).2
  | .registerInline projector => (e.registerInline projector).2
  | .runCatchUp D projector tenant batch => (e.runCatchUp P D projector tenant batch).2
  | .rebuildProjection D projector tenant => (e.rebuildProjection P D projector tenant).2
  | .rebuildInlineProjection D name tenant => (e.rebuildInlineProjection P D name tenant).2
  | .snapshotGeneration D stream => (e.snapshotGeneration D stream).2
  | .saveSnapshotChecked stream snapshot generation =>
      (e.saveSnapshotChecked P stream snapshot generation).2

/-- A run of calls. -/
def serveAll (P : Platform) (e : Engine) (calls : List Call) : Engine := calls.foldl (serve P) e

variable {e e' : Engine} {D : Draws} {projector : Projector} {tenant : TenantId}

theorem applyAll_ledger {v : View} {projector : Projector} {events : List RecordedEvent}
    {db db' : Db} (h : v.applyAll P projector events db = (.ok (), db')) :
    db'.toLedger = db.toLedger := by
  have hobeys : Obeys (fun db (_ : Bool) db' => RowsOnly db db') (v.applyAll P projector events) :=
    obeys_forM ⟨fun db _ => .refl db, fun _ _ _ _ h h' => h.trans h'⟩
      fun _ _ db => v.call_rowsOnly P _ db
  have hrows := hobeys db
  rw [h] at hrows
  exact hrows.ledger

theorem exchange_ledger {tablePrefix : String} {tenant : TenantId} {specs : List ProjectionSpec}
    {active temporary db : Db} (h : exchange tablePrefix tenant specs active temporary = .ok db) :
    db.toLedger = active.toLedger := by
  induction specs generalizing active temporary with
  | nil => rw [← Except.ok.inj h]
  | cons spec rest ih =>
      unfold exchange at h
      split at h
      · split_ifs at h
        rw [ih h]
      · split_ifs at h
        exact ih h

theorem exchanged_shelf {temporary : Db} {position : Nat}
    (h : e.exchanged P D projector tenant temporary position = .ok e') : e'.shelf = e.shelf := by
  obtain ⟨active, hexchange, h⟩ := Checks.bind_eq_ok_iff.mp h
  obtain ⟨_, -, h⟩ := Checks.bind_eq_ok_iff.mp h
  obtain rfl := Except.ok.inj h
  have hl := exchange_ledger hexchange
  simp only [shelf, start, Tx.shelf, hl]

theorem createProjections_shelf : (e.createProjections projector).2.shelf = e.shelf := by
  unfold createProjections
  split
  · rename_i db h
    simp only [shelf, start, Tx.shelf, planTables_ledger h]
  · rfl

theorem registerInline_shelf : (e.registerInline projector).2.shelf = e.shelf := by
  unfold registerInline
  split
  · rfl
  · rename_i db h
    obtain ⟨_, -, h⟩ := Checks.bind_eq_ok_iff.mp h
    simp only [shelf, start, Tx.shelf, planTables_ledger h]

theorem runCatchUp_shelf {batch : Nat} :
    (e.runCatchUp P D projector tenant batch).2.shelf = e.shelf := by
  unfold runCatchUp
  dsimp only
  split
  · rfl
  · split
    · rfl
    · rename_i db h
      split
      · rfl
      · simp only [shelf, start, Tx.shelf, applyAll_ledger h]

theorem rebuildProjection_shelf :
    (e.rebuildProjection P D projector tenant).2.shelf = e.shelf := by
  unfold rebuildProjection
  split_ifs
  · rfl
  · split
    · rfl
    · rename_i h
      obtain ⟨_, -, h⟩ := Checks.bind_eq_ok_iff.mp h
      dsimp only at h
      split_ifs at h
      · exact nomatch h
      · split at h
        · exact nomatch h
        · obtain ⟨_, hexchanged, h⟩ := Checks.bind_eq_ok_iff.mp h
          obtain ⟨-, rfl⟩ := Prod.mk.inj (Except.ok.inj h)
          exact exchanged_shelf hexchanged

theorem rebuildInline_shelf {events : List RecordedEvent} {answer : Nat × Nat}
    (h : e.rebuildInline P D projector tenant events = .ok (answer, e')) : e'.shelf = e.shelf := by
  obtain ⟨_, -, h⟩ := Checks.bind_eq_ok_iff.mp h
  dsimp only at h
  split at h
  · exact nomatch h
  · obtain ⟨_, hexchanged, h⟩ := Checks.bind_eq_ok_iff.mp h
    obtain ⟨-, rfl⟩ := Prod.mk.inj (Except.ok.inj h)
    exact exchanged_shelf hexchanged

theorem rebuildInlineProjection_shelf {name : String} :
    (e.rebuildInlineProjection P D name tenant).2.shelf = e.shelf := by
  unfold rebuildInlineProjection
  split
  · rfl
  · rename_i h
    obtain ⟨_, -, h⟩ := Checks.bind_eq_ok_iff.mp h
    exact rebuildInline_shelf h

theorem write_turns (w : Write) : Shelf.Turns e.shelf (e.write P D w).2.shelf := by
  have hwrote := e.write_wrote (P := P) D w
  generalize (e.write P D w).1 = answer, (e.write P D w).2.shelf = s' at hwrote
  cases hwrote with
  | refused => exact .kept
  | deduplicated => exact .kept
  | filled h => exact .filled h

theorem restoreEvents_turns {events : List RestoredEvent} :
    Shelf.Turns e.shelf (e.restoreEvents events).2.shelf := by
  unfold restoreEvents
  split_ifs
  · exact .queued events
  · exact .kept

theorem redact_turns {stream : StreamId} {version : Nat} {reason : String} :
    Shelf.Turns e.shelf (e.redact P D stream version reason).2.shelf := by
  unfold redact
  split
  · exact .kept
  · split
    · exact .kept
    · split
      · exact .kept
      · exact .redacted stream version reason _

/-- The call leaves the events and what is queued. -/
def Call.leaves : Call → Bool
  | .restoreEvents .. | .write .. | .redact .. | .forgetTenant .. | .reopen .. => false
  | _ => true

theorem serve_shelf (e : Engine) {c : Call} (h : c.leaves = true) :
    (e.serve P c).shelf = e.shelf := by
  cases c with
  | restoreEvents | write | redact | forgetTenant | reopen => contradiction
  | createProjections projector => exact createProjections_shelf
  | registerInline projector => exact registerInline_shelf
  | runCatchUp D projector tenant batch => exact runCatchUp_shelf
  | rebuildProjection D projector tenant => exact rebuildProjection_shelf
  | rebuildInlineProjection D name tenant => exact rebuildInlineProjection_shelf
  | deleteBlob tenant digest => rfl
  | restoreStreamIdentity tenant identity =>
      simp only [serve, restoreStreamIdentity]
      split <;> [skip; split <;> [skip; split_ifs]] <;> rfl
  | streamIdentity D tenant =>
      simp only [serve, streamIdentity]
      split <;> rfl
  | putBlob tenant digest bytes =>
      simp only [serve, putBlob]
      split <;> [skip; split <;> [split_ifs; skip]] <;> rfl
  | snapshotGeneration D stream =>
      simp only [serve, snapshotGeneration]
      split <;> rfl
  | saveSnapshotChecked stream snapshot generation =>
      simp only [serve, saveSnapshotChecked]
      split <;> [skip; split_ifs <;> [skip; split]] <;> rfl

/-- **Every call takes one of the turns.** -/
theorem serve_turns (e : Engine) (c : Call) :
    Shelf.Turns e.shelf (e.serve P c).shelf := by
  cases c with
  | restoreEvents events => exact restoreEvents_turns
  | write D w => exact write_turns w
  | redact D stream version reason => exact redact_turns
  | forgetTenant tenant => exact .forgot tenant
  | reopen serving => exact .queued []
  | _ => rw [e.serve_shelf rfl]; exact .kept

end Engine

/-! ## What every run keeps -/

namespace Shelf

variable {s s' : Shelf}

/-- A field that redaction does not change. -/
theorem map_redacted {f : RecordedEvent → β}
    (hf : ∀ reason now e, f (Engine.redactedAs reason now e) = f e) (s : Shelf) (stream : StreamId)
    (version : Nat) (reason : String) (now : OffsetDateTime) :
    (s.redacted stream version reason now).events.map f = s.events.map f := by
  rw [redacted, List.map_map]
  refine List.map_congr_left fun e _ => ?_
  rw [Function.comp_apply]
  split_ifs
  · exact hf reason now e
  · rfl

/-- The versions of a stream, with the events that are on it. -/
theorem versions_ofStream (s : Shelf) (stream : StreamId) :
    (s.ofStream stream).map RecordedEvent.version =
      ((s.events.map fun e => (RecordedEvent.isOn e stream, e.version)).filter Prod.fst).map
        Prod.snd := by
  rw [ofStream, List.filter_map, List.map_map]
  rfl

theorem Numbered.redacted (h : s.Numbered) (stream : StreamId) (version : Nat) (reason : String)
    (now : OffsetDateTime) : (s.redacted stream version reason now).Numbered := by
  intro on
  have hsame : ((s.redacted stream version reason now).ofStream on).map RecordedEvent.version =
      (s.ofStream on).map RecordedEvent.version := by
    rw [versions_ofStream, versions_ofStream, map_redacted fun _ _ _ => rfl]
  have hlength := congrArg List.length hsame
  rw [List.length_map, List.length_map] at hlength
  rw [hsame, hlength]
  exact h on

theorem ofStream_forgot (s : Shelf) (tenant : TenantId) (stream : StreamId) :
    (s.forgot tenant).ofStream stream = if stream.tenant = tenant then [] else s.ofStream stream := by
  rw [ofStream, forgot, List.filter_filter]
  split_ifs with h
  · refine List.filter_eq_nil_iff.mpr fun e _ hon => ?_
    simp only [RecordedEvent.isOn, Bool.and_eq_true, beq_iff_eq, bne_iff_ne] at hon
    exact hon.2 (hon.1.1.1.trans h)
  · refine List.filter_congr fun e _ => ?_
    cases hon : RecordedEvent.isOn e stream with
    | false => rfl
    | true =>
        simp only [RecordedEvent.isOn, Bool.and_eq_true, beq_iff_eq] at hon
        simp [hon.1.1, h]

theorem Numbered.forgot (h : s.Numbered) (tenant : TenantId) : (s.forgot tenant).Numbered := by
  intro stream
  rw [ofStream_forgot]
  split_ifs
  · rfl
  · exact h stream

theorem Attributed.redacted (h : s.Attributed) (stream : StreamId) (version : Nat)
    (reason : String) (now : OffsetDateTime) :
    (s.redacted stream version reason now).Attributed := by
  intro k hk
  obtain ⟨e, he, hkey⟩ := h k hk
  have hmem : k ∈ (s.redacted stream version reason now).events.map originKey := by
    rw [map_redacted fun _ _ _ => rfl]
    exact List.mem_map.mpr ⟨e, he, hkey⟩
  obtain ⟨e', he', hkey'⟩ := List.mem_map.mp hmem
  exact ⟨e', he', hkey'⟩

theorem Attributed.forgot (h : s.Attributed) (tenant : TenantId) : (s.forgot tenant).Attributed := by
  intro k hk
  obtain ⟨origin, horigin⟩ := Option.isSome_iff_exists.mp hk
  rw [Shelf.forgot, Engine.without, Std.ExtTreeMap.getElem?_filter',
    Option.filter_eq_some_iff] at horigin
  obtain ⟨horigin, hother⟩ := horigin
  obtain ⟨e, he, rfl⟩ := h k (by rw [horigin]; rfl)
  have htenant : e.tenant ≠ tenant := by
    rintro rfl
    simp [originKey] at hother
  exact ⟨e, List.mem_filter.mpr ⟨he, by simpa using htenant⟩, rfl⟩

/-- The events of a store: numbered on every stream, in the order of their positions, and no origin
    without its event. -/
structure Sound (s : Shelf) : Prop where
  numbered : s.Numbered
  attributed : s.Attributed
  ordered : (0 :: s.events.map RecordedEvent.globalSeq).Pairwise (· < ·)
  bounded : ∀ e ∈ s.events, e.globalSeq ≤ s.position

theorem Sound.put (h : s.Sound) (stream : StreamId) (command : CommandMeta) (e : NewEvent)
    (identity : RestoredEvent) : (s.put stream command e identity).Sound where
  numbered := h.numbered.put stream command e identity
  attributed := h.attributed.put stream command e identity
  ordered := by
    have hlast : ∀ n ∈ 0 :: s.events.map RecordedEvent.globalSeq, n < s.position + 1 := by
      intro n hn
      rcases List.mem_cons.mp hn with rfl | hn
      · omega
      · obtain ⟨o, ho, rfl⟩ := List.mem_map.mp hn
        exact Nat.lt_succ_of_le (h.bounded o ho)
    rw [Shelf.put, List.map_append, ← List.cons_append, List.pairwise_append]
    refine ⟨h.ordered, List.pairwise_singleton _ _, fun n hn m hm => ?_⟩
    obtain rfl := List.mem_singleton.mp hm
    exact hlast n hn
  bounded := by
    intro o ho
    rcases List.mem_append.mp ho with ho | ho
    · exact Nat.le_succ_of_le (h.bounded o ho)
    · obtain rfl := List.mem_singleton.mp ho
      exact le_refl _

theorem Sound.redacted (h : s.Sound) (stream : StreamId) (version : Nat) (reason : String)
    (now : OffsetDateTime) : (s.redacted stream version reason now).Sound where
  numbered := h.numbered.redacted stream version reason now
  attributed := h.attributed.redacted stream version reason now
  ordered := by
    rw [map_redacted fun _ _ _ => rfl]
    exact h.ordered
  bounded := by
    intro e he
    have hmem := List.mem_map_of_mem (f := RecordedEvent.globalSeq) he
    rw [map_redacted fun _ _ _ => rfl] at hmem
    obtain ⟨o, ho, heq⟩ := List.mem_map.mp hmem
    exact heq ▸ h.bounded o ho

theorem Sound.forgot (h : s.Sound) (tenant : TenantId) : (s.forgot tenant).Sound where
  numbered := h.numbered.forgot tenant
  attributed := h.attributed.forgot tenant
  ordered := h.ordered.sublist ((List.filter_sublist.map _).cons_cons 0)
  bounded := fun e he => h.bounded e (List.mem_of_mem_filter he)

theorem Turns.sound (h : Turns s s') (hs : s.Sound) : s'.Sound := by
  cases h with
  | kept => exact hs
  | queued _ => exact ⟨hs.numbered, hs.attributed, hs.ordered, hs.bounded⟩
  | filled h =>
      induction h with
      | nil => exact hs
      | cons _ _ _ _ ih => exact ih (hs.put _ _ _ _)
  | redacted stream version reason now => exact hs.redacted stream version reason now
  | forgot tenant => exact hs.forgot tenant

theorem sound_empty {position : Nat} {restored : List RestoredEvent} :
    (⟨[], position, ∅, restored⟩ : Shelf).Sound := by
  refine ⟨fun stream => rfl, fun k hk => ?_, by simp, fun e he => nomatch he⟩
  simp at hk

end Shelf

namespace Engine

theorem serveAll_sound {e : Engine} (calls : List Call) (h : e.shelf.Sound) :
    (e.serveAll P calls).shelf.Sound := by
  induction calls generalizing e with
  | nil => exact h
  | cons c rest ih => exact ih ((e.serve_turns c).sound h)

/-- **Every run** of calls on new tables leaves sound ones. -/
theorem calls_sound (tablePrefix : String) (calls : List Call) :
    (({ Engine.inMemory with tablePrefix }).serveAll P calls).shelf.Sound :=
  serveAll_sound calls Shelf.sound_empty

end Engine

end Eventlog.Sqlite
