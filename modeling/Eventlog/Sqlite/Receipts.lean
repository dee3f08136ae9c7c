import Eventlog.Sqlite.Effects

/-!
# Eventlog.Sqlite.Receipts

What a receipt names, and what a retry gets from it.

A receipt holds ranges of versions.  While the versions of a stream are 1, 2, and so on, and
events are only added at its end, a range names the same events for good (`Ledger.Located`), so
the answer of a retry has the identifiers the commit handed out (`Ledger.Located.recorded`).
-/

namespace Eventlog.Sqlite

open Durable
open File (Table StreamId.key RecordedEvent.isOn)

variable (P : Platform)

section Located

variable {P} {l l' : Ledger} {range : GroupRange} {ids : List String}

end Located

/-! ## What appends leave located -/

section Entered

variable {P} {D : Draws} {stream : StreamId} {expected : Expected} {events : List NewEvent}
  {command : CommandMeta} {recordCommand : Bool} {tx tx' : Tx} {result : AppendResult}
  {entries : List StreamAppend} {results : List AppendResult}

end Entered

/-! ## The calls of the port -/

section Calls

variable {P} {D : Draws} {engine engine' : Engine} {guard : Callback}

/-- The transaction a call of a handle starts with. -/
def Engine.start (e : Engine) : Tx := ⟨e.db, e.restored, 0, 0⟩

/-- The handle once a transaction is committed. -/
def Engine.committed (e : Engine) (tx : Tx) : Engine :=
  { e.freeze with db := tx.db, restored := tx.restored }

theorem Engine.transact_error {α : Type} {w : Work α} {error : EventLogError}
    (h : engine.transact w = (.error error, engine')) : engine' = engine := by
  unfold Engine.transact at h
  split at h
  · exact nomatch h
  · exact (Prod.mk.inj h).2.symm

theorem Engine.transact_eq_ok_iff {α : Type} {w : Work α} {a : α} :
    engine.freeze.transact w = (.ok a, engine') ↔
      ∃ tx, w engine.start = (.ok a, tx) ∧ engine' = engine.committed tx := by
  have hstart : (⟨engine.freeze.db, engine.freeze.restored, 0, 0⟩ : Tx) = engine.start := rfl
  rw [Engine.transact, hstart]
  rcases hw : w engine.start with ⟨_ | b, tx⟩
  · simp
  · simp only [Prod.mk.injEq, Except.ok.injEq]
    constructor
    · rintro ⟨rfl, rfl⟩
      exact ⟨tx, ⟨rfl, rfl⟩, rfl⟩
    · rintro ⟨_, ⟨rfl, rfl⟩, rfl⟩
      exact ⟨rfl, rfl⟩

/-- An append through the port answers from a receipt, or writes. -/
theorem Engine.appendGuarded_cases {stream : StreamId} {expected : Expected} {events : List NewEvent}
    {command : CommandMeta} {result : AppendResult}
    (h : engine.appendGuarded P D stream expected events command guard = (.ok result, engine')) :
    validateAppend events command = .ok () ∧
      ((Work.recordedAppend P engine.db.toLedger stream command = .ok (some result) ∧
          engine' = engine.committed engine.start) ∨
        (Work.recordedAppend P engine.db.toLedger stream command = .ok none ∧ ∃ tx,
          engine.start.Wrote P D stream expected events command true result tx ∧
            engine' = engine.committed tx)) := by
  unfold Engine.appendGuarded at h
  split at h
  · exact nomatch h
  · next hvalid =>
      refine ⟨hvalid, ?_⟩
      obtain ⟨tx, hrun, rfl⟩ := Engine.transact_eq_ok_iff.mp h
      rcases Work.appendInTransaction_cases P hrun with ⟨-, hfound, rfl⟩ | ⟨hfound, hwrote⟩
      · exact .inl ⟨hfound, rfl⟩
      · exact .inr ⟨hfound rfl, tx, hwrote, rfl⟩

/-- The two entry points of a group, by whether there is content to bind. -/
def Engine.appendGroupOf (P : Platform) (e : Engine) (D : Draws) (group : AppendGroup)
    (blobs : List BlobWrite) (guard : Callback) : Answer AppendGroupResult :=
  if blobs.isEmpty then e.appendGroupGuarded P D group guard
  else e.appendGroupWithBlobsGuarded P D ⟨group, blobs⟩ guard

/-- The fingerprint the entry point records. -/
def fingerprintOf (P : Platform) (group : AppendGroup) (blobs : List BlobWrite) :
    Except EventLogError String :=
  if blobs.isEmpty then group.fingerprint P.toPrimitives
  else BlobAppendGroup.fingerprint P.toPrimitives ⟨group, blobs⟩

theorem nodup_of_fingerprintOf {group : AppendGroup} {blobs : List BlobWrite} {f : String}
    (h : fingerprintOf P group blobs = .ok f) :
    ((sortByDigest blobs).map BlobWrite.digest).Nodup := by
  unfold fingerprintOf at h
  split at h
  · next hempty =>
      rw [List.isEmpty_iff.mp hempty]
      exact List.nodup_nil
  · obtain ⟨-, -, hcheck, -⟩ := (BlobAppendGroup.fingerprint_eq_ok_iff _).mp h
    obtain ⟨-, hnodup, -⟩ := checkBlobs_eq_ok_iff.mp hcheck
    exact ((List.perm_insertionSort _ blobs).map _).nodup_iff.mpr hnodup

theorem Engine.appendGroupOf_eq {group : AppendGroup} {blobs : List BlobWrite} :
    engine.appendGroupOf P D group blobs guard =
      match fingerprintOf P group blobs with
      | .error error => (.error error, engine)
      | .ok fingerprint => engine.freeze.transact (Work.groupInTransaction P engine.serving D group
          fingerprint (sortByDigest blobs) guard) := by
  unfold Engine.appendGroupOf fingerprintOf
  split
  · next hempty =>
      obtain rfl := List.isEmpty_iff.mp hempty
      rfl
  · rfl

/-- A group through the port answers from its receipt, or enters. -/
theorem Engine.appendGroupOf_cases {group : AppendGroup} {blobs : List BlobWrite}
    {result : AppendGroupResult}
    (h : engine.appendGroupOf P D group blobs guard = (.ok result, engine')) :
    ∃ fingerprint, fingerprintOf P group blobs = .ok fingerprint ∧
      ((∃ ranges, engine.db.receipt group = some (fingerprint, ranges) ∧
          engine.db.replay P group ranges = .ok result ∧ engine' = engine.committed engine.start) ∨
        (engine.db.receipt group = none ∧ engine.db.Agrees group.tenant (sortByDigest blobs) ∧
          ∃ results tx₁ tx₂,
            Tx.Framed (engine.start.withLedger (engine.db.holding group.tenant (sortByDigest blobs))) tx₁ ∧
            Tx.Entered P D group.command tx₁ group.appends results tx₂ ∧ result = ⟨results, false⟩ ∧
            engine' = engine.committed (tx₂.withLedger (tx₂.db.recordGroup group fingerprint
              (List.zipWith rangeOf group.appends results))))) := by
  rw [Engine.appendGroupOf_eq] at h
  rcases hf : fingerprintOf P group blobs with error | fingerprint
  · rw [hf] at h
    exact nomatch h
  · rw [hf] at h
    refine ⟨fingerprint, rfl, ?_⟩
    obtain ⟨tx, hrun, rfl⟩ := Engine.transact_eq_ok_iff.mp h
    rcases Work.groupInTransaction_cases P (nodup_of_fingerprintOf hf) hrun with
      ⟨ranges, hreceipt, hreplay, rfl⟩ | ⟨hnone, hagrees, results, tx₁, tx₂, hframed, hentered, rfl, rfl⟩
    · exact .inl ⟨ranges, hreceipt, hreplay, rfl⟩
    · exact .inr ⟨hnone, hagrees, results, tx₁, tx₂, hframed, hentered, rfl, rfl⟩

end Calls

end Eventlog.Sqlite
