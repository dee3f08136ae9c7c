import Eventlog.Sqlite.Receipts
import Eventlog.Tree.Store

/-!
# Eventlog.Tree.Replaying

Replaying one committed group.

A replay hands the engine the identities the group's events had and makes the call its writer
made (`replay_eq_ok_iff`).
-/

namespace Eventlog.Tree

open Durable
open Sqlite (Engine)

variable (P : Platform)

/-! ## The call -/

/-- The event a record was made of. -/
def EventRecord.toNew (r : EventRecord) : NewEvent := ⟨r.name, r.schemaVersion, r.data⟩

theorem newEvent_eq_ok_iff {r : EventRecord} {e : NewEvent} :
    r.newEvent = .ok e ↔ r.toNew.validate = .ok () ∧ e = r.toNew := by
  unfold EventRecord.newEvent EventRecord.toNew
  dsimp only
  rw [Checks.bind_eq_ok_iff]
  constructor
  · rintro ⟨_, hvalid, he⟩
    exact ⟨hvalid, (Checks.pure_eq_ok_iff.mp he).symm⟩
  · rintro ⟨hvalid, rfl⟩
    exact ⟨(), hvalid, rfl⟩

theorem mapM_newEvent_eq_ok_iff {es : List EventRecord} {events : List NewEvent} :
    es.mapM EventRecord.newEvent = .ok events ↔
      (∀ e ∈ es, e.toNew.validate = .ok ()) ∧ events = es.map EventRecord.toNew := by
  rw [Checks.mapM_eq_ok_iff]
  simp only [newEvent_eq_ok_iff]
  constructor
  · intro h
    induction h with
    | nil => simp
    | cons hhead _ ih => simp [hhead.1, hhead.2, ih.2]; exact ih.1
  · rintro ⟨hvalid, rfl⟩
    rw [List.forall₂_map_right_iff]
    exact List.forall₂_same.mpr fun e he => ⟨hvalid e he, rfl⟩

/-- An entry is the call a member's writer made. -/
structure EntryOf (tenant : TenantId) (m : Member) (es : List EventRecord) (a : StreamAppend) : Prop where
  tenant_eq : a.stream.tenant = tenant
  streamType : a.stream.streamType = m.streamType
  streamId : a.stream.streamId = m.streamId
  expected : a.expected = m.expected
  events : a.events = es.map EventRecord.toNew
  valid : ∀ e ∈ es, e.toNew.validate = .ok ()

theorem replayEntry_eq_ok_iff {tenant : TenantId} {m : Member} {es : List EventRecord}
    {a : StreamAppend} : replayEntry tenant (m, es) = .ok a ↔ EntryOf tenant m es a := by
  simp only [replayEntry, Checks.bind_eq_ok_iff, StreamId.new_eq_ok_iff, mapM_newEvent_eq_ok_iff,
    Checks.pure_eq_ok_iff]
  constructor
  · rintro ⟨s, ⟨htenant, htype, hid⟩, events, ⟨hvalid, rfl⟩, rfl⟩
    exact ⟨htenant, htype, hid, rfl, rfl, hvalid⟩
  · rintro ⟨htenant, htype, hid, hexpected, hevents, hvalid⟩
    exact ⟨a.stream, ⟨htenant, htype, hid⟩, _, ⟨hvalid, rfl⟩, by rw [← hevents, ← hexpected]⟩

/-- The calls the members' writers made. -/
def EntriesOf (tenant : TenantId) (c : Committed) (entries : List StreamAppend) : Prop :=
  List.Forall₂ (fun (m : Member × List EventRecord) a => EntryOf tenant m.1 m.2 a)
    (c.record.members.zip c.events) entries

theorem entries_eq_ok_iff {tenant : TenantId} {c : Committed} {entries : List StreamAppend} :
    (c.record.members.zip c.events).mapM (replayEntry tenant) = .ok entries ↔
      EntriesOf tenant c entries := by
  rw [Checks.mapM_eq_ok_iff]
  exact ⟨fun h => h.imp fun _ _ => replayEntry_eq_ok_iff.mp, fun h => h.imp fun _ _ =>
    replayEntry_eq_ok_iff.mpr⟩

/-! ## One group -/

/-- The content of a group that is still present. -/
def Committed.writes (c : Committed) : List BlobWrite := c.blobs.map fun b => ⟨b.1, b.2⟩

theorem done_eq_ok_iff {α : Type} {answer : Sqlite.Answer α} {a : α} {engine : Engine} :
    done answer = .ok (a, engine) ↔ answer = (.ok a, engine) := by
  obtain ⟨_ | b, e⟩ := answer <;> simp [done]

/-- The engine with the identities of a group's events to hand out. -/
def restoring (engine : Engine) (c : Committed) : Engine := { engine with restored := c.restored }

theorem restoreEvents_eq_ok_iff {engine engine' : Engine} {c : Committed} :
    done (engine.restoreEvents c.restored) = .ok ((), engine') ↔
      engine.restored = [] ∧ engine' = restoring engine c := by
  rw [done_eq_ok_iff, Engine.restoreEvents]
  split
  · next h => simp [List.isEmpty_iff.mp h, restoring, eq_comm]
  · next h => simp [List.isEmpty_iff.not.mp h]

/-- The call of a group in terms of the engine's entry points. -/
theorem replayCall_group {D : Draws} {tenant : TenantId} {c : Committed} {entries : List StreamAppend}
    {engine engine' : Engine} {results : List AppendResult} (hkind : c.record.kind = .Group) :
    replayCall P D tenant c entries engine = .ok (results, engine') ↔
      ∃ deduplicated, engine.appendGroupOf P D ⟨tenant, entries, c.record.command⟩ c.writes noGuard =
        (.ok ⟨results, deduplicated⟩, engine') := by
  have hcall : (if c.blobs.isEmpty then
        engine.appendGroupGuarded P D ⟨tenant, entries, c.record.command⟩ noGuard
      else engine.appendGroupWithBlobsGuarded P D
        (blobGroup ⟨tenant, entries, c.record.command⟩ c.blobs) noGuard) =
      engine.appendGroupOf P D ⟨tenant, entries, c.record.command⟩ c.writes noGuard := by
    unfold Engine.appendGroupOf Committed.writes blobGroup
    rw [List.isEmpty_map]
  unfold replayCall
  simp only [hkind, hcall, Checks.bind_eq_ok_iff, done_eq_ok_iff, Checks.pure_eq_ok_iff, Prod.exists]
  constructor
  · rintro ⟨⟨results', deduplicated⟩, _, hcall, heq⟩
    obtain ⟨rfl, rfl⟩ := Prod.mk.inj heq
    exact ⟨deduplicated, hcall⟩
  · rintro ⟨deduplicated, hcall⟩
    exact ⟨_, _, hcall, rfl⟩

theorem replayCall_append {D : Draws} {tenant : TenantId} {c : Committed} {a : StreamAppend}
    {rest : List StreamAppend} {engine engine' : Engine} {results : List AppendResult}
    (hkind : c.record.kind = .Append) :
    replayCall P D tenant c (a :: rest) engine = .ok (results, engine') ↔
      ∃ result, results = [result] ∧ engine.appendGuarded P D a.stream a.expected a.events
        c.record.command noGuard = (.ok result, engine') := by
  unfold replayCall
  simp only [hkind, Checks.bind_eq_ok_iff, done_eq_ok_iff, Checks.pure_eq_ok_iff, Prod.exists]
  constructor
  · rintro ⟨result, _, hcall, heq⟩
    obtain ⟨rfl, rfl⟩ := Prod.mk.inj heq
    exact ⟨result, rfl, hcall⟩
  · rintro ⟨result, rfl, hcall⟩
    exact ⟨result, _, hcall, rfl⟩

/-- The end of a replay: nothing is left to hand out, and every call appended. -/
theorem replay_eq_ok_iff {D : Draws} {tenant : TenantId} {c : Committed} {engine engine' : Engine}
    {versions : List Nat} :
    replay P D tenant c engine = .ok (versions, engine') ↔
      engine.restored = [] ∧ ∃ entries results, EntriesOf tenant c entries ∧
        replayCall P D tenant c entries (restoring engine c) = .ok (results, engine') ∧
        engine'.restored = [] ∧ (∀ r ∈ results, r.events ≠ []) ∧
        versions = results.flatMap fun r => r.events.map RecordedEvent.version := by
  unfold replay
  simp only [Checks.bind_eq_ok_iff, Prod.exists, entries_eq_ok_iff]
  constructor
  · rintro ⟨_, _, hrestored, entries, hentries, results, _, hcall, h⟩
    obtain ⟨hempty, rfl⟩ := restoreEvents_eq_ok_iff.mp hrestored
    split at h
    · exact nomatch h
    · next hcheck =>
        obtain ⟨rfl, rfl⟩ := Prod.mk.inj (Except.ok.inj h)
        simp only [not_or, Bool.not_eq_true, Bool.not_eq_false', List.any_eq_false,
          List.isEmpty_iff] at hcheck
        exact ⟨hempty, entries, results, hentries, hcall, hcheck.1, hcheck.2, rfl⟩
  · rintro ⟨hempty, entries, results, hentries, hcall, hrest, hevents, rfl⟩
    refine ⟨(), _, restoreEvents_eq_ok_iff.mpr ⟨hempty, rfl⟩, entries, hentries, results, engine', hcall, ?_⟩
    rw [if_neg]
    · rfl
    · simp only [not_or, Bool.not_eq_true, Bool.not_eq_false', List.any_eq_false, List.isEmpty_iff]
      exact ⟨hrest, hevents⟩

end Eventlog.Tree
