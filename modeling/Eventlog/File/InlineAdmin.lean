import Eventlog.Core.Capture
import Eventlog.File.Store

/-!
# Eventlog.File.InlineAdmin

The calls that go around the ordinary transaction: registering an inline projector,
attaching one whose tables are admitted, and rebuilding its tables.

Each reads the complete history, holds it to what the handle observed, and moves the
observed head; none of them keeps the view it folded.
-/

namespace Eventlog.File

open Durable Program

variable (P : Primitives)

/-- Whether a projector of this name, or one of its tables, is driven inline already. -/
def Handle.drives (h : Handle) (p : Projector) : Bool :=
  h.inline.any fun old => old.name == p.name ||
    old.projections.any fun s => p.projections.any fun n => n.name == s.name

/-- The checks both registrations make of the handle. -/
def Handle.admits (h : Handle) (p : Projector) : Except EventLogError Unit :=
  if h.frozen then .error (.Invalid "inline registration is frozen after serving begins")
  else if h.drives p then .error (.Invalid "duplicate inline projection")
  else .ok ()

/-- A history held to what a handle observed, and its state. -/
def Journal.replayed (j : Journal) (observed : Option Manifest) :
    Except EventLogError State :=
  if observed.any fun o => !extendsObserved P j.manifest j.transactions o then .error diverged
  else State.replay j.transactions

/-- The end of `register_inline`: what was admitted is journaled, without a watermark. -/
def Handle.registered (h : Handle) (p : Projector) (tx : Tx) : Served Unit :=
  let commit := if tx.pending.isEmpty then pure tx.journal
    else tx.journal.append P (toValue tx.pending)
  match (commit tx.disk).result with
  | .error e => ⟨.error e, h, commit.last tx.disk⟩
  | .ok j =>
      ⟨.ok (), { h with observed := some j.manifest, inline := h.inline ++ [p] },
        commit.last tx.disk⟩

/-- `register_inline`. -/
def Handle.registerInline (h : Handle) (p : Projector) (d : Disk) : Served Unit :=
  match h.admits p with
  | .error e => ⟨.error e, h, d⟩
  | .ok () =>
      let opened := openJournal P (some .Single)
      match (opened d).result with
      | .error e => ⟨.error e, h, opened.last d⟩
      | .ok j =>
          match j.replayed P h.observed with
          | .error e => ⟨.error e, h, opened.last d⟩
          | .ok state =>
              match Work.register p (h.begin j state (opened.last d)) with
              | (.error e, tx) => ⟨.error e, h, tx.disk⟩
              | (.ok (), tx) => h.registered P p tx

/-- The checks of `validate_projector` on its tables, with the names already seen. -/
def validateTables : List String → List ProjectionSpec → Except EventLogError Unit
  | _, [] => .ok ()
  | names, spec :: rest => do
      spec.validate
      if spec.name ∈ names then
        throw (.Invalid "duplicate projection in one registration")
      if !spec.indexed.Nodup then
        throw (.Invalid "duplicate indexed field in one projection")
      validateTables (spec.name :: names) rest

/-- `validate_projector`. -/
def Projector.validate (p : Projector) : Except EventLogError Unit := do
  validateIdentifier "projector name" p.name
  validateTables [] p.projections

/-- `validate_admission`. -/
def State.admits (s : State) (p : Projector) : Except EventLogError Unit := do
  Projector.validate p
  p.projections.forM fun spec =>
    if s.projections[[spec.name]]? ≠ some spec.indexed then
      .error (.Invalid "projection was not admitted with this exact shape")
    else .ok ()

/-- What both strict calls read first: the history without recovering anything, its state,
    and that the projector's tables are admitted. -/
def Handle.strict (h : Handle) (p : Projector) (d : Disk) : Except EventLogError (Journal × State) := do
  let j ← openStrict P d
  let state ← j.replayed P h.observed
  state.admits p
  return (j, state)

/-- `attach_inline_existing`. -/
def Handle.attachInlineExisting (h : Handle) (p : Projector) (d : Disk) : Served Unit :=
  match (do Projector.validate p; h.admits p; h.strict P p d : Except EventLogError _) with
  | .error e => ⟨.error e, h, d⟩
  | .ok (j, _) =>
      ⟨.ok (), { h with observed := some j.manifest, inline := h.inline ++ [p] }, d⟩

/-- What `rebuild_inline_projection` stages.  The projector writes only its own tables. -/
def Work.rebuildInline (p : Projector) (tenant : TenantId) : Work (Nat × Nat) := do
  p.projections.forM fun spec => do
    record (.ClearRows tenant spec.name)
    record (.DirtyView tenant spec.name false)
  let events ← Session.ask fun tx => .ok (tx.state.events.filter fun e => e.tenant == tenant)
  check (if capturedOrder tenant events then .ok () else .error strictCorrupt)
  events.forM fun event =>
    ProjectionView.call P ⟨tenant, false, some p.projections⟩ (p.apply event)
  let position := (events.getLast?.map RecordedEvent.globalSeq).getD 0
  record (.Cursor tenant p.name position)
  return (events.length, position)

/-- `rebuild_inline_projection`. -/
def Handle.rebuildInlineProjection (h : Handle) (name : String) (tenant : TenantId) (d : Disk) :
    Served (Nat × Nat) :=
  match validateIdentifier "projector name" name with
  | .error e => ⟨.error e, h, d⟩
  | .ok () =>
      match h.inline.find? fun p => p.name == name with
      | none => ⟨.error (.Invalid "inline projector is not attached to this handle"), h, d⟩
      | some p =>
          match (do Projector.validate p; h.strict P p d : Except EventLogError _) with
          | .error e => ⟨.error e, h, d⟩
          | .ok (j, state) =>
              match Work.rebuildInline P p tenant (h.begin j state d) with
              | (.error e, tx) => ⟨.error e, h, tx.disk⟩
              | (.ok a, tx) =>
                  let commit := tx.journal.append P (toValue tx.sealed)
                  match (commit tx.disk).result with
                  | .error e => ⟨.error e, h, commit.last tx.disk⟩
                  | .ok j => ⟨.ok a, { h with observed := some j.manifest }, commit.last tx.disk⟩

end Eventlog.File
