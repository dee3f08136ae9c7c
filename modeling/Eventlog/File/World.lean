import Eventlog.File.InlineAdmin
import Eventlog.File.Opening

/-!
# Eventlog.File.World

One directory and the handles opened on it: what each of them can be asked, and runs of such
actions.

Every call takes the writers' lock from its entry to its end, so calls of different handles
follow one another and an interleaving is a list of `Action`s.
-/

namespace Eventlog.File

open Durable Program

variable (P : Primitives)

/-- A handle as `open_with_creation` builds it: it knows the head it opened at and keeps no
    view. -/
def Handle.opened (m : Manifest) (permit : Nat) : Handle where
  inline := []
  frozen := false
  observed := some m
  verified := none
  permit := permit

/-- `open`, `open_with_layout` and `open_existing`: the journal is opened and replayed, and a
    first transaction without work verifies everything once more. -/
def openStore (layout : Option FileLayout) (permit : Nat) (d : Disk) :
    Except EventLogError Handle × Disk :=
  if layout = some (.Segmented 0) then
    (.error (.Invalid "a segmented file store seals at one byte or more"), d)
  else
    let opening := openJournal P layout
    match (opening d).result with
    | .error e => (.error e, opening.last d)
    | .ok journal =>
        match State.replay journal.transactions with
        | .error e => (.error e, opening.last d)
        | .ok _ =>
            let served := (Handle.opened journal.manifest permit).transaction P
              (pure () : Work Unit) (opening.last d)
            (served.result.map fun _ => served.handle, served.disk)

/-- A directory and the handles opened on it, in the order of their opening. -/
structure World where
  disk : Disk
  handles : List Handle

/-- What can happen next. -/
inductive Action where
  | Open (layout : Option FileLayout)
  | Call (i : Nat) (request : Request)
  | RegisterInline (i : Nat) (projector : Projector)
  | AttachInlineExisting (i : Nat) (projector : Projector)
  | RebuildInlineProjection (i : Nat) (name : String) (tenant : TenantId)
  /-- The clock of the machine is read as `now` from here on. -/
  | Tick (now : Int)

/-- What an action answers. -/
inductive Answer where
  | none
  | opened (result : Except EventLogError Unit)
  | called (result : Except EventLogError Response)
  | attached (result : Except EventLogError Unit)
  | rebuilt (result : Except EventLogError (Nat × Nat))
  deriving DecidableEq

namespace World

/-- A root without a file in it. -/
def empty : World := ⟨emptyDisk, []⟩

/-- The world after a call of handle `i`. -/
def serve (w : World) (i : Nat) (answer : Except EventLogError α → Answer)
    (call : Handle → Disk → Served α) : Answer × World :=
  match w.handles[i]? with
  | none => (.none, w)
  | some h =>
      let served := call h w.disk
      (answer served.result, ⟨served.disk, w.handles.set i served.handle⟩)

/-- One action. -/
def act (w : World) : Action → Answer × World
  | .Open layout =>
      -- every handle has a permit of its own
      match openStore P layout w.handles.length w.disk with
      | (.error e, d) => (.opened (.error e), { w with disk := d })
      | (.ok h, d) => (.opened (.ok ()), ⟨d, w.handles ++ [h]⟩)
  | .Call i request => w.serve i .called fun h d => h.call P request d
  | .RegisterInline i projector => w.serve i .attached fun h d => h.registerInline P projector d
  | .AttachInlineExisting i projector =>
      w.serve i .attached fun h d => h.attachInlineExisting P projector d
  | .RebuildInlineProjection i name tenant =>
      w.serve i .rebuilt fun h d => h.rebuildInlineProjection P name tenant d
  | .Tick now => (.none, { w with disk := { w.disk with clock := now } })

/-- A run of actions, one after another. -/
def run (w : World) (actions : List Action) : World :=
  actions.foldl (fun w a => (w.act P a).2) w

end World

end Eventlog.File
