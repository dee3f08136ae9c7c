import Eventlog.File.Requests
import Eventlog.File.Resume

/-!
# Eventlog.File.Store

A File store as its handles see it: entering a transaction, ending it in a commit or a
refusal, and the calls that go around the ordinary transaction.

The world is one directory and any number of handles on it.  Every call takes the writers'
lock from its entry to its end, so calls of different handles follow one another and an
interleaving is a sequence of `Action`s.
-/

namespace Eventlog.File

open Durable Program

variable (P : Primitives)

/-! ## Handles -/

/-- `Verified`: a history a handle has verified, with the state it folds into. -/
structure Verified where
  manifest : Manifest
  transactions : List Json
  state : State
  content : Content
  deriving DecidableEq

/-- `FileEventStore` with its `Runtime`.  What captures keep is left out. -/
structure Handle where
  inline : List Projector
  frozen : Bool
  observed : Option Manifest
  verified : Option Verified
  permit : Nat

/-! ## Disposal -/

/-- Removes a file that may be gone already. -/
def removeIfPresent (p : Path) : Io Unit := do
  let present ← ask fun d => .ok (d.has p)
  when present (perform (Disk.remove p))

/-- `cleanup_staged_blobs`. -/
def cleanupStaged (ids : List String) : Io Unit :=
  ids.forM fun id => removeIfPresent (.object id)

/-- `discard_written`. -/
def discardWritten (ids : List String) : Io Unit := do
  let present ← ask fun d => .ok d.blobs
  when present (ids.forM fun id => do
    ask fun _ => validateObject P id
    removeIfPresent (.object id))

/-- The objects a state refers to. -/
def State.live (s : State) : List String :=
  s.blobs.toList.map fun entry => entry.2.id

/-- One round of the loop of `clean_blobs` over the entries of `blobs/`. -/
def cleanObject (live : List String) : Path → Io Unit
  | .object id => do
      ask fun _ => validateObject P id
      when (!live.contains id) (perform (Disk.remove (.object id)))
  | _ => pure ()

/-- `clean_blobs`. -/
def cleanBlobs (s : State) : Io Unit := do
  let present ← ask fun d => .ok d.blobs
  when present do
    let entries ← ask fun d => .ok d.paths
    entries.forM (cleanObject P s.live)

/-- Whether a snapshot file belongs to a generation the state has. -/
def State.keeps (s : State) (bytes : Bytes) : Bool :=
  (readKept P bytes).any fun kept => s.generations.toList.any fun entry => entry.2 == kept.1

/-- One round of the loop of `clear_snapshots` over the entries of `.cache/`. -/
def clearEntry (s : State) : Path → Io Unit
  | .snapshot name => do
      let live ← ask fun d => .ok ((d.read (.snapshot name)).any (s.keeps P))
      when (!live) (perform (Disk.remove (.snapshot name)))
  | _ => pure ()

/-- `clear_snapshots`. -/
def clearSnapshots (s : State) : Io Unit := do
  let entries ← ask fun d => .ok d.paths
  entries.forM (clearEntry P s)

/-- The disposal of everything nothing refers to. -/
def dispose (s : State) : Io Unit := do
  clearSnapshots P s
  cleanBlobs P s

/-! ## Entering -/

/-- Folds transactions onto a state, and collects the bindings they created. -/
def State.foldAll (s : State) : List Json →
    Except EventLogError (State × List (TenantId × String))
  | [] => .ok (s, [])
  | t :: rest => do
      let (s, bound) ← s.fold t
      let (s, more) ← State.foldAll s rest
      return (s, bound ++ more)

/-- The complete check of one binding: it reads and hashes the object, if there still is a
    binding. -/
def State.checkBound (s : State) (d : Disk) (key : List String) : Except EventLogError Unit :=
  match s.blobs[key]? with
  | none => .ok ()
  | some b => (d.object P b).map fun _ => ()

/-- The part of `enter` that opens completely. -/
def enterComplete (observed : Option Manifest) : Io (Journal × State) := do
  let journal ← openJournal P none
  ask fun _ =>
    if observed.any fun o => !extendsObserved P journal.manifest journal.transactions o then
      .error diverged
    else .ok ()
  let state ← ask fun _ => State.replay journal.transactions
  dispose P state
  ask fun d => state.blobs.keys.forM (state.checkBound P d)
  return (journal, state)

/-- The part of `enter` that follows a successful resume. -/
def enterResumed (v : Verified) (m : Manifest) (fresh : List Json) (content : Content) :
    Io (Journal × State) := do
  let (state, bound) ← ask fun _ => v.state.foldAll fresh
  ask fun d => bound.forM fun b => state.checkBound P d [b.1.value, b.2]
  return (⟨m, v.transactions ++ fresh, content⟩, state)

/-- `enter`: takes the lock and produces the transaction's journal and state. -/
def enter (observed : Option Manifest) (verified : Option Verified) : Io (Journal × State) :=
  match observed, verified with
  | some o, some v => do
      let resumed ← resume P o v.content
      match resumed with
      | some (m, fresh, content) => enterResumed P v m fresh content
      | none => enterComplete P observed
  | _, _ => enterComplete P observed

/-- The transaction a handle's work starts from. -/
def Handle.begin (h : Handle) (journal : Journal) (state : State) (disk : Disk) : Tx where
  journal := journal
  state := state
  pending := []
  inline := h.inline
  privacy := false
  permit := h.permit
  written := []
  stagedBlobs := []
  atomicContent := false
  disk := disk

/-! ## Ending -/

/-- What a transaction journals: what it staged, and where the feed then stands. -/
def Tx.sealed (tx : Tx) : List Op :=
  if tx.pending.isEmpty then [] else tx.pending ++ [.Watermark tx.state.nextPosition]

/-- The part of `transaction` that writes the journal. -/
def Tx.publish (tx : Tx) : Io Journal :=
  if tx.privacy then do
    let transactions := tx.journal.transactions ++
      (if tx.sealed.isEmpty then [] else [toValue tx.sealed])
    let journal ← tx.journal.privacy P transactions
    clearSnapshots P tx.state
    return journal
  else if tx.sealed.isEmpty then pure tx.journal
  else
    -- an atomic request has published its objects: nobody can classify a failure here
    (tx.journal.append P (toValue tx.sealed)).mapError fun e =>
      if tx.atomicContent then .UnknownCommit else e

/-- The part of `transaction` after its work has succeeded. -/
def Tx.commit (tx : Tx) : Io Journal := do
  let journal ← tx.publish P
  when (tx.privacy || !tx.sealed.isEmpty) ((cleanBlobs P tx.state).mapError fun e =>
    if tx.atomicContent && !tx.sealed.isEmpty then .UnknownCommit else e)
  return journal

/-- Whether a refused transaction recorded nothing and wrote nothing. -/
def Tx.untouched (tx : Tx) : Bool :=
  tx.pending.isEmpty && tx.written.isEmpty && tx.stagedBlobs.isEmpty && !tx.privacy &&
    !tx.atomicContent

/-- The part of `transaction` for a refusal that leaves something behind. -/
def Tx.discard (tx : Tx) : Io Unit := do
  cleanupStaged tx.stagedBlobs
  when (!tx.written.isEmpty) (discardWritten P tx.written)

/-- The view a handle keeps of a journal. -/
def Journal.keep (j : Journal) (state : State) : Verified :=
  ⟨j.manifest, j.transactions, state, j.content⟩

/-- The handle once it keeps a view. -/
def Handle.keep (h : Handle) (j : Journal) (state : State) : Handle :=
  { h with observed := some j.manifest, verified := some (j.keep state) }

/-- The handle once it keeps none, and what it observed. -/
def Handle.forget (h : Handle) : Handle :=
  { h with verified := none }

/-- What a call leaves: its answer, the handle and the directory. -/
structure Served (α : Type) where
  result : Except EventLogError α
  handle : Handle
  disk : Disk

/-- The end of a transaction whose work succeeded. -/
def Handle.finish (h : Handle) (a : α) (tx : Tx) : Served α :=
  let disk := (tx.commit P).last tx.disk
  match (tx.commit P tx.disk).result with
  | .error e => ⟨.error e, h.forget, disk⟩
  | .ok j =>
      -- a rewrite is verified again from scratch
      ⟨.ok a, if tx.privacy then (h.keep j tx.state).forget else h.keep j tx.state, disk⟩

/-- The end of a transaction whose work was refused. -/
def Handle.refused (h : Handle) (e : EventLogError) (tx : Tx) : Served α :=
  if tx.untouched then ⟨.error e, h.keep tx.journal tx.state, tx.disk⟩
  else
    let disk := (tx.discard P).last tx.disk
    match (tx.discard P tx.disk).result with
    | .error e' => ⟨.error e', h.forget, disk⟩
    | .ok () => ⟨.error e, h.forget, disk⟩

/-- The view a transaction may start from: the one behind the observed head. -/
def Handle.current (h : Handle) : Option Verified :=
  h.verified.filter fun v => decide (some v.manifest = h.observed)

/-- `FileEventStore::transaction`. -/
def Handle.transaction (h : Handle) (w : Work α) (d : Disk) : Served α :=
  let entry := enter P h.observed h.current
  match (entry d).result with
  | .error e => ⟨.error e, h.forget, entry.last d⟩
  | .ok (journal, state) =>
      match w (h.begin journal state (entry.last d)) with
      | (.ok a, tx) => h.finish P a tx
      | (.error e, tx) => h.refused P e tx

/-- A call of the port. -/
def Handle.call (h : Handle) (r : Request) (d : Disk) : Served Response :=
  match r.precheck P with
  | .error e => ⟨.error e, h, d⟩
  | .ok () =>
      let h := if r.freezes then { h with frozen := true } else h
      h.transaction P (r.work P) d

end Eventlog.File
