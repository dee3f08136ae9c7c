import Eventlog.File.Journal

/-!
# Eventlog.File.Resume

Resuming onto a history a handle has verified, and reading one without changing anything.

A resume decides from the manifest, the kept bytes and the stamps of the files whether the
committed history is the one the handle saw or extends it; whatever it cannot decide it
leaves to the complete open.
-/

namespace Eventlog.File

open Durable Program

variable (P : Primitives)

/-- `pending_intent_exists`. -/
def pendingIntent (d : Disk) : Bool :=
  d.has .appendIntent || d.has .privacyIntent

/-- The files of a committed history in order, with their committed lengths and whether
    they are sealed. -/
def Manifest.files (m : Manifest) : List (Path × Nat × Bool) :=
  (m.sealed.zipIdx.map fun s => (Path.segment s.2, s.1, true)) ++ [(.events, m.activeLength, false)]

/-- What a handle verified of each file, with the stamp it kept: its sealed segments, then
    the one it saw active. -/
def observedFiles (observed : Manifest) (content : Content) : List (Nat × Option Stamp) :=
  (observed.sealed.zipIdx.map fun s => (s.1, (content.sealed[s.2]?).join)) ++
    [(observed.activeLength, content.stamp)]

/-- The loop of `resumed_committed` over the files, against what of the kept bytes is left:
    what lies past them, and the stamps to keep.

    The bytes a handle verified are vouched for by an unchanged stamp or compared with those
    it kept; a newer file has none. -/
def resumeFiles (d : Disk) : List (Path × Nat × Bool) → List (Nat × Option Stamp) → Bytes →
    Except EventLogError (Option (Bytes × List (Option Stamp)))
  | [], _, _ => .ok (some ([], []))
  | (path, committed, isSealed) :: files, seen, retained =>
      let verified := (seen.headD (0, none)).1
      let kept := (seen.headD (0, none)).2
      if kept.isSome && kept == d.stamp path && verified == committed then
        (resumeFiles d files seen.tail (retained.drop verified)).map fun r =>
          r.map fun (tail, stamps) => (tail, kept :: stamps)
      else do
        let bytes ← d.readFile path
        let rest := committed - verified
        let part := (bytes.drop verified).take (rest + 1)
        if bytes.take verified ≠ retained.take verified then .ok none
        else if part.length ≠ rest then .ok none
        else if isSealed && decide (rest > 0) && part.getLast? ≠ some Json.lineFeed then .ok none
        else
          (resumeFiles d files seen.tail (retained.drop verified)).map fun r =>
            r.map fun (tail, stamps) => (part ++ tail, d.trusted path :: stamps)

/-- Whether a manifest can only extend the one a handle observed. -/
def Manifest.mayExtend (m observed : Manifest) : Bool :=
  m.format == observed.format && m.store == observed.store && m.epoch == observed.epoch &&
    decide (observed.sequence ≤ m.sequence) && decide (observed.length ≤ m.length) &&
    m.sealAt == observed.sealAt && decide (observed.sealed.length ≤ m.sealed.length) &&
    m.sealed.take observed.sealed.length == observed.sealed &&
    (m.sealed[observed.sealed.length]?).all fun length => decide (observed.activeLength ≤ length)

/-- The part of `resumed_committed` after the manifest: the files, and the frames past the
    observed head. -/
def resumeTail (m observed : Manifest) (content : Content) (d : Disk) :
    Except EventLogError (Option (List Json × Content)) := do
  match ← resumeFiles d m.files (observedFiles observed content) content.bytes with
  | none => .ok none
  | some (tail, stamps) =>
      match decodeChain P tail m observed.sequence observed.digest with
      | .error _ => .ok none
      | .ok fresh =>
          .ok (some (fresh, ⟨content.bytes ++ tail, stamps.getLast?.join, stamps.dropLast⟩))

/-- `resumed_committed`. -/
def resumedCommitted (observed : Manifest) (content : Content) (d : Disk) :
    Except EventLogError (Option (Manifest × List Json × Content)) :=
  if pendingIntent d || !d.has .manifest then .ok none
  else do
    let m ← readManifest P d
    if !m.mayExtend observed || content.bytes.length ≠ observed.length then .ok none
    else if !m.sealed.isEmpty && !d.segments then .error Disk.notFound
    else if unexplainedSegments d m then .ok none
    else do
      let events ← d.readFile .events
      if events.length ≠ m.activeLength then .ok none
      else (resumeTail P m observed content d).map fun r =>
        r.map fun (fresh, content) => (m, fresh, content)

/-- `Journal::resume`. -/
def resume (observed : Manifest) (content : Content) :
    Io (Option (Manifest × List Json × Content)) := do
  ask fun d => if d.has .lock then .ok () else .error Disk.notFound
  let resumed ← ask (resumedCommitted P observed content)
  match resumed with
  | none => pure none
  | some r => do
      let _ ← sweepUnselected P
      return some r

/-- `extends_observed`: whether a history still has the prefix a handle observed. -/
def extendsObserved (m : Manifest) (transactions : List Json) (observed : Manifest) : Bool :=
  if observed.store ≠ m.store ∨ observed.epoch ≠ m.epoch ∨ observed.sequence > m.sequence then
    false
  else
    (encodeChain P m 0 ZERO (transactions.take observed.sequence)).2 == observed.digest

/-- The refusal of a history that is not an extension of the one a handle observed. -/
def diverged : EventLogError :=
  .Backend "file history diverged from this handle's observed history"

/-! ## Strict reading -/

/-- `capture_error` of damage. -/
def strictCorrupt : EventLogError :=
  .Backend "file store committed history is corrupt; no history was repaired"

/-- `open_strict`, with its refusals as `capture_error` words them: it reads what is
    committed and changes nothing. -/
def openStrict (d : Disk) : Except EventLogError Journal :=
  if !d.has .lock then .error (.Backend "file store writer lock is not present")
  else if pendingIntent d then
    .error (.Invalid "file store recovery is required before administration")
  else if !d.has .manifest then .error (.Backend "file store manifest is not present")
  else
    match readManifest P d with
    | .error _ => .error strictCorrupt
    | .ok m =>
        match readCommitted P m d with
        | .error _ => .error strictCorrupt
        | .ok (transactions, content) => .ok ⟨m, transactions, { content with stamp := none, sealed := [] }⟩

end Eventlog.File
