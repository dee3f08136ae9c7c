import Eventlog.File.Disk
import Eventlog.File.Frame

/-!
# Eventlog.File.Journal

The journal of a File store as a program over its directory: opening with recovery,
appending, sealing, and the privacy rewrite.

Each function follows its source one file operation at a time, since an interruption may
fall between any two of them.  What only reads and decides is an ordinary function of the
directory; what changes it is a `Program`.
-/

namespace Eventlog.File

open Durable Program

variable (P : Primitives)

/-- A journal program. -/
abbrev Io (α : Type) : Type := Program Disk EventLogError α

/-! ## Reading -/

/-- How long after a change a stamp is still untrusted. -/
def UNTRUSTED_NS : Int := 2000000000

/-- `trusted`, for a file that did not move while it was read: its stamp, if it had not
    moved for the window before. -/
def Disk.trusted (d : Disk) (p : Path) : Option Stamp :=
  (d.stamp p).filter fun s => decide (s.ctime < d.clock - UNTRUSTED_NS)

/-- `read`. -/
def Disk.readFile (d : Disk) (p : Path) : Except EventLogError Bytes :=
  match d.read p with
  | some bytes => .ok bytes
  | none => .error Disk.notFound

/-- The loop of `read_sealed`, from segment `index` on. -/
def readSealedFrom (d : Disk) : Bytes → Nat → List Nat →
    Except EventLogError (Bytes × List (Option Stamp))
  | into, _, [] => .ok (into, [])
  | into, index, length :: rest => do
      let bytes ← d.readFile (.segment index)
      let part := bytes.take (length + 1)
      if part.length ≠ length ∨ (into ++ part).getLast? ≠ some Json.lineFeed then
        .error corrupt
      else
        (readSealedFrom d (into ++ part) (index + 1) rest).map fun (into, stamps) =>
          (into, d.trusted (.segment index) :: stamps)

/-- `read_sealed`: the bytes of every sealed segment, and the stamps they earned. -/
def readSealed (d : Disk) (m : Manifest) : Except EventLogError (Bytes × List (Option Stamp)) :=
  if m.sealed = [] then .ok ([], [])
  else if !d.segments then .error Disk.notFound
  else readSealedFrom d [] 0 m.sealed

/-- Whether a name is a segment the manifest does not list. -/
def Path.unlisted (named : Nat) : Path → Bool
  | .segment index => decide (named ≤ index)
  | _ => false

/-- `unexplained_segments`. -/
def unexplainedSegments (d : Disk) (m : Manifest) : Bool :=
  match m.segments with
  | none => false
  | some _ =>
      if d.segments then d.paths.any (Path.unlisted m.sealed.length)
      else !m.sealed.isEmpty

/-- The committed bytes one handle verified, with the stamps its files had.

    The buffer that views of one handle share is not modelled: a view is its own bytes. -/
structure Content where
  bytes : Bytes
  stamp : Option Stamp
  sealed : List (Option Stamp)
  deriving DecidableEq

/-- An open journal. -/
structure Journal where
  manifest : Manifest
  transactions : List Json
  content : Content
  deriving DecidableEq

/-- The part of `open_with_creation` that reads and verifies the committed history. -/
def readCommitted (m : Manifest) (d : Disk) : Except EventLogError (List Json × Content) := do
  let events ← d.readFile .events
  if events.length < m.activeLength then
    .error corrupt
  else
    let (sealed, stamps) ← readSealed d m
    if unexplainedSegments d m then
      .error corrupt
    else
      let committed := sealed ++ events.take m.activeLength
      let transactions ← decode P committed m
      if events.length > m.activeLength then
        .error corrupt
      else
        .ok (transactions, ⟨committed, d.trusted .events, stamps⟩)

/-! ## Writing -/

/-- `new_event_id`. -/
def newEventId : Io String := do
  perform fun d => .ok { d with drawn := d.drawn + 1 }
  ask fun d => .ok (P.eventId (d.drawn - 1))

/-- `write_synced`. -/
def writeSynced (p : Path) (bytes : Bytes) : Io Unit := do
  perform (Disk.createNew p)
  perform (Disk.writeAt p 0 bytes)

/-- `atomic_json`: the value is published under `p` by a rename. -/
def atomicJson [Serde α] (p : Path) (value : α) : Io Unit := do
  let id ← newEventId P
  writeSynced (.staging id) (toBytes P.toFloatText value)
  perform (Disk.rename (.staging id) p)

/-- The names `sweep_unselected` removes. -/
def Path.unselected : Path → Bool
  | .privacyNext => true
  | .staging id => P.isEventId id
  | _ => false

/-- The loop of `sweep_unselected`. -/
def sweepEntries : List Path → Io Bool
  | [] => pure false
  | p :: ps =>
      if p.unselected P then do
        perform (Disk.remove p)
        let _ ← sweepEntries ps
        pure true
      else sweepEntries ps

/-- `sweep_unselected`. -/
def sweepUnselected : Io Bool := do
  let entries ← ask fun d => .ok d.paths
  sweepEntries P entries

/-! ## Appending -/

/-- `AppendIntent`. -/
structure AppendIntent where
  before : Manifest
  after : Manifest
  frame : String
  deriving DecidableEq

def AppendIntent.toJson (i : AppendIntent) : Json :=
  .obj [("before", toValue i.before), ("after", toValue i.after), ("frame", toValue i.frame)]

def AppendIntent.ofJson (j : Json) : Option AppendIntent := do
  let fs ← Json.members ["before", "after", "frame"] j
  let before ← Json.member "before" fs
  let after ← Json.member "after" fs
  let frame ← Json.member "frame" fs
  return { before, after, frame }

instance : Serde AppendIntent := ⟨AppendIntent.toJson, AppendIntent.ofJson⟩

instance : LawfulSerde AppendIntent := ⟨fun i => by
  change AppendIntent.ofJson i.toJson = some i
  simp [AppendIntent.toJson, AppendIntent.ofJson, Json.members, Json.member, List.lookup]⟩

instance : Floatless AppendIntent := ⟨fun F i => by
  have hbefore := Floatless.stable_toValue F i.before
  have hafter := Floatless.stable_toValue F i.after
  have hframe := Floatless.stable_toValue F i.frame
  change Json.Stable F i.toJson
  simp [AppendIntent.toJson, Json.Stable, Json.StableFields, hbefore, hafter, hframe]⟩

instance : Readable AppendIntent := ⟨fun i => by
  have hbefore := depth_manifest_le i.before
  have hafter := depth_manifest_le i.after
  change i.toJson.depth ≤ _
  simp only [AppendIntent.toJson, Json.depth, Json.depthFields, Json.maxDepth, toValue] at *
  omega⟩

/-- `str::as_bytes`. -/
def asBytes (s : String) : Bytes :=
  Json.utf8 s.toList

/-- What `Journal::append` writes for a transaction: the line, where in `events.jsonl` it
    goes, the manifest that commits it, and whether the active segment is sealed first. -/
structure Planned where
  line : Bytes
  next : Manifest
  seals : Bool

/-- Whether an append finds the active segment at its seal size. -/
def Manifest.seals (m : Manifest) : Bool :=
  match m.sealAt with
  | some sealAt => decide (m.activeLength > 0) && decide (m.activeLength ≥ sealAt)
  | none => false

/-- The first part of `Journal::append`: it fails where a counter has no room. -/
def Manifest.plan (m : Manifest) (transaction : Json) : Except EventLogError Planned :=
  match checkedAdd m.sequence 1 with
  | none => .error corrupt
  | some sequence =>
      let (line, digest) := encode P m sequence m.digest transaction
      match checkedAdd m.length line.length with
      | none => .error corrupt
      | some length =>
          .ok {
            line
            next := { m with
              sequence, length, digest
              segments := m.segments.map fun s =>
                if m.seals then { s with sealed := s.sealed ++ [m.activeLength] } else s }
            seals := m.seals }

/-- `seal_target_free`. -/
def sealTargetFree (m : Manifest) (d : Disk) : Except EventLogError Bool :=
  if !d.segments then .ok false
  else if d.has (.segment m.sealed.length) then .error corrupt
  else .ok true

/-- `seal_active`. -/
def sealActive (m : Manifest) : Io Unit := do
  let present ← ask (sealTargetFree m)
  if !present then
    perform Disk.createSegments
  perform (Disk.rename .events (.segment m.sealed.length))
  perform (Disk.createNew .events)

/-- `String::from_utf8`. -/
def stringFromUtf8 (bytes : Bytes) : Except EventLogError String :=
  match Json.fromUtf8 bytes with
  | some cs => .ok (String.ofList cs)
  | none => .error (.Backend "invalid utf-8 sequence")

/-- The part of `Journal::append` after its plan: the intent, the seal, the line in two
    writes, the manifest, and the intent's removal. -/
def Journal.commitPlan (j : Journal) (transaction : Json) (plan : Planned) : Io Journal := do
  when plan.seals (ask fun d => (sealTargetFree j.manifest d).map fun _ => ())
  let frame ← ask fun _ => stringFromUtf8 plan.line
  atomicJson P .appendIntent
    ({ before := j.manifest, after := plan.next, frame } : AppendIntent)
  when plan.seals (sealActive j.manifest)
  let offset := if plan.seals then 0 else j.manifest.activeLength
  let midpoint := plan.line.length / 2
  perform (Disk.writeAt .events offset (plan.line.take midpoint))
  perform (Disk.writeAt .events (offset + midpoint) (plan.line.drop midpoint))
  -- after the rename the commit may exist: the caller must not draw a new identity
  (atomicJson P .manifest plan.next).mapError fun _ => .UnknownCommit
  (perform (Disk.remove .appendIntent)).mapError fun _ => .UnknownCommit
  return {
    manifest := plan.next
    transactions := j.transactions ++ [transaction]
    content := {
      bytes := j.content.bytes ++ plan.line
      stamp := none
      sealed := if plan.seals then j.content.sealed ++ [none] else j.content.sealed } }

/-- `Journal::append`. -/
def Journal.append (j : Journal) (transaction : Json) : Io Journal := do
  let plan ← ask fun _ => j.manifest.plan P transaction
  j.commitPlan P transaction plan

/-- The consistency checks at the head of `recover_append`. -/
def AppendIntent.consistent (i : AppendIntent) : Bool :=
  let held := i.before.sealed.length
  let sealing := i.after.sealed.length == held + 1
  i.before.known && i.after.known && i.after.format == i.before.format &&
    i.after.sealAt == i.before.sealAt &&
    i.after.sealed.take (min held i.after.sealed.length) == i.before.sealed &&
    (!sealing || i.after.sealed[held]? == some i.before.activeLength) &&
    (sealing || i.after.sealed.length == held)

/-- `recover_append` for an append that seals, found uncommitted: the active segment goes
    back to its name. -/
def undoSeal (before after : Manifest) (frame : String) (sealed : Bytes) : Io Unit := do
  let target := Path.segment before.sealed.length
  let renamed ← ask fun d => .ok (d.has target)
  when renamed do
    ask fun d => do
      let moved ← d.readFile target
      if moved.length ≠ before.activeLength then .error corrupt
      else
        let _ ← decode P (sealed ++ moved) before
        .ok ()
    perform (Disk.rename target .events)
  ask fun d => do
    let events ← d.readFile .events
    let _ ← decode P (sealed ++ events) before
    let _ ← decode P (sealed ++ events ++ asBytes frame) after
    .ok ()

/-- `recover_append` for an append that seals, found committed: nothing is left to do but
    to check it. -/
def checkSealed (before after : Manifest) (d : Disk) : Except EventLogError Unit := do
  if !d.has (.segment before.sealed.length) then .error corrupt
  else
    let (sealed, _) ← readSealed d after
    let events ← d.readFile .events
    let _ ← decode P (sealed ++ events) after
    .ok ()

/-- What `recover_append` checks of the active file of an append that does not seal. -/
def checkTail (current before after : Manifest) (frame : String) (sealed : Bytes) (d : Disk) :
    Except EventLogError Unit := do
  let boundary := before.activeLength
  let events ← d.readFile .events
  if events.length < boundary then .error corrupt
  else
    let committed := sealed ++ events.take boundary
    let _ ← decode P committed before
    if !(events.drop boundary).isPrefixOf (asBytes frame) then .error corrupt
    else
      let _ ← decode P (committed ++ asBytes frame) after
      if current = after then
        let _ ← decode P (sealed ++ events) current
        .ok ()
      else .ok ()

/-- `recover_append` for an append that does not seal: a partial line is cut off again
    unless the manifest commits it. -/
def undoTail (current before after : Manifest) (frame : String) (sealed : Bytes) : Io Unit := do
  ask (checkTail P current before after frame sealed)
  when (decide (current ≠ after)) (perform (Disk.setLen .events before.activeLength))

/-- `recover_append` once its intent has been read and found consistent. -/
def finishAppend (current before after : Manifest) (frame : String) : Io Unit := do
  let sealed ← ask fun d => (readSealed d before).map Prod.fst
  if after.sealed.length = before.sealed.length + 1 then
    if current = before then
      undoSeal P before after frame sealed
    else
      ask (checkSealed P before after)
  else
    undoTail P current before after frame sealed
  perform (Disk.remove .appendIntent)

/-- The intent on disk. -/
def readAppendIntent (d : Disk) : Except EventLogError AppendIntent := do
  let bytes ← d.readFile .appendIntent
  match (fromBytes P.toFloatText bytes : Option AppendIntent) with
  | some intent => .ok intent
  | none => .error corrupt

/-- `recover_append`. -/
def recoverAppend (current : Manifest) : Io Unit := do
  let intent ← ask (readAppendIntent P)
  if current ≠ intent.before ∧ current ≠ intent.after then
    fail corrupt
  else if !intent.consistent then
    fail corrupt
  else
    finishAppend P current intent.before intent.after intent.frame

/-! ## Rewriting -/

/-- `PrivacyIntent`. -/
structure PrivacyIntent where
  before : Manifest
  after : Manifest
  replacementDigest : String
  deriving DecidableEq

def PrivacyIntent.toJson (i : PrivacyIntent) : Json :=
  .obj [("before", toValue i.before), ("after", toValue i.after),
    ("replacement_digest", toValue i.replacementDigest)]

def PrivacyIntent.ofJson (j : Json) : Option PrivacyIntent := do
  let fs ← Json.members ["before", "after", "replacement_digest"] j
  let before ← Json.member "before" fs
  let after ← Json.member "after" fs
  let replacementDigest ← Json.member "replacement_digest" fs
  return { before, after, replacementDigest }

instance : Serde PrivacyIntent := ⟨PrivacyIntent.toJson, PrivacyIntent.ofJson⟩

instance : LawfulSerde PrivacyIntent := ⟨fun i => by
  change PrivacyIntent.ofJson i.toJson = some i
  refine (Json.bind_members (by simp) (by simp) _).trans ?_
  iterate 3 refine (Json.bind_member (by rfl) _).trans ?_
  rfl⟩

instance : Floatless PrivacyIntent := ⟨fun F i => by
  have hbefore := Floatless.stable_toValue F i.before
  have hafter := Floatless.stable_toValue F i.after
  have hdigest := Floatless.stable_toValue F i.replacementDigest
  change Json.Stable F i.toJson
  simp [PrivacyIntent.toJson, Json.Stable, Json.StableFields, hbefore, hafter, hdigest]⟩

instance : Readable PrivacyIntent := ⟨fun i => by
  have hbefore := depth_manifest_le i.before
  have hafter := depth_manifest_le i.after
  change i.toJson.depth ≤ _
  simp only [PrivacyIntent.toJson, Json.depth, Json.depthFields, Json.maxDepth, toValue] at *
  omega⟩

/-- The loop of `remove_sealed`: segments `index..index + count`, absent ones skipped. -/
def removeSegments : Nat → Nat → Io Unit
  | _, 0 => pure ()
  | index, count + 1 => do
      let present ← ask fun d => .ok (d.has (.segment index))
      when present (perform (Disk.remove (.segment index)))
      removeSegments (index + 1) count

/-- `remove_sealed`: the directory is synchronised only if something was sealed in it. -/
def removeSealed (count : Nat) : Io Unit :=
  if count = 0 then pure ()
  else do
    removeSegments 0 count
    ask fun d => if d.segments then .ok () else .error Disk.notFound

/-- The consistency checks at the head of `recover_privacy`. -/
def PrivacyIntent.consistent (i : PrivacyIntent) : Bool :=
  i.before.store == i.after.store &&
    checkedAdd i.before.epoch 1 == some i.after.epoch &&
    i.before.known && i.after.known && i.after.format == i.before.format &&
    i.after.sealAt == i.before.sealAt && i.after.sealed.isEmpty

/-- What `recover_privacy` checks before the replacement takes the place of the history. -/
def checkReplacement (before after : Manifest) (replacementDigest : String) (d : Disk) :
    Except EventLogError Unit := do
  let events ← d.readFile .events
  let (sealed, _) ← readSealed d before
  let _ ← decode P (sealed ++ events) before
  let replacement ← d.readFile .privacyNext
  if P.sha256 replacement ≠ replacementDigest then .error corrupt
  else
    let _ ← decode P replacement after
    .ok ()

/-- The part of `recover_privacy` that puts the replacement in place, unless the digest of
    `events.jsonl` says it already is. -/
def installReplacement (before after : Manifest) (replacementDigest : String) : Io Unit := do
  let events ← ask fun d => d.readFile .events
  if P.sha256 events = replacementDigest then
    ask fun _ => (decode P events after).map fun _ => ()
  else
    ask (checkReplacement P before after replacementDigest)
    perform (Disk.rename .privacyNext .events)

/-- The part of `recover_privacy` after the replacement is in place. -/
def retireEpoch (before after : Manifest) : Io Unit := do
  atomicJson P .manifest after
  removeSealed before.sealed.length
  let leftover ← ask fun d => .ok (d.has .privacyNext)
  when leftover (perform (Disk.remove .privacyNext))
  perform (Disk.remove .privacyIntent)

/-- The intent on disk. -/
def readPrivacyIntent (d : Disk) : Except EventLogError PrivacyIntent := do
  let bytes ← d.readFile .privacyIntent
  match (fromBytes P.toFloatText bytes : Option PrivacyIntent) with
  | some intent => .ok intent
  | none => .error corrupt

/-- `recover_privacy`. -/
def recoverPrivacy (current : Manifest) : Io Manifest := do
  let intent ← ask (readPrivacyIntent P)
  if current ≠ intent.before ∧ current ≠ intent.after then
    fail corrupt
  else if !intent.consistent then
    fail corrupt
  else
    installReplacement P intent.before intent.after intent.replacementDigest
    retireEpoch P intent.before intent.after
    return intent.after

/-- The manifest of the epoch after `m`, before any frame of it. -/
def Manifest.retired (m : Manifest) (epoch : Nat) : Manifest :=
  { m with
    epoch
    sequence := 0
    length := 0
    digest := ZERO
    segments := m.segments.map fun s => { s with sealed := [] } }

/-- The history a rewrite starts its epoch with: the bytes and the manifest of
    `transactions`, all in one active segment. -/
def Manifest.rewrite (m : Manifest) (transactions : List Json) :
    Except EventLogError (Bytes × Manifest) :=
  match checkedAdd m.epoch 1 with
  | none => .error corrupt
  | some epoch =>
      let base := m.retired epoch
      let (bytes, digest) := encodeChain P base 0 ZERO transactions
      -- the length of a buffer is a `usize`: no longer one is ever filled
      if bytes.length < u64Limit then
        .ok (bytes, { base with
          sequence := transactions.length, length := bytes.length, digest })
      else .error corrupt

/-- `Journal::privacy`: the only path that rewrites history. -/
def Journal.privacy (j : Journal) (transactions : List Json) : Io Journal := do
  let (bytes, next) ← ask fun _ => j.manifest.rewrite P transactions
  let stale ← ask fun d => .ok (d.has .privacyNext)
  when stale (perform (Disk.remove .privacyNext))
  writeSynced .privacyNext bytes
  atomicJson P .privacyIntent
    ({ before := j.manifest, after := next, replacementDigest := P.sha256 bytes } : PrivacyIntent)
  let manifest ← (recoverPrivacy P j.manifest).mapError fun _ => .UnknownCommit
  return { manifest, transactions, content := ⟨bytes, none, []⟩ }

/-! ## Opening -/

/-- `FileLayout`. -/
inductive FileLayout where
  | Single
  | Segmented (sealAt : Nat)
  deriving DecidableEq

/-- The format and the segment record a new store starts with. -/
def FileLayout.start : FileLayout → Except EventLogError (String × Option Segments)
  | .Single => .ok (FORMAT, none)
  | .Segmented sealAt =>
      if 1 ≤ sealAt then .ok (SEGMENTED_FORMAT, some ⟨sealAt, []⟩)
      else .error (.Invalid "a segmented file store seals at one byte or more")

/-- The part of `open_with_creation` that mints a missing store. -/
def createStore (layout : Option FileLayout) : Io Unit :=
  match layout with
  | none => fail corrupt
  | some layout => do
      let orphaned ← ask fun d => .ok (d.has .events || d.has .privacyIntent)
      if orphaned then
        fail corrupt
      else
        let (format, segments) ← ask fun _ => layout.start
        let store ← newEventId P
        writeSynced .events []
        atomicJson P .manifest
          ({ format, store, epoch := 0, sequence := 0, length := 0, digest := ZERO, segments }
            : Manifest)

/-- The part of `open_with_creation` that takes the writers' lock. -/
def takeLock (create : Bool) : Io Unit := do
  let present ← ask fun d => .ok (d.has .lock)
  if !present then
    if create then
      perform (Disk.createNew .lock)
    else
      fail Disk.notFound

/-- The part of `open_with_creation` that finishes or undoes what an intent describes. -/
def recover (m : Manifest) : Io Manifest := do
  let both ← ask fun d => .ok (d.has .privacyIntent && d.has .appendIntent)
  if both then
    fail corrupt
  else
    let rewriting ← ask fun d => .ok (d.has .privacyIntent)
    let m ← if rewriting then recoverPrivacy P m else pure m
    let appending ← ask fun d => .ok (d.has .appendIntent)
    when appending (recoverAppend P m)
    return m

/-- The manifest on disk, if it is one this release reads. -/
def readManifest (d : Disk) : Except EventLogError Manifest := do
  let bytes ← d.readFile .manifest
  match (fromBytes P.toFloatText bytes : Option Manifest) with
  | some m => if m.known then .ok m else .error corrupt
  | none => .error corrupt

/-- The part of `open_with_creation` after the store exists: recovery, the complete read,
    the sweep. -/
def openProvisioned : Io Journal := do
  let m ← ask (readManifest P)
  let m ← recover P m
  let (transactions, content) ← ask (readCommitted P m)
  let _ ← sweepUnselected P
  return ⟨m, transactions, content⟩

/-- `Journal::open_with_creation`; no layout opens only what exists. -/
def openJournal (layout : Option FileLayout) : Io Journal := do
  let foreign ← ask fun d => .ok (d.has .storeJson)
  if foreign then
    fail (.Invalid "this directory holds an eventlog-tree store, not a file store")
  else
    takeLock layout.isSome
    let provisioned ← ask fun d => .ok (d.has .manifest)
    when (!provisioned) (createStore P layout)
    openProvisioned P

end Eventlog.File
