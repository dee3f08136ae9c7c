import Eventlog.Order.Kahn
import Eventlog.Tree.Blobs

/-!
# Eventlog.Tree.History

Reading back the files of a tree store, and the order its history is replayed in.

Every event file is held to its digest and its place, every group to its name and its events,
and every parent has to be a committed event of the same stream.  What is left of a tenant are
its groups, each after the groups that hold a parent of one of its events; of those ready the
one with the earliest instant comes first, then the one with the smallest key.

Which of several corruptions is reported first is not modelled: files are read in the order of
their unescaped names.
-/

namespace Eventlog.Tree

open Durable
open File (Table)

variable (P : Platform)

/-- A map by name. -/
abbrev Named (V : Type) : Type := Std.ExtTreeMap String V compare

theorem named_insert {V : Type} (m : Named V) (k k' : String) (v : V) :
    (m.insert k v)[k']? = if k = k' then some v else m[k']? := by
  simp [Std.ExtTreeMap.getElem?_insert, Std.LawfulEqCmp.compare_eq_iff_eq]

theorem table_insert {V : Type} (m : Table V) (k k' : List String) (v : V) :
    (m.insert k v)[k']? = if k = k' then some v else m[k']? := by
  simp [Std.ExtTreeMap.getElem?_insert, Std.LawfulEqCmp.compare_eq_iff_eq]

theorem table_erase {V : Type} (m : Table V) (k k' : List String) :
    (m.erase k)[k']? = if k = k' then none else m[k']? := by
  simp [Std.ExtTreeMap.getElem?_erase, Std.LawfulEqCmp.compare_eq_iff_eq]

theorem mem_iff_exists {V : Type} {m : Table V} {k : List String} : k ∈ m ↔ ∃ v, m[k]? = some v := by
  rw [Std.ExtTreeMap.mem_iff_isSome_getElem?, Option.isSome_iff_exists]

/-- A committed group with its events, one list per member, and those of its blobs that are
    still present. -/
structure Committed where
  record : GroupRecord
  events : List (List EventRecord)
  blobs : List (String × Bytes)

/-- One tenant's history as the tree holds it.  `blobs` is every blob, whether a group bound it
    or `put_blob` stored it alone. -/
structure TenantHistory where
  identity : Option String
  groups : List Committed
  blobs : List (String × Bytes)

/-- What an open found. -/
structure Loaded where
  tenants : List (String × TenantHistory)
  torn : List Path
  groupFiles : Finset Path

/-! ## Single files -/

/-- `read_json` of a path. -/
def readFile (files : Files) (path : Path) : Except EventLogError Json :=
  match files[path]? with
  | some bytes => readJson P bytes "a file that is not JSON"
  | none => .error (.Backend "file cannot be read")

/-- The identity file of a tenant, if there is one. -/
def loadIdentity (files : Files) (tenant : String) : Except EventLogError (Option String) :=
  match files[identityPath tenant]? with
  | none => .ok none
  | some bytes => do
      match getText (← readJson P bytes "a file that is not JSON") "stream_identity" with
      | some identity => .ok (some identity)
      | none => .error (corrupt "tenant identity")

/-- One event file, held to its digest, its body and its directory. -/
def loadEvent (format : StoreFormat) (files : Files) (tenant : String)
    (file : (String × String) × String) : Except EventLogError (String × EventRecord) := do
  let value ← readFile P files (streamPath tenant file.1 file.2)
  let (record, stated) ← EventRecord.fromValue P value
  let digest ← record.digest P
  if digest ≠ stated ∨ file.2 ≠ digest then
    throw (corrupt "an event file whose digest does not match it")
  if record.redacted.isNone ∧ P.sha256 (canonical P record.data) ≠ record.dataDigest then
    throw (corrupt "an event body that does not match its digest")
  if record.tenant ≠ tenant ∨ streamDir P format record.streamType record.streamId ≠ file.1 then
    throw (corrupt "an event file outside its stream's directory")
  return (digest, record)

/-- Every event file of a tenant, by digest. -/
def loadEvents (format : StoreFormat) (files : Files) (tenant : String) :
    Except EventLogError (Named EventRecord) := do
  let loaded ← (eventFiles files tenant).mapM (loadEvent P format files tenant)
  return .ofList loaded

/-- One group file, held to its name. -/
def loadGroup (files : Files) (tenant key : String) : Except EventLogError GroupRecord := do
  let record ← GroupRecord.fromValue P (← readFile P files (groupPath tenant key))
  if record.tenant ≠ tenant ∨ record.keyDigest P ≠ key then
    throw (corrupt "a group file whose name does not match it")
  return record

/-! ## Groups with their events -/

/-- The event a group names at an index, which no group has named before. -/
def takeEvent (events : Named EventRecord) (record : GroupRecord) (key : String) (member : Member)
    (index : Nat) (owner : Named String) (digest : String) :
    Except EventLogError (EventRecord × Named String) :=
  match events[digest]? with
  | none => .error (corrupt "a group whose event is missing")
  | some event =>
      if event.group ≠ key ∨ event.index ≠ index ∨ event.streamType ≠ member.streamType ∨
          event.streamId ≠ member.streamId ∨ event.tenant ≠ record.tenant then
        .error (corrupt "a group whose event names another group")
      else if owner.contains digest then .error (corrupt "an event two groups commit")
      else .ok (event, owner.insert digest key)

/-- The loop over the events of a member, from an index on. -/
def takeMember (events : Named EventRecord) (record : GroupRecord) (key : String)
    (member : Member) : Nat → Named String → List String →
    Except EventLogError (List EventRecord × Named String)
  | _, owner, [] => .ok ([], owner)
  | index, owner, digest :: rest => do
      let (event, owner) ← takeEvent events record key member index owner digest
      let (others, owner) ← takeMember events record key member (index + 1) owner rest
      return (event :: others, owner)

/-- The loop over the members of a group, from an index on. -/
def takeMembers (events : Named EventRecord) (record : GroupRecord) (key : String) :
    Nat → Named String → List Member →
    Except EventLogError (List (List EventRecord) × Named String)
  | _, owner, [] => .ok ([], owner)
  | index, owner, member :: rest => do
      let (taken, owner) ← takeMember events record key member index owner member.events
      let (others, owner) ←
        takeMembers events record key (index + member.events.length) owner rest
      return (taken :: others, owner)

/-- The blobs of a group that are still present. -/
def heldBlobs (blobs : List (String × Bytes)) (record : GroupRecord) : List (String × Bytes) :=
  record.blobs.filterMap fun digest => (blobs.lookup digest).map (digest, ·)

/-- The loop over the group files. -/
def takeGroups (files : Files) (tenant : String) (events : Named EventRecord)
    (blobs : List (String × Bytes)) : Named Committed → Named String → List String →
    Except EventLogError (Named Committed × Named String)
  | committed, owner, [] => .ok (committed, owner)
  | committed, owner, key :: rest => do
      let record ← loadGroup P files tenant key
      let (taken, owner) ← takeMembers events record key 0 owner record.members
      takeGroups files tenant events blobs
        (committed.insert key ⟨record, taken, heldBlobs blobs record⟩) owner rest

/-! ## Parents -/

/-- A parent is a committed event of the same stream, earlier in the group if it is in the same
    one. -/
def checkParent (events : Named EventRecord) (owner : Named String) (group : String)
    (event : EventRecord) (parent : String) : Except EventLogError Unit :=
  match owner[parent]?, events[parent]? with
  | some parentGroup, some parentEvent =>
      if parentEvent.streamType ≠ event.streamType ∨ parentEvent.streamId ≠ event.streamId then
        .error (corrupt "an event whose parent is on another stream")
      else if parentGroup = group ∧ parentEvent.index ≥ event.index then
        .error (corrupt "an event whose parent follows it in its group")
      else .ok ()
  | _, _ => .error (corrupt "an event whose parent is not committed")

/-- The parents of every committed event. -/
def checkParents (events : Named EventRecord) (owner : Named String) :
    Except EventLogError Unit :=
  owner.toList.forM fun owned =>
    match events[owned.1]? with
    | some event => event.parents.forM (checkParent events owner owned.2 event)
    | none => .ok ()

/-! ## The replay order -/

/-- The earliest instant of a group. -/
def Committed.earliest (c : Committed) : Int :=
  ((c.events.flatten.map fun event => event.recordedAt.instant).min?).getD
    c.record.recordedAt.instant

/-- The groups a group follows: those that hold a parent of one of its events. -/
def Committed.follows (c : Committed) (owner : Named String) (key : String) : List String :=
  (((c.events.flatten.flatMap EventRecord.parents).filterMap (owner[·]?)).filter (· ≠ key)).dedup

/-- The groups of a tenant, what each follows, and the rank that decides among the ready. -/
def graph (committed : Named Committed) (owner : Named String) :
    Kahn.Graph String (Int ×ₗ String) where
  nodes := committed.keys
  depends key := (committed[key]?.map fun c => c.follows owner key).getD []
  rank key := toLex ((committed[key]?.map Committed.earliest).getD 0, key)
  nodes_nodup := committed.nodup_keys
  depends_nodup key := by
    cases committed[key]? with
    | none => exact List.nodup_nil
    | some c => exact List.nodup_dedup _

/-- `replay_order`. -/
def replayOrder (committed : Named Committed) (owner : Named String) :
    Except EventLogError (List Committed) :=
  let order := (graph committed owner).kahn
  if order.length ≠ committed.keys.length then .error (corrupt "groups whose parents form a cycle")
  else .ok (order.filterMap (committed[·]?))

/-! ## Loading -/

/-- Everything one tenant's files hold, and its event files no group commits. -/
def loadTenant (format : StoreFormat) (files : Files) (tenant : String) :
    Except EventLogError (TenantHistory × List Path) := do
  if !format.splits ∧ holdsSplitFiles files tenant then
    throw (corrupt "an eventlog-tree/1 store holding split blobs or texts")
  let blobs ← tenantBlobs P files tenant
  let identity ← loadIdentity P files tenant
  let events ← loadEvents P format files tenant
  let (committed, owner) ← takeGroups P files tenant events blobs ∅ ∅ (groupKeys files tenant)
  checkParents events owner
  let groups ← replayOrder committed owner
  let torn := (eventFiles files tenant).filter fun file => !owner.contains file.2
  return (⟨identity, groups, blobs⟩, torn.map fun file => streamPath tenant file.1 file.2)

/-- The format an open reads by: without a `store.json` it is the first one. -/
def loadFormat (files : Files) : Except EventLogError StoreFormat :=
  if files.contains storePath then storeFormat P files else .ok .V1

/-- `load`. -/
def load (files : Files) : Except EventLogError Loaded := do
  let format ← loadFormat P files
  let tenants ← (tenantNames files).mapM fun tenant => do
    return (tenant, ← loadTenant P format files tenant)
  return {
    tenants := tenants.map fun t => (t.1, t.2.1)
    torn := tenants.flatMap fun t => t.2.2
    groupFiles := groupFiles files }

end Eventlog.Tree
