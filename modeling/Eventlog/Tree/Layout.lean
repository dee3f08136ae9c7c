import Eventlog.Durable.Program
import Eventlog.File.State
import Eventlog.Tree.Records

/-!
# Eventlog.Tree.Layout

Where each file of a tree store lives, and how its bytes are written.

A path is the list of names it is spelled with, before escaping: `segment` is one name for one
identifier, and a shard directory repeats the start of the name below it, so neither adds
anything to tell files apart by.  A file is written beside its name and renamed over it; what is
staged is never read (`Disk.files` is what readers see).
-/

namespace Eventlog.Tree

open Durable
open File (Table)

variable (P : Platform)

abbrev Path : Type := List String

/-- Every published file under the root, `.cache/` and `.lock` apart. -/
abbrev Files : Type := Table Bytes

/-- The root: what is published, and what is staged beside its name. -/
structure Disk where
  files : Files
  staged : Files

/-- File operations under the root. -/
abbrev Io (α : Type) : Type := Program Disk EventLogError α

/-! ## Formats -/

inductive StoreFormat where
  | V1
  | V2
  | V3
  deriving DecidableEq

/-- Whether a blob may be kept split. -/
def StoreFormat.splits : StoreFormat → Bool
  | .V1 => false
  | .V2 | .V3 => true

/-- The tag `store.json` spells a format with. -/
def StoreFormat.tag : StoreFormat → String
  | .V1 => "eventlog-tree/1"
  | .V2 => "eventlog-tree/2"
  | .V3 => "eventlog-tree/3"

/-! ## Names -/

/-- `byte.is_ascii_alphanumeric() || matches!(byte, b'.' | b'_' | b'-')`. -/
def isNameByte (b : UInt8) : Bool :=
  (0x30 ≤ b && b ≤ 0x39) || (0x41 ≤ b && b ≤ 0x5a) || (0x61 ≤ b && b ≤ 0x7a) ||
    b == 0x2e || b == 0x5f || b == 0x2d

/-- A hexadecimal digit in upper case. -/
def upperHex (n : Nat) : Char :=
  if n < 10 then Char.ofNat (0x30 + n) else Char.ofNat (0x37 + n)

/-- How one byte of an identifier is spelled. -/
def escapeByte (b : UInt8) : List Char :=
  if isNameByte b then [Char.ofNat b.toNat] else ['%', upperHex (b.toNat / 16), upperHex (b.toNat % 16)]

/-- `segment`: one path segment for an identifier. -/
def segment (value : String) : String :=
  match (Json.utf8 value.toList).flatMap escapeByte with
  -- a leading dot would hide the entry
  | '.' :: rest => String.ofList ('%' :: '2' :: 'E' :: rest)
  | name => String.ofList name

/-- The two names of a stream's directory. -/
def streamDir (format : StoreFormat) (streamType streamId : String) : String × String :=
  match format with
  | .V1 | .V2 => (streamType, streamId)
  | .V3 =>
      let key := segment streamType ++ "/" ++ segment streamId
      let name := String.ofList ((P.sha256 (Json.utf8 key.toList)).toList.take 32)
      (String.ofList (name.toList.take 2), name)

/-! ## Paths -/

def storePath : Path := ["store.json"]

def identityPath (tenant : String) : Path := ["tenants", tenant, "identity.json"]

/-- The path of an event's file in a directory of its tenant's streams. -/
def streamPath (tenant : String) (dir : String × String) (digest : String) : Path :=
  ["tenants", tenant, "streams", dir.1, dir.2, digest]

def eventPath (format : StoreFormat) (tenant streamType streamId digest : String) : Path :=
  streamPath tenant (streamDir P format streamType streamId) digest

def groupPath (tenant key : String) : Path := ["tenants", tenant, "groups", key]

def blobPath (tenant digest : String) : Path := ["tenants", tenant, "blobs", digest]

def splitPath (tenant digest : String) : Path := ["tenants", tenant, "split-blobs", digest]

def textPath (tenant hex : String) : Path := ["tenants", tenant, "texts", hex]

/-- Whose file a path is. -/
def pathTenant : Path → Option String
  | "tenants" :: tenant :: _ => some tenant
  | _ => none

/-- The group file a path is, if it is one. -/
def asGroup : Path → Option (String × String)
  | ["tenants", tenant, "groups", key] => some (tenant, key)
  | _ => none

/-- The event file a path is, if it is one: its tenant, its directory and its name. -/
def asEvent : Path → Option (String × (String × String) × String)
  | ["tenants", tenant, "streams", a, b, digest] => some (tenant, (a, b), digest)
  | _ => none

/-- The blob a path holds, in either form. -/
def asBlob : Path → Option (String × String)
  | ["tenants", tenant, "blobs", digest] => some (tenant, digest)
  | ["tenants", tenant, "split-blobs", digest] => some (tenant, digest)
  | _ => none

/-- The split form of a blob, if a path is one. -/
def asSplit : Path → Option (String × String)
  | ["tenants", tenant, "split-blobs", digest] => some (tenant, digest)
  | _ => none

/-! ## Listings -/

/-- The directories under `tenants/`. -/
def tenantNames (files : Files) : List String :=
  (files.keys.filterMap pathTenant).dedup

/-- The names of a tenant's group files. -/
def groupKeys (files : Files) (tenant : String) : List String :=
  (files.keys.filterMap asGroup).filterMap fun g => if g.1 = tenant then some g.2 else none

/-- The event files of a tenant: directory and name. -/
def eventFiles (files : Files) (tenant : String) : List ((String × String) × String) :=
  (files.keys.filterMap asEvent).filterMap fun e => if e.1 = tenant then some e.2 else none

/-- The digests of a tenant's blobs, in either form. -/
def blobDigests (files : Files) (tenant : String) : List String :=
  ((files.keys.filterMap asBlob).filterMap fun b => if b.1 = tenant then some b.2 else none).dedup

/-- `group_files`: the name of every group file. -/
def groupFiles (files : Files) : Finset Path :=
  (files.keys.filter fun path => (asGroup path).isSome).toFinset

/-- `holds_split_files`. -/
def holdsSplitFiles (files : Files) (tenant : String) : Bool :=
  files.keys.any fun path =>
    path.take 3 == ["tenants", tenant, "split-blobs"] || path.take 3 == ["tenants", tenant, "texts"]

/-! ## Reading and writing -/

/-- `serde_json::from_slice` of a file. -/
def readJson (bytes : Bytes) (what : String) : Except EventLogError Json :=
  match Json.fromSlice P.toFloatText bytes with
  | some value => .ok value
  | none => .error (corrupt what)

/-- `Value::get`, and the text there. -/
def getText (value : Json) (name : String) : Option String :=
  match value with
  | .obj fs =>
      match get? fs name with
      | some (.str s) => some s
      | _ => none
  | _ => none

/-- `store_format`. -/
def storeFormat (files : Files) : Except EventLogError StoreFormat :=
  match files[storePath]? with
  | none => .error (.Backend "store.json cannot be read")
  | some bytes => do
      let value ← readJson P bytes "store.json"
      if (getText value "identity").isNone then
        throw (corrupt "store.json is not an eventlog-tree store")
      let format := getText value "format"
      if format = some (StoreFormat.tag .V1) then .ok .V1
      else if format = some (StoreFormat.tag .V2) then .ok .V2
      else if format = some (StoreFormat.tag .V3) then .ok .V3
      else .error (corrupt "store.json is not an eventlog-tree store")

/-- Writes beside the name. -/
def Disk.stage (path : Path) (bytes : Bytes) (d : Disk) : Except EventLogError Disk :=
  .ok { d with staged := d.staged.insert path bytes }

/-- Renames what is staged over the name. -/
def Disk.rename (path : Path) (d : Disk) : Except EventLogError Disk :=
  match d.staged[path]? with
  | some bytes => .ok ⟨d.files.insert path bytes, d.staged.erase path⟩
  | none => .error (.Backend "no staged file")

/-- `remove_if_present`. -/
def Disk.remove (path : Path) (d : Disk) : Except EventLogError Disk :=
  .ok { d with files := d.files.erase path }

/-- `write_atomic`. -/
def writeAtomic (path : Path) (bytes : Bytes) : Io Unit := do
  Program.perform (Disk.stage path bytes)
  Program.perform (Disk.rename path)

/-- `write_once`. -/
def writeOnce (path : Path) (bytes : Bytes) : Io Unit := do
  let existing ← Program.ask fun d => .ok d.files[path]?
  match existing with
  | some held =>
      if held = bytes then pure ()
      else Program.fail (corrupt "an immutable file already holds different bytes")
  | none => writeAtomic path bytes

end Eventlog.Tree
