import Eventlog.Tree.Split

/-!
# Eventlog.Tree.Blobs

The blobs of a tree store, in whichever form they are held.

A blob is read from its raw file, or expanded from its manifest; held in both forms, the two
have to agree.
-/

namespace Eventlog.Tree

open Durable
open File (Table)

variable (P : Platform)

/-! ## Expanding -/

/-- `text_hex`: the text a reference names. -/
def textHex (reference : String) : Option String :=
  if "sha256:".toList.isPrefixOf reference.toList then
    let hex := String.ofList (reference.toList.drop 7)
    if P.isSha256 hex then some hex else none
  else none

def unknownPart : EventLogError := corrupt "a split blob with an unknown part"

/-- The bytes of the text a reference names. -/
def expandText (files : Files) (tenant reference : String) : Except EventLogError Bytes :=
  match textHex P reference with
  | none => .error (corrupt "a split blob naming a text badly")
  | some hex =>
      match files[textPath tenant hex]? with
      | some bytes => .ok bytes
      | none => .error (corrupt "a split blob whose text is missing")

mutual

/-- `expand`. -/
def expand (files : Files) (tenant : String) : List Json → Except EventLogError Bytes
  | [] => .ok []
  | part :: rest => do
      let bytes ← expandPart files tenant part
      return bytes ++ (← expand files tenant rest)

/-- One part. -/
def expandPart (files : Files) (tenant : String) : Json → Except EventLogError Bytes
  | .str literal => .ok (Json.utf8 literal.toList)
  | .obj fs => expandFields files tenant fs
  | _ => .error unknownPart

/-- A part that is an object: it has one member. -/
def expandFields (files : Files) (tenant : String) :
    List (String × Json) → Except EventLogError Bytes
  | [(name, value)] => expandNamed files tenant name value
  | _ => .error unknownPart

/-- The member of such a part. -/
def expandNamed (files : Files) (tenant name : String) : Json → Except EventLogError Bytes
  | .str reference =>
      if name = "text" then expandText P files tenant reference else .error unknownPart
  | .arr nested =>
      if name = "hex" then (expand files tenant nested).map toHex else .error unknownPart
  | _ => .error unknownPart

end

/-- `expand_file`. -/
def expandFile (files : Files) (tenant digest : String) (bytes : Bytes) :
    Except EventLogError Bytes := do
  let value ← readJson P bytes "a split blob that is not JSON"
  if canonical P value ≠ bytes then
    throw (corrupt "a split blob that is not canonical")
  if getText value "format" ≠ some SPLIT_FORMAT then
    throw (corrupt "a split blob of an unknown format")
  let fs ← object value "a split blob of an unknown format"
  if fs.length ≠ 5 ∨ getText value "blob" ≠ some digest then
    throw (corrupt "a split blob whose name does not match it")
  let parts ← match get? fs "parts" with
    | some (.arr parts) => pure parts
    | _ => throw (corrupt "a split blob without parts")
  let out ← expand P files tenant parts
  if (get? fs "length").bind fromValue ≠ some out.length ∨
      getText value "sha256" ≠ some ("sha256:" ++ P.sha256 out) then
    throw (corrupt "a split blob that does not expand to its digest")
  return out

/-! ## Reading -/

/-- `read_blob`. -/
def readBlob (files : Files) (tenant digest : String) : Except EventLogError (Option Bytes) :=
  match files[splitPath tenant digest]? with
  | none => .ok files[blobPath tenant digest]?
  | some manifest => do
      let expanded ← expandFile P files tenant digest manifest
      match files[blobPath tenant digest]? with
      | some raw =>
          if raw ≠ expanded then .error (corrupt "a blob whose two forms disagree")
          else .ok (some expanded)
      | none => .ok (some expanded)

/-- `tenant_blobs`: every blob of a tenant with its bytes. -/
def tenantBlobs (files : Files) (tenant : String) :
    Except EventLogError (List (String × Bytes)) := do
  let read ← (blobDigests files tenant).mapM fun digest => do
    return (digest, ← readBlob P files tenant digest)
  return read.filterMap fun blob => blob.2.map (blob.1, ·)

/-! ## Writing -/

/-- A blob that has been cut: its texts first, then the manifest that names them. -/
def writeSplit (tenant digest : String) (manifest : Bytes) (texts : Texts) : Io Unit := do
  texts.toList.forM fun text => writeOnce (textPath tenant (text.1.headD "")) text.2
  writeOnce (splitPath tenant digest) manifest

/-- `write_blob`. -/
def writeBlob (tenant digest : String) (bytes : Bytes) (splitAllowed : Bool) : Io Unit := do
  let files ← Program.ask fun d => .ok d.files
  if files.contains (blobPath tenant digest) || !splitAllowed then
    writeOnce (blobPath tenant digest) bytes
  else if files.contains (splitPath tenant digest) then
    match readBlob P files tenant digest with
    | .error error => Program.fail error
    | .ok held =>
        if held = some bytes then pure ()
        else Program.fail (corrupt "an immutable file already holds different bytes")
  else
    match split P digest bytes with
    | .error () => Program.fail (.Backend "the store's worker panicked")
    | .ok (some (manifest, texts)) => writeSplit tenant digest manifest texts
    | .ok none => writeOnce (blobPath tenant digest) bytes

mutual

/-- `referenced`: every text parts name. -/
def referenced : List Json → List String
  | [] => []
  | part :: rest => referencedPart part ++ referenced rest

/-- The texts one part names. -/
def referencedPart : Json → List String
  | .obj fs => referencedFields fs
  | _ => []

/-- The texts the members of a part name. -/
def referencedFields : List (String × Json) → List String
  | [] => []
  | (name, value) :: rest => referencedNamed name value ++ referencedFields rest

/-- The texts one member names. -/
def referencedNamed (name : String) : Json → List String
  | .str reference => if name = "text" then (textHex P reference).toList else []
  | .arr nested => if name = "hex" then referenced nested else []
  | _ => []

end

/-- `manifest_parts`. -/
def manifestParts (bytes : Bytes) : List Json :=
  match Json.fromSlice P.toFloatText bytes with
  | some (.obj fs) =>
      match get? fs "parts" with
      | some (.arr parts) => parts
      | _ => []
  | _ => []

/-- The texts a file names, if it is the manifest of another blob of the tenant. -/
def namedBy (files : Files) (tenant : String) (path : Path) : List String :=
  match asSplit path, files[path]? with
  | some (owner, _), some bytes => if owner = tenant then referenced P (manifestParts P bytes) else []
  | _, _ => []

/-- `delete_blob`: both forms, and every text only this blob named. -/
def deleteBlob (tenant digest : String) : Io Unit := do
  Program.perform (Disk.remove (blobPath tenant digest))
  let manifest ← Program.ask fun d => .ok d.files[splitPath tenant digest]?
  match manifest with
  | none => pure ()
  | some bytes => do
      Program.perform (Disk.remove (splitPath tenant digest))
      let still ← Program.ask fun d => .ok (d.files.keys.flatMap (namedBy P d.files tenant))
      let named := (referenced P (manifestParts P bytes)).filter (· ∉ still)
      named.forM fun hex => Program.perform (Disk.remove (textPath tenant hex))

end Eventlog.Tree
