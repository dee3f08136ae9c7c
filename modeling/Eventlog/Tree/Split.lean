import Eventlog.Tree.Layout

/-!
# Eventlog.Tree.Split

Split blobs: the long string literals of a JSON document stored once, by their SHA-256, and the
blob kept as a manifest that points at them.

`parts` is a list whose expansion is the blob: a string is its bytes, `text` the bytes of a text,
`hex` the hexadecimal spelling of the expansion of further parts.

An index out of bounds and text that is not UTF-8 would stop the program; here they are the
failures of `Cut`.
-/

namespace Eventlog.Tree

open Durable
open File (Table)

variable (P : Platform)

def SPLIT_FORMAT : String := "eventlog-tree/split/1"

/-- The shortest literal that is cut out as a text. -/
def MIN_TEXT : Nat := 1024

/-- How deep hexadecimal literals that spell JSON are opened. -/
def MAX_DEPTH : Nat := 4

/-- Each text a manifest names, by its SHA-256. -/
abbrev Texts : Type := Table Bytes

/-- Cutting, which collects texts; it fails where the program would stop. -/
abbrev Cut (α : Type) : Type := StateT Texts (Except Unit) α

def quote : UInt8 := 0x22

def backslash : UInt8 := 0x5c

/-! ## JSON sequences -/

/-- What may follow a number or a word directly (`peek_end_of_value`). -/
def endsValue : List Char → Bool
  | [] => true
  | c :: _ => Json.isSpace c || ['"', '[', ']', '{', '}', ',', ':'].contains c

/-- Values one after another, each after white space. -/
def isSequence (F : Json.FloatText) : Nat → Bool → List Char → Bool
  | 0, _, _ => false
  | n + 1, seen, cs =>
      match Json.skipSpace cs with
      | [] => seen
      | c :: rest =>
          match Json.parseValue F (cs.length + 1) (c :: rest) with
          | none => false
          | some (value, after) =>
              decide (value.depth ≤ Json.maxDepth) &&
                (['"', '[', '{'].contains c || endsValue after) && isSequence F n true after

/-- `is_json_sequence`. -/
def isJsonSequence (bytes : Bytes) : Bool :=
  match Json.fromUtf8 bytes with
  | none => false
  | some cs => isSequence P.toFloatText (cs.length + 1) false cs

/-! ## Literals -/

/-- The content of a literal after its opening quote, and what follows its closing quote. -/
def closeLiteral : Bytes → Except Unit (Bytes × Bytes)
  | [] => .error ()
  | [b] => if b = quote then .ok ([], []) else .error ()
  | b :: c :: rest =>
      if b = quote then .ok ([], c :: rest)
      else if b = backslash then do
        let (content, after) ← closeLiteral rest
        return (b :: c :: content, after)
      else do
        let (content, after) ← closeLiteral (c :: rest)
        return (b :: content, after)

/-- `literals`: the content of every literal with what stands before it, and the end.  `lead` is
    the closing quote of the literal before. -/
def literals : Nat → Bytes → Bytes → Except Unit (List (Bytes × Bytes) × Bytes)
  | 0, lead, bytes => .ok ([], lead ++ bytes)
  | n + 1, lead, bytes =>
      match bytes.dropWhile (· != quote) with
      | [] => .ok ([], lead ++ bytes)
      | q :: rest => do
          let (content, after) ← closeLiteral rest
          let (more, tail) ← literals n [quote] after
          return ((lead ++ bytes.takeWhile (· != quote) ++ [q], content) :: more, tail)

/-- A lower-case hexadecimal digit. -/
def isHexByte (b : UInt8) : Bool :=
  (0x30 ≤ b && b ≤ 0x39) || (0x61 ≤ b && b ≤ 0x66)

/-- `hex_suffix`. -/
def hexSuffix (content : Bytes) : Nat :=
  let run := (content.reverse.takeWhile isHexByte).length
  run - run % 2

def hexDigitValue (b : UInt8) : UInt8 :=
  if 0x30 ≤ b && b ≤ 0x39 then b - 0x30 else b - 0x61 + 10

def unhex : Bytes → Bytes
  | a :: b :: rest => (hexDigitValue a * 16 + hexDigitValue b) :: unhex rest
  | _ => []

def hexByte (n : Nat) : UInt8 :=
  if n < 10 then UInt8.ofNat (0x30 + n) else UInt8.ofNat (0x57 + n)

/-- `push_hex`. -/
def toHex (bytes : Bytes) : Bytes :=
  bytes.flatMap fun b => [hexByte (b.toNat / 16), hexByte (b.toNat % 16)]

/-! ## Cutting -/

/-- `Parts::literal`: adjacent literals merge. -/
def pushLiteral (parts : List Json) (bytes : Bytes) : Cut (List Json) :=
  if bytes.isEmpty then pure parts
  else
    match Json.fromUtf8 bytes with
    | none => throw ()
    | some cs =>
        match parts.getLast? with
        | some (.str last) => pure (parts.dropLast ++ [.str (last ++ String.ofList cs)])
        | _ => pure (parts ++ [.str (String.ofList cs)])

/-- `text`: the reference to a text, which is kept if its hash is new. -/
def cutText (bytes : Bytes) : Cut Json := do
  let hex := P.sha256 bytes
  modify fun texts => if texts.contains [hex] then texts else texts.insert [hex] bytes
  return .obj [("text", .str ("sha256:" ++ hex))]

/-- What is cut out of a literal long enough: the bytes that stay before it, and its part. -/
def cutLiteral (nested : Bytes → Cut (Option (List Json))) (content : Bytes) :
    Cut (Bytes × Json) := do
  let hex := hexSuffix content
  if hex ≥ MIN_TEXT then
    let decoded := unhex (content.drop (content.length - hex))
    match ← nested decoded with
    | some parts => return (content.take (content.length - hex), .obj [("hex", .arr parts)])
    | none => return (content.take (content.length - hex), .obj [("hex", .arr [← cutText P decoded])])
  else
    return ([], ← cutText P content)

/-- The loop of `parts_of` over the literals: `kept` is what has been left in place since the
    last cut. -/
def cutLiterals (nested : Bytes → Cut (Option (List Json))) (parts : List Json) (cut : Bool)
    (kept : Bytes) : List (Bytes × Bytes) → Bytes → Cut (Option (List Json))
  | [], tail => do
      let parts ← pushLiteral parts (kept ++ tail)
      return if cut then some parts else none
  | (before, content) :: rest, tail =>
      if content.length < MIN_TEXT then
        cutLiterals nested parts cut (kept ++ before ++ content) rest tail
      else do
        let (stay, part) ← cutLiteral P nested content
        let parts ← pushLiteral parts (kept ++ before ++ stay)
        cutLiterals nested (parts ++ [part]) true [] rest tail

/-- `parts_of` on a JSON sequence. -/
def cutJson (nested : Bytes → Cut (Option (List Json))) (bytes : Bytes) :
    Cut (Option (List Json)) := do
  let (found, tail) ← literals (bytes.length + 1) [] bytes
  cutLiterals P nested [] false [] found tail

/-- `split_inclusive` at line feeds. -/
def linesInclusive : Bytes → Bytes → List Bytes
  | [], [] => []
  | line, [] => [line]
  | line, b :: rest =>
      if b = Json.lineFeed then (line ++ [b]) :: linesInclusive [] rest
      else linesInclusive (line ++ [b]) rest

/-- Parts put after parts: literals merge. -/
def pushParts (parts : List Json) : List Json → Cut (List Json)
  | [] => pure parts
  | .str literal :: rest => do
      pushParts (← pushLiteral parts (Json.utf8 literal.toList)) rest
  | other :: rest => pushParts (parts ++ [other]) rest

/-- The loop of `line_parts`. -/
def cutLines (nested : Bytes → Cut (Option (List Json))) (parts : List Json) (cut : Bool) :
    List Bytes → Cut (Option (List Json))
  | [] => return if cut then some parts else none
  | line :: rest => do
      let body := if line.getLast? = some Json.lineFeed then line.dropLast else line
      let opened ← if isJsonSequence P body then cutJson P nested body else pure none
      match opened with
      | some inner => do
          let parts ← pushParts parts inner
          let parts ← pushLiteral parts (line.drop body.length)
          cutLines nested parts true rest
      | none =>
          if line.length ≥ MIN_TEXT then do
            cutLines nested (parts ++ [← cutText P line]) cut rest
          else do
            cutLines nested (← pushLiteral parts line) cut rest

/-- `parts_of`, at `depth` levels from the last. -/
def partsOf : Nat → Bytes → Cut (Option (List Json))
  | 0, _ => pure none
  | depth + 1, bytes =>
      if isJsonSequence P bytes then cutJson P (partsOf depth) bytes
      else if (Json.fromUtf8 bytes).isNone || !bytes.contains Json.lineFeed then pure none
      else cutLines P (partsOf depth) [] false (linesInclusive [] bytes)

/-- The manifest of a blob. -/
def manifest (digest : String) (bytes : Bytes) (parts : List Json) : Json :=
  .obj [("blob", .str digest), ("format", .str SPLIT_FORMAT), ("length", toValue bytes.length),
    ("parts", .arr parts), ("sha256", .str ("sha256:" ++ P.sha256 bytes))]

/-- `split`: the manifest's bytes and the texts it names, or nothing where the blob is better
    kept as it is. -/
def split (digest : String) (bytes : Bytes) : Except Unit (Option (Bytes × Texts)) :=
  if bytes.length < MIN_TEXT then .ok none
  else do
    let (parts, texts) ← (partsOf P MAX_DEPTH bytes).run ∅
    return parts.map fun parts => (canonical P (manifest P digest bytes parts), texts)

end Eventlog.Tree
