import Eventlog.Json.Syntax

/-!
# Eventlog.Json.Text

Printing and parsing of JSON documents as lists of characters.

`print` writes the compact form, with the escapes `serde_json` uses.  `parse` reads any
JSON text: it skips white space, accepts every escape of the grammar (surrogate pairs
included) and keeps the members of an object as they come.

The parsers recurse on a fuel that bounds the nesting and the number of elements still
to read; `parse` starts with more fuel than the text has characters.  A document that nests
deeper than `maxDepth` is refused, as `serde_json` refuses it.
-/

namespace Json

/-! ## Printing -/

/-- One lower-case hexadecimal digit. -/
def hexDigit (n : Nat) : Char :=
  Nat.digitChar (n % 16)

/-- The escape of a character inside a string. -/
def escapeChar (c : Char) : List Char :=
  if c = '"' then ['\\', '"']
  else if c = '\\' then ['\\', '\\']
  else if c = '\n' then ['\\', 'n']
  else if c = '\r' then ['\\', 'r']
  else if c = '\t' then ['\\', 't']
  else if c.toNat = 0x08 then ['\\', 'b']
  else if c.toNat = 0x0c then ['\\', 'f']
  else if c.toNat < 0x20 then ['\\', 'u', '0', '0', hexDigit (c.toNat / 16), hexDigit c.toNat]
  else [c]

/-- The inside of a string literal. -/
def escape (cs : List Char) : List Char :=
  cs.flatMap escapeChar

/-- A string literal. -/
def printString (s : String) : List Char :=
  '"' :: (escape s.toList ++ ['"'])

/-- A number token. -/
def printNumber (F : FloatText) : Number → List Char
  | .int i => printInt i
  | .float x => F.print x

/- The elements of an array and the members of an object are printed with the closing
   bracket as part of the tail, so that a tail starts with `,` or with the bracket. -/

mutual

/-- The compact text of a document. -/
def print (F : FloatText) : Json → List Char
  | .null => ['n', 'u', 'l', 'l']
  | .bool true => ['t', 'r', 'u', 'e']
  | .bool false => ['f', 'a', 'l', 's', 'e']
  | .num n => printNumber F n
  | .str s => printString s
  | .arr [] => ['[', ']']
  | .arr (x :: xs) => '[' :: (print F x ++ printItems F xs)
  | .obj [] => ['{', '}']
  | .obj ((k, x) :: xs) => '{' :: (printString k ++ ':' :: (print F x ++ printFields F xs))

/-- The elements after the first, and the closing bracket. -/
def printItems (F : FloatText) : List Json → List Char
  | [] => [']']
  | x :: xs => ',' :: (print F x ++ printItems F xs)

/-- The members after the first, and the closing brace. -/
def printFields (F : FloatText) : List (String × Json) → List Char
  | [] => ['}']
  | (k, x) :: xs => ',' :: (printString k ++ ':' :: (print F x ++ printFields F xs))

end

/-! ## Parsing -/

/-- JSON white space. -/
def isSpace (c : Char) : Bool :=
  c == ' ' || c == '\n' || c == '\t' || c == '\r'

/-- Drops leading white space. -/
def skipSpace (cs : List Char) : List Char :=
  cs.dropWhile isSpace

/-- The value of a hexadecimal digit of either case. -/
def hexValue (c : Char) : Option Nat :=
  if c.isDigit then some (c.toNat - '0'.toNat)
  else if 'a' ≤ c ∧ c ≤ 'f' then some (c.toNat - 'a'.toNat + 10)
  else if 'A' ≤ c ∧ c ≤ 'F' then some (c.toNat - 'A'.toNat + 10)
  else none

/-- A code unit from its four hexadecimal digits. -/
def codeUnit (a b c d : Char) : Option Nat := do
  let a ← hexValue a
  let b ← hexValue b
  let c ← hexValue c
  let d ← hexValue d
  return ((a * 16 + b) * 16 + c) * 16 + d

/-- The character a one-letter escape stands for. -/
def simpleEscape : Char → Option Char
  | '"' => some '"'
  | '\\' => some '\\'
  | '/' => some '/'
  | 'b' => some (Char.ofNat 0x08)
  | 'f' => some (Char.ofNat 0x0c)
  | 'n' => some '\n'
  | 'r' => some '\r'
  | 't' => some '\t'
  | _ => none

/-- The rest of a string literal, after its opening quote. -/
def parseString : List Char → Option (List Char × List Char)
  | [] => none
  | '"' :: rest => some ([], rest)
  | '\\' :: 'u' :: a :: b :: c :: d :: rest =>
      match codeUnit a b c d with
      | none => none
      | some unit =>
          if 0xd800 ≤ unit ∧ unit < 0xdc00 then
            -- a leading surrogate counts only together with a trailing one
            match rest with
            | '\\' :: 'u' :: a' :: b' :: c' :: d' :: rest =>
                match codeUnit a' b' c' d' with
                | none => none
                | some low =>
                    if 0xdc00 ≤ low ∧ low < 0xe000 then
                      (parseString rest).map fun (cs, r) =>
                        (Char.ofNat ((unit - 0xd800) * 0x400 + (low - 0xdc00) + 0x10000) :: cs, r)
                    else none
            | _ => none
          else if 0xdc00 ≤ unit ∧ unit < 0xe000 then none
          else (parseString rest).map fun (cs, r) => (Char.ofNat unit :: cs, r)
  | '\\' :: c :: rest =>
      match simpleEscape c with
      | none => none
      | some c => (parseString rest).map fun (cs, r) => (c :: cs, r)
  | c :: rest =>
      if c.toNat < 0x20 then none
      else (parseString rest).map fun (cs, r) => (c :: cs, r)

/-- A number from its token: an integer where the token is one, else a float. -/
def readNumber (F : FloatText) (token : List Char) : Option Number :=
  match readInt token with
  | some i => some (.int i)
  | none => (F.parse token).map .float

/-- Consumes a fixed word. -/
def expect (word cs : List Char) : Option (List Char) :=
  if word.isPrefixOf cs then some (cs.drop word.length) else none

/-- Consumes one character, after white space. -/
def expectChar (c : Char) (cs : List Char) : Option (List Char) :=
  match skipSpace cs with
  | d :: rest => if d = c then some rest else none
  | [] => none

/-- A member's name and the colon after it. -/
def parseName (cs : List Char) : Option (String × List Char) := do
  let cs ← expectChar '"' cs
  let (name, cs) ← parseString cs
  let cs ← expectChar ':' cs
  return (String.ofList name, cs)

mutual

/-- One value from the front of a text, and the text after it. -/
def parseValue (F : FloatText) : Nat → List Char → Option (Json × List Char)
  | 0, _ => none
  | n + 1, cs =>
      match skipSpace cs with
      | [] => none
      | c :: rest =>
          if c = '"' then (parseString rest).map fun (s, r) => (.str (String.ofList s), r)
          else if c = '[' then
            match expectChar ']' rest with
            | some r => some (.arr [], r)
            | none => do
                let (x, r) ← parseValue F n rest
                let (xs, r) ← parseItems F n r
                return (.arr (x :: xs), r)
          else if c = '{' then
            match expectChar '}' rest with
            | some r => some (.obj [], r)
            | none => do
                let (k, r) ← parseName rest
                let (x, r) ← parseValue F n r
                let (xs, r) ← parseFields F n r
                return (.obj ((k, x) :: xs), r)
          else if c = 'n' then (expect ['u', 'l', 'l'] rest).map fun r => (.null, r)
          else if c = 't' then (expect ['r', 'u', 'e'] rest).map fun r => (.bool true, r)
          else if c = 'f' then (expect ['a', 'l', 's', 'e'] rest).map fun r => (.bool false, r)
          else if isNumberStart c then
            (readNumber F ((c :: rest).takeWhile isNumberChar)).map fun v =>
              (.num v, (c :: rest).dropWhile isNumberChar)
          else none

/-- The elements after one, up to the closing bracket. -/
def parseItems (F : FloatText) : Nat → List Char → Option (List Json × List Char)
  | 0, _ => none
  | n + 1, cs =>
      match expectChar ']' cs with
      | some r => some ([], r)
      | none => do
          let r ← expectChar ',' cs
          let (x, r) ← parseValue F n r
          let (xs, r) ← parseItems F n r
          return (x :: xs, r)

/-- The members after one, up to the closing brace. -/
def parseFields (F : FloatText) : Nat → List Char → Option (List (String × Json) × List Char)
  | 0, _ => none
  | n + 1, cs =>
      match expectChar '}' cs with
      | some r => some ([], r)
      | none => do
          let r ← expectChar ',' cs
          let (k, r) ← parseName r
          let (x, r) ← parseValue F n r
          let (xs, r) ← parseFields F n r
          return ((k, x) :: xs, r)

end

/-- A whole text as one document: nothing but white space may follow the value, and the value
    may not nest too deep. -/
def parse (F : FloatText) (cs : List Char) : Option Json :=
  match parseValue F (cs.length + 1) cs with
  | some (j, rest) => if skipSpace rest = [] ∧ j.depth ≤ maxDepth then some j else none
  | none => none

end Json
