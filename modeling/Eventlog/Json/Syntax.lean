import Mathlib

/-!
# Eventlog.Json.Syntax

The syntax of a JSON document, as a parser sees it: objects keep their members in the
order and number they were written.  Numbers are the two kinds a `serde_json`-like
library keeps apart, integers and finite binary64 values.

How a binary64 value is printed and read is left to a parameter, `FloatText`.  All that
is asked of it is what the grammar needs (the text is a number token and not an integer
token) and that the printer tells any two values apart; reading back what was printed
is *not* among the laws.

Nothing in the `Json` modules knows the store they are used for.
-/

/-! ## Numbers -/

/-- A finite binary64 value, by its bit pattern. -/
structure Float64 where
  bits : UInt64
  finite : bits.toNat / 2 ^ 52 % 2 ^ 11 ≠ 2047
  deriving DecidableEq

namespace Json

/-- A JSON number: an integer, or a binary64 value.

    Machine integers are embedded in `Int`; nothing here depends on their width. -/
inductive Number where
  | int (i : Int)
  | float (x : Float64)
  deriving DecidableEq

/-- The characters a number token is made of. -/
def isNumberChar (c : Char) : Bool :=
  c.isDigit || c == '-' || c == '+' || c == '.' || c == 'e' || c == 'E'

/-- The characters a number token starts with. -/
def isNumberStart (c : Char) : Bool :=
  c.isDigit || c == '-'

/-- A digit string without a leading zero, as a natural number. -/
def readDigits (cs : List Char) : Option Nat :=
  if cs ≠ [] ∧ cs.all Char.isDigit ∧ (cs.head? = some '0' → cs = ['0']) then
    some (Nat.ofDigitChars 10 cs 0)
  else
    none

/-- An integer token.  `-0` is not one: it is read as the float it denotes. -/
def readInt : List Char → Option Int
  | '-' :: cs =>
      match readDigits cs with
      | some (n + 1) => some (Int.negSucc n)
      | _ => none
  | cs => (readDigits cs).map Int.ofNat

/-- The text of an integer. -/
def printInt : Int → List Char
  | .ofNat n => Nat.toDigits 10 n
  | .negSucc n => '-' :: Nat.toDigits 10 (n + 1)

/-- How binary64 values are written and read.

    `parse (print x) = some x` is deliberately absent: a reader that is not correctly
    rounding misses some values. -/
structure FloatText where
  print : Float64 → List Char
  parse : List Char → Option Float64
  print_start : ∀ x, ∃ c cs, print x = c :: cs ∧ isNumberStart c
  print_chars : ∀ x, ∀ c ∈ print x, isNumberChar c
  print_not_int : ∀ x, readInt (print x) = none
  print_injective : Function.Injective print

end Json

/-! ## Documents -/

/-- A JSON document as it is written. -/
inductive Json where
  | null
  | bool (b : Bool)
  | num (n : Json.Number)
  | str (s : String)
  | arr (items : List Json)
  | obj (fields : List (String × Json))

namespace Json

/- Equality is decided by hand: the deriving handler does not go through the nested
   lists.  `beq` follows the constructors, and `beq_iff` says it is equality. -/

mutual

/-- Structural equality test. -/
def beq : Json → Json → Bool
  | .null, .null => true
  | .bool a, .bool b => a == b
  | .num a, .num b => decide (a = b)
  | .str a, .str b => a == b
  | .arr xs, .arr ys => beqItems xs ys
  | .obj xs, .obj ys => beqFields xs ys
  | _, _ => false

/-- `beq` on the elements of an array. -/
def beqItems : List Json → List Json → Bool
  | [], [] => true
  | x :: xs, y :: ys => beq x y && beqItems xs ys
  | _, _ => false

/-- `beq` on the members of an object. -/
def beqFields : List (String × Json) → List (String × Json) → Bool
  | [], [] => true
  | (k, x) :: xs, (l, y) :: ys => k == l && (beq x y && beqFields xs ys)
  | _, _ => false

end

mutual

theorem beq_iff (a b : Json) : beq a b = true ↔ a = b := by
  cases a <;> cases b <;> simp [beq, beqItems_iff, beqFields_iff]

theorem beqItems_iff (xs ys : List Json) : beqItems xs ys = true ↔ xs = ys := by
  cases xs <;> cases ys <;> simp [beqItems, beq_iff, beqItems_iff]

theorem beqFields_iff (xs ys : List (String × Json)) :
    beqFields xs ys = true ↔ xs = ys := by
  match xs, ys with
  | [], [] => simp [beqFields]
  | [], _ :: _ => simp [beqFields]
  | _ :: _, [] => simp [beqFields]
  | (k, x) :: xs, (l, y) :: ys =>
      simp [beqFields, beq_iff x y, beqFields_iff xs ys, and_assoc]

end

instance : DecidableEq Json := fun a b => decidable_of_iff _ (beq_iff a b)

/-! ## Nesting -/

mutual

/-- How deep the arrays and objects of a document nest. -/
def depth : Json → Nat
  | .arr xs => depthItems xs + 1
  | .obj fs => depthFields fs + 1
  | _ => 0

/-- `depth` over the elements of an array. -/
def depthItems : List Json → Nat
  | [] => 0
  | x :: xs => max (depth x) (depthItems xs)

/-- `depth` over the members of an object. -/
def depthFields : List (String × Json) → Nat
  | [] => 0
  | (_, x) :: xs => max (depth x) (depthFields xs)

end

/-- The deepest nesting a reader opens: `serde_json` starts with 128 levels and refuses to
    enter the last. -/
def maxDepth : Nat := 127

theorem depthItems_le_iff {n : Nat} (xs : List Json) :
    depthItems xs ≤ n ↔ ∀ x ∈ xs, x.depth ≤ n := by
  induction xs with
  | nil => simp [depthItems]
  | cons x xs ih => simp [depthItems, Nat.max_le, ih]

end Json
