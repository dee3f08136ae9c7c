import Eventlog.Contract.FrameChain
import Eventlog.Json.Sorted
import Eventlog.Tree.Reading

/-!
# Eventlog.Tree.Canonical

The canonical form as it is written, with the members of every object sorted on the way out.

`write_canonical` does not rely on the order in which a build of `serde_json` keeps members.  What
it writes is the compact text of the sorted document (`writeCanonical_eq_print`), so it is a
function of the document as a map and tells any two of them apart.  The records of `Tree.Records`
have their members in order, and for those it is `canonical`.
-/

namespace Eventlog.Tree

open Durable Json

/-! ## Writing -/

/-- Texts with commas between them. -/
def separated : List (List Char) → List Char
  | [] => []
  | text :: rest => text ++ rest.flatMap (',' :: ·)

/-- A member, given the text of its value. -/
def memberText (f : String × List Char) : List Char := printString f.1 ++ ':' :: f.2

mutual

/-- `write_canonical`. -/
def writeCanonical (F : FloatText) : Json → List Char
  | .obj fs => '{' :: (separated ((sortMembers (writeFields F fs)).map memberText) ++ ['}'])
  | .arr xs => '[' :: (separated (writeItems F xs) ++ [']'])
  | scalar => print F scalar

/-- The texts of the elements of an array. -/
def writeItems (F : FloatText) : List Json → List (List Char)
  | [] => []
  | x :: xs => writeCanonical F x :: writeItems F xs

/-- The texts of the values of an object, by name. -/
def writeFields (F : FloatText) : List (String × Json) → List (String × List Char)
  | [] => []
  | (k, x) :: fs => (k, writeCanonical F x) :: writeFields F fs

end

/-- `canonical`. -/
def canonicalBytes (F : FloatText) (value : Json) : Bytes := utf8 (writeCanonical F value)

/-! ## The text of the sorted document -/

theorem printItems_eq (F : FloatText) (xs : List Json) :
    printItems F xs = (xs.map (print F)).flatMap (',' :: ·) ++ [']'] := by
  induction xs with
  | nil => rfl
  | cons x xs ih => simp [printItems, ih]

theorem printFields_eq (F : FloatText) (fs : List (String × Json)) : printFields F fs =
    ((fs.map (Prod.map id (print F))).map memberText).flatMap (',' :: ·) ++ ['}'] := by
  induction fs with
  | nil => rfl
  | cons f fs ih => simp [printFields, memberText, ih]

theorem print_arr (F : FloatText) (xs : List Json) :
    print F (.arr xs) = '[' :: (separated (xs.map (print F)) ++ [']']) := by
  cases xs with
  | nil => rfl
  | cons x xs => simp [print, separated, printItems_eq]

theorem print_obj (F : FloatText) (fs : List (String × Json)) : print F (.obj fs) =
    '{' :: (separated ((fs.map (Prod.map id (print F))).map memberText) ++ ['}']) := by
  cases fs with
  | nil => rfl
  | cons f fs => simp [print, separated, memberText, printFields_eq]

mutual

theorem writeCanonical_eq_print (F : FloatText) (j : Json) :
    writeCanonical F j = print F j.sorted := by
  match j with
  | .null | .bool _ | .num _ | .str _ => simp [writeCanonical, sorted]
  | .arr xs => rw [writeCanonical, writeItems_eq F xs, sorted, print_arr]
  | .obj fs => rw [writeCanonical, writeFields_eq F fs, sorted, print_obj, map_sortMembers]

theorem writeItems_eq (F : FloatText) (xs : List Json) :
    writeItems F xs = (sortedItems xs).map (print F) := by
  match xs with
  | [] => rfl
  | x :: xs =>
      rw [writeItems, writeCanonical_eq_print F x, writeItems_eq F xs, sortedItems, List.map_cons]

theorem writeFields_eq (F : FloatText) (fs : List (String × Json)) :
    writeFields F fs = (sortedFields fs).map (Prod.map id (print F)) := by
  match fs with
  | [] => rfl
  | (k, x) :: fs =>
      rw [writeFields, writeCanonical_eq_print F x, writeFields_eq F fs, sortedFields]
      rfl

end

variable {F : FloatText} {v w : Json}

theorem canonicalBytes_eq (F : FloatText) (v : Json) : canonicalBytes F v = toVec F v.sorted := by
  rw [canonicalBytes, writeCanonical_eq_print, toVec]

/-- One encoding a value, and one value an encoding. -/
theorem canonicalBytes_eq_iff : canonicalBytes F v = canonicalBytes F w ↔ v.sorted = w.sorted := by
  rw [canonicalBytes_eq, canonicalBytes_eq, (toVec_injective F).eq_iff]

/-- An encoding is read back as the value it was made from, if the reader goes that deep. -/
theorem fromSlice_canonicalBytes (hfree : v.FloatFree) :
    fromSlice F (canonicalBytes F v) = some v.sorted ↔ v.depth ≤ maxDepth := by
  rw [canonicalBytes_eq, fromSlice_toVec_eq_some_iff, depth_sorted]
  exact and_iff_right (hfree.sorted.stable F)

theorem canonicalBytes_reread (hfree : v.FloatFree) :
    (fromSlice F (canonicalBytes F v)).map (canonicalBytes F) = some (canonicalBytes F v) ↔
      v.depth ≤ maxDepth := by
  constructor
  · intro hread
    obtain ⟨u, hu, -⟩ := Option.map_eq_some_iff.mp hread
    rw [canonicalBytes_eq, fromSlice_toVec, reread, depth_sorted] at hu
    by_contra hdeep
    rw [if_neg hdeep] at hu
    cases hu
  · intro hdepth
    rw [(fromSlice_canonicalBytes hfree).mpr hdepth, Option.map_some, Option.some.injEq,
      canonicalBytes_eq_iff, sorted_of_ordered (ordered_sorted v)]

/-! ## The records -/

variable (P : Platform)

theorem canonical_of_ordered (h : v.Ordered) : canonical P v = canonicalBytes P.toFloatText v := by
  rw [canonicalBytes_eq, sorted_of_ordered h, canonical]

theorem orderedItems_texts (xs : List String) : OrderedItems (xs.map Json.str) := by
  induction xs with
  | nil => exact trivial
  | cons x xs ih => exact ⟨trivial, ih⟩

namespace EventRecord

/-- The digest of a record is that of the canonical form of its envelope. -/
theorem canonical_envelope (r : EventRecord) (recordedAt : String) :
    canonical P (.obj (r.envelopeFields recordedAt)) =
      canonicalBytes P.toFloatText (.obj (r.envelopeFields recordedAt)) := by
  refine canonical_of_ordered P ?_
  rw [Json.Ordered]
  refine ⟨?_, ?_⟩
  · have hnames : ((r.envelopeFields recordedAt).map Prod.fst).Pairwise (· ≤ ·) := by
      simp only [envelopeFields, List.map_cons, List.map_nil]
      decide
    exact List.pairwise_map.mp hnames
  · have hparents := orderedItems_texts r.parents
    simp [envelopeFields, OrderedFields, Json.Ordered, Serde.toValue, hparents]

/-- A record is written unless its moment has no text. -/
theorem exists_toValue_iff (r : EventRecord) :
    (∃ value, r.toValue P = .ok value) ↔ (P.formatTime r.recordedAt).isSome := by
  simp only [toValue, Checks.bind_eq_ok_iff, formatTime_eq_ok_iff, digest_eq_ok_iff,
    Checks.pure_eq_ok_iff, Option.isSome_iff_exists]
  constructor
  · rintro ⟨value, recordedAt, htime, -⟩
    exact ⟨recordedAt, htime⟩
  · rintro ⟨recordedAt, htime⟩
    exact ⟨_, recordedAt, htime, _, ⟨recordedAt, htime, rfl⟩, rfl⟩

end EventRecord

theorem exists_expectedValue {e : Expected} (h : ∀ heads, e ≠ .Merge heads) :
    ∃ value, expectedValue e = .ok value := by
  cases e with
  | Any => exact ⟨_, rfl⟩
  | NoStream => exact ⟨_, rfl⟩
  | Exact version => exact ⟨_, rfl⟩
  | Merge heads => exact absurd rfl (h heads)

namespace GroupRecord

/-- A group is written if its moments have texts and its expectations are linear. -/
theorem exists_toValue {g : GroupRecord} (hoccurred : (P.formatTime g.command.occurredAt).isSome)
    (hrecorded : (P.formatTime g.recordedAt).isSome)
    (hlinear : ∀ m ∈ g.members, ∀ heads, m.expected ≠ .Merge heads) :
    ∃ value, g.toValue P = .ok value := by
  obtain ⟨occurredAt, hoccurred⟩ := Option.isSome_iff_exists.mp hoccurred
  obtain ⟨recordedAt, hrecorded⟩ := Option.isSome_iff_exists.mp hrecorded
  have hmember : ∀ m ∈ g.members, ∃ value, memberValue m = .ok value := by
    intro m hm
    obtain ⟨value, hvalue⟩ := exists_expectedValue (hlinear m hm)
    exact ⟨_, Checks.bind_eq_ok_iff.mpr ⟨value, hvalue, rfl⟩⟩
  obtain ⟨members, hmembers⟩ := Checks.mapM_ok hmember
  refine ⟨.obj (g.fields occurredAt recordedAt members),
    Checks.bind_eq_ok_iff.mpr ⟨occurredAt, (formatTime_eq_ok_iff P).mpr hoccurred, ?_⟩⟩
  refine Checks.bind_eq_ok_iff.mpr ⟨members, hmembers, ?_⟩
  exact Checks.bind_eq_ok_iff.mpr ⟨recordedAt, (formatTime_eq_ok_iff P).mpr hrecorded, rfl⟩

end GroupRecord

end Eventlog.Tree
