import Eventlog.Json.RoundTrip

/-!
# Eventlog.Json.Bytes

JSON documents as UTF-8 bytes.

* `fromSlice_toVec` — reading the bytes of a document gives the reread document, with or
  without a line feed after them;
* `lineFeed_notMem_toVec` — a document's bytes contain no line feed, so documents written
  one a line can be cut apart again;
* `toVec_injective` — different documents have different bytes, stable or not.
-/

/-- The bytes of a file or of a part of one. -/
abbrev Bytes := List UInt8

namespace Json

/-- The line feed byte. -/
def lineFeed : UInt8 := 10

/-- The UTF-8 bytes of a text. -/
def utf8 (cs : List Char) : Bytes :=
  cs.flatMap String.utf8EncodeChar

/-- The text that bytes encode, if they are UTF-8. -/
def fromUtf8 (bytes : Bytes) : Option (List Char) :=
  bytes.toByteArray.utf8Decode?.map Array.toList

/-- The bytes of a document. -/
def toVec (F : FloatText) (j : Json) : Bytes :=
  utf8 (print F j)

/-- The document that bytes hold. -/
def fromSlice (F : FloatText) (bytes : Bytes) : Option Json :=
  (fromUtf8 bytes).bind (parse F)

/-! ## UTF-8 -/

theorem utf8_append (xs ys : List Char) : utf8 (xs ++ ys) = utf8 xs ++ utf8 ys := by
  simp [utf8]

theorem fromUtf8_utf8 (cs : List Char) : fromUtf8 (utf8 cs) = some cs := by
  have hbytes : (utf8 cs).toByteArray = cs.utf8Encode := rfl
  rw [fromUtf8, hbytes, List.utf8Decode?_utf8Encode]
  simp

theorem utf8_injective : Function.Injective utf8 := by
  intro xs ys h
  have hx := fromUtf8_utf8 xs
  rw [h, fromUtf8_utf8] at hx
  exact (Option.some.inj hx).symm

theorem fromUtf8_eq_some_iff {bytes : Bytes} {cs : List Char} :
    fromUtf8 bytes = some cs ↔ bytes = utf8 cs := by
  constructor
  · intro h
    have hsome : bytes.toByteArray.utf8Decode?.isSome := by
      rw [fromUtf8, Option.map_eq_some_iff] at h
      obtain ⟨chars, hchars, -⟩ := h
      rw [hchars]
      rfl
    obtain ⟨ds, hds⟩ := ByteArray.isSome_utf8Decode?_iff.mp hsome
    have hbytes : bytes = utf8 ds := List.toByteArray_inj.mp hds
    rw [hbytes, fromUtf8_utf8] at h
    rw [hbytes, Option.some.inj h]
  · rintro rfl
    exact fromUtf8_utf8 cs

/-- An ASCII byte is the whole encoding of its character: every byte of a longer sequence has
    its top bit set. -/
theorem utf8EncodeChar_of_mem_ascii {c : Char} {b : UInt8} (hb : b.toNat < 128)
    (h : b ∈ String.utf8EncodeChar c) : String.utf8EncodeChar c = [b] := by
  have hbyte : ∀ n, 128 ≤ n → n < 256 → b ≠ UInt8.ofNat n := by
    rintro n hle hlt rfl
    rw [UInt8.toNat_ofNat', Nat.mod_eq_of_lt hlt] at hb
    omega
  unfold String.utf8EncodeChar at h ⊢
  simp only at h ⊢
  split_ifs at h ⊢ with h1 h2 h3
  · rw [List.mem_singleton.mp h]
  all_goals simp only [List.mem_cons, List.not_mem_nil, or_false] at h
  · rcases h with h | h <;> exact absurd h (hbyte _ (by omega) (by omega))
  · rcases h with h | h | h <;> exact absurd h (hbyte _ (by omega) (by omega))
  · rcases h with h | h | h | h <;> exact absurd h (hbyte _ (by omega) (by omega))

/-- Only the ASCII character itself is encoded with its byte. -/
theorem eq_of_mem_utf8EncodeChar {c d : Char} {b : UInt8} (hb : b.toNat < 128)
    (hd : String.utf8EncodeChar d = [b]) (h : b ∈ String.utf8EncodeChar c) : c = d := by
  have hutf8 : utf8 [c] = utf8 [d] := by
    simp [utf8, hd, utf8EncodeChar_of_mem_ascii hb h]
  exact List.head_eq_of_cons_eq (utf8_injective hutf8)

theorem eq_lineFeed_of_mem_utf8EncodeChar {c : Char} (h : lineFeed ∈ String.utf8EncodeChar c) :
    c = '\n' :=
  eq_of_mem_utf8EncodeChar (by decide) (by decide) h

theorem lineFeed_mem_utf8 {cs : List Char} : lineFeed ∈ utf8 cs ↔ '\n' ∈ cs := by
  constructor
  · intro h
    obtain ⟨c, hc, hbyte⟩ := List.mem_flatMap.mp h
    rwa [eq_lineFeed_of_mem_utf8EncodeChar hbyte] at hc
  · intro h
    exact List.mem_flatMap.mpr ⟨'\n', h, by decide⟩

/-! ## Documents hold no line feed -/

theorem not_mem_of_isNumberChar {cs : List Char} (h : ∀ c ∈ cs, isNumberChar c) :
    '\n' ∉ cs :=
  fun hmem => absurd (h _ hmem) (by decide)

theorem lineFeed_notMem_escapeChar (c : Char) : '\n' ∉ escapeChar c := by
  have hhex : ∀ n, '\n' ≠ hexDigit n := by
    have hall : ∀ d, d < 16 → '\n' ≠ Nat.digitChar d := by decide
    exact fun n => hall _ (Nat.mod_lt n (by decide))
  unfold escapeChar
  split_ifs with hquote hback hn <;> simp_all [eq_comm]

theorem lineFeed_notMem_printString (s : String) : '\n' ∉ printString s := by
  simp [printString, escape, lineFeed_notMem_escapeChar]

mutual

theorem lineFeed_notMem_print (F : FloatText) (j : Json) : '\n' ∉ print F j := by
  match j with
  | .null | .bool true | .bool false | .arr [] | .obj [] => simp [print]
  | .num n => rw [print]; exact not_mem_of_isNumberChar (printNumber_chars F n)
  | .str s => rw [print]; exact lineFeed_notMem_printString s
  | .arr (x :: xs) => simp [print, lineFeed_notMem_print F x, lineFeed_notMem_printItems F xs]
  | .obj ((k, x) :: xs) =>
      simp [print, lineFeed_notMem_printString, lineFeed_notMem_print F x,
        lineFeed_notMem_printFields F xs]

theorem lineFeed_notMem_printItems (F : FloatText) (xs : List Json) :
    '\n' ∉ printItems F xs := by
  match xs with
  | [] => simp [printItems]
  | x :: xs => simp [printItems, lineFeed_notMem_print F x, lineFeed_notMem_printItems F xs]

theorem lineFeed_notMem_printFields (F : FloatText) (fs : List (String × Json)) :
    '\n' ∉ printFields F fs := by
  match fs with
  | [] => simp [printFields]
  | (k, x) :: xs =>
      simp [printFields, lineFeed_notMem_printString, lineFeed_notMem_print F x,
        lineFeed_notMem_printFields F xs]

end

/-- A document's bytes contain no line feed. -/
theorem lineFeed_notMem_toVec (F : FloatText) (j : Json) : lineFeed ∉ toVec F j := by
  rw [toVec, lineFeed_mem_utf8]
  exact lineFeed_notMem_print F j

/-! ## Reading documents back -/

theorem fromSlice_toVec (F : FloatText) (j : Json) : fromSlice F (toVec F j) = reread F j := by
  have h := parse_print F j [] (by simp)
  rw [List.append_nil] at h
  rw [fromSlice, toVec, fromUtf8_utf8, Option.bind_some, h]

/-- A document on a line of its own reads the same. -/
theorem fromSlice_toVec_line (F : FloatText) (j : Json) :
    fromSlice F (toVec F j ++ [lineFeed]) = reread F j := by
  have hline : toVec F j ++ [lineFeed] = utf8 (print F j ++ ['\n']) := by
    rw [utf8_append]; rfl
  rw [fromSlice, hline, fromUtf8_utf8, Option.bind_some]
  exact parse_print F j ['\n'] (List.all_eq_true.mp (by decide))

/-- A document's bytes are read back as that document exactly when it is stable and the reader
    goes as deep as it nests. -/
theorem fromSlice_toVec_eq_some_iff (F : FloatText) (j : Json) :
    fromSlice F (toVec F j) = some j ↔ Stable F j ∧ j.depth ≤ maxDepth := by
  rw [fromSlice_toVec, reread_eq_some_iff]

/-! ## Different documents print differently -/

/-- The reader that inverts the printer: it exists because the printer is injective. -/
noncomputable def FloatText.exact (F : FloatText) : FloatText where
  print := F.print
  parse := Function.partialInv F.print
  print_start := F.print_start
  print_chars := F.print_chars
  print_not_int := F.print_not_int
  print_injective := F.print_injective

mutual

theorem stable_exact (F : FloatText) (j : Json) : Stable F.exact j := by
  match j with
  | .null | .bool _ | .str _ => simp [Stable]
  | .num (.int _) => simp [Stable, Number.Stable]
  | .num (.float x) =>
      rw [Stable, Number.Stable]
      exact Function.partialInv_left F.print_injective x
  | .arr xs => rw [Stable]; exact stableItems_exact F xs
  | .obj fs => rw [Stable]; exact stableFields_exact F fs

theorem stableItems_exact (F : FloatText) (xs : List Json) : StableItems F.exact xs := by
  match xs with
  | [] => simp [StableItems]
  | x :: xs => exact ⟨stable_exact F x, stableItems_exact F xs⟩

theorem stableFields_exact (F : FloatText) (fs : List (String × Json)) :
    StableFields F.exact fs := by
  match fs with
  | [] => simp [StableFields]
  | (_, x) :: xs => exact ⟨stable_exact F x, stableFields_exact F xs⟩

end

mutual

/-- The text depends on how floats are printed only. -/
theorem print_exact (F : FloatText) (j : Json) : print F.exact j = print F j := by
  match j with
  | .null | .bool true | .bool false | .str _ | .arr [] | .obj [] => simp [print]
  | .num (.int _) => simp [print, printNumber]
  | .num (.float _) => simp [print, printNumber, FloatText.exact]
  | .arr (x :: xs) => simp [print, print_exact F x, printItems_exact F xs]
  | .obj ((k, x) :: xs) => simp [print, print_exact F x, printFields_exact F xs]

theorem printItems_exact (F : FloatText) (xs : List Json) :
    printItems F.exact xs = printItems F xs := by
  match xs with
  | [] => simp [printItems]
  | x :: xs => simp [printItems, print_exact F x, printItems_exact F xs]

theorem printFields_exact (F : FloatText) (fs : List (String × Json)) :
    printFields F.exact fs = printFields F fs := by
  match fs with
  | [] => simp [printFields]
  | (k, x) :: xs => simp [printFields, print_exact F x, printFields_exact F xs]

end

/-- **Printing is injective**, whether or not floats survive their text and however deep the
    documents nest: the exact reader, given fuel for both, recovers the document. -/
theorem print_injective (F : FloatText) : Function.Injective (print F) := by
  intro a b h
  have hread (j : Json) (hj : size j ≤ size a + size b) :
      parseValue F.exact (size a + size b) (print F j ++ []) = some (j, []) := by
    rw [← print_exact, parseValue_print F.exact j _ [] hj delimited_nil,
      (refloat_eq_some_iff F.exact j).mpr (stable_exact F j)]
    rfl
  have ha := hread a (by omega)
  have hb := hread b (by omega)
  rw [h, hb] at ha
  exact (Prod.mk.inj (Option.some.inj ha)).1.symm

theorem toVec_injective (F : FloatText) : Function.Injective (toVec F) :=
  utf8_injective.comp (print_injective F)

end Json
