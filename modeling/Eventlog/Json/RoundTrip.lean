import Eventlog.Json.Text

/-!
# Eventlog.Json.RoundTrip

What comes back when a printed document is parsed: the same document with each binary64
value replaced by what its own text reads as, or nothing if the document nests too deep.

`reread` computes that document and `parse_print` says the parser returns it.  So
printing and parsing is the identity exactly on the documents that are `Stable`, those whose
binary64 values all survive their own text, and nest no deeper than the reader goes
(`parse_print_eq_some_iff`).
-/

namespace Json

/-! ## Rereading -/

/-- What a number reads as after it was printed. -/
def Number.reread (F : FloatText) : Number → Option Number
  | .int i => some (.int i)
  | .float x => (F.parse (F.print x)).map .float

mutual

/-- A document with each number as it reads after it was printed; `none` if some float's text
    is not read at all. -/
def refloat (F : FloatText) : Json → Option Json
  | .num n => (n.reread F).map .num
  | .arr xs => (refloatItems F xs).map .arr
  | .obj fs => (refloatFields F fs).map .obj
  | j => some j

/-- `refloat` on the elements of an array. -/
def refloatItems (F : FloatText) : List Json → Option (List Json)
  | [] => some []
  | x :: xs => do
      let x ← refloat F x
      let xs ← refloatItems F xs
      return x :: xs

/-- `refloat` on the members of an object. -/
def refloatFields (F : FloatText) : List (String × Json) → Option (List (String × Json))
  | [] => some []
  | (k, x) :: xs => do
      let x ← refloat F x
      let xs ← refloatFields F xs
      return (k, x) :: xs

end

/-- What a document reads as after it was printed. -/
def reread (F : FloatText) (j : Json) : Option Json :=
  if j.depth ≤ maxDepth then refloat F j else none

theorem refloat_of_reread {F : FloatText} {j j' : Json} (h : reread F j = some j') :
    refloat F j = some j' := by
  unfold reread at h
  split at h
  · exact h
  · cases h

mutual

theorem depth_refloat {F : FloatText} {j j' : Json} (h : refloat F j = some j') :
    j'.depth = j.depth := by
  match j with
  | .null | .bool _ | .str _ =>
      rw [refloat, Option.some.injEq] at h
      · rw [h]
      all_goals simp
  | .num n =>
      rw [refloat, Option.map_eq_some_iff] at h
      obtain ⟨_, -, rfl⟩ := h
      rfl
  | .arr xs =>
      rw [refloat, Option.map_eq_some_iff] at h
      obtain ⟨ys, hys, rfl⟩ := h
      rw [depth, depth, depthItems_refloat hys]
  | .obj fs =>
      rw [refloat, Option.map_eq_some_iff] at h
      obtain ⟨gs, hgs, rfl⟩ := h
      rw [depth, depth, depthFields_refloat hgs]

theorem depthItems_refloat {F : FloatText} {xs ys : List Json}
    (h : refloatItems F xs = some ys) : depthItems ys = depthItems xs := by
  match xs with
  | [] =>
      cases h
      rfl
  | x :: xs =>
      simp only [refloatItems, Option.bind_eq_bind, Option.bind_eq_some_iff] at h
      obtain ⟨y, hy, ys, hys, heq⟩ := h
      cases heq
      rw [depthItems, depthItems, depth_refloat hy, depthItems_refloat hys]

theorem depthFields_refloat {F : FloatText} {fs gs : List (String × Json)}
    (h : refloatFields F fs = some gs) : depthFields gs = depthFields fs := by
  match fs with
  | [] =>
      cases h
      rfl
  | (k, x) :: fs =>
      simp only [refloatFields, Option.bind_eq_bind, Option.bind_eq_some_iff] at h
      obtain ⟨y, hy, gs, hgs, heq⟩ := h
      cases heq
      rw [depthFields, depthFields, depth_refloat hy, depthFields_refloat hgs]

end

/-! ## Numbers -/

theorem head?_toDigits_ne_zero (h : 0 < n) : (Nat.toDigits 10 n).head? ≠ some '0' := by
  induction n using Nat.strongRecOn with
  | ind n ih =>
      by_cases hn : n < 10
      · have hsmall : ∀ n < 10, 0 < n → [Nat.digitChar n].head? ≠ some '0' := by decide
        rw [Nat.toDigits_of_lt_base hn]
        exact hsmall n hn h
      · rw [Nat.toDigits_of_base_le (by decide) (by omega), List.head?_append]
        have hhead := ih (n / 10) (by omega) (by omega)
        cases hd : (Nat.toDigits 10 (n / 10)).head? with
        | none => exact absurd (List.head?_eq_none_iff.mp hd) Nat.toDigits_ne_nil
        | some c => rw [hd] at hhead; simpa using hhead

theorem all_isDigit_toDigits (n : Nat) : (Nat.toDigits 10 n).all Char.isDigit := by
  rw [List.all_eq_true]
  exact fun c hc => Nat.isDigit_of_mem_toDigits (by decide) (by decide) hc

theorem readDigits_toDigits (n : Nat) : readDigits (Nat.toDigits 10 n) = some n := by
  have hzero : (Nat.toDigits 10 n).head? = some '0' → Nat.toDigits 10 n = ['0'] := by
    intro h
    cases n with
    | zero => rfl
    | succ n => exact absurd h (head?_toDigits_ne_zero (Nat.succ_pos n))
  rw [readDigits, if_pos ⟨Nat.toDigits_ne_nil, all_isDigit_toDigits n, hzero⟩,
    Nat.ofDigitChars_toDigits (by decide) (by decide)]

theorem readInt_of_head_ne {c : Char} (h : c ≠ '-') :
    readInt (c :: cs) = (readDigits (c :: cs)).map Int.ofNat := by
  unfold readInt
  split
  · next heq => simp_all
  · rfl

theorem readInt_printInt (i : Int) : readInt (printInt i) = some i := by
  cases i with
  | negSucc n => simp [printInt, readInt, readDigits_toDigits]
  | ofNat n =>
      cases hd : Nat.toDigits 10 n with
      | nil => exact absurd hd Nat.toDigits_ne_nil
      | cons c cs =>
          have hc : c.isDigit :=
            Nat.isDigit_of_mem_toDigits (b := 10) (n := n) (by decide) (by decide) (by simp [hd])
          have hne : c ≠ '-' := by rintro rfl; exact absurd hc (by decide)
          rw [printInt, hd, readInt_of_head_ne hne, ← hd, readDigits_toDigits]
          rfl

theorem printInt_start (i : Int) : ∃ c cs, printInt i = c :: cs ∧ isNumberStart c := by
  cases i with
  | negSucc n => exact ⟨'-', _, rfl, by decide⟩
  | ofNat n =>
      cases hd : Nat.toDigits 10 n with
      | nil => exact absurd hd Nat.toDigits_ne_nil
      | cons c cs =>
          have hc : c.isDigit :=
            Nat.isDigit_of_mem_toDigits (b := 10) (n := n) (by decide) (by decide) (by simp [hd])
          exact ⟨c, cs, hd, by simp [isNumberStart, hc]⟩

theorem printInt_chars (i : Int) : ∀ c ∈ printInt i, isNumberChar c := by
  have hdigits : ∀ n, ∀ c ∈ Nat.toDigits 10 n, isNumberChar c := by
    intro n c hc
    have hd := Nat.isDigit_of_mem_toDigits (by decide) (by decide) hc
    simp [isNumberChar, hd]
  cases i with
  | ofNat n => exact hdigits n
  | negSucc n =>
      intro c hc
      cases List.mem_cons.mp hc with
      | inl h => subst h; decide
      | inr h => exact hdigits (n + 1) c h

theorem printNumber_start (F : FloatText) (n : Number) :
    ∃ c cs, printNumber F n = c :: cs ∧ isNumberStart c := by
  cases n with
  | int i => exact printInt_start i
  | float x => exact F.print_start x

theorem printNumber_chars (F : FloatText) (n : Number) :
    ∀ c ∈ printNumber F n, isNumberChar c := by
  cases n with
  | int i => exact printInt_chars i
  | float x => exact F.print_chars x

theorem readNumber_printNumber (F : FloatText) (n : Number) :
    readNumber F (printNumber F n) = n.reread F := by
  cases n with
  | int i => simp [printNumber, readNumber, readInt_printInt, Number.reread]
  | float x => simp [printNumber, readNumber, F.print_not_int, Number.reread]

/-! ## Strings -/

theorem hexValue_hexDigit (n : Nat) : hexValue (hexDigit n) = some (n % 16) := by
  have hall : ∀ d, d < 16 → hexValue (Nat.digitChar d) = some d := by decide
  exact hall _ (Nat.mod_lt n (by decide))

/-- The escape of one character reads as that character. -/
theorem parseString_escapeChar (c : Char) (rest : List Char) :
    parseString (escapeChar c ++ rest) =
      (parseString rest).map fun (cs, r) => (c :: cs, r) := by
  have hcode : ∀ n, c.toNat = n → Char.ofNat n = c := by
    rintro n rfl; exact Char.ofNat_toNat c
  unfold escapeChar
  split_ifs with hquote hback hn hr ht hb hf hctl
  · subst hquote; simp [parseString, simpleEscape]
  · subst hback; simp [parseString, simpleEscape]
  · subst hn; simp [parseString, simpleEscape]
  · subst hr; simp [parseString, simpleEscape]
  · subst ht; simp [parseString, simpleEscape]
  · rw [← hcode _ hb]; simp [parseString, simpleEscape]
  · rw [← hcode _ hf]; simp [parseString, simpleEscape]
  · -- the remaining control characters go through their code unit
    have hunit : codeUnit '0' '0' (hexDigit (c.toNat / 16)) (hexDigit c.toNat) = some c.toNat := by
      have hzero : hexValue '0' = some 0 := by decide
      simp only [codeUnit, hexValue_hexDigit, hzero, Option.bind_eq_bind, Option.bind_some,
        Option.pure_def, Option.some.injEq]
      omega
    have h1 : ¬ (0xd800 ≤ c.toNat ∧ c.toNat < 0xdc00) := by omega
    have h2 : ¬ (0xdc00 ≤ c.toNat ∧ c.toNat < 0xe000) := by omega
    simp [parseString, hunit, h1, h2, Char.ofNat_toNat]
  · rw [List.cons_append, List.nil_append, parseString.eq_def]
    split <;> simp_all <;> omega

theorem parseString_escape (cs rest : List Char) :
    parseString (escape cs ++ '"' :: rest) = some (cs, rest) := by
  induction cs with
  | nil => simp [escape, parseString]
  | cons c cs ih =>
      have happ : escape (c :: cs) ++ '"' :: rest
          = escapeChar c ++ (escape cs ++ '"' :: rest) := by
        simp [escape]
      rw [happ, parseString_escapeChar, ih]
      rfl

/-! ## Values -/

/-- The text after a value does not continue a number token. -/
def Delimited (rest : List Char) : Prop :=
  ∀ c ∈ rest.head?, isNumberChar c = false

theorem delimited_nil : Delimited [] := by
  simp [Delimited]

theorem delimited_printItems (F : FloatText) (xs : List Json) (rest : List Char) :
    Delimited (printItems F xs ++ rest) := by
  cases xs <;> simp [Delimited, printItems] <;> decide

theorem delimited_printFields (F : FloatText) (fs : List (String × Json)) (rest : List Char) :
    Delimited (printFields F fs ++ rest) := by
  cases fs <;> simp [Delimited, printFields] <;> decide

theorem takeWhile_printNumber (F : FloatText) (n : Number) (h : Delimited rest) :
    (printNumber F n ++ rest).takeWhile isNumberChar = printNumber F n := by
  rw [List.takeWhile_append_of_pos (printNumber_chars F n)]
  cases rest with
  | nil => simp
  | cons c rest => simp [h c (by simp)]

theorem dropWhile_printNumber (F : FloatText) (n : Number) (h : Delimited rest) :
    (printNumber F n ++ rest).dropWhile isNumberChar = rest := by
  rw [List.dropWhile_append_of_pos (printNumber_chars F n)]
  cases rest with
  | nil => simp
  | cons c rest => simp [h c (by simp)]

/-- A value's text starts with a character that is no white space and closes nothing. -/
def isValueStart (c : Char) : Bool :=
  c == '"' || c == '[' || c == '{' || c == 'n' || c == 't' || c == 'f' || isNumberStart c

theorem print_start (F : FloatText) (j : Json) :
    ∃ c cs, print F j = c :: cs ∧ isValueStart c := by
  match j with
  | .null => exact ⟨_, _, by rw [print], by decide⟩
  | .bool true => exact ⟨_, _, by rw [print], by decide⟩
  | .bool false => exact ⟨_, _, by rw [print], by decide⟩
  | .num n =>
      obtain ⟨c, cs, h, hc⟩ := printNumber_start F n
      exact ⟨c, cs, by rw [print, h], by simp [isValueStart, hc]⟩
  | .str s => exact ⟨_, _, by rw [print, printString], by decide⟩
  | .arr [] => exact ⟨_, _, by rw [print], by decide⟩
  | .arr (_ :: _) => exact ⟨_, _, by rw [print], by decide⟩
  | .obj [] => exact ⟨_, _, by rw [print], by decide⟩
  | .obj (_ :: _) => exact ⟨_, _, by rw [print], by decide⟩

theorem numberStart_ne {c d : Char} (h : isNumberStart c) (hd : isNumberStart d = false) :
    c ≠ d := by
  rintro rfl; rw [h] at hd; contradiction

theorem valueStart_not_space {c : Char} (h : isValueStart c) : isSpace c = false := by
  cases hs : isSpace c with
  | false => rfl
  | true =>
      have hcases : ((c = ' ' ∨ c = '\n') ∨ c = '\t') ∨ c = '\r' := by
        simpa [isSpace] using hs
      rcases hcases with ((rfl | rfl) | rfl) | rfl <;> exact absurd h (by decide)

theorem skipSpace_print (F : FloatText) (j : Json) (rest : List Char) :
    skipSpace (print F j ++ rest) = print F j ++ rest := by
  obtain ⟨c, cs, h, hc⟩ := print_start F j
  simp [skipSpace, h, valueStart_not_space hc]

theorem expectChar_print_of_not_start (F : FloatText) (j : Json) (rest : List Char) {d : Char}
    (hd : isValueStart d = false) : expectChar d (print F j ++ rest) = none := by
  obtain ⟨c, cs, h, hc⟩ := print_start F j
  have hne : c ≠ d := by rintro rfl; rw [hc] at hd; contradiction
  rw [expectChar, skipSpace_print, h]
  simp [hne]

theorem expectChar_cons_self {c : Char} (h : isSpace c = false) :
    expectChar c (c :: rest) = some rest := by
  simp [expectChar, skipSpace, h]

theorem expectChar_cons_ne {c d : Char} (h : isSpace c = false) (hne : c ≠ d) :
    expectChar d (c :: rest) = none := by
  simp [expectChar, skipSpace, h, hne]

theorem parseName_print (k : String) (rest : List Char) :
    parseName (printString k ++ ':' :: rest) = some (k, rest) := by
  have hstr : printString k ++ ':' :: rest = '"' :: (escape k.toList ++ '"' :: ':' :: rest) := by
    simp [printString]
  rw [hstr, parseName, expectChar_cons_self (by decide)]
  simp only [Option.bind_eq_bind, Option.bind_some, parseString_escape]
  rw [expectChar_cons_self (by decide)]
  simp

mutual

/-- The fuel that reading a document back takes. -/
def size : Json → Nat
  | .arr (x :: xs) => 1 + size x + sizeItems xs
  | .obj ((_, x) :: xs) => 1 + size x + sizeFields xs
  | _ => 1

/-- The fuel that reading the elements of an array takes. -/
def sizeItems : List Json → Nat
  | [] => 1
  | x :: xs => 1 + size x + sizeItems xs

/-- The fuel that reading the members of an object takes. -/
def sizeFields : List (String × Json) → Nat
  | [] => 1
  | (_, x) :: xs => 1 + size x + sizeFields xs

end

/- The induction is on the document; the fuel only has to cover its size.  The number
   case is where a float may come back changed, every other case rebuilds its input. -/

mutual

theorem parseValue_print (F : FloatText) (j : Json) (n : Nat) (rest : List Char)
    (hn : size j ≤ n) (hrest : Delimited rest) :
    parseValue F n (print F j ++ rest) = (refloat F j).map fun j => (j, rest) := by
  match n, j with
  | 0, .null | 0, .bool _ | 0, .num _ | 0, .str _ => simp [size] at hn
  | 0, .arr [] | 0, .arr (_ :: _) | 0, .obj [] | 0, .obj ((_, _) :: _) => simp [size] at hn
  | n + 1, .null =>
      rw [parseValue, skipSpace_print]
      simp [print, refloat, expect, List.isPrefixOf]
  | n + 1, .bool true =>
      rw [parseValue, skipSpace_print]
      simp [print, refloat, expect, List.isPrefixOf]
  | n + 1, .bool false =>
      rw [parseValue, skipSpace_print]
      simp [print, refloat, expect, List.isPrefixOf]
  | n + 1, .num v =>
      obtain ⟨c, cs, hcons, hc⟩ := printNumber_start F v
      have hprint : print F (.num v) ++ rest = c :: (cs ++ rest) := by
        rw [print, hcons, List.cons_append]
      have hback : c :: (cs ++ rest) = printNumber F v ++ rest := by
        rw [hcons, List.cons_append]
      rw [parseValue, skipSpace_print, hprint]
      simp only [numberStart_ne hc (d := '"') (by decide), numberStart_ne hc (d := '[') (by decide),
        numberStart_ne hc (d := '{') (by decide), numberStart_ne hc (d := 'n') (by decide),
        numberStart_ne hc (d := 't') (by decide), numberStart_ne hc (d := 'f') (by decide),
        hc, if_true, if_false]
      rw [hback, takeWhile_printNumber F v hrest, dropWhile_printNumber F v hrest,
        readNumber_printNumber, refloat, Option.map_map]
      rfl
  | n + 1, .str s =>
      rw [parseValue, skipSpace_print]
      simp [print, printString, refloat, parseString_escape]
  | n + 1, .arr [] =>
      rw [parseValue, skipSpace_print]
      simp only [print, List.cons_append, List.nil_append]
      rw [expectChar_cons_self (by decide)]
      simp [refloat, refloatItems]
  | n + 1, .arr (x :: xs) =>
      simp only [size] at hn
      have hx := parseValue_print F x n (printItems F xs ++ rest) (by omega)
        (delimited_printItems F xs rest)
      have hxs := parseItems_print F xs n rest (by omega)
      rw [parseValue, skipSpace_print]
      simp only [print, List.cons_append, List.append_assoc]
      rw [expectChar_print_of_not_start F x _ (by decide)]
      simp only [hx, refloat, refloatItems]
      cases refloat F x <;> cases hr : refloatItems F xs <;> simp [hxs, hr]
  | n + 1, .obj [] =>
      rw [parseValue, skipSpace_print]
      simp only [print, List.cons_append, List.nil_append]
      rw [expectChar_cons_self (by decide)]
      simp [refloat, refloatFields]
  | n + 1, .obj ((k, x) :: xs) =>
      simp only [size] at hn
      have hx := parseValue_print F x n (printFields F xs ++ rest) (by omega)
        (delimited_printFields F xs rest)
      have hxs := parseFields_print F xs n rest (by omega)
      rw [parseValue, skipSpace_print]
      simp only [print, List.cons_append, List.append_assoc]
      have hbrace : expectChar '}' (printString k ++ ':' :: (print F x ++ (printFields F xs ++ rest)))
          = none := by
        rw [printString, List.cons_append]
        exact expectChar_cons_ne (by decide) (by decide)
      rw [hbrace]
      simp only [parseName_print, Option.bind_eq_bind, Option.bind_some, hx, refloat, refloatFields]
      cases refloat F x <;> cases hr : refloatFields F xs <;> simp [hxs, hr]

theorem parseItems_print (F : FloatText) (xs : List Json) (n : Nat) (rest : List Char)
    (hn : sizeItems xs ≤ n) :
    parseItems F n (printItems F xs ++ rest) = (refloatItems F xs).map fun xs => (xs, rest) := by
  match n, xs with
  | 0, [] | 0, _ :: _ => simp [sizeItems] at hn
  | n + 1, [] =>
      rw [parseItems, printItems, List.cons_append, expectChar_cons_self (by decide)]
      simp [refloatItems]
  | n + 1, x :: xs =>
      simp only [sizeItems] at hn
      have hx := parseValue_print F x n (printItems F xs ++ rest) (by omega)
        (delimited_printItems F xs rest)
      have hxs := parseItems_print F xs n rest (by omega)
      rw [parseItems, printItems, List.cons_append, List.append_assoc,
        expectChar_cons_ne (by decide) (by decide)]
      simp only [expectChar_cons_self (c := ',') (by decide), Option.bind_eq_bind,
        Option.bind_some, hx, refloatItems]
      cases refloat F x <;> cases hr : refloatItems F xs <;> simp [hxs, hr]

theorem parseFields_print (F : FloatText) (fs : List (String × Json)) (n : Nat)
    (rest : List Char) (hn : sizeFields fs ≤ n) :
    parseFields F n (printFields F fs ++ rest) =
      (refloatFields F fs).map fun fs => (fs, rest) := by
  match n, fs with
  | 0, [] | 0, (_, _) :: _ => simp [sizeFields] at hn
  | n + 1, [] =>
      rw [parseFields, printFields, List.cons_append, expectChar_cons_self (by decide)]
      simp [refloatFields]
  | n + 1, (k, x) :: xs =>
      simp only [sizeFields] at hn
      have hx := parseValue_print F x n (printFields F xs ++ rest) (by omega)
        (delimited_printFields F xs rest)
      have hxs := parseFields_print F xs n rest (by omega)
      rw [parseFields, printFields, List.cons_append, List.append_assoc,
        expectChar_cons_ne (by decide) (by decide)]
      simp only [expectChar_cons_self (c := ',') (by decide), List.cons_append, List.append_assoc,
        parseName_print, Option.bind_eq_bind, Option.bind_some, hx, refloatFields]
      cases refloat F x <;> cases hr : refloatFields F xs <;> simp [hxs, hr]

end

mutual

theorem size_le_length_print (F : FloatText) (j : Json) : size j ≤ (print F j).length := by
  match j with
  | .null | .bool true | .bool false | .str _ => simp [size, print, printString]
  | .num v =>
      obtain ⟨c, cs, hcons, -⟩ := printNumber_start F v
      simp [size, print, hcons]
  | .arr [] | .obj [] => simp [size, print]
  | .arr (x :: xs) =>
      have hx := size_le_length_print F x
      have hxs := sizeItems_le_length_printItems F xs
      simp only [size, print, List.length_cons, List.length_append]
      omega
  | .obj ((k, x) :: xs) =>
      have hx := size_le_length_print F x
      have hxs := sizeFields_le_length_printFields F xs
      simp only [size, print, List.length_cons, List.length_append]
      omega

theorem sizeItems_le_length_printItems (F : FloatText) (xs : List Json) :
    sizeItems xs ≤ (printItems F xs).length := by
  match xs with
  | [] => simp [sizeItems, printItems]
  | x :: xs =>
      have hx := size_le_length_print F x
      have hxs := sizeItems_le_length_printItems F xs
      simp only [sizeItems, printItems, List.length_cons, List.length_append]
      omega

theorem sizeFields_le_length_printFields (F : FloatText) (fs : List (String × Json)) :
    sizeFields fs ≤ (printFields F fs).length := by
  match fs with
  | [] => simp [sizeFields, printFields]
  | (k, x) :: xs =>
      have hx := size_le_length_print F x
      have hxs := sizeFields_le_length_printFields F xs
      simp only [sizeFields, printFields, List.length_cons, List.length_append]
      omega

end

/-- **Reading back a printed document**: the parser returns the reread document.  White
    space may follow the text. -/
theorem parse_print (F : FloatText) (j : Json) (space : List Char)
    (hspace : ∀ c ∈ space, isSpace c) : parse F (print F j ++ space) = reread F j := by
  have hdelim : Delimited space := by
    intro c hc
    have hmem : c ∈ space := by
      cases space with
      | nil => simp at hc
      | cons d ds => simp_all
    have hcases : ((c = ' ' ∨ c = '\n') ∨ c = '\t') ∨ c = '\r' := by
      simpa [isSpace] using hspace c hmem
    rcases hcases with ((rfl | rfl) | rfl) | rfl <;> decide
  have hsize : size j ≤ (print F j ++ space).length + 1 := by
    have := size_le_length_print F j
    rw [List.length_append]; omega
  have hskip : skipSpace space = [] := by
    rw [← List.append_nil space, skipSpace, List.dropWhile_append_of_pos hspace, List.dropWhile_nil]
  rw [parse, parseValue_print F j _ space hsize hdelim, reread]
  cases hread : refloat F j with
  | none => simp
  | some j' => simp [hskip, depth_refloat hread]

/-! ## Stable documents -/

/-- A number that survives its own text. -/
def Number.Stable (F : FloatText) : Number → Prop
  | .int _ => True
  | .float x => F.parse (F.print x) = some x

mutual

/-- A document whose binary64 values all survive their own text. -/
def Stable (F : FloatText) : Json → Prop
  | .num n => n.Stable F
  | .arr xs => StableItems F xs
  | .obj fs => StableFields F fs
  | _ => True

/-- `Stable` for each element of an array. -/
def StableItems (F : FloatText) : List Json → Prop
  | [] => True
  | x :: xs => Stable F x ∧ StableItems F xs

/-- `Stable` for each member of an object. -/
def StableFields (F : FloatText) : List (String × Json) → Prop
  | [] => True
  | (_, x) :: xs => Stable F x ∧ StableFields F xs

end

mutual

/-- A document without binary64 values. -/
def FloatFree : Json → Prop
  | .num (.float _) => False
  | .arr xs => FloatFreeItems xs
  | .obj fs => FloatFreeFields fs
  | _ => True

/-- `FloatFree` for each element of an array. -/
def FloatFreeItems : List Json → Prop
  | [] => True
  | x :: xs => FloatFree x ∧ FloatFreeItems xs

/-- `FloatFree` for each member of an object. -/
def FloatFreeFields : List (String × Json) → Prop
  | [] => True
  | (_, x) :: xs => FloatFree x ∧ FloatFreeFields xs

end

mutual

theorem FloatFree.stable (F : FloatText) {j : Json} (h : FloatFree j) : Stable F j := by
  match j with
  | .null | .bool _ | .str _ => simp [Stable]
  | .num (.int _) => simp [Stable, Number.Stable]
  | .num (.float _) => exact absurd h (by simp [FloatFree])
  | .arr xs =>
      rw [FloatFree] at h
      rw [Stable]
      exact FloatFreeItems.stable F h
  | .obj fs =>
      rw [FloatFree] at h
      rw [Stable]
      exact FloatFreeFields.stable F h

theorem FloatFreeItems.stable (F : FloatText) {xs : List Json} (h : FloatFreeItems xs) :
    StableItems F xs := by
  match xs with
  | [] => simp [StableItems]
  | x :: xs => exact ⟨FloatFree.stable F h.1, FloatFreeItems.stable F h.2⟩

theorem FloatFreeFields.stable (F : FloatText) {fs : List (String × Json)}
    (h : FloatFreeFields fs) : StableFields F fs := by
  match fs with
  | [] => simp [StableFields]
  | (_, x) :: xs => exact ⟨FloatFree.stable F h.1, FloatFreeFields.stable F h.2⟩

end

theorem Number.reread_eq_some_iff (F : FloatText) (n : Number) :
    n.reread F = some n ↔ n.Stable F := by
  cases n <;> simp [Number.reread, Number.Stable]

mutual

theorem refloat_eq_some_iff (F : FloatText) (j : Json) : refloat F j = some j ↔ Stable F j := by
  match j with
  | .null | .bool _ | .str _ => simp [refloat, Stable]
  | .num n => simp [refloat, Stable, Number.reread_eq_some_iff]
  | .arr xs => simp [refloat, Stable, refloatItems_eq_some_iff F xs]
  | .obj fs => simp [refloat, Stable, refloatFields_eq_some_iff F fs]

theorem refloatItems_eq_some_iff (F : FloatText) (xs : List Json) :
    refloatItems F xs = some xs ↔ StableItems F xs := by
  match xs with
  | [] => simp [refloatItems, StableItems]
  | x :: xs =>
      rw [StableItems, ← refloat_eq_some_iff F x, ← refloatItems_eq_some_iff F xs]
      cases hx : refloat F x <;> cases hr : refloatItems F xs <;> simp [refloatItems, hx, hr]

theorem refloatFields_eq_some_iff (F : FloatText) (fs : List (String × Json)) :
    refloatFields F fs = some fs ↔ StableFields F fs := by
  match fs with
  | [] => simp [refloatFields, StableFields]
  | (k, x) :: xs =>
      rw [StableFields, ← refloat_eq_some_iff F x, ← refloatFields_eq_some_iff F xs]
      cases hx : refloat F x <;> cases hr : refloatFields F xs <;> simp [refloatFields, hx, hr]

end

theorem reread_eq_some_iff (F : FloatText) (j : Json) :
    reread F j = some j ↔ Stable F j ∧ j.depth ≤ maxDepth := by
  rw [← refloat_eq_some_iff, reread]
  split <;> simp [*]

/-- **Round trip**: a document is read back as it was exactly when it is stable and the reader
    goes as deep as it nests. -/
theorem parse_print_eq_some_iff (F : FloatText) (j : Json) :
    parse F (print F j) = some j ↔ Stable F j ∧ j.depth ≤ maxDepth := by
  have h := parse_print F j [] (by simp)
  rw [List.append_nil] at h
  rw [h, reread_eq_some_iff]

end Json
