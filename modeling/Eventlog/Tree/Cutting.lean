import Eventlog.Tree.Reading
import Eventlog.Tree.Scanning

/-!
# Eventlog.Tree.Cutting

Cutting a blob into parts loses nothing.

`Cutting` says what the parts of some bytes are worth once their texts are in place: they expand to
the bytes, they hold no fractional number and do not nest deep, and every text they name has been
collected.  Each step of the cutter is shown to yield such parts, whatever it is given
(`partsOf_yields`): so it never stops the program, and what it returns can be put together again.
-/

namespace Eventlog.Tree

open Durable
open File (Table)

variable {P : Platform}

/-! ## Hexadecimal -/

theorem hexDigitValue_spec {b : UInt8} (h : isHexByte b = true) :
    (hexDigitValue b).toNat < 16 ∧ hexByte (hexDigitValue b).toNat = b := by
  have hall : ∀ n < 256, isHexByte (UInt8.ofNat n) = true →
      (hexDigitValue (UInt8.ofNat n)).toNat < 16 ∧
        hexByte (hexDigitValue (UInt8.ofNat n)).toNat = UInt8.ofNat n := by
    decide +kernel
  have hb := hall b.toNat b.toNat_lt
  rw [UInt8.ofNat_toNat] at hb
  exact hb h

/-- Bytes spelled in lower-case hexadecimal are spelled as they were. -/
theorem toHex_unhex {hex : Bytes} (hhex : ∀ b ∈ hex, isHexByte b = true)
    (heven : hex.length % 2 = 0) : toHex (unhex hex) = hex := by
  match hex with
  | [] => rfl
  | [_] => simp at heven
  | a :: b :: rest =>
      have ih : toHex (unhex rest) = rest := toHex_unhex (fun c hc => hhex c (by simp [hc]))
        (by rw [List.length_cons, List.length_cons] at heven; omega)
      obtain ⟨ha, hatext⟩ := hexDigitValue_spec (hhex a (by simp))
      obtain ⟨hb, hbtext⟩ := hexDigitValue_spec (hhex b (by simp))
      have hbyte : (hexDigitValue a * 16 + hexDigitValue b).toNat =
          (hexDigitValue a).toNat * 16 + (hexDigitValue b).toNat := by
        rw [UInt8.toNat_add, UInt8.toNat_mul]
        simp
        omega
      have hhigh : ((hexDigitValue a).toNat * 16 + (hexDigitValue b).toNat) / 16 =
          (hexDigitValue a).toNat := by omega
      have hlow : ((hexDigitValue a).toNat * 16 + (hexDigitValue b).toNat) % 16 =
          (hexDigitValue b).toNat := by omega
      rw [unhex, toHex, List.flatMap_cons, hbyte, hhigh, hlow, hatext, hbtext]
      change a :: b :: toHex (unhex rest) = _
      rw [ih]

/-- The suffix `hex_suffix` measures. -/
theorem hexSuffix_spec (content : Bytes) :
    hexSuffix content ≤ content.length ∧ hexSuffix content % 2 = 0 ∧
      ∀ b ∈ content.drop (content.length - hexSuffix content), isHexByte b = true := by
  have hrun : (content.reverse.takeWhile isHexByte).length ≤ content.length := by
    simpa using (List.takeWhile_prefix isHexByte (l := content.reverse)).length_le
  have hsuffix : hexSuffix content = (content.reverse.takeWhile isHexByte).length -
      (content.reverse.takeWhile isHexByte).length % 2 := rfl
  refine ⟨by omega, by omega, ?_⟩
  intro b hb
  have hmem : b ∈ content.reverse.take (hexSuffix content) := by
    rw [List.take_reverse, List.mem_reverse]
    exact hb
  have hinit : content.reverse.take (hexSuffix content) <+: content.reverse.takeWhile isHexByte := by
    rw [List.prefix_iff_eq_take.mp (List.takeWhile_prefix isHexByte (l := content.reverse))]
    exact List.take_prefix_take_left (by omega)
  exact List.mem_takeWhile_imp (hinit.subset hmem)

theorem isHexByte_ascii {b : UInt8} (h : isHexByte b = true) : b.toNat < 128 := by
  have hall : ∀ n < 256, isHexByte (UInt8.ofNat n) = true → (UInt8.ofNat n).toNat < 128 := by
    decide +kernel
  have hb := hall b.toNat b.toNat_lt
  rw [UInt8.ofNat_toNat] at hb
  exact hb h

/-! ## Parts -/

theorem expand_append (files : Files) (tenant : String) (ps qs : List Json) :
    expand P files tenant (ps ++ qs) =
      expand P files tenant ps >>= fun x => (x ++ ·) <$> expand P files tenant qs := by
  induction ps with
  | nil =>
      simp only [List.nil_append, expand, Checks.ok_bind]
      cases expand P files tenant qs <;> rfl
  | cons p ps ih =>
      rw [List.cons_append, expand, expand, ih]
      cases expandPart P files tenant p <;> cases expand P files tenant ps <;>
        cases expand P files tenant qs <;>
        simp [bind, Except.bind, pure, Except.pure, Functor.map,
          Except.map]

theorem depthItems_append {ps qs : List Json} {n : Nat} :
    Json.depthItems (ps ++ qs) ≤ n ↔ Json.depthItems ps ≤ n ∧ Json.depthItems qs ≤ n := by
  simp only [Json.depthItems_le_iff, List.mem_append, or_imp, forall_and]

theorem referenced_append (ps qs : List Json) :
    referenced P (ps ++ qs) = referenced P ps ++ referenced P qs := by
  induction ps with
  | nil => simp [referenced]
  | cons p ps ih => rw [List.cons_append, referenced, referenced, ih, List.append_assoc]

theorem floatFreeItems_append {ps qs : List Json} :
    Json.FloatFreeItems (ps ++ qs) ↔ Json.FloatFreeItems ps ∧ Json.FloatFreeItems qs := by
  induction ps with
  | nil => simp [Json.FloatFreeItems]
  | cons p ps ih => simp [Json.FloatFreeItems, ih, and_assoc]

/-- The texts of a collection are the files of a tenant. -/
def TextsIn (files : Files) (tenant : String) (texts : Texts) : Prop :=
  ∀ hex bytes, texts[[hex]]? = some bytes → files[textPath tenant hex]? = some bytes

/-- What is collected stays collected. -/
def Grows (texts texts' : Texts) : Prop :=
  ∀ (path : Path) (bytes : Bytes), texts[path]? = some bytes → texts'[path]? = some bytes

theorem Grows.refl (texts : Texts) : Grows texts texts := fun _ _ h => h

theorem Grows.trans {t t' t'' : Texts} (h : Grows t t') (h' : Grows t' t'') : Grows t t'' :=
  fun path bytes hbytes => h' path bytes (h path bytes hbytes)

/-- What parts are worth: they expand to `bytes` once the texts collected are in place, they are
    plain JSON that nests at most `levels`, and what they name is collected. -/
structure Cutting (P : Platform) (texts : Texts) (levels : Nat) (parts : List Json)
    (bytes : Bytes) : Prop where
  spells : ∀ files tenant, TextsIn files tenant texts → expand P files tenant parts = .ok bytes
  free : Json.FloatFreeItems parts
  shallow : Json.depthItems parts ≤ levels
  named : ∀ hex ∈ referenced P parts, ∃ bytes, texts[[hex]]? = some bytes

section Cutting

variable {texts texts' : Texts} {levels levels' : Nat} {parts parts' : List Json}
  {bytes bytes' : Bytes}

theorem Cutting.grow (h : Cutting P texts levels parts bytes) (hgrow : Grows texts texts') :
    Cutting P texts' levels parts bytes where
  spells files tenant hfiles :=
    h.spells files tenant fun hex b hb => hfiles hex b (hgrow [hex] b hb)
  free := h.free
  shallow := h.shallow
  named hex hhex := (h.named hex hhex).imp fun b hb => hgrow [hex] b hb

theorem Cutting.nest (h : Cutting P texts levels parts bytes) (hle : levels ≤ levels') :
    Cutting P texts levels' parts bytes :=
  ⟨h.spells, h.free, h.shallow.trans hle, h.named⟩

theorem cutting_nil : Cutting P texts levels [] [] where
  spells _ _ _ := by simp [expand]
  free := by simp [Json.FloatFreeItems]
  shallow := by simp [Json.depthItems]
  named := by simp [referenced]

theorem Cutting.append (h : Cutting P texts levels parts bytes)
    (h' : Cutting P texts levels parts' bytes') :
    Cutting P texts levels (parts ++ parts') (bytes ++ bytes') where
  spells files tenant hfiles := by
    rw [expand_append, h.spells files tenant hfiles, h'.spells files tenant hfiles]
    rfl
  free := floatFreeItems_append.mpr ⟨h.free, h'.free⟩
  shallow := depthItems_append.mpr ⟨h.shallow, h'.shallow⟩
  named := by
    rw [referenced_append]
    exact fun hex hhex => (List.mem_append.mp hhex).elim (h.named hex) (h'.named hex)

theorem cutting_str (s : String) : Cutting P texts levels [.str s] (Json.utf8 s.toList) where
  spells _ _ _ := by simp [expand, expandPart, Checks.ok_bind]
  free := by simp [Json.FloatFreeItems, Json.FloatFree]
  shallow := by simp [Json.depthItems, Json.depth]
  named := by simp [referenced, referencedPart]

/-- Parts that can stand for others: they expand to the same and are no more than they were. -/
structure Alike (P : Platform) (parts parts' : List Json) : Prop where
  spells : ∀ files tenant, expand P files tenant parts' = expand P files tenant parts
  free : Json.FloatFreeItems parts → Json.FloatFreeItems parts'
  shallow : ∀ {n}, Json.depthItems parts ≤ n → Json.depthItems parts' ≤ n
  named : referenced P parts' = referenced P parts

theorem Alike.refl (parts : List Json) : Alike P parts parts :=
  ⟨fun _ _ => rfl, id, id, rfl⟩

theorem Alike.append (h : Alike P parts parts') (rest : List Json) :
    Alike P (parts ++ rest) (parts' ++ rest) where
  spells files tenant := by rw [expand_append, expand_append, h.spells]
  free hfree := by
    rw [floatFreeItems_append] at hfree ⊢
    exact hfree.imp_left h.free
  shallow hdepth := by
    rw [depthItems_append] at hdepth ⊢
    exact hdepth.imp_left h.shallow
  named := by rw [referenced_append, referenced_append, h.named]

theorem Cutting.alike (h : Cutting P texts levels parts bytes) (hparts : Alike P parts parts') :
    Cutting P texts levels parts' bytes where
  spells files tenant hfiles := (hparts.spells files tenant).trans (h.spells files tenant hfiles)
  free := hparts.free h.free
  shallow := hparts.shallow h.shallow
  named := hparts.named ▸ h.named

/-- A literal after a literal merges with it. -/
theorem alike_merge (parts : List Json) (s s' : String) :
    Alike P (parts ++ [.str s] ++ [.str s']) (parts ++ [.str (s ++ s')]) where
  spells files tenant := by
    rw [List.append_assoc, expand_append, expand_append]
    congr 1
    funext x
    simp [expand, expandPart, Checks.ok_bind, Json.utf8_append]
  free hfree := by
    rw [List.append_assoc, floatFreeItems_append] at hfree
    rw [floatFreeItems_append]
    exact ⟨hfree.1, by simp [Json.FloatFreeItems, Json.FloatFree]⟩
  shallow hdepth := by
    rw [List.append_assoc, depthItems_append] at hdepth
    rw [depthItems_append]
    exact ⟨hdepth.1, by simp [Json.depthItems, Json.depth]⟩
  named := by simp [referenced_append, referenced, referencedPart]

/-- An empty literal adds nothing. -/
theorem alike_empty (parts : List Json) : Alike P (parts ++ [.str ""]) parts where
  spells files tenant := by
    rw [expand_append]
    cases expand P files tenant parts <;>
      simp [expand, expandPart, bind, Except.bind, pure, Except.pure, Json.utf8]
  free hfree := (floatFreeItems_append.mp hfree).1
  shallow hdepth := (depthItems_append.mp hdepth).1
  named := by simp [referenced_append, referenced, referencedPart]

end Cutting

/-! ## The cutter -/

/-- Every text is collected under its hash. -/
def Honest (P : Platform) (texts : Texts) : Prop :=
  ∀ (path : Path) (bytes : Bytes), texts[path]? = some bytes → path = [P.sha256 bytes]

/-- Run from `texts`, a step of the cutter does not stop the program, and ends with `Q`. -/
def Yields (P : Platform) (texts : Texts) (m : Cut α) (Q : α → Texts → Prop) : Prop :=
  ∃ a texts', m.run texts = .ok (a, texts') ∧ Honest P texts' ∧ Grows texts texts' ∧ Q a texts'

section Yields

variable {texts : Texts} {α β : Type} {m : Cut α} {Q R : α → Texts → Prop}

theorem yields_pure (htexts : Honest P texts) {a : α} (h : Q a texts) :
    Yields P texts (pure a) Q :=
  ⟨a, texts, rfl, htexts, .refl texts, h⟩

theorem Yields.bind {f : α → Cut β} {R : β → Texts → Prop} (h : Yields P texts m Q)
    (hf : ∀ a texts', Honest P texts' → Grows texts texts' → Q a texts' →
      Yields P texts' (f a) R) : Yields P texts (m >>= f) R := by
  obtain ⟨a, t₁, hrun, hhonest, hgrow, ha⟩ := h
  obtain ⟨b, t₂, hrun', hhonest', hgrow', hb⟩ := hf a t₁ hhonest hgrow ha
  refine ⟨b, t₂, ?_, hhonest', hgrow.trans hgrow', hb⟩
  rw [StateT.run_bind, hrun]
  exact hrun'

/-- The rest of a block after a choice stands in both branches. -/
theorem Yields.ite_bind {c : Prop} [Decidable c] {m' : Cut α} {f : α → Cut β}
    {R : β → Texts → Prop} (h : Yields P texts (if c then m else m') Q)
    (hf : ∀ a texts', Honest P texts' → Grows texts texts' → Q a texts' →
      Yields P texts' (f a) R) : Yields P texts (if c then m >>= f else m' >>= f) R := by
  split
  · next hc =>
      rw [if_pos hc] at h
      exact h.bind hf
  · next hc =>
      rw [if_neg hc] at h
      exact h.bind hf

theorem Yields.mono (h : Yields P texts m Q) (himp : ∀ a texts', Q a texts' → R a texts') :
    Yields P texts m R := by
  obtain ⟨a, t, hrun, hhonest, hgrow, ha⟩ := h
  exact ⟨a, t, hrun, hhonest, hgrow, himp a t ha⟩

end Yields

variable {texts : Texts} {levels : Nat} {parts : List Json} {bytes rest : Bytes}

/-- `Parts::literal` on text. -/
theorem pushLiteral_run (parts : List Json) (cs : List Char) (texts : Texts) :
    ∃ parts', (pushLiteral parts (Json.utf8 cs)).run texts = .ok (parts', texts) ∧
      Alike P (parts ++ [.str (String.ofList cs)]) parts' := by
  unfold pushLiteral
  split
  · next hempty =>
      obtain rfl : cs = [] := Json.utf8_injective (List.isEmpty_iff.mp hempty)
      exact ⟨parts, rfl, alike_empty parts⟩
  · rw [Json.fromUtf8_utf8]
    simp only
    split
    · next last hlast =>
        obtain ⟨init, rfl⟩ := List.getLast?_eq_some_iff.mp hlast
        rw [List.dropLast_concat]
        exact ⟨_, rfl, alike_merge init last _⟩
    · exact ⟨_, rfl, .refl _⟩

theorem pushLiteral_yields (htexts : Honest P texts) (h : Cutting P texts levels parts bytes)
    (hrest : Spelled rest) :
    Yields P texts (pushLiteral parts rest) fun parts' texts' =>
      Cutting P texts' levels parts' (bytes ++ rest) := by
  obtain ⟨cs, rfl⟩ := hrest
  obtain ⟨parts', hrun, halike⟩ := pushLiteral_run (P := P) parts cs texts
  have hstr : Cutting P texts levels [.str (String.ofList cs)] _ := cutting_str _
  rw [String.toList_ofList] at hstr
  exact ⟨parts', texts, hrun, htexts, .refl texts, (h.append hstr).alike halike⟩

/-- Parts put after parts. -/
theorem pushParts_yields (htexts : Honest P texts) {inner : List Json}
    (h : Cutting P texts levels (parts ++ inner) bytes) :
    Yields P texts (pushParts parts inner) fun parts' texts' =>
      Cutting P texts' levels parts' bytes := by
  induction inner generalizing parts texts with
  | nil => exact yields_pure htexts (by simpa using h)
  | cons part inner ih =>
      unfold pushParts
      split
      · cases ‹_ :: _ = []›
      · next literal rest heq =>
          cases heq
          obtain ⟨parts', hrun, halike⟩ := pushLiteral_run (P := P) parts literal.toList texts
          rw [String.ofList_toList] at halike
          have hparts' : Cutting P texts levels (parts' ++ inner) bytes :=
            Cutting.alike (by simpa using h) (halike.append inner)
          have hliteral : Yields P texts (pushLiteral parts (Json.utf8 literal.toList))
              fun parts' texts' => Cutting P texts' levels (parts' ++ inner) bytes :=
            ⟨parts', texts, hrun, htexts, .refl texts, hparts'⟩
          exact hliteral.bind fun parts' texts' htexts' _ hparts' => ih htexts' hparts'
      · next other rest _ heq =>
          cases heq
          exact ih htexts (by simpa using h)

theorem textHex_sha256 (bytes : Bytes) :
    textHex P ("sha256:" ++ P.sha256 bytes) = some (P.sha256 bytes) := by
  have hinit : "sha256:".toList.isPrefixOf ("sha256:" ++ P.sha256 bytes).toList = true := by
    rw [String.toList_append, List.isPrefixOf_iff_prefix]
    exact List.prefix_append _ _
  have hdrop : ("sha256:" ++ P.sha256 bytes).toList.drop 7 = (P.sha256 bytes).toList := by
    rw [String.toList_append, show 7 = "sha256:".toList.length by decide]
    exact List.drop_left
  unfold textHex
  rw [if_pos hinit, hdrop]
  simp [P.isSha256_sha256]

/-- A reference to a text that is collected. -/
theorem cutting_text (h : texts[[P.sha256 bytes]]? = some bytes) :
    Cutting P texts 1 [.obj [("text", .str ("sha256:" ++ P.sha256 bytes))]] bytes where
  spells files tenant hfiles := by
    simp [expand, expandPart, expandFields, expandNamed, expandText, textHex_sha256,
      hfiles _ _ h, Checks.ok_bind]
  free := by simp [Json.FloatFreeItems, Json.FloatFree, Json.FloatFreeFields]
  shallow := by simp [Json.depthItems, Json.depth, Json.depthFields]
  named := by
    simp [referenced, referencedPart, referencedFields, referencedNamed, textHex_sha256, h]

/-- The hexadecimal spelling of parts. -/
theorem Cutting.hex (h : Cutting P texts levels parts bytes) :
    Cutting P texts (levels + 2) [.obj [("hex", .arr parts)]] (toHex bytes) where
  spells files tenant hfiles := by
    simp [expand, expandPart, expandFields, expandNamed, h.spells files tenant hfiles, Except.map,
      Checks.ok_bind]
  free := by simp [Json.FloatFreeItems, Json.FloatFree, Json.FloatFreeFields, h.free]
  shallow := by
    have := h.shallow
    simp only [Json.depthItems, Json.depth, Json.depthFields]
    omega
  named := by
    simpa [referenced, referencedPart, referencedFields, referencedNamed] using h.named

/-! ## Lines -/

theorem flatten_linesInclusive (line bytes : Bytes) :
    (linesInclusive line bytes).flatten = line ++ bytes := by
  induction bytes generalizing line with
  | nil => cases line <;> simp [linesInclusive]
  | cons b rest ih =>
      have hcons : linesInclusive line (b :: rest) =
          if b = Json.lineFeed then (line ++ [b]) :: linesInclusive [] rest
          else linesInclusive (line ++ [b]) rest := by
        cases line <;> rfl
      rw [hcons]
      split <;> simp [ih]

theorem linesInclusive_append {line bs : Bytes} (hbs : Json.lineFeed ∉ bs) (rest : Bytes) :
    linesInclusive line (bs ++ rest) = linesInclusive (line ++ bs) rest := by
  induction bs generalizing line with
  | nil => simp
  | cons b bs ih =>
      simp only [List.mem_cons, not_or] at hbs
      have hb : b ≠ Json.lineFeed := fun h => hbs.1 h.symm
      have hcons : linesInclusive line (b :: (bs ++ rest)) = linesInclusive (line ++ [b]) (bs ++ rest) := by
        cases line <;> simp [linesInclusive, hb]
      rw [List.cons_append, hcons, ih hbs.2]
      simp

/-- The lines of a text are text. -/
theorem spelled_linesInclusive {line : Bytes} (hline : Spelled line) (cs : List Char) :
    ∀ l ∈ linesInclusive line (Json.utf8 cs), Spelled l := by
  induction cs generalizing line with
  | nil =>
      have hnil : Json.utf8 [] = [] := rfl
      rw [hnil]
      cases line with
      | nil => simp [linesInclusive]
      | cons b line => simpa [linesInclusive] using hline
  | cons c cs ih =>
      rw [utf8_cons]
      by_cases hc : c = '\n'
      · subst hc
        have hfeed : String.utf8EncodeChar '\n' = [Json.lineFeed] := by decide
        have hcons : linesInclusive line (Json.lineFeed :: Json.utf8 cs) =
            (line ++ [Json.lineFeed]) :: linesInclusive [] (Json.utf8 cs) := by
          cases line <;> simp [linesInclusive]
        rw [hfeed, List.singleton_append, hcons]
        exact List.forall_mem_cons.mpr ⟨hline.append ⟨['\n'], by decide⟩, ih spelled_nil⟩
      · have hfeed : Json.lineFeed ∉ String.utf8EncodeChar c := fun h =>
          hc (Json.eq_lineFeed_of_mem_utf8EncodeChar h)
        rw [linesInclusive_append hfeed]
        have hchar : Spelled (String.utf8EncodeChar c) := ⟨[c], by simp [Json.utf8]⟩
        exact ih (hline.append hchar)

/-- `strip_suffix(b"\n")`: what is left of a line, and the line feed it had. -/
theorem strip_line (line : Bytes) :
    ∃ feed, Spelled feed ∧
      line = (if line.getLast? = some Json.lineFeed then line.dropLast else line) ++ feed := by
  split
  · next hlast =>
      obtain ⟨body, rfl⟩ := List.getLast?_eq_some_iff.mp hlast
      exact ⟨[Json.lineFeed], ⟨['\n'], by decide⟩, by simp⟩
  · exact ⟨[], spelled_nil, by simp⟩

section Cutter

variable (hsha : Function.Injective P.sha256)
include hsha

/-- `text`: without a collision the text kept under a hash is the one asked for. -/
theorem cutText_yields (htexts : Honest P texts) (bytes : Bytes) :
    Yields P texts (cutText P bytes) fun part texts' => Cutting P texts' 1 [part] bytes := by
  have hrun : (cutText P bytes).run texts = .ok (.obj [("text", .str ("sha256:" ++ P.sha256 bytes))],
      if texts.contains [P.sha256 bytes] then texts else texts.insert [P.sha256 bytes] bytes) := rfl
  cases hheld : texts[[P.sha256 bytes]]? with
  | some held =>
      have hcontains : texts.contains [P.sha256 bytes] = true :=
        Std.ExtTreeMap.mem_iff_isSome_getElem?.mpr (by rw [hheld]; rfl)
      rw [if_pos hcontains] at hrun
      have hsame : bytes = held := hsha (List.head_eq_of_cons_eq (htexts _ _ hheld))
      exact ⟨_, texts, hrun, htexts, .refl texts, cutting_text (hsame ▸ hheld)⟩
  | none =>
      have hcontains : ¬ texts.contains [P.sha256 bytes] = true := by
        intro h
        have hsome := Std.ExtTreeMap.mem_iff_isSome_getElem?.mp h
        rw [hheld] at hsome
        cases hsome
      rw [if_neg hcontains] at hrun
      refine ⟨_, _, hrun, fun path b hb => ?_, fun path b hb => ?_, cutting_text ?_⟩
      · rw [table_insert] at hb
        split at hb
        · next hpath =>
            cases hb
            exact hpath.symm
        · exact htexts path b hb
      · rw [table_insert]
        split
        · next hpath =>
            rw [← hpath, hheld] at hb
            cases hb
        · exact hb
      · rw [table_insert, if_pos rfl]

/-- A level of the cutter that opens hexadecimal literals with `nested`. -/
def Opens (P : Platform) (levels : Nat) (nested : Bytes → Cut (Option (List Json))) : Prop :=
  ∀ (bytes : Bytes) (texts : Texts), Honest P texts →
    Yields P texts (nested bytes) fun result texts' =>
      ∀ parts, result = some parts → Cutting P texts' levels parts bytes

variable {nested : Bytes → Cut (Option (List Json))}

theorem cutLiteral_yields (hnested : Opens P levels nested) (hlevels : 1 ≤ levels)
    (htexts : Honest P texts) {content : Bytes} (hcontent : Spelled content) :
    Yields P texts (cutLiteral P nested content) fun result texts' =>
      Spelled result.1 ∧ ∃ cut, content = result.1 ++ cut ∧
        Cutting P texts' (levels + 2) [result.2] cut := by
  obtain ⟨hle, heven, hdigits⟩ := hexSuffix_spec content
  have hsplit := List.take_append_drop (content.length - hexSuffix content) content
  unfold cutLiteral
  dsimp only
  split
  · -- the bytes a hexadecimal suffix spells are cut further, or kept as one text
    have hstay : Spelled (content.take (content.length - hexSuffix content)) :=
      Spelled.of_append (fun b hb => isHexByte_ascii (hdigits b hb)) (hsplit.symm ▸ hcontent)
    have hhex : toHex (unhex (content.drop (content.length - hexSuffix content))) =
        content.drop (content.length - hexSuffix content) := by
      refine toHex_unhex hdigits ?_
      rw [List.length_drop]
      omega
    refine (hnested (unhex (content.drop (content.length - hexSuffix content))) texts htexts).bind
      fun result t₁ ht₁ hgrow hresult => ?_
    cases result with
    | some parts =>
        have hcut := (hresult parts rfl).hex
        rw [hhex] at hcut
        exact yields_pure ht₁ ⟨hstay, _, hsplit.symm, hcut⟩
    | none =>
        refine (cutText_yields hsha ht₁ _).bind fun part t₂ ht₂ _ hpart => ?_
        have hcut := (hpart.nest hlevels).hex
        rw [hhex] at hcut
        exact yields_pure ht₂ ⟨hstay, _, hsplit.symm, hcut⟩
  · refine (cutText_yields hsha htexts content).bind fun part t₁ ht₁ _ hpart => ?_
    exact yields_pure ht₁ ⟨spelled_nil, content, rfl, hpart.nest (by omega)⟩

theorem cutLiterals_yields (hnested : Opens P levels nested) (hlevels : 1 ≤ levels)
    {found : List (Bytes × Bytes)} {tail : Bytes} (hfound : ∀ f ∈ found, Spelled f.1 ∧ Spelled f.2)
    (htail : Spelled tail) {kept : Bytes} (hkept : Spelled kept) (cut : Bool)
    (htexts : Honest P texts) (h : Cutting P texts (levels + 2) parts bytes) :
    Yields P texts (cutLiterals P nested parts cut kept found tail) fun result texts' =>
      ∀ parts', result = some parts' →
        Cutting P texts' (levels + 2) parts' (bytes ++ kept ++ pieces found tail) := by
  induction found generalizing texts parts bytes kept cut with
  | nil =>
      refine (pushLiteral_yields htexts h (hkept.append htail)).bind fun parts' t₁ ht₁ _ hparts => ?_
      refine yields_pure ht₁ fun parts'' heq => ?_
      split at heq
      · cases heq
        rw [List.append_assoc]
        exact hparts
      · cases heq
  | cons f found ih =>
      obtain ⟨before, content⟩ := f
      obtain ⟨hbefore, hcontent⟩ := hfound (before, content) (by simp)
      replace hfound := fun g hg => hfound g (List.mem_cons_of_mem _ hg)
      have hpieces : pieces ((before, content) :: found) tail =
          before ++ content ++ pieces found tail := by
        simp [pieces]
      rw [cutLiterals]
      split
      · have hrest := ih hfound ((hkept.append hbefore).append hcontent) cut htexts h
        refine hrest.mono fun result t hresult parts' hparts' => ?_
        rw [hpieces]
        simpa [List.append_assoc] using hresult parts' hparts'
      · refine (cutLiteral_yields hsha hnested hlevels htexts hcontent).bind ?_
        rintro ⟨stay, part⟩ t₁ ht₁ hgrow ⟨hstay, cut, hcut, hpart⟩
        refine (pushLiteral_yields ht₁ (h.grow hgrow) ((hkept.append hbefore).append hstay)).bind
          fun parts' t₂ ht₂ hgrow' hparts' => ?_
        have hrest := ih hfound spelled_nil true ht₂ (hparts'.append (hpart.grow hgrow'))
        refine hrest.mono fun result t hresult parts'' hparts'' => ?_
        rw [hpieces, show content = stay ++ cut from hcut]
        simpa [List.append_assoc] using hresult parts'' hparts''

/-- A JSON sequence is cut at its literals. -/
theorem cutJson_yields (hnested : Opens P levels nested) (hlevels : 1 ≤ levels)
    (hjson : isJsonSequence P bytes = true) (htexts : Honest P texts) :
    Yields P texts (cutJson P nested bytes) fun result texts' =>
      ∀ parts, result = some parts → Cutting P texts' (levels + 2) parts bytes := by
  obtain ⟨cs, rfl, hcs⟩ := balanced_of_isJsonSequence hjson
  obtain ⟨found, tail, hscan, hpieces, hfound, htail⟩ :=
    literals_spec ((Json.utf8 cs).length + 1) hcs spelled_nil
  have hcut := cutLiterals_yields hsha hnested hlevels hfound htail spelled_nil false htexts
    cutting_nil
  unfold cutJson
  rw [hscan]
  simp only [List.nil_append] at hpieces hcut
  rw [hpieces] at hcut
  exact hcut

/-- Lines one after another, cut as documents where they are. -/
theorem cutLines_yields (hnested : Opens P levels nested) (hlevels : 1 ≤ levels)
    {lines : List Bytes} (hlines : ∀ line ∈ lines, Spelled line) (cut : Bool)
    (htexts : Honest P texts) (h : Cutting P texts (levels + 2) parts bytes) :
    Yields P texts (cutLines P nested parts cut lines) fun result texts' =>
      ∀ parts', result = some parts' →
        Cutting P texts' (levels + 2) parts' (bytes ++ lines.flatten) := by
  induction lines generalizing texts parts bytes cut with
  | nil =>
      refine yields_pure htexts fun parts' heq => ?_
      split at heq
      · cases heq
        simpa using h
      · cases heq
  | cons line lines ih =>
      have hline := hlines line (by simp)
      replace hlines := fun l hl => hlines l (List.mem_cons_of_mem _ hl)
      obtain ⟨feed, hfeed, hsplit⟩ := strip_line line
      rw [cutLines]
      generalize (if line.getLast? = some Json.lineFeed then line.dropLast else line) = body at hsplit
      have hopened : Yields P texts
          (if isJsonSequence P body then cutJson P nested body else pure none) fun result texts' =>
            ∀ parts, result = some parts → Cutting P texts' (levels + 2) parts body := by
        split
        · next hjson => exact cutJson_yields hsha hnested hlevels hjson htexts
        · exact yields_pure htexts (by simp)
      refine hopened.ite_bind fun opened t₁ ht₁ hgrow hbody => ?_
      have h₁ := h.grow hgrow
      cases opened with
      | some inner =>
          refine (pushParts_yields ht₁ (h₁.append (hbody inner rfl))).bind
            fun parts₁ t₂ ht₂ _ hparts₁ => ?_
          have hdrop : line.drop body.length = feed := by rw [hsplit, List.drop_left]
          rw [hdrop]
          refine (pushLiteral_yields ht₂ hparts₁ hfeed).bind fun parts₂ t₃ ht₃ _ hparts₂ => ?_
          have hrest := ih hlines true ht₃ hparts₂
          rw [List.flatten_cons, hsplit]
          simpa [List.append_assoc] using hrest
      | none =>
          dsimp only
          split
          · refine (cutText_yields hsha ht₁ line).bind fun part t₂ ht₂ hgrow' hpart => ?_
            have hrest := ih hlines cut ht₂ ((h₁.grow hgrow').append (hpart.nest (by omega)))
            rw [List.flatten_cons]
            simpa [List.append_assoc] using hrest
          · refine (pushLiteral_yields ht₁ h₁ hline).bind fun parts₁ t₂ ht₂ _ hparts₁ => ?_
            have hrest := ih hlines cut ht₂ hparts₁
            rw [List.flatten_cons]
            simpa [List.append_assoc] using hrest

/-- **`parts_of`** never stops the program, and the parts it returns expand to what it was
    given. -/
theorem partsOf_yields (depth : Nat) (bytes : Bytes) (htexts : Honest P texts) :
    Yields P texts (partsOf P depth bytes) fun result texts' =>
      ∀ parts, result = some parts → Cutting P texts' (2 * depth + 1) parts bytes := by
  induction depth generalizing bytes texts with
  | zero => exact yields_pure htexts (by simp)
  | succ depth ih =>
      have hnested : Opens P (2 * depth + 1) (partsOf P depth) := fun bytes texts htexts =>
        ih bytes htexts
      rw [partsOf]
      split
      · next hjson => exact cutJson_yields hsha hnested (by omega) hjson htexts
      · split
        · exact yields_pure htexts (by simp)
        · next htext =>
            have hspelled : Spelled bytes := by
              rw [spelled_iff]
              by_contra hnone
              simp [Option.isNone_iff_eq_none.mpr (Option.not_isSome_iff_eq_none.mp hnone)] at htext
            obtain ⟨cs, rfl⟩ := hspelled
            have hlines := cutLines_yields hsha hnested (by omega)
              (spelled_linesInclusive spelled_nil cs) false htexts cutting_nil
            rw [flatten_linesInclusive] at hlines
            exact hlines

end Cutter

end Eventlog.Tree
