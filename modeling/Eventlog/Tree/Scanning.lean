import Eventlog.Tree.Split

/-!
# Eventlog.Tree.Scanning

Why the scanner that looks for literals by their quotes cannot run off the end of a JSON text.

A parser `Consumes` what it reads: the quotes of that part of the text pair up, and between two
quotes stands a literal the scanner closes where the parser did (`Closed`).  A text that is read
to its end is therefore `Balanced` (`balanced_of_isJsonSequence`), and on a balanced text the
scanner returns pieces that are text again and make up the whole (`literals_spec`).
-/

namespace Eventlog.Tree

open Durable

/-! ## Text -/

/-- Bytes that spell text. -/
def Spelled (bytes : Bytes) : Prop :=
  ∃ cs, bytes = Json.utf8 cs

theorem spelled_nil : Spelled [] := ⟨[], rfl⟩

theorem spelled_utf8 (cs : List Char) : Spelled (Json.utf8 cs) := ⟨cs, rfl⟩

theorem Spelled.append {a b : Bytes} (ha : Spelled a) (hb : Spelled b) : Spelled (a ++ b) := by
  obtain ⟨cs, rfl⟩ := ha
  obtain ⟨ds, rfl⟩ := hb
  exact ⟨cs ++ ds, (Json.utf8_append cs ds).symm⟩

theorem spelled_iff {bytes : Bytes} : Spelled bytes ↔ (Json.fromUtf8 bytes).isSome := by
  simp only [Option.isSome_iff_exists, Json.fromUtf8_eq_some_iff, Spelled]

theorem utf8_cons (c : Char) (cs : List Char) :
    Json.utf8 (c :: cs) = String.utf8EncodeChar c ++ Json.utf8 cs := by
  simp [Json.utf8]

/-- Text before an ASCII byte is text. -/
theorem Spelled.of_concat {a : Bytes} {b : UInt8} (hb : b.toNat < 128) (h : Spelled (a ++ [b])) :
    Spelled a := by
  obtain ⟨cs, hcs⟩ := h
  rcases List.eq_nil_or_concat cs with rfl | ⟨cs, c, rfl⟩
  · simp [Json.utf8] at hcs
  · rw [List.concat_eq_append, Json.utf8_append] at hcs
    have hc : Json.utf8 [c] = String.utf8EncodeChar c := by simp [Json.utf8]
    have hne : String.utf8EncodeChar c ≠ [] := by
      intro hnil
      have := String.length_utf8EncodeChar c
      rw [hnil] at this
      have hpos := c.utf8Size_pos
      simp at this
      omega
    have hmem : b ∈ String.utf8EncodeChar c := by
      have hlast := congrArg List.getLast? hcs
      rw [List.getLast?_concat, hc, List.getLast?_append_of_ne_nil _ hne] at hlast
      exact List.mem_of_getLast? hlast.symm
    rw [hc, Json.utf8EncodeChar_of_mem_ascii hb hmem] at hcs
    exact ⟨cs, List.append_cancel_right hcs⟩

/-- Text before ASCII bytes is text. -/
theorem Spelled.of_append {a b : Bytes} (hb : ∀ x ∈ b, x.toNat < 128) (h : Spelled (a ++ b)) :
    Spelled a := by
  induction b generalizing a with
  | nil => simpa using h
  | cons x b ih =>
      have hx : Spelled (a ++ [x]) :=
        ih (fun y hy => hb y (List.mem_cons_of_mem x hy)) (by simpa using h)
      exact hx.of_concat (hb x (by simp))

/-! ## Literals -/

theorem closeLiteral_quote (rest : Bytes) : closeLiteral (quote :: rest) = .ok ([], rest) := by
  cases rest <;> simp [closeLiteral]

theorem closeLiteral_escape (b : UInt8) (rest : Bytes) :
    closeLiteral (backslash :: b :: rest) =
      (closeLiteral rest).map fun r => (backslash :: b :: r.1, r.2) := by
  have hne : backslash ≠ quote := by decide
  simp only [closeLiteral, hne, if_false, if_true]
  cases closeLiteral rest <;> rfl

theorem closeLiteral_cons {b : UInt8} (hquote : b ≠ quote) (hescape : b ≠ backslash) (rest : Bytes) :
    closeLiteral (b :: rest) = (closeLiteral rest).map fun r => (b :: r.1, r.2) := by
  cases rest with
  | nil => simp [closeLiteral, hquote, Except.map]
  | cons c rest =>
      simp only [closeLiteral, hquote, hescape, if_false]
      cases closeLiteral (c :: rest) <;> rfl

theorem closeLiteral_append {bs : Bytes} (h : ∀ b ∈ bs, b ≠ quote ∧ b ≠ backslash) (rest : Bytes) :
    closeLiteral (bs ++ rest) = (closeLiteral rest).map fun r => (bs ++ r.1, r.2) := by
  induction bs with
  | nil =>
      rw [List.nil_append]
      cases closeLiteral rest <;> rfl
  | cons b bs ih =>
      obtain ⟨hquote, hescape⟩ := h b (by simp)
      rw [List.cons_append, closeLiteral_cons hquote hescape,
        ih fun c hc => h c (List.mem_cons_of_mem b hc)]
      cases closeLiteral rest <;> rfl

/-- The inside of a literal that the scanner closes at the quote after it. -/
def Closed (content : List Char) : Prop :=
  ∀ after : Bytes, closeLiteral (Json.utf8 content ++ quote :: after) = .ok (Json.utf8 content, after)

theorem closed_nil : Closed [] := fun after => closeLiteral_quote after

theorem Closed.cons {c : Char} {content : List Char} (h : Closed content) (hquote : c ≠ '"')
    (hescape : c ≠ '\\') : Closed (c :: content) := by
  intro after
  have hplain : ∀ b ∈ String.utf8EncodeChar c, b ≠ quote ∧ b ≠ backslash := by
    intro b hb
    constructor
    · rintro rfl
      exact hquote (Json.eq_of_mem_utf8EncodeChar (by decide) (by decide) hb)
    · rintro rfl
      exact hescape (Json.eq_of_mem_utf8EncodeChar (by decide) (by decide) hb)
  rw [utf8_cons, List.append_assoc, closeLiteral_append hplain, h after]
  rfl

theorem Closed.escape {c : Char} {content : List Char} (h : Closed content) {b : UInt8}
    (hc : String.utf8EncodeChar c = [b]) : Closed ('\\' :: c :: content) := by
  intro after
  have hbackslash : String.utf8EncodeChar '\\' = [backslash] := by decide
  have hutf8 : Json.utf8 ('\\' :: c :: content) = backslash :: b :: Json.utf8 content := by
    rw [utf8_cons, utf8_cons, hbackslash, hc]
    rfl
  rw [hutf8, List.cons_append, List.cons_append, closeLiteral_escape, h after]
  rfl

/-- A hexadecimal digit closes nothing. -/
theorem hexValue_plain {c : Char} {n : Nat} (h : Json.hexValue c = some n) : c ≠ '"' ∧ c ≠ '\\' := by
  have hquote : Json.hexValue '"' = none := by decide
  have hescape : Json.hexValue '\\' = none := by decide
  constructor
  · rintro rfl
    rw [hquote] at h
    cases h
  · rintro rfl
    rw [hescape] at h
    cases h

theorem codeUnit_plain {a b c d : Char} {n : Nat} (h : Json.codeUnit a b c d = some n) :
    ∀ x ∈ [a, b, c, d], x ≠ '"' ∧ x ≠ '\\' := by
  simp only [Json.codeUnit, Option.bind_eq_bind, Option.bind_eq_some_iff] at h
  obtain ⟨_, ha, _, hb, _, hc, _, hd, -⟩ := h
  simp only [List.mem_cons, List.not_mem_nil, or_false]
  rintro x (rfl | rfl | rfl | rfl)
  · exact hexValue_plain ha
  · exact hexValue_plain hb
  · exact hexValue_plain hc
  · exact hexValue_plain hd

theorem Closed.append {xs content : List Char} (h : Closed content)
    (hxs : ∀ x ∈ xs, x ≠ '"' ∧ x ≠ '\\') : Closed (xs ++ content) := by
  induction xs with
  | nil => exact h
  | cons x xs ih =>
      obtain ⟨hquote, hescape⟩ := hxs x (by simp)
      exact (ih fun y hy => hxs y (List.mem_cons_of_mem x hy)).cons hquote hescape

/-- The escape of a code unit. -/
theorem Closed.codeUnit {a b c d : Char} {n : Nat} {content : List Char} (h : Closed content)
    (hunit : Json.codeUnit a b c d = some n) :
    Closed ('\\' :: 'u' :: a :: b :: c :: d :: content) := by
  have hu : String.utf8EncodeChar 'u' = [0x75] := by decide
  exact (h.append (codeUnit_plain hunit)).escape hu

theorem simpleEscape_ascii {c d : Char} (h : Json.simpleEscape c = some d) :
    ∃ b, String.utf8EncodeChar c = [b] := by
  unfold Json.simpleEscape at h
  split at h
  all_goals first | exact ⟨_, rfl⟩ | cases h

/-- The parser ends a literal where the scanner closes it. -/
theorem exists_closed_of_parseString {cs s rest : List Char}
    (h : Json.parseString cs = some (s, rest)) :
    ∃ content, cs = content ++ '"' :: rest ∧ Closed content := by
  fun_induction Json.parseString cs generalizing s rest with
  | case2 after =>
      cases h
      exact ⟨[], rfl, closed_nil⟩
  | case5 a b c d high hhigh _ a' b' c' d' after low hlow _ ih =>
      -- a surrogate pair
      obtain ⟨⟨cs, r⟩, hread, heq⟩ := Option.map_eq_some_iff.mp h
      cases heq
      obtain ⟨content, rfl, hcontent⟩ := ih hread
      exact ⟨_, rfl, (hcontent.codeUnit hlow).codeUnit hhigh⟩
  | case9 a b c d after unit hunit _ _ ih =>
      obtain ⟨⟨cs, r⟩, hread, heq⟩ := Option.map_eq_some_iff.mp h
      cases heq
      obtain ⟨content, rfl, hcontent⟩ := ih hread
      exact ⟨_, rfl, hcontent.codeUnit hunit⟩
  | case11 c after _ d hescape ih =>
      obtain ⟨⟨cs, r⟩, hread, heq⟩ := Option.map_eq_some_iff.mp h
      cases heq
      obtain ⟨content, rfl, hcontent⟩ := ih hread
      obtain ⟨b, hb⟩ := simpleEscape_ascii hescape
      exact ⟨_, rfl, hcontent.escape hb⟩
  | case13 c after hquote _ hescape _ ih =>
      obtain ⟨⟨cs, r⟩, hread, heq⟩ := Option.map_eq_some_iff.mp h
      cases heq
      obtain ⟨content, rfl, hcontent⟩ := ih hread
      refine ⟨c :: content, rfl, hcontent.cons hquote fun hc => ?_⟩
      -- a backslash would have been read with the character after it
      cases content with
      | nil => exact hescape _ _ hc rfl
      | cons x content => exact hescape _ _ hc rfl
  | _ => cases h

/-! ## Balanced texts -/

/-- A text whose quotes pair up around closed literals. -/
inductive Balanced : List Char → Prop
  | nil : Balanced []
  | plain {c : Char} {cs : List Char} : c ≠ '"' → Balanced cs → Balanced (c :: cs)
  | literal {content cs : List Char} :
      Closed content → Balanced cs → Balanced ('"' :: (content ++ '"' :: cs))

theorem Balanced.append {xs ys : List Char} (hx : Balanced xs) (hy : Balanced ys) :
    Balanced (xs ++ ys) := by
  induction hx with
  | nil => exact hy
  | plain hc _ ih => exact .plain hc ih
  | literal hcontent _ ih =>
      rw [List.cons_append, List.append_assoc, List.cons_append]
      exact .literal hcontent ih

/-- Reading from `cs` up to `rest` passes over a balanced text. -/
def Consumes (cs rest : List Char) : Prop :=
  ∃ text, cs = text ++ rest ∧ Balanced text

theorem Consumes.refl (cs : List Char) : Consumes cs cs := ⟨[], rfl, .nil⟩

theorem Consumes.trans {as bs cs : List Char} (h : Consumes as bs) (h' : Consumes bs cs) :
    Consumes as cs := by
  obtain ⟨x, rfl, hx⟩ := h
  obtain ⟨y, rfl, hy⟩ := h'
  exact ⟨x ++ y, by rw [List.append_assoc], hx.append hy⟩

theorem Consumes.balanced {as bs : List Char} (h : Consumes as bs) (hb : Balanced bs) :
    Balanced as := by
  obtain ⟨x, rfl, hx⟩ := h
  exact hx.append hb

theorem consumes_cons {c : Char} (hc : c ≠ '"') (cs : List Char) : Consumes (c :: cs) cs :=
  ⟨[c], rfl, .plain hc .nil⟩

theorem consumes_append {word : List Char} (hword : ∀ c ∈ word, c ≠ '"') (cs : List Char) :
    Consumes (word ++ cs) cs := by
  induction word with
  | nil => exact .refl cs
  | cons c word ih =>
      exact (consumes_cons (hword c (by simp)) _).trans
        (ih fun d hd => hword d (List.mem_cons_of_mem c hd))

theorem consumes_dropWhile {p : Char → Bool} (hp : p '"' = false) (cs : List Char) :
    Consumes cs (cs.dropWhile p) := by
  have hword : ∀ c ∈ cs.takeWhile p, c ≠ '"' := by
    rintro c hc rfl
    rw [List.mem_takeWhile_imp hc] at hp
    contradiction
  have h := consumes_append hword (cs.dropWhile p)
  rwa [List.takeWhile_append_dropWhile] at h

theorem consumes_skipSpace (cs : List Char) : Consumes cs (Json.skipSpace cs) :=
  consumes_dropWhile (by decide) cs

theorem consumes_expect {word cs rest : List Char} (hword : ∀ c ∈ word, c ≠ '"')
    (h : Json.expect word cs = some rest) : Consumes cs rest := by
  unfold Json.expect at h
  split at h
  · next hprefix =>
      cases h
      obtain ⟨after, rfl⟩ := List.isPrefixOf_iff_prefix.mp hprefix
      rw [List.drop_left]
      exact consumes_append hword after
  · cases h

theorem skipSpace_of_expectChar {c : Char} {cs rest : List Char}
    (h : Json.expectChar c cs = some rest) : Json.skipSpace cs = c :: rest := by
  unfold Json.expectChar at h
  split at h
  · next hskip =>
      split at h
      · next hc =>
          cases h
          rw [hskip, hc]
      · cases h
  · cases h

theorem consumes_expectChar {c : Char} {cs rest : List Char} (hc : c ≠ '"')
    (h : Json.expectChar c cs = some rest) : Consumes cs rest := by
  have hskip := consumes_skipSpace cs
  rw [skipSpace_of_expectChar h] at hskip
  exact hskip.trans (consumes_cons hc rest)

theorem consumes_literal {cs s rest : List Char} (h : Json.parseString cs = some (s, rest)) :
    Consumes ('"' :: cs) rest := by
  obtain ⟨content, rfl, hcontent⟩ := exists_closed_of_parseString h
  exact ⟨'"' :: (content ++ ['"']), by simp, .literal hcontent .nil⟩

theorem consumes_parseName {cs rest : List Char} {name : String}
    (h : Json.parseName cs = some (name, rest)) : Consumes cs rest := by
  simp only [Json.parseName, Option.bind_eq_bind, Option.bind_eq_some_iff] at h
  obtain ⟨as, hquote, ⟨s, bs⟩, hstring, ds, hcolon, heq⟩ := h
  cases heq
  have hskip := consumes_skipSpace cs
  rw [skipSpace_of_expectChar hquote] at hskip
  exact (hskip.trans (consumes_literal hstring)).trans (consumes_expectChar (by decide) hcolon)

/- The three parsers call each other with less fuel, so the induction is on the fuel and carries
   the statement for all three. -/

theorem consumes_parse (F : Json.FloatText) (n : Nat) :
    (∀ {cs rest v}, Json.parseValue F n cs = some (v, rest) → Consumes cs rest) ∧
    (∀ {cs rest xs}, Json.parseItems F n cs = some (xs, rest) → Consumes cs rest) ∧
    (∀ {cs rest fs}, Json.parseFields F n cs = some (fs, rest) → Consumes cs rest) := by
  induction n with
  | zero => exact ⟨fun h => (nomatch h), fun h => (nomatch h), fun h => (nomatch h)⟩
  | succ n ih =>
      obtain ⟨ihvalue, ihitems, ihfields⟩ := ih
      refine ⟨fun {cs rest v} h => ?_, fun {cs rest xs} h => ?_, fun {cs rest fs} h => ?_⟩
      · refine (consumes_skipSpace cs).trans ?_
        unfold Json.parseValue at h
        split at h
        · cases h
        · next c after hskip =>
            rw [hskip]
            split_ifs at h with hquote harr hobj hn ht hf hnum
            · obtain ⟨⟨s, r⟩, hread, heq⟩ := Option.map_eq_some_iff.mp h
              cases heq
              rw [hquote]
              exact consumes_literal hread
            · refine (consumes_cons hquote after).trans ?_
              split at h
              · next hclose =>
                  cases h
                  exact consumes_expectChar (by decide) hclose
              · simp only [Option.bind_eq_bind, Option.bind_eq_some_iff] at h
                obtain ⟨⟨x, as⟩, hx, ⟨xs, bs⟩, hxs, heq⟩ := h
                cases heq
                exact (ihvalue hx).trans (ihitems hxs)
            · refine (consumes_cons hquote after).trans ?_
              split at h
              · next hclose =>
                  cases h
                  exact consumes_expectChar (by decide) hclose
              · simp only [Option.bind_eq_bind, Option.bind_eq_some_iff] at h
                obtain ⟨⟨k, as⟩, hk, ⟨x, bs⟩, hx, ⟨xs, ds⟩, hxs, heq⟩ := h
                cases heq
                exact ((consumes_parseName hk).trans (ihvalue hx)).trans (ihfields hxs)
            · obtain ⟨r, hword, heq⟩ := Option.map_eq_some_iff.mp h
              cases heq
              exact (consumes_cons hquote after).trans (consumes_expect (by simp) hword)
            · obtain ⟨r, hword, heq⟩ := Option.map_eq_some_iff.mp h
              cases heq
              exact (consumes_cons hquote after).trans (consumes_expect (by simp) hword)
            · obtain ⟨r, hword, heq⟩ := Option.map_eq_some_iff.mp h
              cases heq
              exact (consumes_cons hquote after).trans (consumes_expect (by simp) hword)
            · obtain ⟨v, -, heq⟩ := Option.map_eq_some_iff.mp h
              cases heq
              exact consumes_dropWhile (by decide) (c :: after)
      · unfold Json.parseItems at h
        split at h
        · next hclose =>
            cases h
            exact consumes_expectChar (by decide) hclose
        · simp only [Option.bind_eq_bind, Option.bind_eq_some_iff] at h
          obtain ⟨as, hcomma, ⟨x, bs⟩, hx, ⟨xs, ds⟩, hxs, heq⟩ := h
          cases heq
          exact ((consumes_expectChar (by decide) hcomma).trans (ihvalue hx)).trans (ihitems hxs)
      · unfold Json.parseFields at h
        split at h
        · next hclose =>
            cases h
            exact consumes_expectChar (by decide) hclose
        · simp only [Option.bind_eq_bind, Option.bind_eq_some_iff] at h
          obtain ⟨as, hcomma, ⟨k, bs⟩, hk, ⟨x, ds⟩, hx, ⟨xs, es⟩, hxs, heq⟩ := h
          cases heq
          exact (((consumes_expectChar (by decide) hcomma).trans (consumes_parseName hk)).trans
            (ihvalue hx)).trans (ihfields hxs)

theorem balanced_of_isSequence (F : Json.FloatText) {n : Nat} {seen : Bool} {cs : List Char}
    (h : isSequence F n seen cs = true) : Balanced cs := by
  induction n generalizing seen cs with
  | zero => cases h
  | succ n ih =>
      have hskip := consumes_skipSpace cs
      unfold isSequence at h
      split at h
      · next hnil =>
          rw [hnil] at hskip
          exact hskip.balanced .nil
      · next c rest hcons =>
          rw [hcons] at hskip
          split at h
          · cases h
          · next value after hvalue =>
              rw [Bool.and_eq_true, Bool.and_eq_true] at h
              have hafter := (consumes_parse F _).1 hvalue
              exact hskip.balanced (hafter.balanced (ih h.2))

/-- **A JSON sequence is a balanced text.** -/
theorem balanced_of_isJsonSequence {P : Platform} {bytes : Bytes}
    (h : isJsonSequence P bytes = true) : ∃ cs, bytes = Json.utf8 cs ∧ Balanced cs := by
  unfold isJsonSequence at h
  split at h
  · cases h
  · next cs hcs => exact ⟨cs, Json.fromUtf8_eq_some_iff.mp hcs, balanced_of_isSequence _ h⟩

/-! ## Scanning -/

/-- Up to its first literal a balanced text has no quote. -/
theorem Balanced.cases {cs : List Char} (h : Balanced cs) :
    (∀ c ∈ cs, c ≠ '"') ∨ ∃ plain content rest, cs = plain ++ '"' :: (content ++ '"' :: rest) ∧
      (∀ c ∈ plain, c ≠ '"') ∧ Closed content ∧ Balanced rest := by
  induction h with
  | nil => exact .inl (by simp)
  | @plain c cs hc _ ih =>
      rcases ih with hcs | ⟨plain, content, rest, rfl, hplain, hcontent, hrest⟩
      · exact .inl (List.forall_mem_cons.mpr ⟨hc, hcs⟩)
      · exact .inr ⟨c :: plain, content, rest, rfl, List.forall_mem_cons.mpr ⟨hc, hplain⟩, hcontent,
          hrest⟩
  | @literal content cs hcontent hcs _ =>
      exact .inr ⟨[], content, cs, rfl, by simp, hcontent, hcs⟩

theorem ne_quote_of_mem_utf8 {cs : List Char} (h : ∀ c ∈ cs, c ≠ '"') :
    ∀ b ∈ Json.utf8 cs, (b != quote) = true := by
  intro b hb
  obtain ⟨c, hc, hbyte⟩ := List.mem_flatMap.mp hb
  rw [bne_iff_ne]
  rintro rfl
  exact h c hc (Json.eq_of_mem_utf8EncodeChar (by decide) (by decide) hbyte)

/-- The pieces that make up a text. -/
def pieces (found : List (Bytes × Bytes)) (tail : Bytes) : Bytes :=
  (found.flatMap fun f => f.1 ++ f.2) ++ tail

/-- **The scanner on a balanced text** finds pieces that are text and make up the whole. -/
theorem literals_spec (n : Nat) {cs : List Char} (h : Balanced cs) {lead : Bytes}
    (hlead : Spelled lead) :
    ∃ found tail, literals n lead (Json.utf8 cs) = .ok (found, tail) ∧
      pieces found tail = lead ++ Json.utf8 cs ∧
      (∀ f ∈ found, Spelled f.1 ∧ Spelled f.2) ∧ Spelled tail := by
  induction n generalizing cs lead with
  | zero => exact ⟨[], _, rfl, rfl, by simp, hlead.append (spelled_utf8 cs)⟩
  | succ n ih =>
      rcases h.cases with hplain | ⟨plain, content, rest, rfl, hplain, hcontent, hrest⟩
      · refine ⟨[], lead ++ Json.utf8 cs, ?_, rfl, by simp, hlead.append (spelled_utf8 cs)⟩
        have hdrop : (Json.utf8 cs).dropWhile (· != quote) = [] :=
          List.dropWhile_eq_nil_iff.mpr (ne_quote_of_mem_utf8 hplain)
        rw [literals, hdrop]
      · have hquoted : Spelled [quote] := ⟨['"'], by decide⟩
        obtain ⟨found, tail, hscan, hpieces, hfound, htail⟩ := ih hrest hquoted
        have hbytes : Json.utf8 (plain ++ '"' :: (content ++ '"' :: rest)) =
            Json.utf8 plain ++ quote :: (Json.utf8 content ++ quote :: Json.utf8 rest) := by
          have hquote : String.utf8EncodeChar '"' = [quote] := by decide
          simp [Json.utf8_append, utf8_cons, hquote]
        have hdrop : (Json.utf8 (plain ++ '"' :: (content ++ '"' :: rest))).dropWhile (· != quote) =
            quote :: (Json.utf8 content ++ quote :: Json.utf8 rest) := by
          rw [hbytes, List.dropWhile_append_of_pos (ne_quote_of_mem_utf8 hplain)]
          simp
        have htake : (Json.utf8 (plain ++ '"' :: (content ++ '"' :: rest))).takeWhile (· != quote) =
            Json.utf8 plain := by
          rw [hbytes, List.takeWhile_append_of_pos (ne_quote_of_mem_utf8 hplain)]
          simp
        refine ⟨(lead ++ Json.utf8 plain ++ [quote], Json.utf8 content) :: found, tail, ?_, ?_, ?_,
          htail⟩
        · rw [literals, hdrop, htake]
          simp only [hcontent (Json.utf8 rest), Checks.ok_bind, hscan]
          rfl
        · rw [hbytes]
          simp only [pieces, List.flatMap_cons, List.append_assoc] at hpieces ⊢
          rw [hpieces]
          simp
        · exact List.forall_mem_cons.mpr ⟨⟨(hlead.append (spelled_utf8 plain)).append hquoted,
            spelled_utf8 content⟩, hfound⟩

end Eventlog.Tree
