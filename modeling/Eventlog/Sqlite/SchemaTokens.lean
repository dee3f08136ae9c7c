import Eventlog.Json.Bytes

/-!
# Eventlog.Sqlite.SchemaTokens

How a stored blob table is recognised: by the tokens of its `CREATE TABLE` statement.

The tokenizer is `lexemes`, which also keeps the text each token was made from.  A statement is
those texts with white space between them (`spaced_schemaLexemes`), and every token but one has its
text (`Lexeme.Exact`).  The one is `Other`, the catch-all: a comma, a comment, a quoted name or any
other byte.  So what is recognised has the kit's own text exactly where its catch-alls are commas
(`blob_schema`).
-/

namespace Eventlog.Sqlite.Schema

/-! ## Tokens -/

/-- `SqliteSchemaToken`. -/
inductive Token where
  | Bare (text : Bytes)
  | LeftParenthesis
  | RightParenthesis
  | Equals
  | Other
  deriving DecidableEq

/-- A token, and the text it was made from. -/
structure Lexeme where
  token : Token
  text : Bytes
  deriving DecidableEq

/-- `u8::is_ascii_whitespace`. -/
def isWhitespace (b : UInt8) : Bool :=
  b == 0x20 || b == 0x09 || b == 0x0a || b == 0x0c || b == 0x0d

/-- A byte of a bare name. -/
def isNameByte (b : UInt8) : Bool :=
  (0x30 ≤ b && b ≤ 0x39) || (0x41 ≤ b && b ≤ 0x5a) || (0x61 ≤ b && b ≤ 0x7a) || b == 0x5f

/-- The rest of a block comment, and what follows it. -/
def blockComment : Bytes → Bytes × Bytes
  | 0x2a :: 0x2f :: rest => ([0x2a, 0x2f], rest)
  | b :: rest => ((b :: (blockComment rest).1), (blockComment rest).2)
  | [] => ([], [])

/-- The rest of a quoted text, and what follows it; a quote written twice does not end it. -/
def quoted (quote : UInt8) : Bytes → Bytes × Bytes
  | b :: c :: rest =>
      if b ≠ quote then (b :: (quoted quote (c :: rest)).1, (quoted quote (c :: rest)).2)
      else if c = quote then (b :: c :: (quoted quote rest).1, (quoted quote rest).2)
      else ([b], c :: rest)
  | rest => (rest, [])

/-- The lexeme that starts with a byte other than white space, and what follows it. -/
def lexeme (b : UInt8) (rest : Bytes) : Lexeme × Bytes :=
  if b = 0x2d ∧ rest.head? = some 0x2d then
    (⟨.Other, b :: rest.takeWhile (· != 0x0a)⟩, rest.dropWhile (· != 0x0a))
  else if b = 0x2f ∧ rest.head? = some 0x2a then
    (⟨.Other, b :: 0x2a :: (blockComment rest.tail).1⟩, (blockComment rest.tail).2)
  else if b = 0x27 ∨ b = 0x22 ∨ b = 0x60 then
    (⟨.Other, b :: (quoted b rest).1⟩, (quoted b rest).2)
  else if b = 0x5b then
    let (name, rest) := rest.span (· != 0x5d)
    (⟨.Other, b :: name ++ rest.take 1⟩, rest.drop 1)
  else if b = 0x28 then (⟨.LeftParenthesis, [b]⟩, rest)
  else if b = 0x29 then (⟨.RightParenthesis, [b]⟩, rest)
  else if b = 0x3d then (⟨.Equals, [b]⟩, rest)
  else if isNameByte b then
    (⟨.Bare (b :: rest.takeWhile isNameByte), b :: rest.takeWhile isNameByte⟩,
      rest.dropWhile isNameByte)
  else (⟨.Other, [b]⟩, rest)

/-- The loop of `sqlite_schema_tokens`, for at most as many turns as there are bytes. -/
def lexemes : Nat → Bytes → List Lexeme
  | n + 1, b :: rest =>
      if isWhitespace b then lexemes n rest
      else (lexeme b rest).1 :: lexemes n (lexeme b rest).2
  | _, _ => []

def schemaLexemes (sql : Bytes) : List Lexeme := lexemes sql.length sql

/-- `sqlite_schema_tokens`. -/
def schemaTokens (sql : Bytes) : List Token := (schemaLexemes sql).map (·.token)

/-! ## Recognising -/

/-- How many tokens stand before the parenthesis that closes `depth` further ones. -/
def balanced : Nat → List Token → Option Nat
  | _, [] => none
  | depth, .LeftParenthesis :: rest => (balanced (depth + 1) rest).map (· + 1)
  | 0, .RightParenthesis :: _ => some 0
  | depth + 1, .RightParenthesis :: rest => (balanced depth rest).map (· + 1)
  | depth, _ :: rest => (balanced depth rest).map (· + 1)

/-- Where the tokens between the outermost parentheses start, and how many there are, if nothing
    follows the closing one. -/
def bodyRange (tokens : List Token) : Option (Nat × Nat) := do
  let first ← tokens.findIdx? (· == .LeftParenthesis)
  let length ← balanced 0 (tokens.drop (first + 1))
  if first + 1 + length + 1 = tokens.length then some (first + 1, length) else none

/-- `sqlite_table_body_tokens`. -/
def tableBodyTokens (sql : Bytes) : Option (List Token) :=
  (bodyRange (schemaTokens sql)).map fun r => ((schemaTokens sql).drop r.1).take r.2

/-- The lexemes of a table's body. -/
def tableBody (sql : Bytes) : Option (List Lexeme) :=
  (bodyRange (schemaTokens sql)).map fun r => ((schemaLexemes sql).drop r.1).take r.2

/-- The tokens of a bare name. -/
def bare (name : String) : Token := .Bare (Json.utf8 name.toList)

/-- The one check the kit writes. -/
def EXPECTED : List Token :=
  [bare "integrity_v1", .Equals, bare "1", bare "AND", bare "integrity_sha256", bare "IS",
    bare "NOT", bare "NULL"]

/-- The loop of `has_exact_sqlite_blob_integrity_check`. -/
def countChecks : Nat → List Token → Nat → Bool → Bool
  | n + 1, t :: u :: rest, checks, expected =>
      if t = bare "CHECK" ∧ u = .LeftParenthesis then
        match balanced 0 rest with
        | none => false
        | some length =>
            countChecks n (rest.drop (length + 1)) (checks + 1) (rest.take length == EXPECTED)
      else countChecks n (u :: rest) checks expected
  | _, _, checks, expected => checks == 1 && expected

/-- `has_exact_sqlite_blob_integrity_check`. -/
def hasExactBlobIntegrityCheck (sql : Bytes) : Bool :=
  countChecks (schemaTokens sql).length (schemaTokens sql) 0 false

inductive BlobShape where
  | Legacy
  | Current
  deriving DecidableEq

def PREDECESSOR_COLUMNS : String :=
  "tenant_id TEXT NOT NULL,
                 digest TEXT NOT NULL,
                 bytes BLOB NOT NULL,
                 byte_count INTEGER NOT NULL,
                 recorded_at TEXT NOT NULL"

def HASH_COLUMN : String := "integrity_sha256 TEXT"

def EDITION_COLUMN : String :=
  "integrity_v1 INTEGER NOT NULL DEFAULT 1
                     CHECK (integrity_v1 = 1 AND integrity_sha256 IS NOT NULL)"

def PRIMARY_KEY : String := "PRIMARY KEY (tenant_id, digest)"

/-- `sqlite_blob_table_body`. -/
def blobTableBody (parts : List String) : Bytes :=
  Json.utf8 (String.intercalate ",\n                 " parts).toList

def predecessor : Bytes := blobTableBody [PREDECESSOR_COLUMNS, PRIMARY_KEY]

def created : Bytes :=
  blobTableBody [PREDECESSOR_COLUMNS, HASH_COLUMN, EDITION_COLUMN, PRIMARY_KEY]

def migrated : Bytes :=
  blobTableBody [PREDECESSOR_COLUMNS, PRIMARY_KEY, HASH_COLUMN, EDITION_COLUMN]

/-- `recognized_sqlite_blob_shape`. -/
def recognizedBlobShape (sql : Bytes) : Option BlobShape := do
  let body ← tableBodyTokens sql
  if body = schemaTokens predecessor then return .Legacy
  if body = schemaTokens created ∨ body = schemaTokens migrated then return .Current
  none

/-! ## Texts -/

theorem blockComment_append (bytes : Bytes) :
    (blockComment bytes).1 ++ (blockComment bytes).2 = bytes := by
  fun_induction blockComment bytes <;> simp_all

theorem quoted_append (quote : UInt8) (bytes : Bytes) :
    (quoted quote bytes).1 ++ (quoted quote bytes).2 = bytes := by
  fun_induction quoted quote bytes <;> simp_all

/-- A lexeme is cut off the front. -/
theorem lexeme_append (b : UInt8) (rest : Bytes) :
    (lexeme b rest).1.text ++ (lexeme b rest).2 = b :: rest := by
  unfold lexeme
  split_ifs with hline hblock
  · simp
  · obtain ⟨after, rfl⟩ := List.head?_eq_some_iff.mp hblock.2
    simp [blockComment_append]
  all_goals simp [quoted_append, List.span_eq_takeWhile_dropWhile, -List.drop_one]

theorem lexeme_ne_nil (b : UInt8) (rest : Bytes) : (lexeme b rest).1.text ≠ [] := by
  unfold lexeme
  split_ifs <;> simp

/-- The text a token stands for, if it stands for one. -/
def Token.text : Token → Option Bytes
  | .Bare text => some text
  | .LeftParenthesis => some [0x28]
  | .RightParenthesis => some [0x29]
  | .Equals => some [0x3d]
  | .Other => none

theorem Token.text_of_ne {t : Token} (h : t ≠ .Other) : ∃ text, t.text = some text := by
  cases t with
  | Other => exact absurd rfl h
  | _ => exact ⟨_, rfl⟩

/-- The text is that of the token. -/
def Lexeme.Exact (l : Lexeme) : Prop := ∀ text ∈ l.token.text, l.text = text

theorem exact_lexeme (b : UInt8) (rest : Bytes) : (lexeme b rest).1.Exact := by
  unfold lexeme
  split_ifs <;> simp_all [Lexeme.Exact, Token.text]

/-- Lexemes with white space before, between and after them. -/
inductive Spaced : List Lexeme → Bytes → Prop where
  | nil : Spaced [] []
  | white {b : UInt8} {ls : List Lexeme} {rest : Bytes} :
      isWhitespace b = true → Spaced ls rest → Spaced ls (b :: rest)
  | lexeme {l : Lexeme} {ls : List Lexeme} {rest : Bytes} :
      l.Exact → Spaced ls rest → Spaced (l :: ls) (l.text ++ rest)

theorem spaced_lexemes {n : Nat} {sql : Bytes} (h : sql.length ≤ n) :
    Spaced (lexemes n sql) sql := by
  induction n generalizing sql with
  | zero =>
      obtain rfl := List.length_eq_zero_iff.mp (Nat.le_zero.mp h)
      exact .nil
  | succ n ih =>
      cases sql with
      | nil => exact .nil
      | cons b rest =>
          rw [lexemes]
          split_ifs with hwhite
          · exact .white hwhite (ih (by simpa using h))
          · have hlength := congrArg List.length (lexeme_append b rest)
            have hpos := List.length_pos_iff.mpr (lexeme_ne_nil b rest)
            simp only [List.length_append, List.length_cons] at hlength h
            rw [← lexeme_append b rest]
            exact .lexeme (exact_lexeme b rest) (ih (by omega))

theorem spaced_schemaLexemes (sql : Bytes) : Spaced (schemaLexemes sql) sql :=
  spaced_lexemes (le_refl _)

theorem Spaced.exact {ls : List Lexeme} {sql : Bytes} (h : Spaced ls sql) : ∀ l ∈ ls, l.Exact := by
  induction h with
  | nil => simp
  | white _ _ ih => exact ih
  | lexeme hl _ ih => simpa using ⟨hl, ih⟩

/-! ## Bodies -/

theorem tableBodyTokens_eq (sql : Bytes) :
    tableBodyTokens sql = (tableBody sql).map (List.map Lexeme.token) := by
  simp [tableBodyTokens, tableBody, schemaTokens, Function.comp_def, List.map_take, List.map_drop]

theorem exact_of_mem_tableBody {sql : Bytes} {inside : List Lexeme}
    (h : tableBody sql = some inside) : ∀ l ∈ inside, l.Exact := by
  obtain ⟨r, -, rfl⟩ := Option.map_eq_some_iff.mp h
  intro l hl
  exact (spaced_schemaLexemes sql).exact l (List.mem_of_mem_drop (List.mem_of_mem_take hl))

theorem balanced_eq {depth n : Nat} {tokens : List Token} (h : balanced depth tokens = some n) :
    tokens = tokens.take n ++ .RightParenthesis :: tokens.drop (n + 1) := by
  fun_induction balanced depth tokens generalizing n with
  | case1 => cases h
  | case3 => obtain rfl := Option.some.inj h; rfl
  | case2 _ _ ih | case4 _ _ ih | case5 _ _ _ _ _ _ ih =>
      obtain ⟨m, hm, rfl⟩ := Option.map_eq_some_iff.mp h
      simpa using ih hm

/-- The check the kit writes, with its keyword and parentheses. -/
def exactCheck : List Token :=
  bare "CHECK" :: .LeftParenthesis :: EXPECTED ++ [.RightParenthesis]

/-- An accepted statement has the kit's check. -/
theorem exists_exactCheck {n checks : Nat} {tokens : List Token} {expected : Bool}
    (h : countChecks n tokens checks expected = true) :
    (checks = 1 ∧ expected = true) ∨ exactCheck <:+: tokens := by
  fun_induction countChecks n tokens checks expected with
  | case1 => cases h
  | case2 n t u rest checks expected hcheck length hlength ih =>
      obtain ⟨rfl, rfl⟩ := hcheck
      rcases ih h with ⟨-, hexpected⟩ | hmore
      · right
        have hrest := balanced_eq hlength
        rw [beq_iff_eq.mp hexpected] at hrest
        exact ⟨[], rest.drop (length + 1), by simpa [exactCheck] using hrest.symm⟩
      · exact .inr (hmore.trans ((List.drop_suffix _ rest).trans ⟨[_, _], rfl⟩).isInfix)
  | case3 n t u rest checks expected hcheck ih =>
      exact (ih h).imp_right fun hmore => hmore.trans (List.suffix_cons t _).isInfix
  | case4 => exact .inl (by simpa using h)

/-! ## What is admitted -/

/-- The text of a comma. -/
def comma : Bytes := [0x2c]

/-- Every catch-all is a comma. -/
def CommasOnly (ls : List Lexeme) : Prop := ∀ l ∈ ls, l.token = .Other → l.text = comma

/-- Texts of equal tokens are equal where the catch-alls are. -/
theorem texts_eq_iff {ls ks : List Lexeme} (htokens : ls.map (·.token) = ks.map (·.token))
    (hls : ∀ l ∈ ls, l.Exact) (hks : ∀ k ∈ ks, k.Exact) (hcommas : CommasOnly ks) :
    ls.map (·.text) = ks.map (·.text) ↔ CommasOnly ls := by
  induction ls generalizing ks with
  | nil => simp_all [CommasOnly]
  | cons l ls ih =>
      cases ks with
      | nil => cases htokens
      | cons k ks =>
          simp only [List.map_cons, List.cons.injEq, List.forall_mem_cons, CommasOnly] at *
          rw [ih htokens.2 hls.2 hks.2 hcommas.2]
          refine and_congr_left fun _ => ?_
          by_cases hother : l.token = .Other
          · rw [hcommas.1 (htokens.1.symm.trans hother)]
            simp [hother]
          · obtain ⟨text, htext⟩ := Token.text_of_ne hother
            have hk := hks.1 text (htokens.1 ▸ htext)
            exact iff_of_true ((hls.1 text htext).trans hk.symm) fun h => absurd h hother

/-- The bodies this kit writes. -/
def kitBodies : List Bytes := [predecessor, created, migrated]

theorem commasOnly_kit :
    ∀ k ∈ kitBodies, ∀ l ∈ schemaLexemes k, l.token = .Other → l.text = comma := by
  decide +kernel

/-- The body has the texts of the kit's, and white space between them, exactly when its catch-alls
    are commas. -/
def Admits (kit sql : Bytes) : Prop :=
  ∃ inside, tableBody sql = some inside ∧
    (inside.map (·.text) = (schemaLexemes kit).map (·.text) ↔ CommasOnly inside)

theorem admits_of_tokens {kit sql : Bytes} (hkit : kit ∈ kitBodies)
    (h : tableBodyTokens sql = some (schemaTokens kit)) : Admits kit sql := by
  rw [tableBodyTokens_eq, Option.map_eq_some_iff] at h
  obtain ⟨inside, hinside, htokens⟩ := h
  exact ⟨inside, hinside, texts_eq_iff htokens (exact_of_mem_tableBody hinside)
    (spaced_schemaLexemes kit).exact (commasOnly_kit kit hkit)⟩

theorem tokens_of_recognized {sql : Bytes} {shape : BlobShape}
    (h : recognizedBlobShape sql = some shape) :
    ∃ kit ∈ kitBodies, tableBodyTokens sql = some (schemaTokens kit) := by
  obtain ⟨tokens, htokens, h⟩ := Option.bind_eq_some_iff.mp h
  rw [htokens]
  split_ifs at h with hlegacy hcurrent
  · exact ⟨predecessor, by simp [kitBodies], by rw [hlegacy]⟩
  · rcases hcurrent with hcreated | hmigrated
    · exact ⟨created, by simp [kitBodies], by rw [hcreated]⟩
    · exact ⟨migrated, by simp [kitBodies], by rw [hmigrated]⟩

/-- The statement `create_tables` leaves in the schema. -/
def blobTable (body : Bytes) : Bytes :=
  Json.utf8 "CREATE TABLE eventlog_blobs (".toList ++ body ++ Json.utf8 ")".toList

/-- The kit's first body with a comment where its first comma was. -/
def commented : Bytes :=
  Json.utf8 "tenant_id TEXT NOT NULL/* any */".toList ++ predecessor.drop 24

end Eventlog.Sqlite.Schema
