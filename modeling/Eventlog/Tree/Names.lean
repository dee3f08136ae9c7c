import Eventlog.Tree.Layout

/-!
# Eventlog.Tree.Names

How names are spelled on disk, and the paths of blobs down to their shards.

`Tree.Layout` tells files apart by their identifiers.  Here a path is the list of names under the
root as the file system sees them, escaped and with the shard directories, and the two agree: a
name is read back as the identifier it was made from (`unescape_segment`), and a blob's path says
whose blob it is and which (`some_blobPath_inj`, `some_splitPath_inj`).

A shard is the first two bytes of a digest, cut out of the string by byte index.  That panics where
a character crosses the second byte, which is `none` here.
-/

namespace Eventlog.Tree.Names

/-! ## Reading a name back -/

/-- `u8::from_str_radix(hex, 16)` of two characters, which takes a sign for the first. -/
def fromStrRadix (a b : Char) : Option UInt8 := do
  let low ← Json.hexValue b
  if a = '+' then return UInt8.ofNat low
  let high ← Json.hexValue a
  return UInt8.ofNat (16 * high + low)

/-- The loop of `unescape`. -/
def unescapeBytes : List Char → Option Bytes
  | '%' :: a :: b :: rest => do
      let byte ← fromStrRadix a b
      let out ← unescapeBytes rest
      return byte :: out
  | '%' :: _ => none
  | c :: rest => do
      let out ← unescapeBytes rest
      return String.utf8EncodeChar c ++ out
  | [] => some []

/-- `unescape`. -/
def unescape (segment : String) : Except EventLogError String :=
  match (unescapeBytes segment.toList).bind Json.fromUtf8 with
  | some cs => .ok (String.ofList cs)
  | none => .error (corrupt "an escaped name")

theorem unescapeBytes_of_ne {c : Char} (hc : c ≠ '%') (rest : List Char) :
    unescapeBytes (c :: rest) = (unescapeBytes rest).map (String.utf8EncodeChar c ++ ·) := by
  rw [unescapeBytes]
  · cases unescapeBytes rest <;> rfl
  · rintro a b rest rfl
    exact absurd rfl hc
  · rintro rfl
    exact absurd rfl hc

theorem unescapeBytes_percent {a b : Char} {byte : UInt8} (hab : fromStrRadix a b = some byte)
    (rest : List Char) :
    unescapeBytes ('%' :: a :: b :: rest) = (unescapeBytes rest).map (byte :: ·) := by
  rw [unescapeBytes, hab]
  cases unescapeBytes rest <;> rfl

/-! ## The spelling of a byte -/

/-- The facts about a byte that is spelled as itself. -/
theorem name_byte : ∀ n < 256, isNameByte (UInt8.ofNat n) = true →
    Char.ofNat n ≠ '%' ∧ Char.ofNat n ≠ '/' ∧
      String.utf8EncodeChar (Char.ofNat n) = [UInt8.ofNat n] := by
  decide +kernel

/-- The facts about the two digits of any other. -/
theorem hex_byte : ∀ n < 256, fromStrRadix (upperHex (n / 16)) (upperHex (n % 16)) =
      some (UInt8.ofNat n) ∧ upperHex (n / 16) ≠ '/' ∧ upperHex (n % 16) ≠ '/' := by
  decide +kernel

theorem unescapeBytes_escapeByte (b : UInt8) (rest : List Char) :
    unescapeBytes (escapeByte b ++ rest) = (unescapeBytes rest).map (b :: ·) := by
  have hb : b.toNat < 256 := UInt8.toNat_lt_size b
  have hofNat : UInt8.ofNat b.toNat = b := UInt8.ofNat_toNat
  unfold escapeByte
  split_ifs with hname
  · obtain ⟨hpercent, -, hbytes⟩ := name_byte b.toNat hb (by rwa [hofNat])
    rw [List.singleton_append, unescapeBytes_of_ne hpercent, hbytes, hofNat]
    rfl
  · exact unescapeBytes_percent ((hex_byte b.toNat hb).1.trans (by rw [hofNat])) rest

theorem separator_notMem_escapeByte (b : UInt8) : '/' ∉ escapeByte b := by
  have hb : b.toNat < 256 := UInt8.toNat_lt_size b
  unfold escapeByte
  split_ifs with hname
  · obtain ⟨-, hslash, -⟩ := name_byte b.toNat hb (by rwa [UInt8.ofNat_toNat])
    simpa using hslash.symm
  · obtain ⟨-, hhigh, hlow⟩ := hex_byte b.toNat hb
    simp [hhigh.symm, hlow.symm]

/-! ## The spelling of a name -/

theorem unescapeBytes_escaped (bytes : Bytes) :
    unescapeBytes (bytes.flatMap escapeByte) = some bytes := by
  induction bytes with
  | nil => rfl
  | cons b rest ih => rw [List.flatMap_cons, unescapeBytes_escapeByte, ih, Option.map_some]

/-- Escaping the leading dot does not change what the name is read back as. -/
theorem unescapeBytes_segment (value : String) :
    unescapeBytes (segment value).toList = some (Json.utf8 value.toList) := by
  have hescaped := unescapeBytes_escaped (Json.utf8 value.toList)
  unfold segment
  split
  · next rest hdot =>
      rw [hdot, unescapeBytes_of_ne (by decide)] at hescaped
      rw [String.toList_ofList, unescapeBytes_percent (show fromStrRadix '2' 'E' = some 0x2e by decide)]
      exact hescaped
  · rwa [String.toList_ofList]

/-- A name is read back as what it was made from. -/
theorem unescape_segment (value : String) : unescape (segment value) = .ok value := by
  rw [unescape, unescapeBytes_segment, Option.bind_some, Json.fromUtf8_utf8]
  simp

theorem segment_inj : Function.Injective segment := by
  intro value other heq
  have hread := unescape_segment value
  rw [heq, unescape_segment] at hread
  exact (Except.ok.inj hread).symm

/-- A name is one component of a path. -/
theorem separator_notMem_segment (value : String) : '/' ∉ (segment value).toList := by
  have hescaped : '/' ∉ (Json.utf8 value.toList).flatMap escapeByte := by
    rw [List.mem_flatMap]
    rintro ⟨b, -, hb⟩
    exact separator_notMem_escapeByte b hb
  unfold segment
  split
  · next rest hdot =>
      rw [hdot] at hescaped
      simpa using hescaped
  · rwa [String.toList_ofList]

/-- A name hides no file, and is neither `.` nor `..`. -/
theorem head?_segment_ne_dot (value : String) : (segment value).toList.head? ≠ some '.' := by
  unfold segment
  split
  · simp
  · next hdot =>
      rw [String.toList_ofList]
      intro hhead
      obtain ⟨rest, hrest⟩ := List.head?_eq_some_iff.mp hhead
      exact hdot rest hrest

theorem segment_eq_empty_iff {value : String} : segment value = "" ↔ value = "" := by
  constructor
  · intro h
    exact segment_inj (h.trans (by decide))
  · rintro rfl
    decide

/-! ## Paths -/

/-- A path under the root, by its components. -/
abbrev PathBuf : Type := List String

/-- `Path::join` of a name that is one component, or of nothing, which adds none. -/
def join (path : PathBuf) (name : String) : PathBuf :=
  if name = "" then path else path ++ [name]

/-- `tenant_dir`. -/
def tenantDir (tenant : String) : PathBuf := join ["tenants"] (segment tenant)

/-- `&value[..n]`, which panics inside a character and past the end. -/
def takeBytes : Nat → List Char → Option (List Char)
  | 0, _ => some []
  | _ + 1, [] => none
  | n + 1, c :: rest =>
      if c.utf8Size ≤ n + 1 then (takeBytes (n + 1 - c.utf8Size) rest).map (c :: ·) else none

/-- The shard of a digest. -/
def shard (digest : String) : Option String :=
  if 2 ≤ (Json.utf8 digest.toList).length then (takeBytes 2 digest.toList).map String.ofList
  else some "__"

/-- `blob_path`. -/
def blobPath (tenant digest : String) : Option PathBuf := do
  let shard ← shard digest
  return join (join (join (tenantDir tenant) "blobs") (segment shard)) (segment digest)

/-- `split_path`: the shard is what the blob's own directory is called. -/
def splitPath (tenant digest : String) : Option PathBuf := do
  let raw ← blobPath tenant digest
  let shard := raw.dropLast.getLast?.getD ""
  return join (join (join (tenantDir tenant) "split-blobs") shard) (segment digest ++ ".json")

/-! ## Where a shard can be cut -/

/-- The second byte of a text ends a character, or there are not two. -/
def cuts : List Char → Bool
  | [] => true
  | [c] => c.utf8Size ≤ 2
  | c :: d :: _ => c.utf8Size = 2 || c.utf8Size = 1 && d.utf8Size = 1

theorem length_utf8_cons (c : Char) (cs : List Char) :
    (Json.utf8 (c :: cs)).length = c.utf8Size + (Json.utf8 cs).length := by
  simp [Json.utf8]

theorem takeBytes_one_isSome (c : Char) (rest : List Char) :
    (takeBytes 1 (c :: rest)).isSome = decide (c.utf8Size = 1) := by
  have hpos := c.utf8Size_pos
  by_cases hc : c.utf8Size = 1
  · simp [takeBytes, hc]
  · simp [takeBytes, hc, show ¬c.utf8Size ≤ 1 by omega]

theorem takeBytes_two_isSome (c d : Char) (rest : List Char) :
    (takeBytes 2 (c :: d :: rest)).isSome = cuts (c :: d :: rest) := by
  have hpos := c.utf8Size_pos
  obtain hc | hc | hc : c.utf8Size = 1 ∨ c.utf8Size = 2 ∨ 2 < c.utf8Size := by omega
  · rw [takeBytes, if_pos (by omega), Option.isSome_map, hc, takeBytes_one_isSome]
    simp [cuts, hc]
  · simp [takeBytes, cuts, hc]
  · simp [takeBytes, cuts, show ¬c.utf8Size ≤ 2 by omega, show c.utf8Size ≠ 2 by omega,
      show c.utf8Size ≠ 1 by omega]

theorem shard_isSome (digest : String) : (shard digest).isSome = cuts digest.toList := by
  unfold shard
  rcases digest.toList with _ | ⟨c, _ | ⟨d, rest⟩⟩
  · rfl
  · have hpos := c.utf8Size_pos
    rw [length_utf8_cons]
    obtain hc | hc | hc : c.utf8Size = 1 ∨ c.utf8Size = 2 ∨ 2 < c.utf8Size := by omega
    · simp [cuts, hc, Json.utf8]
    · simp [takeBytes, cuts, hc]
    · rw [if_pos (by omega), takeBytes, if_neg (by omega)]
      simp [cuts, hc]
  · have hc := c.utf8Size_pos
    have hd := d.utf8Size_pos
    rw [length_utf8_cons, length_utf8_cons, if_pos (by omega), Option.isSome_map,
      takeBytes_two_isSome]

theorem ascii_of_validField {value : String} (h : ValidField value) {b : UInt8}
    (hb : b ∈ Json.utf8 value.toList) : b.toNat < 128 := by
  unfold ValidField validateField at h
  split_ifs at h with hempty hlong hplain
  have hb := List.all_eq_true.mp (by simpa using hplain) b hb
  simp only [isPlainByte, Bool.or_eq_true, Bool.and_eq_true, decide_eq_true_eq,
    UInt8.le_iff_toNat_le, beq_iff_eq] at hb
  rcases hb with ⟨-, hb⟩ | rfl
  · exact hb.trans_lt (by decide)
  · decide

/-- What a field check accepts is cut between two characters, each of one byte. -/
theorem cuts_of_validField {digest : String} (h : ValidField digest) :
    cuts digest.toList = true := by
  have hone : ∀ c ∈ digest.toList, c.utf8Size = 1 := by
    intro c hc
    obtain ⟨b, hb⟩ := List.exists_mem_of_ne_nil _ (String.utf8EncodeChar_ne_nil (c := c))
    have hplain := ascii_of_validField h (List.mem_flatMap.mpr ⟨c, hc, hb⟩)
    rw [← String.length_utf8EncodeChar, Json.utf8EncodeChar_of_mem_ascii hplain hb]
    rfl
  rcases hchars : digest.toList with _ | ⟨c, _ | ⟨d, rest⟩⟩
  · rfl
  · simp [cuts, hone c (by simp [hchars])]
  · simp [cuts, hone c (by simp [hchars]), hone d (by simp [hchars])]

/-! ## Whose blob a path is -/

theorem takeBytes_ne_nil {n : Nat} (cs : List Char) : takeBytes (n + 1) cs ≠ some [] := by
  rcases cs with _ | ⟨c, rest⟩
  · simp [takeBytes]
  · simp [takeBytes]

theorem segment_shard_ne {digest s : String} (h : shard digest = some s) : segment s ≠ "" := by
  rw [Ne, segment_eq_empty_iff]
  rintro rfl
  unfold shard at h
  split_ifs at h with hlen
  · obtain ⟨cs, hcs, hempty⟩ := Option.map_eq_some_iff.mp h
    obtain rfl : cs = [] := by simpa using congrArg String.toList hempty
    exact takeBytes_ne_nil _ hcs
  · exact absurd h (by decide)

theorem tenantDir_eq (tenant : TenantId) :
    tenantDir tenant.value = ["tenants", segment tenant.value] := by
  refine if_neg fun hempty => ?_
  have hvalid := tenant.valid
  rw [segment_eq_empty_iff.mp hempty] at hvalid
  exact absurd hvalid (by decide)

/-- The names of a blob's path; a digest of no bytes adds none. -/
theorem blobPath_eq (tenant : TenantId) (digest : String) :
    blobPath tenant.value digest = (shard digest).map fun s =>
      join ["tenants", segment tenant.value, "blobs", segment s] (segment digest) := by
  rw [blobPath, tenantDir_eq]
  cases hs : shard digest with
  | none => rfl
  | some s =>
      simp [join, segment_shard_ne hs]

theorem splitPath_eq (tenant : TenantId) (digest : String) :
    splitPath tenant.value digest = (shard digest).map fun s =>
      ["tenants", segment tenant.value, "split-blobs", if digest = "" then "blobs" else segment s,
        segment digest ++ ".json"] := by
  rw [splitPath, blobPath_eq, tenantDir_eq]
  cases hs : shard digest with
  | none => rfl
  | some s =>
      have hne := segment_shard_ne hs
      by_cases hd : digest = ""
      · simp [join, hd, segment_eq_empty_iff.mpr rfl]
      · have hd' : segment digest ≠ "" := fun h => hd (segment_eq_empty_iff.mp h)
        simp [join, hd, hd', hne]

variable {tenant other : TenantId} {digest digest' : String} {path : PathBuf}

theorem some_blobPath_inj (h : blobPath tenant.value digest = some path)
    (h' : blobPath other.value digest' = some path) : other = tenant ∧ digest' = digest := by
  rw [blobPath_eq, Option.map_eq_some_iff] at h h'
  obtain ⟨s, -, rfl⟩ := h
  obtain ⟨s', -, heq⟩ := h'
  unfold join at heq
  split_ifs at heq with hd' hd hd
  all_goals simp at heq
  · exact ⟨TenantId.ext (segment_inj heq.1),
      (segment_eq_empty_iff.mp hd').trans (segment_eq_empty_iff.mp hd).symm⟩
  · exact ⟨TenantId.ext (segment_inj heq.1), segment_inj heq.2.2⟩

theorem some_splitPath_inj (h : splitPath tenant.value digest = some path)
    (h' : splitPath other.value digest' = some path) : other = tenant ∧ digest' = digest := by
  rw [splitPath_eq, Option.map_eq_some_iff] at h h'
  obtain ⟨s, -, rfl⟩ := h
  obtain ⟨s', -, heq⟩ := h'
  simp at heq
  exact ⟨TenantId.ext (segment_inj heq.1), segment_inj heq.2.2⟩

theorem splitPath_ne_of_blobPath (h : blobPath tenant.value digest = some path) :
    splitPath other.value digest' ≠ some path := by
  rw [blobPath_eq, Option.map_eq_some_iff] at h
  obtain ⟨s, -, rfl⟩ := h
  rw [splitPath_eq, Ne, Option.map_eq_some_iff]
  rintro ⟨s', -, heq⟩
  unfold join at heq
  split_ifs at heq with hd
  all_goals simp at heq

/-- The two paths of a blob are defined, and no other blob has either of them. -/
def Told (tenant : TenantId) (digest : String) : Prop :=
  ∃ raw split, blobPath tenant.value digest = some raw ∧
    splitPath tenant.value digest = some split ∧ ∀ (other : TenantId) (digest' : String),
      (blobPath other.value digest' = some raw → other = tenant ∧ digest' = digest) ∧
      (splitPath other.value digest' = some split → other = tenant ∧ digest' = digest) ∧
      splitPath other.value digest' ≠ some raw ∧ blobPath other.value digest' ≠ some split

theorem told_iff : Told tenant digest ↔ cuts digest.toList = true := by
  rw [← shard_isSome]
  constructor
  · rintro ⟨raw, split, hraw, -⟩
    rw [blobPath_eq, Option.map_eq_some_iff] at hraw
    obtain ⟨s, hs, -⟩ := hraw
    rw [hs, Option.isSome_some]
  · intro hsome
    obtain ⟨s, hs⟩ := Option.isSome_iff_exists.mp hsome
    have hraw := blobPath_eq tenant digest
    have hsplit := splitPath_eq tenant digest
    rw [hs, Option.map_some] at hraw hsplit
    refine ⟨_, _, hraw, hsplit, fun other digest' => ⟨fun h => ?_, fun h => ?_, ?_, fun h => ?_⟩⟩
    · exact some_blobPath_inj hraw h
    · exact some_splitPath_inj hsplit h
    · exact splitPath_ne_of_blobPath hraw
    · exact splitPath_ne_of_blobPath h hsplit

/-- **Names on disk.**  Every name is read back as what it was made from, is one component and hides
    nothing; and a blob's paths are its own alone exactly when its shard can be cut, which a field
    check of the digest ensures. -/
theorem blob_names (tenant : TenantId) (digest : String) :
    unescape (segment digest) = .ok digest ∧
      (∀ other, segment other = segment digest → other = digest) ∧
      '/' ∉ (segment digest).toList ∧ (segment digest).toList.head? ≠ some '.' ∧
      (Told tenant digest ↔ cuts digest.toList = true) ∧
      (ValidField digest → Told tenant digest) := by
  refine ⟨unescape_segment digest, fun other h => segment_inj h, separator_notMem_segment digest,
    head?_segment_ne_dot digest, told_iff, fun h => told_iff.mpr (cuts_of_validField h)⟩

/-- A letter and a character of two bytes: `delete_blob`, which checks no digest, cuts inside the
    second and panics. -/
theorem blob_names_panic :
    blobPath sampleTenant.value "aé" = none ∧ ¬Told sampleTenant "aé" := by
  refine ⟨by decide, fun htold => ?_⟩
  exact absurd (told_iff.mp htold) (by decide)

end Eventlog.Tree.Names
