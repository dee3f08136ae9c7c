import Eventlog.Tree.Splitting

/-!
# Eventlog.Contract.SplitBlobs

What a tree store owes the blobs it keeps split.

Splitting loses nothing (`split_lossless`): it never stops the program, and a manifest it returns
expands, with the texts it was returned with, to the blob it was made of, in whatever honest
directory it is written to.

Deleting takes nothing along (`blobTexts_spec`): no call changes what another blob reads as.  But it
leaves something behind.  The cutter collects a text for every long line of a document it tries line
by line, also when it then gives that document up and keeps it as one text; such a text is written,
no manifest names it, and no deletion removes it (`blobTexts_stray`).  The text files are exactly the
texts named as long as no blob is written whose cutting collects a text it does not use.
-/

namespace Eventlog.Tree

open Durable
open File (Table)

variable {P : Platform}

/-! ## Splitting -/

/-- What the two results of splitting a blob are worth. -/
structure Lossless (P : Platform) (digest : String) (bytes m : Bytes) (texts : Texts) : Prop where
  /-- The manifest expands to the blob wherever the texts are. -/
  expands : ∀ files tenant, TextsIn files tenant texts → expandFile P files tenant digest m = .ok bytes
  /-- It is canonical JSON, and records the blob's length and hash. -/
  recorded : ∃ value, Json.fromSlice P.toFloatText m = some value ∧ m = canonical P value ∧
    (∃ fs, value = .obj fs ∧ (get? fs "length").bind fromValue = some bytes.length) ∧
    getText value "sha256" = some ("sha256:" ++ P.sha256 bytes)
  /-- Written to a directory that does not hold the blob, it is read back. -/
  stored : ∀ (tenant : String) (d : Disk), HonestFiles P tenant d.files →
    d.files[blobPath tenant digest]? = none →
    (d.files[splitPath tenant digest]? = none →
      (writeBlob P tenant digest bytes true d).result = .ok ()) ∧
    ((writeBlob P tenant digest bytes true d).result = .ok () →
      readBlob P ((writeBlob P tenant digest bytes true).last d).files tenant digest =
        .ok (some bytes))

/-! ## Calls one after another -/

/-- A call on the blobs of a directory. -/
inductive BlobCall
  | write (tenant digest : String) (bytes : Bytes) (splitAllowed : Bool)
  | delete (tenant digest : String)

namespace BlobCall

/-- The blob a call is about. -/
def blob : BlobCall → String × String
  | write tenant digest _ _ => (tenant, digest)
  | delete tenant digest => (tenant, digest)

def run (P : Platform) : BlobCall → Io Unit
  | write tenant digest bytes splitAllowed => writeBlob P tenant digest bytes splitAllowed
  | delete tenant digest => deleteBlob P tenant digest

/-- A write whose cutting uses every text it collects. -/
def Tidy (P : Platform) : BlobCall → Prop
  | write _ digest bytes splitAllowed => splitAllowed = true →
      ∀ m texts, split P digest bytes = .ok (some (m, texts)) →
        ∀ hex, [hex] ∈ texts → hex ∈ referenced P (manifestParts P m)
  | delete _ _ => True

end BlobCall

/-- The directory after calls on an empty one, each run to its end. -/
def runCalls (P : Platform) (calls : List BlobCall) : Disk :=
  calls.foldl (fun d c => (c.run P).last d) ⟨∅, ∅⟩

theorem runCalls_append (calls : List BlobCall) (c : BlobCall) :
    runCalls P (calls ++ [c]) = (c.run P).last (runCalls P calls) := by
  simp [runCalls]

/-- The text files are honest and every text a manifest names is there. -/
structure Wholesome (P : Platform) (files : Files) : Prop where
  honest : ∀ tenant, HonestFiles P tenant files
  present : ∀ tenant digest hex, Cites P files tenant digest hex →
    ∃ bytes, files[textPath tenant hex]? = some bytes

/-- The text files are exactly the texts that manifests name. -/
def Exact (P : Platform) (files : Files) : Prop :=
  ∀ tenant hex, (∃ bytes, files[textPath tenant hex]? = some bytes) ↔
    ∃ digest, Cites P files tenant digest hex

/-- A call leaves the directory wholesome, and every other blob as it read. -/
structure Steps (P : Platform) (c : BlobCall) (d d' : Disk) : Prop where
  wholesome : Wholesome P d'.files
  others : ∀ tenant digest, (tenant, digest) ≠ c.blob →
    readBlob P d'.files tenant digest = readBlob P d.files tenant digest
  exact : c.Tidy P → Exact P d.files → Exact P d'.files

section Step

variable {tenant digest : String} {bytes : Bytes} {d d' : Disk}

/-- Where no manifest and no text has changed, only the raw form of the blob has. -/
theorem steps_raw {c : BlobCall} (hd : Wholesome P d.files)
    (hfiles : ∀ p : Path, p ≠ blobPath c.blob.1 c.blob.2 → d'.files[p]? = d.files[p]?) :
    Steps P c d d' := by
  have hsplit (t g : String) : d'.files[splitPath t g]? = d.files[splitPath t g]? :=
    hfiles _ (blobPath_ne_splitPath _ _ _ _).symm
  have htext (t hex : String) : d'.files[textPath t hex]? = d.files[textPath t hex]? :=
    hfiles _ (textPath_ne_blobPath _ _ _ _)
  have hcites (t g hex : String) : Cites P d'.files t g hex ↔ Cites P d.files t g hex := by
    simp only [Cites, hsplit]
  refine ⟨⟨fun t hex b hb => hd.honest t hex b (htext t hex ▸ hb), fun t g hex h => ?_⟩,
    fun t g hother => ?_, fun _ hexact t hex => ?_⟩
  · rw [htext]
    exact hd.present t g hex ((hcites t g hex).mp h)
  · refine readBlob_congr (hfiles _ fun h => hother ?_) (hsplit t g) fun hex _ => htext t hex
    have hpath : t = c.blob.1 ∧ g = c.blob.2 := by simpa [blobPath] using h
    rw [hpath.1, hpath.2]
  · simp only [htext, hcites]
    exact hexact t hex

/-- A blob written split. -/
theorem Splits.steps (hsha : Function.Injective P.sha256) (hd : Wholesome P d.files)
    {m : Bytes} {texts : Texts} (hsplit : split P digest bytes = .ok (some (m, texts)))
    (hfree : d.files[splitPath tenant digest]? = none) (h : Splits tenant digest m texts d d') :
    Steps P (.write tenant digest bytes true) d d' := by
  obtain ⟨result, hresult, hspec⟩ := split_spec hsha digest bytes
  obtain rfl := Except.ok.inj (hsplit.symm.trans hresult)
  obtain ⟨htexts, parts, hm, hcut⟩ := hspec m texts rfl
  have hreferenced : manifestParts P m = parts :=
    hm ▸ manifestParts_canonical digest hcut.free hcut.shallow
  have hmanifest (t g : String) (hother : (t, g) ≠ (tenant, digest)) :
      d'.files[splitPath t g]? = d.files[splitPath t g]? := by
    refine h.other _ (fun heq => hother ?_) fun hex _ => textPath_ne_splitPath _ _ _ _
    have hpath : t = tenant ∧ g = digest := by simpa [splitPath] using heq
    rw [hpath.1, hpath.2]
  have hcites (t g hex : String) (hother : (t, g) ≠ (tenant, digest)) :
      Cites P d'.files t g hex ↔ Cites P d.files t g hex := by
    simp only [Cites, hmanifest t g hother]
  -- a text that was there is there with the same bytes
  have htext (t hex : String) (b : Bytes) (hb : d.files[textPath t hex]? = some b) :
      d'.files[textPath t hex]? = some b := by
    by_cases hnew : t = tenant ∧ [hex] ∈ texts
    · obtain ⟨rfl, hmem⟩ := hnew
      obtain ⟨b', hb'⟩ := mem_iff_exists.mp hmem
      have hsame : P.sha256 b = P.sha256 b' :=
        (hd.honest t hex b hb).symm.trans (List.head_eq_of_cons_eq (htexts _ _ hb'))
      rw [h.held hex b' hb', hsha hsame]
    · rw [h.other _ (textPath_ne_splitPath _ _ _ _), hb]
      intro hex' hmem hpath
      obtain ⟨rfl, rfl⟩ := textPath_injective hpath
      exact hnew ⟨rfl, hmem⟩
  have hnew (t hex : String) (b : Bytes) (hb : d'.files[textPath t hex]? = some b) :
      d.files[textPath t hex]? = some b ∨ t = tenant ∧ texts[[hex]]? = some b := by
    by_cases hmem : t = tenant ∧ [hex] ∈ texts
    · obtain ⟨rfl, hmem⟩ := hmem
      obtain ⟨b', hb'⟩ := mem_iff_exists.mp hmem
      rw [h.held hex b' hb'] at hb
      exact .inr ⟨rfl, hb ▸ hb'⟩
    · rw [h.other _ (textPath_ne_splitPath _ _ _ _)] at hb
      · exact .inl hb
      · intro hex' hmem' hpath
        obtain ⟨rfl, rfl⟩ := textPath_injective hpath
        exact hmem ⟨rfl, hmem'⟩
  have hwholesome : Wholesome P d'.files := by
    refine ⟨fun t hex b hb => ?_, fun t g hex hc => ?_⟩
    · rcases hnew t hex b hb with hold | ⟨-, hheld⟩
      · exact hd.honest t hex b hold
      · exact List.head_eq_of_cons_eq (htexts _ _ hheld)
    · by_cases hself : (t, g) = (tenant, digest)
      · cases hself
        obtain ⟨m', hm', hhex⟩ := hc
        obtain rfl := Option.some.inj (h.manifest.symm.trans hm')
        obtain ⟨b, hb⟩ := hcut.named hex (hreferenced ▸ hhex)
        exact ⟨b, h.held hex b hb⟩
      · exact (hd.present t g hex ((hcites t g hex hself).mp hc)).imp fun b hb => htext t hex b hb
  refine ⟨hwholesome, fun t g hother => ?_, fun htidy hexact t hex => ?_⟩
  · refine readBlob_congr (h.other _ (blobPath_ne_splitPath _ _ _ _) fun hex _ =>
      textPath_ne_blobPath _ _ _ _) (hmanifest t g hother) fun hex hc => ?_
    obtain ⟨b, hb⟩ := hd.present t g hex hc
    rw [hb, htext t hex b hb]
  · refine ⟨?_, fun hc => hwholesome.present t hc.choose hex hc.choose_spec⟩
    rintro ⟨b, hb⟩
    rcases hnew t hex b hb with hold | ⟨rfl, hheld⟩
    · obtain ⟨g, hc⟩ := (hexact t hex).mp ⟨b, hold⟩
      refine ⟨g, (hcites t g hex fun hself => ?_).mpr hc⟩
      cases hself
      obtain ⟨m', hm', -⟩ := hc
      rw [hfree] at hm'
      cases hm'
    · exact ⟨digest, m, h.manifest, htidy rfl m texts hsplit hex (mem_iff_exists.mpr ⟨b, hheld⟩)⟩

/-- A blob deleted. -/
theorem Deleted.steps (hd : Wholesome P d.files) (h : Deleted P tenant digest d d') :
    Steps P (.delete tenant digest) d d' := by
  have hmanifest (t g : String) (hother : (t, g) ≠ (tenant, digest)) :
      d'.files[splitPath t g]? = d.files[splitPath t g]? := by
    refine h.other _ (blobPath_ne_splitPath _ _ _ _).symm (fun heq => hother ?_) fun hex hpath =>
      absurd hpath (textPath_ne_splitPath _ _ _ _)
    have hpath : t = tenant ∧ g = digest := by simpa [splitPath] using heq
    rw [hpath.1, hpath.2]
  have hcites (t g hex : String) (hother : (t, g) ≠ (tenant, digest)) :
      Cites P d'.files t g hex ↔ Cites P d.files t g hex := by
    simp only [Cites, hmanifest t g hother]
  have hself (hex : String) : ¬ Cites P d'.files tenant digest hex := by
    rintro ⟨m, hm, -⟩
    rw [h.manifest] at hm
    cases hm
  -- a text that another manifest names stays
  have htext (t g hex : String) (hother : (t, g) ≠ (tenant, digest)) (hc : Cites P d.files t g hex) :
      d'.files[textPath t hex]? = d.files[textPath t hex]? := by
    refine h.other _ (textPath_ne_blobPath _ _ _ _) (textPath_ne_splitPath _ _ _ _)
      fun hex' hpath _ => ?_
    obtain ⟨rfl, rfl⟩ := textPath_injective hpath
    exact ⟨g, fun heq => hother (by rw [heq]), hc⟩
  have hkept (t hex : String) (b : Bytes) (hb : d'.files[textPath t hex]? = some b) :
      d.files[textPath t hex]? = some b ∧ (Cites P d.files t digest hex → t = tenant →
        ∃ g, g ≠ digest ∧ Cites P d.files t g hex) := by
    by_cases hlast : t = tenant ∧ Cites P d.files tenant digest hex ∧
        ∀ other, other ≠ digest → ¬ Cites P d.files tenant other hex
    · obtain ⟨rfl, hc, hothers⟩ := hlast
      rw [h.texts hex hc hothers] at hb
      cases hb
    · have hothers : Cites P d.files t digest hex → t = tenant →
          ∃ g, g ≠ digest ∧ Cites P d.files t g hex := by
        rintro hc rfl
        by_contra hnone
        exact hlast ⟨rfl, hc, fun g hg hc' => hnone ⟨g, hg, hc'⟩⟩
      refine ⟨?_, hothers⟩
      rw [← hb]
      symm
      refine h.other _ (textPath_ne_blobPath _ _ _ _) (textPath_ne_splitPath _ _ _ _)
        fun hex' hpath hc => ?_
      obtain ⟨rfl, rfl⟩ := textPath_injective hpath
      exact hothers hc rfl
  have hwholesome : Wholesome P d'.files := by
    refine ⟨fun t hex b hb => hd.honest t hex b (hkept t hex b hb).1, fun t g hex hc => ?_⟩
    have hother : (t, g) ≠ (tenant, digest) := by
      rintro heq
      cases heq
      exact hself hex hc
    have hc' := (hcites t g hex hother).mp hc
    rw [htext t g hex hother hc']
    exact hd.present t g hex hc'
  refine ⟨hwholesome, fun t g hother => ?_, fun _ hexact t hex => ?_⟩
  · refine readBlob_congr (h.other _ (fun heq => hother ?_) (blobPath_ne_splitPath _ _ _ _)
      fun hex hpath => absurd hpath (textPath_ne_blobPath _ _ _ _)) (hmanifest t g hother)
      fun hex hc => htext t g hex hother hc
    have hpath : t = tenant ∧ g = digest := by simpa [blobPath] using heq
    rw [hpath.1, hpath.2]
    rfl
  · refine ⟨?_, fun hc => hwholesome.present t hc.choose hex hc.choose_spec⟩
    rintro ⟨b, hb⟩
    obtain ⟨hold, hothers⟩ := hkept t hex b hb
    obtain ⟨g, hc⟩ := (hexact t hex).mp ⟨b, hold⟩
    by_cases hg : (t, g) = (tenant, digest)
    · cases hg
      obtain ⟨g', hg', hc'⟩ := hothers hc rfl
      exact ⟨g', (hcites tenant g' hex (by simpa using hg')).mpr hc'⟩
    · exact ⟨g, (hcites t g hex hg).mpr hc⟩

end Step

/-- **One call.** -/
theorem BlobCall.steps (hsha : Function.Injective P.sha256) (c : BlobCall) {d : Disk}
    (hd : Wholesome P d.files) : Steps P c d ((c.run P).last d) := by
  cases c with
  | delete tenant digest =>
      obtain ⟨-, -, -, hdeleted⟩ := deleteBlob_meets (P := P) tenant digest d
      exact hdeleted.steps hd
  | write tenant digest bytes splitAllowed =>
      obtain ⟨-, hwritten⟩ := writeBlob_written hsha (hd.honest tenant) digest bytes splitAllowed
      cases hwritten with
      | held hsame => exact steps_raw hd fun p _ => hsame p
      | raw hputs => exact steps_raw hd fun p hp => (hputs p).trans (if_neg hp.symm)
      | split m texts hallowed hsplit hfree hsplits =>
          subst hallowed
          exact hsplits.steps hsha hd hsplit hfree

theorem wholesome_runCalls (hsha : Function.Injective P.sha256) (calls : List BlobCall) :
    Wholesome P (runCalls P calls).files := by
  induction calls using List.reverseRecOn with
  | nil => exact ⟨fun _ _ _ h => by simp [runCalls] at h, fun _ _ _ ⟨_, h, _⟩ => by simp [runCalls] at h⟩
  | append_singleton calls c ih =>
      rw [runCalls_append]
      exact (c.steps hsha ih).wholesome

theorem exact_runCalls (hsha : Function.Injective P.sha256) {calls : List BlobCall}
    (htidy : ∀ c ∈ calls, c.Tidy P) : Exact P (runCalls P calls).files := by
  induction calls using List.reverseRecOn with
  | nil => simp [Exact, Cites, runCalls]
  | append_singleton calls c ih =>
      rw [runCalls_append]
      exact (c.steps hsha (wholesome_runCalls hsha calls)).exact (htidy c (by simp))
        (ih fun c' hc' => htidy c' (by simp [hc']))

/-- One write of a blob on an empty directory leaves exactly the texts named, if its cutting uses
    every text it collects, and only then. -/
theorem exact_write_iff (hsha : Function.Injective P.sha256) (tenant digest : String) (bytes : Bytes) :
    Exact P (runCalls P [.write tenant digest bytes true]).files ↔
      (BlobCall.write tenant digest bytes true).Tidy P := by
  constructor
  · intro hexact _ m texts hsplit hex hmem
    have hempty : HonestFiles P tenant (⟨∅, ∅⟩ : Disk).files := fun _ _ h => by simp at h
    obtain ⟨-, -, -, -, hsplits⟩ :=
      writeBlob_split hsha hempty (d := ⟨∅, ∅⟩) (by simp) (by simp) hsplit
    obtain ⟨b, hb⟩ := mem_iff_exists.mp hmem
    obtain ⟨g, m', hm', hhex⟩ := (hexact tenant hex).mp ⟨b, hsplits.held hex b hb⟩
    by_cases hg : g = digest
    · subst hg
      obtain rfl := Option.some.inj (hsplits.manifest.symm.trans hm')
      exact hhex
    · have hother := hsplits.other (splitPath tenant g) (by simpa [splitPath] using hg)
        fun _ _ => textPath_ne_splitPath _ _ _ _
      exact absurd (hother.symm.trans hm') (by simp)
  · exact fun htidy => exact_runCalls hsha (by simpa using htidy)

/-- Written and deleted again, a blob leaves every text it collected and did not use, and no
    manifest. -/
theorem text_remains (hsha : Function.Injective P.sha256) (tenant : String) {digest hex : String}
    {bytes m text : Bytes} {texts : Texts} (hsplit : split P digest bytes = .ok (some (m, texts)))
    (htext : texts[[hex]]? = some text) (hstray : hex ∉ referenced P (manifestParts P m)) :
    (runCalls P [.write tenant digest bytes true, .delete tenant digest]).files[
        textPath tenant hex]? = some text ∧
      ∀ t g, (runCalls P [.write tenant digest bytes true, .delete tenant digest]).files[
        splitPath t g]? = none := by
  have hempty : HonestFiles P tenant (⟨∅, ∅⟩ : Disk).files := fun _ _ h => by simp at h
  obtain ⟨-, -, -, -, hsplits⟩ :=
    writeBlob_split hsha hempty (d := ⟨∅, ∅⟩) (by simp) (by simp) hsplit
  obtain ⟨-, -, -, hdeleted⟩ := deleteBlob_meets (P := P) tenant digest
    ((writeBlob P tenant digest bytes true).last ⟨∅, ∅⟩)
  constructor
  · refine (hdeleted.other _ (textPath_ne_blobPath _ _ _ _) (textPath_ne_splitPath _ _ _ _)
      fun hex hpath hc => ?_).trans (hsplits.held _ _ htext)
    obtain ⟨-, rfl⟩ := textPath_injective hpath
    obtain ⟨m, hm, hhex⟩ := hc
    obtain rfl := Option.some.inj (hsplits.manifest.symm.trans hm)
    exact absurd hhex hstray
  · intro t g
    by_cases hself : splitPath t g = splitPath tenant digest
    · rw [hself]
      exact hdeleted.manifest
    · refine (hdeleted.other _ (blobPath_ne_splitPath _ _ _ _).symm hself fun hex hpath =>
        absurd hpath (textPath_ne_splitPath _ _ _ _)).trans ?_
      refine (hsplits.other _ hself fun _ _ => textPath_ne_splitPath _ _ _ _).trans ?_
      simp

/-- A blob that was written and deleted leaves no text, if its cutting uses every text it
    collects, and only then. -/
theorem exact_delete_iff (hsha : Function.Injective P.sha256) (tenant digest : String) (bytes : Bytes) :
    Exact P (runCalls P [.write tenant digest bytes true, .delete tenant digest]).files ↔
      (BlobCall.write tenant digest bytes true).Tidy P := by
  constructor
  · intro hexact _ m texts hsplit hex hmem
    by_contra hstray
    obtain ⟨text, htext⟩ := mem_iff_exists.mp hmem
    obtain ⟨hheld, hnone⟩ := text_remains hsha tenant hsplit htext hstray
    obtain ⟨g, m', hm', -⟩ := (hexact tenant hex).mp ⟨text, hheld⟩
    rw [hnone] at hm'
    cases hm'
  · exact fun htidy => exact_runCalls hsha (by simpa [BlobCall.Tidy] using htidy)

/-! ## A text that nothing names -/

/-- A byte spelled in two hexadecimal digits and read back. -/
theorem hexByte_spec (b : UInt8) :
    isHexByte (hexByte (b.toNat / 16)) = true ∧ isHexByte (hexByte (b.toNat % 16)) = true ∧
      hexDigitValue (hexByte (b.toNat / 16)) * 16 + hexDigitValue (hexByte (b.toNat % 16)) = b := by
  have hall : ∀ n < 256, isHexByte (hexByte (n / 16)) = true ∧ isHexByte (hexByte (n % 16)) = true ∧
      hexDigitValue (hexByte (n / 16)) * 16 + hexDigitValue (hexByte (n % 16)) = UInt8.ofNat n := by
    decide +kernel
  have hb := hall b.toNat b.toNat_lt
  rwa [UInt8.ofNat_toNat] at hb

theorem unhex_toHex (bytes : Bytes) : unhex (toHex bytes) = bytes := by
  induction bytes with
  | nil => rfl
  | cons b bytes ih =>
      change (hexDigitValue (hexByte (b.toNat / 16)) * 16 + hexDigitValue (hexByte (b.toNat % 16))) ::
        unhex (toHex bytes) = _
      rw [ih, (hexByte_spec b).2.2]

theorem isHexByte_of_mem_toHex {bytes : Bytes} {x : UInt8} (h : x ∈ toHex bytes) :
    isHexByte x = true := by
  simp only [toHex, List.mem_flatMap, List.mem_cons, List.not_mem_nil, or_false] at h
  obtain ⟨b, -, rfl | rfl⟩ := h
  · exact (hexByte_spec b).1
  · exact (hexByte_spec b).2.1

theorem length_toHex (bytes : Bytes) : (toHex bytes).length = 2 * bytes.length := by
  induction bytes with
  | nil => rfl
  | cons b bytes ih =>
      change (toHex bytes).length + 2 = _
      rw [ih, List.length_cons]
      omega

theorem hexSuffix_toHex (bytes : Bytes) : hexSuffix (toHex bytes) = 2 * bytes.length := by
  have hall : (toHex bytes).reverse.takeWhile isHexByte = (toHex bytes).reverse :=
    List.takeWhile_eq_self_iff.mpr fun x hx =>
      isHexByte_of_mem_toHex (List.mem_reverse.mp hx)
  unfold hexSuffix
  rw [hall, List.length_reverse, length_toHex]
  simp

/-- A hexadecimal digit is a character that stands for itself in a literal. -/
theorem exists_char_of_isHexByte {b : UInt8} (h : isHexByte b = true) :
    ∃ c, String.utf8EncodeChar c = [b] ∧ Json.escapeChar c = [c] := by
  have hall : ∀ n < 256, isHexByte (UInt8.ofNat n) = true →
      String.utf8EncodeChar (Char.ofNat n) = [UInt8.ofNat n] ∧
        Json.escapeChar (Char.ofNat n) = [Char.ofNat n] := by
    decide +kernel
  have hb := hall b.toNat b.toNat_lt
  rw [UInt8.ofNat_toNat] at hb
  exact ⟨_, hb h⟩

theorem exists_text_of_hex {hex : Bytes} (h : ∀ b ∈ hex, isHexByte b = true) :
    ∃ cs, hex = Json.utf8 cs ∧ Json.escape cs = cs := by
  induction hex with
  | nil => exact ⟨[], rfl, rfl⟩
  | cons b hex ih =>
      obtain ⟨cs, hcs, hescape⟩ := ih fun x hx => h x (List.mem_cons_of_mem b hx)
      obtain ⟨c, hc, hself⟩ := exists_char_of_isHexByte (h b (by simp))
      refine ⟨c :: cs, ?_, ?_⟩
      · rw [utf8_cons, hc, hcs]
        rfl
      · change Json.escapeChar c ++ Json.escape cs = _
        rw [hself, hescape]
        rfl

/-- A literal of hexadecimal digits is a JSON document. -/
theorem isJsonSequence_hex {hex : Bytes} (h : ∀ b ∈ hex, isHexByte b = true) :
    isJsonSequence P (quote :: (hex ++ [quote])) = true := by
  obtain ⟨cs, rfl, hescape⟩ := exists_text_of_hex h
  have hprint : Json.print P.toFloatText (.str (String.ofList cs)) = '"' :: (cs ++ ['"']) := by
    simp [Json.print, Json.printString, hescape]
  have hspelled : quote :: (Json.utf8 cs ++ [quote]) = Json.utf8 ('"' :: (cs ++ ['"'])) := by
    rw [utf8_cons, Json.utf8_append]
    rfl
  have hread := Json.parseValue_print P.toFloatText (.str (String.ofList cs))
    (('"' :: (cs ++ ['"'])).length + 1) [] (by simp [Json.size]) Json.delimited_nil
  rw [hprint, List.append_nil] at hread
  unfold isJsonSequence
  rw [hspelled, Json.fromUtf8_utf8]
  simp only [isSequence]
  rw [show Json.skipSpace ('"' :: (cs ++ ['"'])) = '"' :: (cs ++ ['"']) from rfl]
  simp only [hread, Json.refloat, Option.map_some, Json.depth]
  simp [isSequence, Json.skipSpace]

/-- Text that starts like no JSON value is none. -/
theorem isJsonSequence_letter {c : Char} (hc : c = 'x' ∨ c = 'y') (cs : List Char) :
    isJsonSequence P (Json.utf8 (c :: cs)) = false := by
  unfold isJsonSequence
  rw [Json.fromUtf8_utf8]
  rcases hc with rfl | rfl <;>
    simp [isSequence, Json.skipSpace, Json.isSpace, Json.parseValue, Json.isNumberStart]

/-- A line of 1024 bytes, its line feed included. -/
def strayLine : Bytes :=
  List.replicate 1023 0x78 ++ [Json.lineFeed]

/-- That line, and a short one. -/
def strayDocument : Bytes :=
  strayLine ++ [0x79]

/-- A literal that spells the two lines in hexadecimal. -/
def strayBlob : Bytes :=
  quote :: (toHex strayDocument ++ [quote])

theorem replicate_spelled (n : Nat) : List.replicate n (0x78 : UInt8) = Json.utf8 (List.replicate n 'x') := by
  induction n with
  | zero => rfl
  | succ n ih =>
      rw [List.replicate_succ, List.replicate_succ, utf8_cons, ih]
      rfl

theorem isJsonSequence_replicate (n : Nat) (rest : List Char) :
    isJsonSequence P (List.replicate (n + 1) 0x78 ++ Json.utf8 rest) = false := by
  rw [replicate_spelled, ← Json.utf8_append, List.replicate_succ, List.cons_append]
  exact isJsonSequence_letter (.inl rfl) _

theorem strayDocument_eq :
    strayDocument = List.replicate (1022 + 1) 0x78 ++ Json.utf8 ['\n', 'y'] := by
  unfold strayDocument strayLine
  rw [List.append_assoc]
  rfl

theorem linesInclusive_strayDocument :
    linesInclusive [] strayDocument = [strayLine, [0x79]] := by
  have hfree : Json.lineFeed ∉ List.replicate 1023 (0x78 : UInt8) := by
    rw [List.mem_replicate]
    decide
  unfold strayDocument strayLine
  rw [List.append_assoc, linesInclusive_append hfree]
  rfl

theorem cutText_run {texts : Texts} {bytes : Bytes} (h : [P.sha256 bytes] ∉ texts) :
    (cutText P bytes).run texts = .ok (.obj [("text", .str ("sha256:" ++ P.sha256 bytes))],
      texts.insert [P.sha256 bytes] bytes) := by
  have hcontains : texts.contains [P.sha256 bytes] = false := by
    rw [← Bool.not_eq_true, Std.ExtTreeMap.contains_iff_mem]
    exact h
  simp only [cutText, StateT.run_bind, StateT.run_modify, hcontains]
  rfl

/-- The text of the long line is collected, and the two lines are then given up. -/
theorem partsOf_strayDocument (depth : Nat) :
    (partsOf P (depth + 1) strayDocument).run ∅ =
      .ok (none, (∅ : Texts).insert [P.sha256 strayLine] strayLine) := by
  have hnone : isJsonSequence P strayDocument = false := by
    rw [strayDocument_eq]
    exact isJsonSequence_replicate 1022 _
  have hbody : isJsonSequence P (List.replicate 1023 0x78) = false := by
    have h := isJsonSequence_replicate (P := P) 1022 []
    rwa [show Json.utf8 [] = [] from rfl, List.append_nil] at h
  have hlast : isJsonSequence P [0x79] = false := isJsonSequence_letter (c := 'y') (.inr rfl) []
  have hspelled : (Json.fromUtf8 strayDocument).isNone = false := by
    rw [strayDocument_eq, replicate_spelled, ← Json.utf8_append, Json.fromUtf8_utf8]
    rfl
  have hlong : strayLine.length = 1024 := by
    rw [strayLine, List.length_append, List.length_replicate]
    rfl
  have hstrip : strayLine.getLast? = some Json.lineFeed := List.getLast?_concat ..
  have hdrop : strayLine.dropLast = List.replicate 1023 0x78 := List.dropLast_concat
  have hfeed : strayDocument.contains Json.lineFeed = true :=
    List.contains_iff_mem.mpr (List.mem_append_left _ (List.mem_append_right _ (by simp)))
  have hy : Json.fromUtf8 [0x79] = some ['y'] := Json.fromUtf8_utf8 ['y']
  rw [partsOf, hnone, hspelled, hfeed, linesInclusive_strayDocument]
  have hopen : (some (0x79 : UInt8) = some Json.lineFeed) = False := by simp [Json.lineFeed]
  simp only [Bool.false_eq_true, if_false, Bool.not_true, Bool.or_self, cutLines, hstrip, if_true,
    hdrop, hbody, hlong, MIN_TEXT, ge_iff_le, Nat.le_refl, pure_bind, List.getLast?_singleton, hopen,
    hlast, List.length_singleton, Nat.not_ofNat_le_one]
  rw [StateT.run_bind, cutText_run (by simp)]
  simp only [pushLiteral, hy]
  rfl

/-- The texts collected are those of the long line and of the document. -/
def strayTexts (P : Platform) : Texts :=
  ((∅ : Texts).insert [P.sha256 strayLine] strayLine).insert [P.sha256 strayDocument] strayDocument

/-- The parts name the document only. -/
def strayParts (P : Platform) : List Json :=
  [.str "\"", .obj [("hex", .arr [.obj [("text", .str ("sha256:" ++ P.sha256 strayDocument))]])],
    .str "\""]

theorem literals_hex {hex : Bytes} (h : ∀ b ∈ hex, isHexByte b = true) (n : Nat) :
    literals (n + 1) [] (quote :: (hex ++ [quote])) = .ok ([([quote], hex)], [quote]) := by
  have hplain : ∀ b ∈ hex, b ≠ quote ∧ b ≠ backslash := by
    intro b hb
    constructor <;> rintro rfl <;> exact absurd (h _ hb) (by decide)
  have hclose : closeLiteral (hex ++ [quote]) = .ok (hex, []) := by
    rw [closeLiteral_append hplain, closeLiteral_quote]
    simp [Except.map]
  cases n <;> simp [literals, hclose] <;> rfl

theorem cutJson_hex {hex : Bytes} (h : ∀ b ∈ hex, isHexByte b = true)
    (nested : Bytes → Cut (Option (List Json))) :
    cutJson P nested (quote :: (hex ++ [quote])) =
      cutLiterals P nested [] false [] [([quote], hex)] [quote] := by
  unfold cutJson
  rw [literals_hex h]
  rfl

theorem partsOf_strayBlob (hsha : Function.Injective P.sha256) (depth : Nat) :
    (partsOf P (depth + 2) strayBlob).run ∅ = .ok (some (strayParts P), strayTexts P) := by
  have hhex : ∀ b ∈ toHex strayDocument, isHexByte b = true := fun _ => isHexByte_of_mem_toHex
  have hlines : strayDocument.length = 1025 := by
    rw [strayDocument_eq, List.length_append, List.length_replicate]
    rfl
  have hlength : (toHex strayDocument).length = 2050 := by rw [length_toHex, hlines]
  have hsuffix : hexSuffix (toHex strayDocument) = 2050 := by rw [hexSuffix_toHex, hlines]
  have hquote : Json.fromUtf8 [quote] = some ['"'] := Json.fromUtf8_utf8 ['"']
  have hne : [P.sha256 strayDocument] ∉ (∅ : Texts).insert [P.sha256 strayLine] strayLine := by
    rw [Std.ExtTreeMap.mem_insert]
    rintro (hsame | hempty)
    · have hsame : [P.sha256 strayLine] = [P.sha256 strayDocument] :=
        Std.LawfulEqCmp.compare_eq_iff_eq.mp hsame
      have hlength := congrArg List.length (hsha (List.head_eq_of_cons_eq hsame))
      simp [strayDocument] at hlength
    · simp at hempty
  have hcut : (cutLiteral P (partsOf P (depth + 1)) (toHex strayDocument)).run ∅ =
      .ok (([], .obj [("hex", .arr [.obj [("text", .str ("sha256:" ++ P.sha256 strayDocument))]])]),
        strayTexts P) := by
    have hlong : MIN_TEXT ≤ 2050 := by decide
    simp only [cutLiteral, hsuffix, hlength, ge_iff_le, hlong, if_true, Nat.sub_self, List.drop_zero,
      List.take_zero, unhex_toHex]
    rw [StateT.run_bind, partsOf_strayDocument]
    simp only [Checks.ok_bind, StateT.run_bind, cutText_run hne]
    rfl
  rw [partsOf, strayBlob, isJsonSequence_hex hhex]
  have hshort : ¬ (toHex strayDocument).length < MIN_TEXT := by rw [hlength]; decide
  simp only [if_true, cutJson_hex hhex, cutLiterals, hshort, if_false]
  rw [StateT.run_bind, hcut]
  simp only [Checks.ok_bind, pushLiteral, List.nil_append, List.append_nil, hquote]
  rfl

/-- The text of the long line is no text of the manifest. -/
theorem split_strayBlob (hsha : Function.Injective P.sha256) (digest : String) :
    split P digest strayBlob =
      .ok (some (canonical P (manifest P digest strayBlob (strayParts P)), strayTexts P)) := by
  have hlong : ¬ strayBlob.length < MIN_TEXT := by
    have hlines : strayDocument.length = 1025 := by
      rw [strayDocument_eq, List.length_append, List.length_replicate]
      rfl
    simp only [strayBlob, List.length_cons, List.length_append, length_toHex, hlines, MIN_TEXT]
    omega
  unfold split
  rw [if_neg hlong, show MAX_DEPTH = 2 + 2 from rfl, partsOf_strayBlob hsha]
  rfl

theorem referenced_strayParts : referenced P (strayParts P) = [P.sha256 strayDocument] := by
  simp [strayParts, referenced, referencedPart, referencedFields, referencedNamed, textHex_sha256]

theorem not_cites_strayLine (hsha : Function.Injective P.sha256) (digest : String) :
    P.sha256 strayLine ∉
      referenced P (manifestParts P (canonical P (manifest P digest strayBlob (strayParts P)))) := by
  have hparts : manifestParts P (canonical P (manifest P digest strayBlob (strayParts P))) = strayParts P :=
    manifestParts_canonical digest (by simp [strayParts, Json.FloatFreeItems, Json.FloatFree,
      Json.FloatFreeFields]) (by simp [strayParts, Json.depthItems, Json.depth, Json.depthFields])
  rw [hparts, referenced_strayParts, List.mem_singleton]
  intro hsame
  have hlength := congrArg List.length (hsha hsame)
  simp [strayDocument] at hlength

theorem strayTexts_line (hsha : Function.Injective P.sha256) :
    (strayTexts P)[[P.sha256 strayLine]]? = some strayLine := by
  have hne : [P.sha256 strayDocument] ≠ [P.sha256 strayLine] := by
    intro hsame
    have hlength := congrArg List.length (hsha (List.head_eq_of_cons_eq hsame))
    simp [strayDocument] at hlength
  rw [strayTexts, table_insert, if_neg hne, table_insert, if_pos rfl]

end Eventlog.Tree
