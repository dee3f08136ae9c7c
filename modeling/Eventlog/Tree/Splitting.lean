import Eventlog.Tree.Cutting
import Eventlog.Tree.Publishing

/-!
# Eventlog.Tree.Splitting

Split blobs on disk.

A manifest that `split` returns reads back as what it was made of, and expands to the blob wherever
the texts it was returned with are (`split_spec`).  Writing puts the texts and then the manifest in
place and touches nothing else (`writeSplit_meets`); deleting takes both forms of the blob and the
texts that no other manifest of the tenant names (`deleteBlob_meets`).
-/

namespace Eventlog.Tree

open Durable
open File (Table)

variable {P : Platform}

/-! ## Manifests -/

section Manifest

variable {texts : Texts} {levels : Nat} {parts : List Json} {bytes : Bytes}

theorem readJson_manifest (digest what : String) (bytes : Bytes) (hfree : Json.FloatFreeItems parts)
    (hdepth : Json.depthItems parts ≤ 9) :
    readJson P (canonical P (manifest P digest bytes parts)) what =
      .ok (manifest P digest bytes parts) := by
  have hfree' : (manifest P digest bytes parts).FloatFree := by
    simp [manifest, toValue, Json.FloatFree, Json.FloatFreeFields, hfree]
  have hdepth' : (manifest P digest bytes parts).depth ≤ Json.maxDepth := by
    simp only [manifest, toValue, Json.depth, Json.depthFields, Json.maxDepth]
    omega
  have hread := (Json.fromSlice_toVec_eq_some_iff P.toFloatText _).mpr
    ⟨hfree'.stable P.toFloatText, hdepth'⟩
  unfold readJson canonical
  rw [hread]

theorem fromSlice_of_readJson {value : Json} {what : String} (h : readJson P bytes what = .ok value) :
    Json.fromSlice P.toFloatText bytes = some value := by
  unfold readJson at h
  split at h
  · next hvalue => rw [hvalue, Except.ok.inj h]
  · cases h

theorem manifestParts_canonical (digest : String) (hfree : Json.FloatFreeItems parts)
    (hdepth : Json.depthItems parts ≤ 9) :
    manifestParts P (canonical P (manifest P digest bytes parts)) = parts := by
  have hread : readJson P _ "" = _ := readJson_manifest digest "" bytes hfree hdepth
  unfold manifestParts
  rw [fromSlice_of_readJson hread]
  rfl

/-- A manifest expands to its blob where its texts are. -/
theorem expandFile_manifest {files : Files} {tenant digest : String}
    (hfiles : TextsIn files tenant texts) (h : Cutting P texts 9 parts bytes) :
    expandFile P files tenant digest (canonical P (manifest P digest bytes parts)) = .ok bytes := by
  unfold expandFile
  rw [readJson_manifest digest _ bytes h.free h.shallow, Checks.ok_bind]
  have hlength : (fromValue (toValue bytes.length) : Option Nat) = some bytes.length :=
    LawfulSerde.fromValue_toValue _
  simp [manifest, getText, get?, object, List.lookup, Checks.ok_bind, h.spells files tenant hfiles,
    hlength]
  rfl

/-- **Splitting** does not stop the program, and what it returns is a manifest of parts that
    expand to the bytes where its texts are. -/
theorem split_spec (hsha : Function.Injective P.sha256) (digest : String) (bytes : Bytes) :
    ∃ result, split P digest bytes = .ok result ∧ ∀ m texts, result = some (m, texts) →
      Honest P texts ∧ ∃ parts, m = canonical P (manifest P digest bytes parts) ∧
        Cutting P texts 9 parts bytes := by
  unfold split
  split
  · exact ⟨none, rfl, by simp⟩
  · have hempty : Honest P (∅ : Texts) := by simp [Honest]
    obtain ⟨result, texts, hrun, hhonest, -, hparts⟩ := partsOf_yields hsha MAX_DEPTH bytes hempty
    rw [hrun, Checks.ok_bind]
    refine ⟨_, rfl, fun m texts' heq => ?_⟩
    obtain ⟨parts, hresult, heq⟩ := Option.map_eq_some_iff.mp heq
    cases heq
    exact ⟨hhonest, parts, rfl, hparts parts hresult⟩

end Manifest

/-! ## Writing -/

/-- The file at `path` holds `bytes` and nothing else has changed. -/
def Disk.Puts (path : Path) (bytes : Bytes) (d d' : Disk) : Prop :=
  ∀ p : Path, d'.files[p]? = if path = p then some bytes else d.files[p]?

theorem writeOnce_meets {d : Disk} {path : Path} {bytes : Bytes}
    (h : d.files[path]? = none ∨ d.files[path]? = some bytes) :
    (writeOnce path bytes).Meets d (fun _ => True)
      (Program.Returns fun _ d' => Disk.Puts path bytes d d') := by
  refine ⟨fun _ _ => trivial, ?_⟩
  rcases h with hfree | hheld
  · have hlast : (writeOnce path bytes).last d =
        ⟨d.files.insert path bytes, (d.staged.insert path bytes).erase path⟩ := by
      rw [Program.last, writeOnce_run bytes hfree, writeAtomic_run]
      rfl
    refine ⟨(), by rw [writeOnce_run bytes hfree, writeAtomic_run], fun p => ?_⟩
    rw [hlast, table_insert]
  · have hrun : writeOnce path bytes d = ⟨[], .ok ()⟩ := by
      unfold writeOnce
      rw [Program.bind_of_ok (a := some bytes) (congrArg Except.ok hheld)]
      simp [Program.ask, pure, Program.done]
    refine ⟨(), by rw [hrun], fun p => ?_⟩
    rw [Program.last, hrun]
    split
    · next hp => rw [← hp]; exact hheld
    · rfl

theorem textPath_injective {tenant tenant' hex hex' : String}
    (h : textPath tenant hex = textPath tenant' hex') : tenant = tenant' ∧ hex = hex' := by
  simpa [textPath] using h

/-- The text files of a tenant hold what their names say. -/
def HonestFiles (P : Platform) (tenant : String) (files : Files) : Prop :=
  ∀ hex bytes, files[textPath tenant hex]? = some bytes → hex = P.sha256 bytes

theorem HonestFiles.puts {tenant hex : String} {bytes : Bytes} {d d' : Disk}
    (h : HonestFiles P tenant d.files) (hputs : Disk.Puts (textPath tenant hex) bytes d d')
    (hhex : hex = P.sha256 bytes) : HonestFiles P tenant d'.files := by
  intro hex' bytes' hbytes'
  rw [hputs] at hbytes'
  split at hbytes'
  · next hpath =>
      cases hbytes'
      rw [← (textPath_injective hpath).2]
      exact hhex
  · exact h hex' bytes' hbytes'

/-- Without a collision a text finds its name free, or itself. -/
theorem HonestFiles.slot (hsha : Function.Injective P.sha256) {tenant : String} {files : Files}
    (h : HonestFiles P tenant files) (bytes : Bytes) :
    files[textPath tenant (P.sha256 bytes)]? = none ∨
      files[textPath tenant (P.sha256 bytes)]? = some bytes := by
  cases hheld : files[textPath tenant (P.sha256 bytes)]? with
  | none => exact .inl rfl
  | some held => exact .inr (by rw [hsha (h _ _ hheld)])

/-- Texts of an honest collection put in place one after another. -/
theorem writeTexts_meets (hsha : Function.Injective P.sha256) {tenant : String}
    {texts : List (List String × Bytes)} (htexts : ∀ t ∈ texts, t.1 = [P.sha256 t.2]) {d : Disk}
    (hd : HonestFiles P tenant d.files) :
    (texts.forM fun text => writeOnce (textPath tenant (text.1.headD "")) text.2).Meets d
      (fun _ => True) (Program.Returns fun _ d' => HonestFiles P tenant d'.files ∧
        (∀ t ∈ texts, d'.files[textPath tenant (P.sha256 t.2)]? = some t.2) ∧
        ∀ p : Path, (∀ t ∈ texts, textPath tenant (P.sha256 t.2) ≠ p) →
          d'.files[p]? = d.files[p]?) := by
  induction texts generalizing d with
  | nil => exact Program.meets_done trivial ⟨(), rfl, hd, by simp, fun _ _ => rfl⟩
  | cons t texts ih =>
      have hkey : t.1.headD "" = P.sha256 t.2 := by rw [htexts t (by simp)]; rfl
      replace htexts := fun u hu => htexts u (List.mem_cons_of_mem t hu)
      change ((writeOnce (textPath tenant (t.1.headD "")) t.2) >>= fun _ =>
        texts.forM fun text => writeOnce (textPath tenant (text.1.headD "")) text.2).Meets d _ _
      rw [hkey]
      refine Program.Meets.bind ((writeOnce_meets (hd.slot hsha t.2)).mono (fun _ h => h) ?_)
      rintro _ d₁ ⟨⟨⟩, rfl, hputs⟩
      refine ⟨(), rfl, (ih htexts (hd.puts hputs rfl)).mono (fun _ h => h) ?_⟩
      rintro _ d₂ ⟨⟨⟩, rfl, hd₂, hin, hother⟩
      refine ⟨(), rfl, hd₂, List.forall_mem_cons.mpr ⟨?_, hin⟩, fun p hp => ?_⟩
      · -- a later text of the same name is the same text
        by_cases hlater : ∃ u ∈ texts, P.sha256 u.2 = P.sha256 t.2
        · obtain ⟨u, hu, hsame⟩ := hlater
          rw [← hsame, hin u hu, hsha hsame]
        · rw [hother _ fun u hu hpath => hlater ⟨u, hu, (textPath_injective hpath).2⟩, hputs,
            if_pos rfl]
      · rw [hother p fun u hu => hp u (List.mem_cons_of_mem t hu), hputs, if_neg (hp t (by simp))]

/-- What a split blob leaves: its manifest, its texts, and everything else as it was. -/
structure Splits (tenant digest : String) (m : Bytes) (texts : Texts) (d d' : Disk) : Prop where
  manifest : d'.files[splitPath tenant digest]? = some m
  held : TextsIn d'.files tenant texts
  other : ∀ p : Path, p ≠ splitPath tenant digest →
    (∀ hex, [hex] ∈ texts → textPath tenant hex ≠ p) → d'.files[p]? = d.files[p]?

theorem textPath_ne_splitPath (tenant tenant' hex digest : String) :
    textPath tenant hex ≠ splitPath tenant' digest := by
  simp [textPath, splitPath]

/-- **Writing a split blob** that is not there yet. -/
theorem writeSplit_meets (hsha : Function.Injective P.sha256) {tenant digest : String} {m : Bytes}
    {texts : Texts} (htexts : Honest P texts) {d : Disk} (hd : HonestFiles P tenant d.files)
    (hfree : d.files[splitPath tenant digest]? = none) :
    (writeSplit tenant digest m texts).Meets d (fun _ => True) (Program.Returns fun _ d' =>
      HonestFiles P tenant d'.files ∧ Splits tenant digest m texts d d') := by
  have hmem : ∀ t : List String × Bytes, t ∈ texts.toList ↔ texts[t.1]? = some t.2 := fun t =>
    Std.ExtTreeMap.mem_toList_iff_getElem?_eq_some
  have hkeys : ∀ t ∈ texts.toList, t.1 = [P.sha256 t.2] := fun t ht =>
    htexts t.1 t.2 ((hmem t).mp ht)
  unfold writeSplit
  refine Program.Meets.bind ((writeTexts_meets hsha hkeys hd).mono (fun _ h => h) ?_)
  rintro _ d₁ ⟨⟨⟩, rfl, hd₁, hin, hother⟩
  have hslot : d₁.files[splitPath tenant digest]? = none := by
    rw [hother _ fun t _ => textPath_ne_splitPath tenant tenant _ digest, hfree]
  refine ⟨(), rfl, (writeOnce_meets (.inl hslot)).mono (fun _ h => h) ?_⟩
  rintro _ d₂ ⟨⟨⟩, rfl, hputs⟩
  have htext (hex : String) : d₂.files[textPath tenant hex]? = d₁.files[textPath tenant hex]? := by
    rw [hputs, if_neg (textPath_ne_splitPath tenant tenant hex digest).symm]
  refine ⟨(), rfl, fun hex b hb => hd₁ hex b (htext hex ▸ hb), ⟨?_, fun hex b hb => ?_, fun p hp htexts' => ?_⟩⟩
  · rw [hputs, if_pos rfl]
  · have hhex : hex = P.sha256 b := List.head_eq_of_cons_eq (htexts _ _ hb)
    rw [htext, hhex]
    exact hin ([hex], b) ((hmem _).mpr hb)
  · rw [hputs, if_neg hp.symm]
    refine hother p fun t ht => htexts' _ ?_
    rw [← hkeys t ht]
    exact mem_iff_exists.mpr ⟨t.2, (hmem t).mp ht⟩

theorem blobPath_ne_splitPath (tenant tenant' digest digest' : String) :
    blobPath tenant digest ≠ splitPath tenant' digest' := by
  simp [blobPath, splitPath]

theorem textPath_ne_blobPath (tenant tenant' hex digest : String) :
    textPath tenant hex ≠ blobPath tenant' digest := by
  simp [textPath, blobPath]

/-- What `write_blob` can have done to the files. -/
inductive Written (P : Platform) (tenant digest : String) (bytes : Bytes) (splitAllowed : Bool)
    (d d' : Disk) : Prop
  | held : (∀ p : Path, d'.files[p]? = d.files[p]?) → Written P tenant digest bytes splitAllowed d d'
  | raw : Disk.Puts (blobPath tenant digest) bytes d d' →
      Written P tenant digest bytes splitAllowed d d'
  | split (m : Bytes) (texts : Texts) : splitAllowed = true →
      split P digest bytes = .ok (some (m, texts)) → d.files[splitPath tenant digest]? = none →
      Splits tenant digest m texts d d' → Written P tenant digest bytes splitAllowed d d'

theorem writeOnce_written {tenant digest : String} {bytes : Bytes} {splitAllowed : Bool} {d : Disk} :
    (writeOnce (blobPath tenant digest) bytes).Meets d (fun _ => True) fun _ d' =>
      Written P tenant digest bytes splitAllowed d d' := by
  by_cases h : d.files[blobPath tenant digest]? = none ∨
      d.files[blobPath tenant digest]? = some bytes
  · refine (writeOnce_meets h).mono (fun _ h => h) ?_
    rintro _ d' ⟨-, -, hputs⟩
    exact .raw hputs
  · -- other bytes are held: the writer stops and changes nothing
    simp only [not_or] at h
    obtain ⟨held, hheld⟩ := Option.ne_none_iff_exists'.mp h.1
    have hne : held ≠ bytes := fun heq => h.2 (heq ▸ hheld)
    unfold writeOnce
    refine Program.meets_ask_bind (a := some held) (by rw [hheld]) ?_
    simp only [hne, if_false]
    exact Program.meets_fail trivial (.held fun _ => rfl)

section WriteBlob

variable {tenant digest : String} {bytes : Bytes} {d : Disk}

theorem contains_eq_false {files : Files} {path : Path} (h : files[path]? = none) :
    files.contains path = false := by
  rw [Std.ExtTreeMap.contains_eq_isSome_getElem?, h]
  rfl

theorem contains_eq_true {files : Files} {path : Path} {b : Bytes} (h : files[path]? = some b) :
    files.contains path = true := by
  rw [Std.ExtTreeMap.contains_eq_isSome_getElem?, h]
  rfl

/-- A blob that neither form is held of is written split, if it splits. -/
theorem writeBlob_split (hsha : Function.Injective P.sha256) (hd : HonestFiles P tenant d.files)
    (hraw : d.files[blobPath tenant digest]? = none)
    (hfree : d.files[splitPath tenant digest]? = none) {m : Bytes} {texts : Texts}
    (hsplit : split P digest bytes = .ok (some (m, texts))) :
    (writeBlob P tenant digest bytes true).Meets d (fun _ => True) (Program.Returns fun _ d' =>
      HonestFiles P tenant d'.files ∧ Splits tenant digest m texts d d') := by
  obtain ⟨result, hresult, hspec⟩ := split_spec hsha digest bytes
  obtain rfl := Except.ok.inj (hsplit.symm.trans hresult)
  unfold writeBlob
  refine Program.meets_ask_bind rfl ?_
  rw [contains_eq_false hraw, contains_eq_false hfree]
  simp only [Bool.false_or, Bool.not_true, Bool.false_eq_true, if_false, hsplit]
  exact writeSplit_meets hsha (hspec m texts rfl).1 hd hfree

/-- A blob that is held split is compared and left alone. -/
theorem writeBlob_held (hraw : d.files[blobPath tenant digest]? = none) {held : Bytes}
    (hheld : d.files[splitPath tenant digest]? = some held)
    (hok : (writeBlob P tenant digest bytes true d).result = .ok ()) :
    readBlob P d.files tenant digest = .ok (some bytes) ∧
      (writeBlob P tenant digest bytes true).last d = d := by
  have hrun : (writeBlob P tenant digest bytes true).Meets d (fun _ => True) fun r d' =>
      r = .ok () → readBlob P d.files tenant digest = .ok (some bytes) ∧ d' = d := by
    unfold writeBlob
    refine Program.meets_ask_bind rfl ?_
    rw [contains_eq_false hraw, contains_eq_true hheld]
    simp only [Bool.false_or, Bool.not_true, Bool.false_eq_true, if_false, if_true]
    split
    · exact Program.meets_fail trivial fun h => nomatch h
    · next read hread =>
        split
        · next hsame => exact Program.meets_done trivial fun _ => ⟨by rw [hread, hsame], rfl⟩
        · exact Program.meets_fail trivial fun h => nomatch h
  exact hrun.2 hok

/-- **Everything `write_blob` can have done.** -/
theorem writeBlob_written (hsha : Function.Injective P.sha256) (hd : HonestFiles P tenant d.files)
    (digest : String) (bytes : Bytes) (splitAllowed : Bool) :
    (writeBlob P tenant digest bytes splitAllowed).Meets d (fun _ => True) fun _ d' =>
      Written P tenant digest bytes splitAllowed d d' := by
  unfold writeBlob
  refine Program.meets_ask_bind rfl ?_
  split
  · exact writeOnce_written
  · next hallowed =>
    split
    · split
      · exact Program.meets_fail trivial (.held fun _ => rfl)
      · split
        · exact Program.meets_done trivial (.held fun _ => rfl)
        · exact Program.meets_fail trivial (.held fun _ => rfl)
    · next hmanifest =>
        have hfree : d.files[splitPath tenant digest]? = none := by
          cases hheld : d.files[splitPath tenant digest]? with
          | none => rfl
          | some b => exact absurd (contains_eq_true hheld) hmanifest
        obtain ⟨result, hresult, hspec⟩ := split_spec hsha digest bytes
        rw [hresult]
        cases result with
        | none => exact writeOnce_written
        | some cut =>
            obtain ⟨m, texts⟩ := cut
            refine (writeSplit_meets hsha (hspec m texts rfl).1 hd hfree).mono (fun _ h => h) ?_
            rintro _ d' ⟨-, -, -, hsplits⟩
            have hsplitAllowed : splitAllowed = true := by
              cases splitAllowed with
              | true => rfl
              | false => exact absurd (Bool.or_true _) hallowed
            exact .split m texts hsplitAllowed hresult hfree hsplits

end WriteBlob

/-! ## Deleting -/

/-- The manifest of a blob names a text. -/
def Cites (P : Platform) (files : Files) (tenant digest hex : String) : Prop :=
  ∃ m, files[splitPath tenant digest]? = some m ∧ hex ∈ referenced P (manifestParts P m)

theorem asSplit_eq_some_iff {path : Path} {b : String × String} :
    asSplit path = some b ↔ path = splitPath b.1 b.2 := by
  unfold asSplit splitPath
  split
  · obtain ⟨t, k⟩ := b
    simp
  · next h =>
      constructor
      · intro h'; exact nomatch h'
      · rintro rfl
        exact absurd rfl (h b.1 b.2)

/-- The texts that are still named are those some manifest of the tenant names. -/
theorem mem_namedBy {files : Files} {tenant hex : String} :
    hex ∈ files.keys.flatMap (namedBy P files tenant) ↔ ∃ digest, Cites P files tenant digest hex := by
  simp only [List.mem_flatMap, Std.ExtTreeMap.mem_keys]
  constructor
  · rintro ⟨path, hpath, hhex⟩
    unfold namedBy at hhex
    split at hhex
    · next owner digest m hsplit hm =>
        rw [asSplit_eq_some_iff.mp hsplit] at hm
        split at hhex
        · next howner => exact ⟨digest, m, howner ▸ hm, hhex⟩
        · simp at hhex
    · simp at hhex
  · rintro ⟨digest, m, hm, hhex⟩
    refine ⟨splitPath tenant digest, mem_iff_exists.mpr ⟨m, hm⟩, ?_⟩
    unfold namedBy
    have hsplit : asSplit (splitPath tenant digest) = some (tenant, digest) := rfl
    rw [hsplit, hm]
    simpa using hhex

theorem removeTexts_meets (tenant : String) (hexes : List String) (d : Disk) :
    (hexes.forM fun hex => Program.perform (Disk.remove (textPath tenant hex)) : Io Unit).Meets d
      (fun _ => True) (Program.Returns fun _ d' =>
        ∀ p : Path, d'.files[p]? =
          if ∃ hex ∈ hexes, textPath tenant hex = p then none else d.files[p]?) := by
  induction hexes generalizing d with
  | nil => exact Program.meets_done trivial ⟨(), rfl, by simp⟩
  | cons hex hexes ih =>
      change ((Program.perform (Disk.remove (textPath tenant hex))) >>= fun _ =>
        hexes.forM fun hex => Program.perform (Disk.remove (textPath tenant hex))).Meets d _ _
      refine Program.meets_perform_bind rfl trivial ((ih _).mono (fun _ h => h) ?_)
      rintro _ d' ⟨⟨⟩, rfl, hfiles⟩
      refine ⟨(), rfl, fun p => ?_⟩
      rw [hfiles, table_erase]
      by_cases hp : textPath tenant hex = p
      · simp [hp]
      · simp [hp]

/-- What `delete_blob` leaves: neither form of the blob, and of the texts it named those that
    another manifest of the tenant names too. -/
structure Deleted (P : Platform) (tenant digest : String) (d d' : Disk) : Prop where
  raw : d'.files[blobPath tenant digest]? = none
  manifest : d'.files[splitPath tenant digest]? = none
  texts : ∀ hex, Cites P d.files tenant digest hex →
    (∀ other, other ≠ digest → ¬ Cites P d.files tenant other hex) →
    d'.files[textPath tenant hex]? = none
  other : ∀ p : Path, p ≠ blobPath tenant digest → p ≠ splitPath tenant digest →
    (∀ hex, textPath tenant hex = p → Cites P d.files tenant digest hex →
      ∃ other, other ≠ digest ∧ Cites P d.files tenant other hex) → d'.files[p]? = d.files[p]?

theorem deleteBlob_meets (tenant digest : String) (d : Disk) :
    (deleteBlob P tenant digest).Meets d (fun _ => True) (Program.Returns fun _ d' =>
      Deleted P tenant digest d d') := by
  unfold deleteBlob
  refine Program.meets_perform_bind rfl trivial (Program.meets_ask_bind rfl ?_)
  have hsplit : (d.files.erase (blobPath tenant digest))[splitPath tenant digest]? =
      d.files[splitPath tenant digest]? := by
    rw [table_erase, if_neg (blobPath_ne_splitPath tenant tenant digest digest)]
  simp only [hsplit]
  cases hmanifest : d.files[splitPath tenant digest]? with
  | none =>
      have hnames (hex : String) : ¬ Cites P d.files tenant digest hex := by
        rintro ⟨m, hm, -⟩
        rw [hmanifest] at hm
        cases hm
      refine Program.meets_done trivial ⟨(), rfl, ⟨?_, ?_, fun hex h => absurd h (hnames hex), ?_⟩⟩
      · rw [table_erase, if_pos rfl]
      · rw [hsplit, hmanifest]
      · intro p hraw _ _
        rw [table_erase, if_neg hraw.symm]
  | some m =>
      refine Program.meets_perform_bind rfl trivial (Program.meets_ask_bind rfl ?_)
      refine (removeTexts_meets tenant _ _).mono (fun _ h => h) ?_
      rintro _ d' ⟨⟨⟩, rfl, hfiles⟩
      -- without the manifest, what is still named is what another manifest names
      have hnames (other hex : String) :
          Cites P ((d.files.erase (blobPath tenant digest)).erase (splitPath tenant digest)) tenant
            other hex ↔ other ≠ digest ∧ Cites P d.files tenant other hex := by
        unfold Cites
        rw [table_erase, table_erase, if_neg (blobPath_ne_splitPath tenant tenant digest other)]
        by_cases hother : other = digest
        · simp [hother]
        · have hpath : splitPath tenant digest ≠ splitPath tenant other := by
            simpa [splitPath] using fun h => hother h.symm
          simp [hother, hpath]
      have hlisted (hex : String) : hex ∈ (referenced P (manifestParts P m)).filter (fun hex => hex ∉
          ((d.files.erase (blobPath tenant digest)).erase (splitPath tenant digest)).keys.flatMap
            (namedBy P ((d.files.erase (blobPath tenant digest)).erase (splitPath tenant digest))
              tenant)) ↔ Cites P d.files tenant digest hex ∧
            ∀ other, other ≠ digest → ¬ Cites P d.files tenant other hex := by
        rw [List.mem_filter, decide_eq_true_eq, mem_namedBy]
        simp only [hnames, not_exists, not_and]
        refine and_congr_left fun _ => ⟨fun h => ⟨m, hmanifest, h⟩, ?_⟩
        rintro ⟨m', hm', hhex⟩
        rw [hmanifest] at hm'
        cases hm'
        exact hhex
      have herased (p : Path) (hraw : p ≠ blobPath tenant digest)
          (hsplit : p ≠ splitPath tenant digest) :
          ((d.files.erase (blobPath tenant digest)).erase (splitPath tenant digest))[p]? =
            d.files[p]? := by
        rw [table_erase, table_erase, if_neg hraw.symm, if_neg hsplit.symm]
      refine ⟨(), rfl, ⟨?_, ?_, fun hex hhex hothers => ?_, fun p hraw hsplit hkept => ?_⟩⟩
      · rw [hfiles]
        split
        · rfl
        · rw [table_erase, table_erase, if_pos rfl, ite_self]
      · rw [hfiles]
        split
        · rfl
        · rw [table_erase, if_pos rfl]
      · rw [hfiles, if_pos ⟨hex, (hlisted hex).mpr ⟨hhex, hothers⟩, rfl⟩]
      · rw [hfiles, if_neg, herased p hraw hsplit]
        rintro ⟨hex, hmem, hpath⟩
        obtain ⟨hhex, hothers⟩ := (hlisted hex).mp hmem
        obtain ⟨other, hother, hnamed⟩ := hkept hex hpath hhex
        exact hothers other hother hnamed

/-! ## What a blob reads -/

section Reading

variable {files files' : Files} {tenant : String}

mutual

/-- Parts expand by the texts they name alone. -/
theorem expand_congr {parts : List Json} (h : ∀ hex ∈ referenced P parts,
    files'[textPath tenant hex]? = files[textPath tenant hex]?) :
    expand P files' tenant parts = expand P files tenant parts := by
  match parts with
  | [] => rfl
  | part :: rest =>
      rw [referenced] at h
      rw [expand, expand, expandPart_congr fun hex hhex => h hex (List.mem_append_left _ hhex),
        expand_congr fun hex hhex => h hex (List.mem_append_right _ hhex)]

theorem expandPart_congr {part : Json} (h : ∀ hex ∈ referencedPart P part,
    files'[textPath tenant hex]? = files[textPath tenant hex]?) :
    expandPart P files' tenant part = expandPart P files tenant part := by
  match part with
  | .null | .bool _ | .num _ | .str _ | .arr _ => simp [expandPart]
  | .obj fs =>
      rw [referencedPart] at h
      rw [expandPart, expandPart, expandFields_congr h]

theorem expandFields_congr {fs : List (String × Json)} (h : ∀ hex ∈ referencedFields P fs,
    files'[textPath tenant hex]? = files[textPath tenant hex]?) :
    expandFields P files' tenant fs = expandFields P files tenant fs := by
  match fs with
  | [] => rfl
  | [(name, value)] =>
      rw [referencedFields] at h
      rw [expandFields, expandFields,
        expandNamed_congr fun hex hhex => h hex (List.mem_append_left _ hhex)]
  | _ :: _ :: _ => rfl

theorem expandNamed_congr {name : String} {value : Json} (h : ∀ hex ∈ referencedNamed P name value,
    files'[textPath tenant hex]? = files[textPath tenant hex]?) :
    expandNamed P files' tenant name value = expandNamed P files tenant name value := by
  match value with
  | .null | .bool _ | .num _ | .obj _ => simp [expandNamed]
  | .str reference =>
      rw [expandNamed, expandNamed]
      split
      · next hname =>
          rw [referencedNamed, if_pos hname] at h
          unfold expandText
          cases hhex : textHex P reference with
          | none => rfl
          | some hex => simp only [h hex (by rw [hhex]; simp)]
      · rfl
  | .arr nested =>
      rw [expandNamed, expandNamed]
      split
      · next hname =>
          rw [referencedNamed, if_pos hname] at h
          rw [expand_congr h]
      · rfl

end

theorem expandFile_congr {digest : String} {m : Bytes}
    (h : ∀ hex ∈ referenced P (manifestParts P m),
      files'[textPath tenant hex]? = files[textPath tenant hex]?) :
    expandFile P files' tenant digest m = expandFile P files tenant digest m := by
  unfold expandFile
  cases hread : readJson P m "a split blob that is not JSON" with
  | error e => rfl
  | ok value =>
      simp only [Checks.ok_bind]
      cases value with
      | obj fs =>
          have hvalue := fromSlice_of_readJson hread
          rw [manifestParts, hvalue] at h
          simp only [object, Checks.ok_bind]
          cases hparts : get? fs "parts" with
          | none => rfl
          | some parts =>
              cases parts with
              | arr parts =>
                  simp only [hparts] at h
                  simp only [pure_bind, expand_congr h]
              | _ => rfl
      | _ => rfl

/-- A blob is read from its own two files and the texts its manifest names. -/
theorem readBlob_congr {digest : String}
    (hraw : files'[blobPath tenant digest]? = files[blobPath tenant digest]?)
    (hmanifest : files'[splitPath tenant digest]? = files[splitPath tenant digest]?)
    (htexts : ∀ hex, Cites P files tenant digest hex →
      files'[textPath tenant hex]? = files[textPath tenant hex]?) :
    readBlob P files' tenant digest = readBlob P files tenant digest := by
  unfold readBlob
  rw [hraw, hmanifest]
  cases hm : files[splitPath tenant digest]? with
  | none => rfl
  | some m =>
      simp only
      rw [expandFile_congr fun hex hhex => htexts hex ⟨m, hm, hhex⟩]

end Reading

end Eventlog.Tree
