import Eventlog.File.Chaining
import Eventlog.File.Resume

/-!
# Eventlog.Contract.FrameChain

What the chain of frames says about the history it carries.

A frame's digest covers its format, store, epoch, sequence, the digest before it and its
transaction, and the decoder takes it again from what it has read.  The last digest therefore
fixes the whole history (`eq_of_historyOf_digest`), whatever the lines that carry it look like
(`digest_of_decodeLines`).

The other direction needs the decoder to read every line it is given.  It does not: a transaction
may nest deeper than the reader goes, and then its frame is written and never read again
(`frameChain_refuses_deep`).
-/

namespace Eventlog.File

open Durable

variable {P : Primitives} {m o : Manifest} {ts us : List Json}

/-! ## Decoded digests -/

/-- An accepted frame has the digest its transaction is written with. -/
theorem frame_of_decodeFrame {sequence : Nat} {previous : String} {line : Bytes} {frame : Frame}
    (h : decodeFrame P m sequence previous line = .ok frame) :
    frame.sequence = sequence + 1 ∧
      frame.digest = (encode P m (sequence + 1) previous frame.transaction).2 := by
  obtain ⟨-, hnext, hprevious⟩ := next_of_decodeFrame h
  refine ⟨hnext, ?_⟩
  unfold decodeFrame at h
  split at h
  · split_ifs at h with hother hhash
    obtain rfl := Except.ok.inj h
    simp only [not_or, ne_eq, not_not] at hother hhash
    rw [← hhash]
    simp only [encode, Frame.hash, Manifest.frame, ← hother.1, ← hother.2.1, ← hother.2.2.1, hnext,
      hprevious]
  · cases h

/-- Whatever lines are accepted, the digest they end in is the one their transactions are
    written with. -/
theorem digest_of_decodeLines {sequence : Nat} {previous : String} {lines : List Bytes}
    {r : Nat × String × List Json} (h : decodeLines P m sequence previous lines = .ok r) :
    r.2.1 = (encodeChain P m sequence previous r.2.2).2 := by
  induction lines generalizing sequence previous r with
  | nil =>
      obtain rfl := Except.ok.inj h
      rfl
  | cons line lines ih =>
      unfold decodeLines at h
      split at h
      · cases h
      · rename_i frame hframe
        obtain ⟨⟨s, p, ts⟩, hrest, rfl⟩ := Checks.map_eq_ok_iff.mp h
        obtain ⟨hnext, hdigest⟩ := frame_of_decodeFrame hframe
        rw [hdigest, hnext] at hrest
        have hlast : p = (encodeChain P m (sequence + 1) _ ts).2 := ih hrest
        exact hlast

/-- Whatever bytes decode under a manifest, the manifest's digest is that of what they decode
    to. -/
theorem digest_of_decode {bytes : Bytes} (h : decode P bytes m = .ok ts) :
    m.digest = (historyOf P m ts).2 :=
  digest_of_decodeLines (decode_eq_ok_iff.mp h).2.2

/-! ## The contract -/

/-- The manifest of a history in the lineage of `m`. -/
def Manifest.heading (P : Primitives) (m : Manifest) (ts : List Json) : Manifest :=
  { m with
    sequence := ts.length, length := (historyOf P m ts).1.length, digest := (historyOf P m ts).2 }

theorem heading_lineage (m : Manifest) (ts : List Json) : SameLineage m (m.heading P ts) :=
  ⟨rfl, rfl, rfl⟩

theorem historyOf_heading (m : Manifest) (ts us : List Json) :
    historyOf P (m.heading P ts) us = historyOf P m us :=
  (encodeChain_congr P (heading_lineage m ts) 0 ZERO us).symm

/-- What a reader of the chain relies on. -/
structure FrameChain (P : Primitives) (m : Manifest) (ts us : List Json) : Prop where
  /-- Decoding the encoding of a history under its manifest returns the history. -/
  decoded : decode P (historyOf P m ts).1 (m.heading P ts) = .ok ts
  /-- Decoding a continuation from the head of the history gives what decoding both gives. -/
  chained :
    (decodeChain P (encodeChain P m ts.length (historyOf P m ts).2 us).1 (m.heading P (ts ++ us))
        ts.length (historyOf P m ts).2).map (ts ++ ·) =
      decode P (historyOf P m (ts ++ us)).1 (m.heading P (ts ++ us))
  /-- Whatever bytes decode under the manifest decode to the history. -/
  sealed : ∀ bytes ts', decode P bytes (m.heading P ts) = .ok ts' → ts' = ts
  /-- The manifest of another history is extended exactly by the histories of its lineage that
      begin with it.  An empty history has no frame that would carry a format. -/
  observed : ∀ (o : Manifest) (os : List Json),
    extendsObserved P (m.heading P ts) ts (o.heading P os) = true ↔
      o.store = m.store ∧ o.epoch = m.epoch ∧ os <+: ts ∧ (os ≠ [] → o.format = m.format)

theorem decode_heading_iff (hlength : ts.length < u64Limit) :
    decode P (historyOf P m ts).1 (m.heading P ts) = .ok ts ↔ ∀ t ∈ ts, Survives P t := by
  have hlen : ¬ (historyOf P m ts).1.length ≠ (m.heading P ts).length := by
    simp [Manifest.heading]
  rw [decode, if_neg hlen, ← historyOf_heading m ts ts]
  exact decodeChain_encodeChain_iff P (by simp [Manifest.heading])
    (congrArg Prod.snd (historyOf_heading m ts ts).symm) hlength

theorem decode_heading_sealed (hsha : Function.Injective P.sha256) {bytes : Bytes}
    {ts' : List Json} (h : decode P bytes (m.heading P ts) = .ok ts') : ts' = ts := by
  have hdigest := digest_of_decode h
  rw [historyOf_heading] at hdigest
  exact (eq_of_historyOf_digest hsha (sequence_of_decode h).symm hdigest.symm).1

theorem extendsObserved_heading_iff (hsha : Function.Injective P.sha256) {os : List Json} :
    extendsObserved P (m.heading P ts) ts (o.heading P os) = true ↔
      o.store = m.store ∧ o.epoch = m.epoch ∧ os <+: ts ∧ (os ≠ [] → o.format = m.format) := by
  unfold extendsObserved
  split_ifs with hother
  · simp only [false_iff]
    rintro ⟨hstore, hepoch, hprefix, -⟩
    rcases hother with h | h | h
    · exact h hstore
    · exact h hepoch
    · exact absurd hprefix.length_le (Nat.not_le.mpr h)
  · simp only [not_or, ne_eq, not_not] at hother
    obtain ⟨hstore, hepoch, hshort⟩ := hother
    replace hshort : os.length ≤ ts.length := Nat.le_of_not_lt hshort
    have hlength : (ts.take os.length).length = os.length := by simp [hshort]
    change ((historyOf P (m.heading P ts) (ts.take os.length)).2 == (historyOf P o os).2) = true ↔ _
    rw [beq_iff_eq, historyOf_heading]
    constructor
    · intro h
      obtain ⟨htake, hformat⟩ := eq_of_historyOf_digest hsha hlength h
      refine ⟨hstore, hepoch, List.prefix_iff_eq_take.mpr htake.symm, fun hne => ?_⟩
      exact (hformat (by rwa [htake])).symm
    · rintro ⟨-, -, hprefix, hformat⟩
      rw [← List.prefix_iff_eq_take.mp hprefix]
      by_cases hne : os = []
      · rw [hne]
        rfl
      · have hsame : SameLineage m o := ⟨(hformat hne).symm, hstore.symm, hepoch.symm⟩
        exact congrArg Prod.snd (encodeChain_congr P hsame 0 ZERO os)

theorem decode_heading_append (hts : ∀ t ∈ ts, Survives P t) (hlength : ts.length < u64Limit) :
    (decodeChain P (encodeChain P m ts.length (historyOf P m ts).2 us).1 (m.heading P (ts ++ us))
        ts.length (historyOf P m ts).2).map (ts ++ ·) =
      decode P (historyOf P m (ts ++ us)).1 (m.heading P (ts ++ us)) := by
  generalize hhead : m.heading P (ts ++ us) = n
  have hsame : SameLineage m n := hhead ▸ heading_lineage m (ts ++ us)
  have happend : (historyOf P m (ts ++ us)).1 =
      (historyOf P m ts).1 ++ (encodeChain P m ts.length (historyOf P m ts).2 us).1 := by
    simp [historyOf, encodeChain_append]
  have hwhole {sequence : Nat} {previous : String} (us : List Json) :
      Whole (encodeChain P m sequence previous us).1 :=
    whole_iff.mpr fun h => h.2 (getLast?_encodeChain P m sequence previous us h.1)
  have hts₀ : Whole (historyOf P m ts).1 := hwhole ts
  have hlen : (historyOf P m (ts ++ us)).1.length = n.length := by rw [← hhead]; rfl
  have hfirst := decodeLines_encodeChain_of_survives P m 0 ZERO hts (by simpa using hlength)
  rw [Nat.zero_add, decodeLines_congr hsame] at hfirst
  rw [decode, if_neg (not_not.mpr hlen), happend, decodeChain, decodeChain,
    if_neg (whole_iff.mp (hwhole us)), if_neg (whole_iff.mp (hts₀.append (hwhole us))),
    hts₀.split, decodeLines_append, historyOf, hfirst]
  simp only
  cases decodeLines P n ts.length (encodeChain P m 0 ZERO ts).2
      (splitInclusive (encodeChain P m ts.length (encodeChain P m 0 ZERO ts).2 us).1) with
  | error e => rfl
  | ok r =>
      simp only [Except.map]
      split_ifs <;> rfl

/-- The manifest of a new single-file store. -/
def newManifest : Manifest :=
  { format := FORMAT, store := "store", epoch := 1, sequence := 0, length := 0, digest := ZERO,
    segments := none }

/-! ## Deep transactions -/

/-- A document of arrays, one inside the other. -/
def nestedArrays : Nat → Json
  | 0 => .null
  | n + 1 => .arr [nestedArrays n]

theorem depth_nestedArrays (n : Nat) : (nestedArrays n).depth = n := by
  induction n with
  | zero => rfl
  | succ n ih => simp [nestedArrays, Json.depth, Json.depthItems, ih]

theorem floatFree_nestedArrays (n : Nat) : (nestedArrays n).FloatFree := by
  induction n with
  | zero => simp [nestedArrays, Json.FloatFree]
  | succ n ih => simp [nestedArrays, Json.FloatFree, Json.FloatFreeItems, ih]

/-- A history of one transaction that nests too deep is refused. -/
theorem decode_heading_deep {t : Json} (hdeep : Json.maxDepth ≤ t.depth) :
    decode P (historyOf P m [t]).1 (m.heading P [t]) = .error corrupt := by
  have hread : Frame.reread P.toFloatText t = none := if_neg (Nat.not_lt.mpr hdeep)
  have hframe : decodeFrame P m 0 ZERO (encode P m 1 ZERO t).1 = .error corrupt := by
    rw [decodeFrame_encode P m ZERO t (by decide), hread]
  have hline : splitInclusive (historyOf P m [t]).1 = [(encode P m 1 ZERO t).1] :=
    splitInclusive_encode P m 1 ZERO t []
  have hlen : ¬ (historyOf P m [t]).1.length ≠ (m.heading P [t]).length := by
    simp [Manifest.heading]
  have hlast : ¬ ((historyOf P m [t]).1 ≠ [] ∧ (historyOf P m [t]).1.getLast? ≠ some Json.lineFeed) :=
    fun h => h.2 (getLast?_encodeChain P m 0 ZERO [t] h.1)
  rw [decode, if_neg hlen, decodeChain, if_neg hlast,
    ← decodeLines_congr (heading_lineage m [t]), hline, decodeLines, hframe]

end Eventlog.File
