import Eventlog.File.Journal

/-!
# Eventlog.File.Committed

What a directory looks like when it holds a committed history.

A manifest `Describes` a history when it names its length, its last digest and its size.
The history's bytes are cut into the sealed segments and the active file (`Cut`); `Committed`
says that a directory holds such a cut, and that nothing is pending besides.
-/

namespace Eventlog.File

variable (P : Primitives)

/-! ## Chains -/

/-- Two manifests of one epoch of one store write the same frames. -/
structure SameLineage (m n : Manifest) : Prop where
  format : m.format = n.format
  store : m.store = n.store
  epoch : m.epoch = n.epoch

theorem encode_congr (h : SameLineage m n) (sequence : Nat) (previous : String) (t : Json) :
    encode P m sequence previous t = encode P n sequence previous t := by
  simp [encode, Manifest.frame, h.format, h.store, h.epoch]

theorem encodeChain_congr (h : SameLineage m n) (sequence : Nat) (previous : String)
    (ts : List Json) :
    encodeChain P m sequence previous ts = encodeChain P n sequence previous ts := by
  induction ts generalizing sequence previous with
  | nil => rfl
  | cons t ts ih => simp only [encodeChain, encode_congr P h, ih]

/-- The bytes and the digest of a history. -/
def historyOf (m : Manifest) (ts : List Json) : Bytes × String :=
  encodeChain P m 0 ZERO ts

theorem encodeChain_append (m : Manifest) (sequence : Nat) (previous : String)
    (ts us : List Json) :
    encodeChain P m sequence previous (ts ++ us) =
      let (bytes, digest) := encodeChain P m sequence previous ts
      let (bytes', digest') := encodeChain P m (sequence + ts.length) digest us
      (bytes ++ bytes', digest') := by
  induction ts generalizing sequence previous with
  | nil => simp [encodeChain]
  | cons t ts ih =>
      simp only [List.cons_append, encodeChain, ih, List.length_cons, List.append_assoc]
      rw [Nat.add_assoc, Nat.add_comm 1]

theorem historyOf_append_singleton (m : Manifest) (ts : List Json) (t : Json) :
    historyOf P m (ts ++ [t]) =
      ((historyOf P m ts).1 ++ (encode P m (ts.length + 1) (historyOf P m ts).2 t).1,
        (encode P m (ts.length + 1) (historyOf P m ts).2 t).2) := by
  simp [historyOf, encodeChain_append, encodeChain]

/-- The manifest commits exactly `ts`. -/
structure Describes (m : Manifest) (ts : List Json) : Prop where
  known : m.known
  sequence : m.sequence = ts.length
  length : m.length = (historyOf P m ts).1.length
  digest : m.digest = (historyOf P m ts).2
  sequence_lt : m.sequence < u64Limit
  length_lt : m.length < u64Limit

theorem Describes.decode_iff (h : Describes P m ts) :
    decode P (historyOf P m ts).1 m = .ok ts ↔ ∀ t ∈ ts, Survives P t := by
  have hlen : ¬ (historyOf P m ts).1.length ≠ m.length := by simp [h.length]
  rw [decode, if_neg hlen]
  exact decodeChain_encodeChain_iff P (by rw [h.sequence, Nat.zero_add]) h.digest h.sequence_lt

theorem Describes.decode_eq_ok (h : Describes P m ts) (hts : ∀ t ∈ ts, Survives P t)
    (hbytes : bytes = (historyOf P m ts).1) : decode P bytes m = .ok ts := by
  rw [hbytes]
  exact h.decode_iff.mpr hts

/-! ## Sealed segments -/

/-- A file that ends at a frame boundary. -/
def EndsInLine (bytes : Bytes) : Prop :=
  bytes.getLast? = some Json.lineFeed

/-- The sealed segments of a directory are exactly `parts`. -/
structure SealedAs (v : View) (parts : List Bytes) : Prop where
  content : ∀ i, v.content (.segment i) = parts[i]?
  directory : parts ≠ [] → v.segments = true

theorem SealedAs.read {d : Disk} (h : SealedAs d.view parts) (i : Nat) :
    d.read (.segment i) = parts[i]? :=
  h.content i

theorem readSealedFrom_eq_ok {d : Disk} {parts : List Bytes} (into : Bytes) (index : Nat)
    (hread : ∀ i, (h : i < parts.length) → d.read (.segment (index + i)) = some parts[i])
    (hline : ∀ part ∈ parts, EndsInLine part) :
    ∃ stamps, readSealedFrom d into index (parts.map List.length) =
      .ok (into ++ parts.flatten, stamps) := by
  induction parts generalizing into index with
  | nil => exact ⟨[], by simp [readSealedFrom]⟩
  | cons part parts ih =>
      have hpart := hread 0 (by simp)
      have hend : EndsInLine part := hline part (by simp)
      obtain ⟨stamps, hrest⟩ := ih (into ++ part) (index + 1)
        (fun i hi => by
          have := hread (i + 1) (by simpa using hi)
          rwa [Nat.add_assoc, Nat.add_comm 1 i])
        (fun q hq => hline q (by simp [hq]))
      have htake : part.take (part.length + 1) = part := List.take_of_length_le (by omega)
      have hlast : (into ++ part).getLast? = some Json.lineFeed := by
        rw [List.getLast?_append, hend]; rfl
      refine ⟨d.trusted (.segment index) :: stamps, ?_⟩
      simp only [Nat.add_zero, List.getElem_cons_zero] at hpart
      simp [readSealedFrom, Disk.readFile, hpart, htake, hlast, hrest, bind, Except.bind,
        Except.map]

/-- Reading the sealed segments a manifest lists, whatever else is in the directory. -/
theorem readSealed_eq_ok {d : Disk} {m : Manifest} {parts : List Bytes}
    (hread : ∀ i, (h : i < parts.length) → d.read (.segment i) = some parts[i])
    (hdir : parts ≠ [] → d.segments = true) (hline : ∀ part ∈ parts, EndsInLine part)
    (hm : m.sealed = parts.map List.length) :
    ∃ stamps, readSealed d m = .ok (parts.flatten, stamps) := by
  unfold readSealed
  by_cases hp : parts = []
  · subst hp
    exact ⟨[], by simp [hm]⟩
  · have hne : ¬ m.sealed = [] := by simpa [hm] using hp
    obtain ⟨stamps, hs⟩ := readSealedFrom_eq_ok [] 0
      (fun i hi => by rw [Nat.zero_add, hread i hi]) hline
    refine ⟨stamps, ?_⟩
    rw [if_neg hne, hdir hp, hm, hs]
    simp

theorem SealedAs.readSealed_eq_ok {d : Disk} {m : Manifest} {parts : List Bytes}
    (h : SealedAs d.view parts) (hline : ∀ part ∈ parts, EndsInLine part)
    (hm : m.sealed = parts.map List.length) :
    ∃ stamps, readSealed d m = .ok (parts.flatten, stamps) :=
  File.readSealed_eq_ok (fun i hi => by rw [h.read i, List.getElem?_eq_getElem hi])
    h.directory hline hm

/-- A segment sealed after them does not change how the ones before it are read. -/
theorem SealedAs.readSealed_init {d : Disk} {m : Manifest} {parts : List Bytes} {last : Bytes}
    (h : SealedAs d.view (parts ++ [last])) (hline : ∀ part ∈ parts, EndsInLine part)
    (hm : m.sealed = parts.map List.length) :
    ∃ stamps, readSealed d m = .ok (parts.flatten, stamps) := by
  refine File.readSealed_eq_ok (fun i hi => ?_) (fun _ => h.directory (by simp)) hline hm
  rw [h.read i, List.getElem?_append_left hi, List.getElem?_eq_getElem hi]

theorem SealedAs.not_unexplained {d : Disk} {m : Manifest} {parts : List Bytes}
    (h : SealedAs d.view parts) (hm : m.sealed = parts.map List.length) :
    unexplainedSegments d m = false := by
  unfold unexplainedSegments
  cases m.segments with
  | none => rfl
  | some s =>
      by_cases hd : d.segments
      · simp only [hd, if_true, List.any_eq_false]
        intro p hp
        cases p with
        | segment i =>
            -- a segment that is present is below the number the manifest lists
            have hsome := Disk.mem_paths.mp hp
            rw [h.read i] at hsome
            have hlt : i < parts.length := by simpa using hsome
            simp [Path.unlisted, hm, hlt]
        | _ => simp [Path.unlisted]
      · have hnil : parts = [] := by
          by_contra hne
          exact hd (h.directory hne)
        simp [hd, hm, hnil]

/-! ## Committed histories -/

/-- The bytes of the history `m` describes, cut into sealed `parts` and the `active` rest. -/
structure Cut (m : Manifest) (ts : List Json) (parts : List Bytes) (active : Bytes) : Prop where
  describes : Describes P m ts
  sealed : m.sealed = parts.map List.length
  line : ∀ part ∈ parts, EndsInLine part
  bytes : parts.flatten ++ active = (historyOf P m ts).1

theorem Cut.activeLength (h : Cut P m ts parts active) : m.activeLength = active.length := by
  have hlen := congrArg List.length h.bytes
  rw [List.length_append, List.length_flatten] at hlen
  rw [Manifest.activeLength, h.describes.length, h.sealed]
  omega

/-- What a complete open makes of a cut history that is in place: it decodes it. -/
theorem Cut.readCommitted_eq {d : Disk} (h : Cut P m ts parts active) (hs : SealedAs d.view parts)
    (he : d.read .events = some active) :
    ∃ content : Content, content.bytes = (historyOf P m ts).1 ∧ readCommitted P m d =
      (decode P (historyOf P m ts).1 m).map fun ts => (ts, content) := by
  obtain ⟨stamps, hsealed⟩ := hs.readSealed_eq_ok h.line h.sealed
  have hlen := h.activeLength
  refine ⟨⟨(historyOf P m ts).1, d.trusted .events, stamps⟩, rfl, ?_⟩
  simp only [readCommitted, Disk.readFile, he, hsealed, hs.not_unexplained h.sealed, bind,
    Except.bind, hlen, List.take_length, h.bytes, lt_irrefl, if_false, Bool.false_eq_true]
  cases decode P (historyOf P m ts).1 m <;> rfl

/-- The part of a directory that no recovery touches: it is a File store and its lock
    exists. -/
structure Base (v : View) : Prop where
  foreign : v.content .storeJson = none
  lock : (v.content .lock).isSome

theorem Base.put (h : Base v) {p : Path} (b : Option Bytes) (hf : p ≠ .storeJson)
    (hl : p ≠ .lock) : Base (v.put p b) where
  foreign := by rw [View.put_content_of_ne v b hf.symm]; exact h.foreign
  lock := by rw [View.put_content_of_ne v b hl.symm]; exact h.lock

/-- A directory, seen through its view, that holds the committed history `ts` under `m`
    with nothing pending. -/
structure Committed (v : View) (m : Manifest) (ts : List Json) (parts : List Bytes)
    (active : Bytes) : Prop extends Base v where
  append : v.content .appendIntent = none
  privacy : v.content .privacyIntent = none
  manifest : v.content .manifest = some (toBytes P.toFloatText m)
  cut : Cut P m ts parts active
  sealedAs : SealedAs v parts
  events : v.content .events = some active

theorem SealedAs.put (h : SealedAs v parts) {p : Path} (b : Option Bytes)
    (hp : ∀ i, p ≠ .segment i) : SealedAs (v.put p b) parts := by
  refine ⟨fun i => ?_, h.directory⟩
  rw [View.put_content_of_ne v b (hp i).symm]
  exact h.content i

/-- A replacement that no intent selects is no part of a committed history. -/
theorem Committed.put_privacyNext (h : Committed P v m ts parts active) (b : Option Bytes) :
    Committed P (v.put .privacyNext b) m ts parts active where
  toBase := h.toBase.put b (by simp) (by simp)
  append := by simpa using h.append
  privacy := by simpa using h.privacy
  manifest := by simpa using h.manifest
  cut := h.cut
  sealedAs := h.sealedAs.put b (by simp)
  events := by simpa using h.events

/-- Moving the active file to the next sealed name. -/
theorem SealedAs.seal (h : SealedAs v parts) (hdir : v.segments = true) (active : Bytes) :
    SealedAs (v.put (.segment parts.length) (some active)) (parts ++ [active]) := by
  refine ⟨fun i => ?_, fun _ => hdir⟩
  by_cases hi : i = parts.length
  · subst hi; simp
  · rw [View.put_content_of_ne v _ (by simpa using hi), h.content i]
    by_cases hlt : i < parts.length
    · rw [List.getElem?_append_left hlt]
    · have hge : parts.length + 1 ≤ i := by omega
      rw [List.getElem?_eq_none (by omega), List.getElem?_eq_none (by simpa using hge)]

/-- Moving it back. -/
theorem SealedAs.unseal (h : SealedAs v (parts ++ [active])) :
    SealedAs (v.put (.segment parts.length) none) parts := by
  refine ⟨fun i => ?_, fun _ => h.directory (by simp)⟩
  by_cases hi : i = parts.length
  · subst hi; simp
  · rw [View.put_content_of_ne v _ (by simpa using hi), h.content i]
    by_cases hlt : i < parts.length
    · rw [List.getElem?_append_left hlt]
    · have hge : parts.length + 1 ≤ i := by omega
      rw [List.getElem?_eq_none (by simpa using hge), List.getElem?_eq_none (by omega)]

end Eventlog.File
