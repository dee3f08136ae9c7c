import Eventlog.Core.Types

/-!
# Eventlog.File.Frame

The frames of a File journal and the manifest that commits them.

A transaction is written as one line: a frame that names the store, the epoch, its own
sequence number and the digest of the frame before it, and carries its own digest.
`encode` writes a line, `decodeChain` reads lines back and checks the chain.

The digest is taken of the frame as it was handed in; the check recomputes it from the
frame as it was parsed.  The two agree exactly when the transaction survives its text:
`decodeChain_encodeChain_iff`.
-/

namespace Eventlog.File

/-! ## The manifest -/

/-- The single-file layout. -/
def FORMAT : String := "eventlog-file/1"

/-- The segmented layout. -/
def SEGMENTED_FORMAT : String := "eventlog-file/2"

/-- The digest before the first frame. -/
def ZERO : String := "0000000000000000000000000000000000000000000000000000000000000000"

/-- The manifest's segment record: the committed length of every sealed segment. -/
structure Segments where
  sealAt : Nat
  sealed : List Nat
  deriving DecidableEq

/-- The commit point of a journal. -/
structure Manifest where
  format : String
  store : String
  epoch : Nat
  sequence : Nat
  length : Nat
  digest : String
  segments : Option Segments
  deriving DecidableEq

namespace Manifest

/-- `Manifest::sealed`. -/
def sealed (m : Manifest) : List Nat :=
  match m.segments with
  | some s => s.sealed
  | none => []

/-- `Manifest::known`: a layout this release reads, named consistently. -/
def known (m : Manifest) : Bool :=
  match m.segments with
  | none => m.format == FORMAT
  | some s =>
      m.format == SEGMENTED_FORMAT && decide (1 ≤ s.sealAt) && s.sealed.all (0 < ·) &&
        decide (s.sealed.sum < u64Limit) && decide (s.sealed.sum ≤ m.length)

/-- `Manifest::active_length`: the committed length of `events.jsonl`. -/
def activeLength (m : Manifest) : Nat :=
  m.length - m.sealed.sum

/-- `Manifest::seal_at`. -/
def sealAt (m : Manifest) : Option Nat :=
  m.segments.map Segments.sealAt

end Manifest

theorem sealed_sum_le {o : Manifest} (h : o.known) : o.sealed.sum ≤ o.length := by
  unfold Manifest.known at h
  unfold Manifest.sealed
  cases hs : o.segments with
  | none => simp
  | some s =>
      simp only [hs, Bool.and_eq_true, decide_eq_true_eq] at h
      exact h.2

/-! ## JSON forms -/

def Segments.toJson (s : Segments) : Json :=
  .obj [("seal_at", toValue s.sealAt), ("sealed", toValue s.sealed)]

def Segments.ofJson (j : Json) : Option Segments := do
  let fs ← Json.members ["seal_at", "sealed"] j
  let sealAt ← Json.member "seal_at" fs
  let sealed ← Json.member "sealed" fs
  return { sealAt, sealed }

instance : Serde Segments := ⟨Segments.toJson, Segments.ofJson⟩

instance : LawfulSerde Segments := ⟨fun s => by
  change Segments.ofJson s.toJson = some s
  simp [Segments.toJson, Segments.ofJson, Json.members, Json.member, List.lookup]⟩

instance : NeverNull Segments := ⟨fun _ => Json.noConfusion⟩

instance : Floatless Segments := ⟨fun F s => by
  simp [toValue, Segments.toJson, Json.Stable, Json.StableFields, Json.Number.Stable,
    Json.stableItems_iff]⟩

/-- The segment record is left out of a single-file manifest. -/
def Manifest.toJson (m : Manifest) : Json :=
  .obj ([("format", toValue m.format), ("store", toValue m.store), ("epoch", toValue m.epoch),
    ("sequence", toValue m.sequence), ("length", toValue m.length),
    ("digest", toValue m.digest)] ++
    match m.segments with
    | some s => [("segments", toValue s)]
    | none => [])

def Manifest.ofJson (j : Json) : Option Manifest := do
  let fs ← Json.members
    ["format", "store", "epoch", "sequence", "length", "digest", "segments"] j
  let format ← Json.member "format" fs
  let store ← Json.member "store" fs
  let epoch ← Json.member "epoch" fs
  let sequence ← Json.member "sequence" fs
  let length ← Json.member "length" fs
  let digest ← Json.member "digest" fs
  let segments ← Json.memberOr "segments" none fs
  return { format, store, epoch, sequence, length, digest, segments }

instance : Serde Manifest := ⟨Manifest.toJson, Manifest.ofJson⟩

instance : LawfulSerde Manifest := ⟨by
  rintro ⟨format, store, epoch, sequence, length, digest, segments⟩
  change Manifest.ofJson (Manifest.toJson _) = some _
  cases segments with
  | none =>
      simp [Manifest.toJson, Manifest.ofJson, Json.members, Json.member, Json.memberOr,
        List.lookup]
  | some s =>
      have hread : (fromValue (toValue s) : Option (Option Segments)) = some (some s) :=
        LawfulSerde.fromValue_toValue (some s)
      simp [Manifest.toJson, Manifest.ofJson, Json.members, Json.member, Json.memberOr,
        List.lookup, hread]⟩

instance : Floatless Manifest := ⟨fun F m => by
  cases hs : m.segments with
  | none =>
      simp [toValue, Manifest.toJson, Json.Stable, Json.StableFields, Json.Number.Stable, hs]
  | some s =>
      have hstable := Floatless.stable_toValue F s
      simp only [toValue] at hstable
      simp [toValue, Manifest.toJson, Json.Stable, Json.StableFields, Json.Number.Stable, hs,
        hstable]⟩

theorem depth_manifest_le (m : Manifest) : (toValue m).depth ≤ 3 := by
  cases hs : m.segments with
  | none => simp [toValue, Manifest.toJson, Json.depth, Json.depthFields, hs]
  | some s =>
      have hsealed : Json.depthItems (s.sealed.map toValue) ≤ 0 := by
        rw [Json.depthItems_le_iff]
        simp [toValue, Json.depth]
      simp only [toValue] at hsealed
      simp [toValue, Manifest.toJson, Segments.toJson, Json.depth, Json.depthFields, hs,
        Nat.le_zero.mp hsealed]

instance : Readable Manifest :=
  ⟨fun m => Nat.le_trans (depth_manifest_le m) (by decide)⟩

/-- One line of a journal. -/
structure Frame where
  format : String
  store : String
  epoch : Nat
  sequence : Nat
  previous : String
  transaction : Json
  digest : String
  deriving DecidableEq

def Frame.toJson (f : Frame) : Json :=
  .obj [("format", toValue f.format), ("store", toValue f.store), ("epoch", toValue f.epoch),
    ("sequence", toValue f.sequence), ("previous", toValue f.previous),
    ("transaction", f.transaction), ("digest", toValue f.digest)]

def Frame.ofJson (j : Json) : Option Frame := do
  let fs ← Json.members
    ["format", "store", "epoch", "sequence", "previous", "transaction", "digest"] j
  let format ← Json.member "format" fs
  let store ← Json.member "store" fs
  let epoch ← Json.member "epoch" fs
  let sequence ← Json.member "sequence" fs
  let previous ← Json.member "previous" fs
  let transaction ← Json.member "transaction" fs
  let digest ← Json.member "digest" fs
  return { format, store, epoch, sequence, previous, transaction, digest }

instance : Serde Frame := ⟨Frame.toJson, Frame.ofJson⟩

instance : LawfulSerde Frame := ⟨fun f => by
  have htransaction : (fromValue f.transaction : Option Json) = some f.transaction := rfl
  change Frame.ofJson f.toJson = some f
  simp [Frame.toJson, Frame.ofJson, Json.members, Json.member, List.lookup, htransaction]⟩

/-! ## Encoding and decoding -/

variable (P : Primitives)

/-- `corrupt`. -/
def corrupt : EventLogError :=
  .Backend "file journal integrity check failed; no history was repaired"

/-- The frame that carries a transaction, before it is given its digest. -/
def Manifest.frame (m : Manifest) (sequence : Nat) (previous : String) (transaction : Json) :
    Frame where
  format := m.format
  store := m.store
  epoch := m.epoch
  sequence := sequence
  previous := previous
  transaction := transaction
  digest := ""

@[simp] theorem Manifest.frame_transaction (m : Manifest) (sequence : Nat) (previous : String)
    (t : Json) : (m.frame sequence previous t).transaction = t := rfl

/-- The digest of a frame: of its bytes with the digest left empty. -/
def Frame.hash (f : Frame) : String :=
  P.sha256 (toBytes P.toFloatText { f with digest := "" })

/-- `encode`: the line of a transaction and its digest. -/
def encode (m : Manifest) (sequence : Nat) (previous : String) (transaction : Json) :
    Bytes × String :=
  let frame := m.frame sequence previous transaction
  let digest := frame.hash P
  (toBytes P.toFloatText { frame with digest } ++ [Json.lineFeed], digest)

/-- `split_inclusive` at line feeds. -/
def splitInclusive : Bytes → List Bytes
  | [] => []
  | b :: bs =>
      if b = Json.lineFeed then [b] :: splitInclusive bs
      else
        match splitInclusive bs with
        | [] => [[b]]
        | l :: ls => (b :: l) :: ls

/-- One turn of the loop in `decode_chain`: a line must hold the frame that comes next. -/
def decodeFrame (m : Manifest) (sequence : Nat) (previous : String) (line : Bytes) :
    Except EventLogError Frame :=
  match (fromBytes P.toFloatText line : Option Frame), checkedAdd sequence 1 with
  | some frame, some sequence =>
      if frame.format ≠ m.format ∨ frame.store ≠ m.store ∨ frame.epoch ≠ m.epoch ∨
          frame.sequence ≠ sequence ∨ frame.previous ≠ previous then
        .error corrupt
      else if frame.hash P ≠ frame.digest then .error corrupt
      else .ok frame
  | _, _ => .error corrupt

/-- The loop of `decode_chain`: the sequence and digest reached, and the transactions. -/
def decodeLines (m : Manifest) : Nat → String → List Bytes →
    Except EventLogError (Nat × String × List Json)
  | sequence, previous, [] => .ok (sequence, previous, [])
  | sequence, previous, line :: lines =>
      match decodeFrame P m sequence previous line with
      | .error e => .error e
      | .ok frame =>
          (decodeLines m frame.sequence frame.digest lines).map fun (sequence, previous, ts) =>
            (sequence, previous, frame.transaction :: ts)

/-- `decode_chain`. -/
def decodeChain (bytes : Bytes) (m : Manifest) (sequence : Nat) (previous : String) :
    Except EventLogError (List Json) :=
  if bytes ≠ [] ∧ bytes.getLast? ≠ some Json.lineFeed then .error corrupt
  else
    match decodeLines P m sequence previous (splitInclusive bytes) with
    | .error e => .error e
    | .ok (sequence, previous, ts) =>
        if sequence ≠ m.sequence ∨ previous ≠ m.digest then .error corrupt else .ok ts

/-- `decode`. -/
def decode (bytes : Bytes) (m : Manifest) : Except EventLogError (List Json) :=
  if bytes.length ≠ m.length then .error corrupt
  else decodeChain P bytes m 0 ZERO

/-- The lines of several transactions, one after another, and the last digest. -/
def encodeChain (m : Manifest) : Nat → String → List Json → Bytes × String
  | _, previous, [] => ([], previous)
  | sequence, previous, t :: ts =>
      let (line, digest) := encode P m (sequence + 1) previous t
      let (lines, last) := encodeChain m (sequence + 1) digest ts
      (line ++ lines, last)

/-! ## Cutting lines -/

theorem splitInclusive_line {line rest : Bytes} (h : Json.lineFeed ∉ line) :
    splitInclusive (line ++ Json.lineFeed :: rest) =
      (line ++ [Json.lineFeed]) :: splitInclusive rest := by
  induction line with
  | nil => simp [splitInclusive]
  | cons b bs ih =>
      simp only [List.mem_cons, not_or] at h
      have hb : b ≠ Json.lineFeed := fun heq => h.1 heq.symm
      simp [splitInclusive, hb, ih h.2]

theorem lineFeed_notMem_toBytes [Serde α] (F : Json.FloatText) (a : α) :
    Json.lineFeed ∉ toBytes F a :=
  Json.lineFeed_notMem_toVec F _

theorem splitInclusive_encode (m : Manifest) (sequence : Nat) (previous : String) (t : Json)
    (rest : Bytes) :
    splitInclusive ((encode P m sequence previous t).1 ++ rest) =
      (encode P m sequence previous t).1 :: splitInclusive rest := by
  simp only [encode, List.append_assoc, List.singleton_append]
  exact splitInclusive_line (lineFeed_notMem_toBytes _ _)

theorem encode_ne_nil (m : Manifest) (sequence : Nat) (previous : String) (t : Json) :
    (encode P m sequence previous t).1 ≠ [] := by
  simp [encode]

theorem getLast?_encodeChain (m : Manifest) (sequence : Nat) (previous : String)
    (ts : List Json) (h : (encodeChain P m sequence previous ts).1 ≠ []) :
    (encodeChain P m sequence previous ts).1.getLast? = some Json.lineFeed := by
  induction ts generalizing sequence previous with
  | nil => simp [encodeChain] at h
  | cons t ts ih =>
      simp only [encodeChain]
      cases hrest : (encodeChain P m (sequence + 1) (encode P m (sequence + 1) previous t).2 ts).1 with
      | nil => simp [encode]
      | cons b bs =>
          rw [List.getLast?_append, ← hrest, ih _ _ (by simp [hrest])]
          rfl

/-! ## Reading frames back -/

/-- What a transaction reads as after it was printed in a frame, which is one more level of
    nesting around it. -/
def Frame.reread (F : Json.FloatText) (t : Json) : Option Json :=
  if t.depth < Json.maxDepth then Json.refloat F t else none

theorem depth_frame (f : Frame) : (toValue f).depth = f.transaction.depth + 1 := by
  simp [toValue, Frame.toJson, Json.depth, Json.depthFields]

/-- A frame reads back with its transaction reread and everything else as it was. -/
theorem fromBytes_frame_line (F : Json.FloatText) (f : Frame) :
    (fromBytes F (toBytes F f ++ [Json.lineFeed]) : Option Frame) =
      (Frame.reread F f.transaction).map fun t => { f with transaction := t } := by
  have hread : Json.reread F (toValue f) =
      (Frame.reread F f.transaction).map fun t => toValue { f with transaction := t } := by
    rw [Json.reread, Frame.reread, depth_frame]
    by_cases hdepth : f.transaction.depth < Json.maxDepth
    · rw [if_pos hdepth, if_pos (by omega)]
      cases ht : Json.refloat F f.transaction <;>
        simp [toValue, Frame.toJson, Json.refloat, Json.refloatFields, Json.Number.reread, ht]
    · rw [if_neg hdepth, if_neg (by omega)]
      rfl
  rw [fromBytes, toBytes, Json.fromSlice_toVec_line, hread]
  cases Frame.reread F f.transaction with
  | none => rfl
  | some t => simp

/-- A transaction that survives its text: each number reads as what it was written for, and the
    frame around the transaction nests no deeper than the reader goes. -/
def Survives (t : Json) : Prop :=
  Json.Stable P.toFloatText t ∧ t.depth < Json.maxDepth

theorem reread_eq_some_iff_survives {t : Json} :
    Frame.reread P.toFloatText t = some t ↔ Survives P t := by
  rw [Survives, ← Json.refloat_eq_some_iff, Frame.reread]
  split <;> simp [*]

/-- A transaction with one number in it, `950.5250979473323`. -/
def writtenTransaction : Json :=
  .arr [.obj [("body", .obj [("amount", .num (.float Json.written))])]]

theorem not_survives_writtenTransaction : ¬ Survives samplePrimitives writtenTransaction := by
  have hread : samplePrimitives.parse (samplePrimitives.print Json.written) = some Json.successor :=
    Json.readDecimal_written.1
  have hne : Json.successor ≠ Json.written := by decide
  simp [Survives, writtenTransaction, Json.Stable, Json.StableItems, Json.StableFields,
    Json.Number.Stable, hread, hne]

variable {sequence : Nat}

/-- Every line of a surviving chain carries one of its transactions. -/
theorem transaction_mem_of_line {m : Manifest} {ts : List Json} {line : Bytes} {f : Frame}
    (hts : ∀ t ∈ ts, Survives P t)
    (hline : line ∈ splitInclusive (encodeChain P m sequence previous ts).1)
    (hf : fromBytes P.toFloatText line = some f) : f.transaction ∈ ts := by
  induction ts generalizing sequence previous with
  | nil => simp [encodeChain, splitInclusive] at hline
  | cons t ts ih =>
      simp only [encodeChain, splitInclusive_encode, List.mem_cons] at hline
      rcases hline with rfl | hrest
      · have hread := (reread_eq_some_iff_survives P).mpr (hts t (by simp))
        rw [encode, fromBytes_frame_line, Manifest.frame_transaction, hread] at hf
        cases hf
        simp
      · exact List.mem_cons_of_mem t (ih (fun u hu => hts u (by simp [hu])) hrest)

/-- What the loop makes of a line `encode` wrote: the frame is accepted if the digest of
    its reread form is the digest it was written with. -/
theorem decodeFrame_encode (m : Manifest) (previous : String) (t : Json)
    (hseq : sequence + 1 < u64Limit) :
    decodeFrame P m sequence previous (encode P m (sequence + 1) previous t).1 =
      match Frame.reread P.toFloatText t with
      | none => .error corrupt
      | some t' =>
          if (m.frame (sequence + 1) previous t').hash P = (m.frame (sequence + 1) previous t).hash P
          then .ok { m.frame (sequence + 1) previous t' with
            digest := (encode P m (sequence + 1) previous t).2 }
          else .error corrupt := by
  simp only [decodeFrame, encode, fromBytes_frame_line, checkedAdd, if_pos hseq,
    Manifest.frame_transaction]
  cases Frame.reread P.toFloatText t with
  | none => rfl
  | some t' =>
      simp only [Option.map_some, Manifest.frame, ne_eq, not_true_eq_false, or_self, if_false]
      rw [ite_not]
      rfl

theorem decodeFrame_encode_of_survives (m : Manifest) (previous : String) {t : Json}
    (ht : Survives P t) (hseq : sequence + 1 < u64Limit) :
    decodeFrame P m sequence previous (encode P m (sequence + 1) previous t).1 =
      .ok { m.frame (sequence + 1) previous t with
        digest := (encode P m (sequence + 1) previous t).2 } := by
  rw [decodeFrame_encode P m previous t hseq, (reread_eq_some_iff_survives P).mpr ht]
  simp

/-- An accepted line carries the reread transaction, and chains as it was written. -/
theorem decodeFrame_encode_eq_ok {m : Manifest} {previous : String} {t : Json} {f : Frame}
    (hseq : sequence + 1 < u64Limit)
    (h : decodeFrame P m sequence previous (encode P m (sequence + 1) previous t).1 = .ok f) :
    Frame.reread P.toFloatText t = some f.transaction ∧ f.sequence = sequence + 1 ∧
      f.digest = (encode P m (sequence + 1) previous t).2 := by
  rw [decodeFrame_encode P m previous t hseq] at h
  cases ht : Frame.reread P.toFloatText t with
  | none => simp [ht] at h
  | some t' =>
      simp only [ht] at h
      split_ifs at h
      cases h
      exact ⟨rfl, rfl, rfl⟩

/-- The loop on lines that survive: it ends at the last digest with every transaction. -/
theorem decodeLines_encodeChain_of_survives (m : Manifest) (sequence : Nat) (previous : String)
    {ts : List Json} (hts : ∀ t ∈ ts, Survives P t) (hseq : sequence + ts.length < u64Limit) :
    decodeLines P m sequence previous (splitInclusive (encodeChain P m sequence previous ts).1) =
      .ok (sequence + ts.length, (encodeChain P m sequence previous ts).2, ts) := by
  induction ts generalizing sequence previous with
  | nil => rfl
  | cons t ts ih =>
      rw [List.length_cons] at hseq
      have hhead := decodeFrame_encode_of_survives P m previous (hts t (by simp))
        (show sequence + 1 < u64Limit by omega)
      have htail := ih (sequence + 1) (encode P m (sequence + 1) previous t).2
        (fun u hu => hts u (by simp [hu])) (by omega)
      simp only [encodeChain, splitInclusive_encode, decodeLines, hhead, Manifest.frame, htail]
      simp [Except.map, Nat.add_assoc, Nat.add_comm 1]

/-- Conversely a loop that returns the transactions as they were written has met only
    surviving ones. -/
theorem survives_of_decodeLines_encodeChain {m : Manifest} {ts : List Json}
    (hseq : sequence + ts.length < u64Limit)
    (h : decodeLines P m sequence previous (splitInclusive (encodeChain P m sequence previous ts).1)
      = .ok (n, d, ts)) : ∀ t ∈ ts, Survives P t := by
  induction ts generalizing sequence previous n d with
  | nil => simp
  | cons t ts ih =>
      rw [List.length_cons] at hseq
      simp only [encodeChain, splitInclusive_encode, decodeLines] at h
      cases hf : decodeFrame P m sequence previous (encode P m (sequence + 1) previous t).1 with
      | error e => simp [hf] at h
      | ok f =>
          obtain ⟨ht, hs, hd⟩ := decodeFrame_encode_eq_ok P (by omega) hf
          simp only [hf, hs, hd] at h
          cases hl : decodeLines P m (sequence + 1) (encode P m (sequence + 1) previous t).2
              (splitInclusive (encodeChain P m (sequence + 1)
                (encode P m (sequence + 1) previous t).2 ts).1) with
          | error e => simp [hl, Except.map] at h
          | ok r =>
              obtain ⟨n', d', us⟩ := r
              simp only [hl, Except.map, Except.ok.injEq, Prod.mk.injEq, List.cons.injEq] at h
              obtain ⟨-, -, hhead, rfl⟩ := h
              rw [hhead] at ht
              have htail := ih (show sequence + 1 + us.length < u64Limit by omega) hl
              exact List.forall_mem_cons.mpr ⟨(reread_eq_some_iff_survives P).mp ht, htail⟩

/-- **Frames are read back exactly when they survive.**  Under a manifest that names the
    last sequence number and digest, decoding the lines of `ts` returns `ts` if and only
    if every transaction survives its text. -/
theorem decodeChain_encodeChain_iff {m : Manifest} {ts : List Json}
    (hsequence : m.sequence = sequence + ts.length)
    (hdigest : m.digest = (encodeChain P m sequence previous ts).2)
    (hseq : m.sequence < u64Limit) :
    decodeChain P (encodeChain P m sequence previous ts).1 m sequence previous = .ok ts ↔
      ∀ t ∈ ts, Survives P t := by
  rw [hsequence] at hseq
  have hlast : ¬ ((encodeChain P m sequence previous ts).1 ≠ [] ∧
      (encodeChain P m sequence previous ts).1.getLast? ≠ some Json.lineFeed) :=
    fun h => h.2 (getLast?_encodeChain P m sequence previous ts h.1)
  simp only [decodeChain, if_neg hlast]
  constructor
  · intro h
    cases hl : decodeLines P m sequence previous
        (splitInclusive (encodeChain P m sequence previous ts).1) with
    | error e => simp [hl] at h
    | ok r =>
        obtain ⟨n, d, us⟩ := r
        simp only [hl] at h
        split_ifs at h
        cases h
        exact survives_of_decodeLines_encodeChain P hseq hl
  · intro h
    rw [decodeLines_encodeChain_of_survives P m sequence previous h hseq]
    simp [hsequence, hdigest]

/-! ## Nothing else is read back

A frame whose transaction does not survive is refused, unless what it reads back as has the
same digest.
-/

/-- Whatever decodes is what was written: no two texts share a digest, or every
    transaction survives. -/
def Genuine (ts : List Json) : Prop :=
  Function.Injective P.sha256 ∨ ∀ t ∈ ts, Survives P t

theorem transaction_eq_of_hash_eq (hsha : Function.Injective P.sha256) {m : Manifest} {t t' : Json}
    (h : (m.frame sequence previous t').hash P = (m.frame sequence previous t).hash P) :
    t' = t := by
  have hvalue := Json.toVec_injective P.toFloatText (hsha h)
  simpa [toValue, Frame.toJson, Manifest.frame] using hvalue

theorem survives_of_decodeFrame (hsha : Function.Injective P.sha256) {m : Manifest} {t : Json}
    {f : Frame} (hseq : sequence + 1 < u64Limit)
    (h : decodeFrame P m sequence previous (encode P m (sequence + 1) previous t).1 = .ok f) :
    Survives P t := by
  rw [← reread_eq_some_iff_survives]
  rw [decodeFrame_encode P m previous t hseq] at h
  cases ht : Frame.reread P.toFloatText t with
  | none => simp [ht] at h
  | some t' =>
      simp only [ht] at h
      split_ifs at h with hhash
      rw [transaction_eq_of_hash_eq P hsha hhash]

theorem survives_of_decodeLines (hsha : Function.Injective P.sha256) {m : Manifest}
    {ts : List Json} {r : Nat × String × List Json} (hseq : sequence + ts.length < u64Limit)
    (h : decodeLines P m sequence previous (splitInclusive (encodeChain P m sequence previous ts).1)
      = .ok r) : ∀ t ∈ ts, Survives P t := by
  induction ts generalizing sequence previous r with
  | nil => simp
  | cons t ts ih =>
      rw [List.length_cons] at hseq
      simp only [encodeChain, splitInclusive_encode, decodeLines] at h
      cases hf : decodeFrame P m sequence previous (encode P m (sequence + 1) previous t).1 with
      | error e => simp [hf] at h
      | ok f =>
          obtain ⟨-, hs, hd⟩ := decodeFrame_encode_eq_ok P (by omega) hf
          have hhead := survives_of_decodeFrame P hsha (by omega) hf
          simp only [hf, hs, hd] at h
          cases hl : decodeLines P m (sequence + 1) (encode P m (sequence + 1) previous t).2
              (splitInclusive (encodeChain P m (sequence + 1)
                (encode P m (sequence + 1) previous t).2 ts).1) with
          | error e => simp [hl, Except.map] at h
          | ok r' => exact List.forall_mem_cons.mpr ⟨hhead, ih (by omega) hl⟩

/-- **What decodes is genuine.** -/
theorem Genuine.decodeChain_eq {m : Manifest} {ts us : List Json} (hts : Genuine P ts)
    (hsequence : m.sequence = sequence + ts.length)
    (hdigest : m.digest = (encodeChain P m sequence previous ts).2)
    (hseq : m.sequence < u64Limit)
    (h : decodeChain P (encodeChain P m sequence previous ts).1 m sequence previous = .ok us) :
    us = ts ∧ ∀ t ∈ ts, Survives P t := by
  have hsurvive : ∀ t ∈ ts, Survives P t := by
    rcases hts with hsha | hts
    · simp only [decodeChain] at h
      split at h
      · contradiction
      cases hl : decodeLines P m sequence previous
          (splitInclusive (encodeChain P m sequence previous ts).1) with
      | error e => simp [hl] at h
      | ok r => exact survives_of_decodeLines P hsha (by omega) hl
    · exact hts
  rw [(decodeChain_encodeChain_iff P hsequence hdigest hseq).mpr hsurvive] at h
  cases h
  exact ⟨rfl, hsurvive⟩

end Eventlog.File
