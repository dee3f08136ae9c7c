import Eventlog.File.Opening

/-!
# Eventlog.File.Appending

One append onto a committed history, and the states an interruption of it can leave.

`Appending` packages the history before, the transaction and what the append plans to
write.  The states before the manifest is published are `Unpublished`, those after it
`Published`.
-/

namespace Eventlog.File

open Durable Program

/-! ## The plan -/

/-- An append of `t` onto the history `ts` that `m` commits. -/
structure Appending (P : Primitives) where
  m : Manifest
  ts : List Json
  parts : List Bytes
  active : Bytes
  t : Json
  plan : Planned
  frame : String
  cut : Cut P m ts parts active
  planned : m.plan P t = .ok plan
  framed : stringFromUtf8 plan.line = .ok frame

section Lines

variable (P : Primitives)

/-- A line is text, and the text gives the line back. -/
theorem stringFromUtf8_encode (m : Manifest) (sequence : Nat) (previous : String) (t : Json) :
    ∃ frame, stringFromUtf8 (encode P m sequence previous t).1 = .ok frame := by
  have htext : ∃ cs, (encode P m sequence previous t).1 = Json.utf8 cs :=
    ⟨_ ++ ['\n'], (Json.utf8_append _ ['\n']).symm⟩
  obtain ⟨cs, hcs⟩ := htext
  exact ⟨String.ofList cs, by simp [stringFromUtf8, hcs, Json.fromUtf8_utf8]⟩

theorem asBytes_of_stringFromUtf8 {cs : List Char} {frame : String}
    (h : stringFromUtf8 (Json.utf8 cs) = .ok frame) : asBytes frame = Json.utf8 cs := by
  simp only [stringFromUtf8, Json.fromUtf8_utf8, Except.ok.injEq] at h
  rw [asBytes, ← h, String.toList_ofList]

theorem plan_eq_ok_iff {m : Manifest} {t : Json} {plan : Planned} :
    m.plan P t = .ok plan ↔
      m.sequence + 1 < u64Limit ∧
      m.length + (encode P m (m.sequence + 1) m.digest t).1.length < u64Limit ∧
      plan = {
        line := (encode P m (m.sequence + 1) m.digest t).1
        next := { m with
          sequence := m.sequence + 1
          length := m.length + (encode P m (m.sequence + 1) m.digest t).1.length
          digest := (encode P m (m.sequence + 1) m.digest t).2
          segments := m.segments.map fun s =>
            if m.seals then { s with sealed := s.sealed ++ [m.activeLength] } else s }
        seals := m.seals } := by
  unfold Manifest.plan checkedAdd
  by_cases hseq : m.sequence + 1 < u64Limit
  · by_cases hlen : m.length + (encode P m (m.sequence + 1) m.digest t).1.length < u64Limit
    · simp only [hseq, hlen, if_true, true_and]
      exact ⟨fun h => (Except.ok.inj h).symm, fun h => by rw [h]⟩
    · simp [hseq, hlen]
  · simp [hseq]

variable {P} in
theorem plan_next_known {m : Manifest} {t : Json} {plan : Planned} (hknown : m.known)
    (h : m.plan P t = .ok plan) : plan.next.known := by
  obtain ⟨-, hlength, rfl⟩ := (plan_eq_ok_iff P).mp h
  have hsum := sealed_sum_le hknown
  unfold Manifest.known at hknown ⊢
  cases hs : m.segments with
  | none => simpa [hs] using hknown
  | some s =>
      have hsealed : m.sealed = s.sealed := by simp [Manifest.sealed, hs]
      rw [hsealed] at hsum
      simp only [hs, Bool.and_eq_true, List.all_eq_true, decide_eq_true_eq] at hknown
      simp only [Option.map_some, Bool.and_eq_true, List.all_eq_true, decide_eq_true_eq]
      split
      · rename_i hseals
        have hpos : 0 < m.activeLength := by
          simp only [Manifest.seals, Manifest.sealAt, hs, Option.map_some, Bool.and_eq_true,
            decide_eq_true_eq] at hseals
          exact hseals.1
        have hactive : m.activeLength = m.length - s.sealed.sum := by
          rw [Manifest.activeLength, hsealed]
        refine ⟨⟨⟨hknown.1.1.1, fun n hn => ?_⟩, ?_⟩, ?_⟩
        · rcases List.mem_append.mp hn with hold | hnew
          · exact hknown.1.1.2 n hold
          · rw [List.mem_singleton.mp hnew]
            exact hpos
        · simp only [List.sum_append, List.sum_singleton]
          omega
        · simp only [List.sum_append, List.sum_singleton]
          omega
      · exact ⟨⟨⟨hknown.1.1.1, hknown.1.1.2⟩, hknown.1.2⟩, by omega⟩

end Lines

namespace Appending

variable {P : Primitives} (a : Appending P)

theorem plan_eq : a.plan = {
    line := (encode P a.m (a.ts.length + 1) (historyOf P a.m a.ts).2 a.t).1
    next := { a.m with
      sequence := a.ts.length + 1
      length := a.m.length + (encode P a.m (a.ts.length + 1) (historyOf P a.m a.ts).2 a.t).1.length
      digest := (encode P a.m (a.ts.length + 1) (historyOf P a.m a.ts).2 a.t).2
      segments := a.m.segments.map fun s =>
        if a.m.seals then { s with sealed := s.sealed ++ [a.m.activeLength] } else s }
    seals := a.m.seals } := by
  have h := ((plan_eq_ok_iff P).mp a.planned).2.2
  rw [a.cut.describes.sequence, a.cut.describes.digest] at h
  exact h

theorem asBytes_frame : asBytes a.frame = a.plan.line := by
  obtain ⟨cs, hcs⟩ : ∃ cs, a.plan.line = Json.utf8 cs := by
    rw [a.plan_eq]
    exact ⟨_ ++ ['\n'], (Json.utf8_append _ ['\n']).symm⟩
  have hframed := a.framed
  rw [hcs] at hframed ⊢
  exact asBytes_of_stringFromUtf8 hframed

theorem lineage : SameLineage a.plan.next a.m := by
  rw [a.plan_eq]
  exact ⟨rfl, rfl, rfl⟩

theorem historyOf_next :
    historyOf P a.plan.next (a.ts ++ [a.t]) =
      ((historyOf P a.m a.ts).1 ++ a.plan.line, a.plan.next.digest) := by
  rw [historyOf, encodeChain_congr P a.lineage, ← historyOf, historyOf_append_singleton,
    a.plan_eq]

/-- The segments the committed append leaves sealed. -/
def nextParts : List Bytes :=
  if a.plan.seals then a.parts ++ [a.active] else a.parts

/-- The active file the committed append leaves. -/
def nextActive : Bytes :=
  if a.plan.seals then a.plan.line else a.active ++ a.plan.line

theorem seals_pos (h : a.plan.seals) : a.active ≠ [] := by
  rw [a.plan_eq] at h
  have hpos : 0 < a.m.activeLength := by
    simp only [Manifest.seals] at h
    split at h
    · simp only [Bool.and_eq_true, decide_eq_true_eq] at h; exact h.1
    · contradiction
  rw [a.cut.activeLength] at hpos
  exact List.ne_nil_of_length_pos hpos

/-- A non-empty active file ends a line: it is the end of the history. -/
theorem active_ends (h : a.active ≠ []) : EndsInLine a.active := by
  have hne : (historyOf P a.m a.ts).1 ≠ [] := by
    rw [← a.cut.bytes]; simp [h]
  have hlast := getLast?_encodeChain P a.m 0 ZERO a.ts hne
  change (historyOf P a.m a.ts).1.getLast? = _ at hlast
  rw [← a.cut.bytes, List.getLast?_append_of_ne_nil _ h] at hlast
  exact hlast

theorem sealed_next :
    a.plan.next.sealed = if a.plan.seals then a.m.sealed ++ [a.active.length] else a.m.sealed := by
  cases hs : a.m.segments with
  | none =>
      have hno : a.plan.seals = false := by
        rw [a.plan_eq]; simp [Manifest.seals, Manifest.sealAt, hs]
      rw [hno, a.plan_eq]
      simp [Manifest.sealed, hs]
  | some s =>
      rw [a.plan_eq]
      simp only [Manifest.sealed, hs, Option.map_some, a.cut.activeLength]
      split_ifs <;> rfl

theorem nextParts_sealed : a.plan.next.sealed = a.nextParts.map List.length := by
  rw [a.sealed_next, nextParts, a.cut.sealed]
  split_ifs <;> simp

theorem next_bytes : a.nextParts.flatten ++ a.nextActive =
    (historyOf P a.plan.next (a.ts ++ [a.t])).1 := by
  rw [a.historyOf_next, ← a.cut.bytes, nextParts, nextActive]
  split_ifs <;> simp

theorem next_known : a.plan.next.known :=
  plan_next_known a.cut.describes.known a.planned

/-- What the append publishes describes the longer history. -/
theorem next_describes : Describes P a.plan.next (a.ts ++ [a.t]) where
  known := a.next_known
  sequence := by rw [a.plan_eq]; simp
  length := by
    rw [a.historyOf_next, List.length_append, ← a.cut.describes.length, a.plan_eq]
  digest := by rw [a.historyOf_next]
  sequence_lt := by
    have h := ((plan_eq_ok_iff P).mp a.planned).1
    rw [a.cut.describes.sequence] at h
    rw [a.plan_eq]
    exact h
  length_lt := by
    have h := ((plan_eq_ok_iff P).mp a.planned).2.1
    rw [a.cut.describes.sequence, a.cut.describes.digest] at h
    rw [a.plan_eq]
    exact h

theorem next_cut : Cut P a.plan.next (a.ts ++ [a.t]) a.nextParts a.nextActive where
  describes := a.next_describes
  sealed := a.nextParts_sealed
  line := by
    intro part hpart
    rw [nextParts] at hpart
    split_ifs at hpart with hseals
    · rcases List.mem_append.mp hpart with hold | hnew
      · exact a.cut.line part hold
      · rw [List.mem_singleton.mp hnew]
        exact a.active_ends (a.seals_pos hseals)
    · exact a.cut.line part hpart
  bytes := a.next_bytes

/-! ## The states it passes -/

/-- What `append.json` holds. -/
def intent : AppendIntent where
  before := a.m
  after := a.plan.next
  frame := a.frame

@[simp] theorem intent_before : a.intent.before = a.m := rfl
@[simp] theorem intent_after : a.intent.after = a.plan.next := rfl
@[simp] theorem intent_frame : a.intent.frame = a.frame := rfl

/-- The bytes of `append.json`. -/
def intentBytes : Bytes :=
  toBytes P.toFloatText a.intent

/-- Where the history and the new line stand while the intent is pending and nothing is
    published: some of the line behind the active file, or the active file already moved
    to its sealed name with none or some of the line in a new one. -/
def Pending (v : View) : Prop :=
  (∃ torn, torn <+: a.plan.line ∧ (a.plan.seals → torn = []) ∧ SealedAs v a.parts ∧
    v.content .events = some (a.active ++ torn)) ∨
  (a.plan.seals ∧ SealedAs v (a.parts ++ [a.active]) ∧
    (v.content .events = none ∨ ∃ torn, torn <+: a.plan.line ∧ v.content .events = some torn))

/-- The states before the new manifest is published. -/
structure Unpublished (v : View) : Prop extends Base v where
  privacy : v.content .privacyIntent = none
  manifest : v.content .manifest = some (toBytes P.toFloatText a.m)
  pending : (v.content .appendIntent = none ∧ SealedAs v a.parts ∧
      v.content .events = some a.active) ∨
    (v.content .appendIntent = some a.intentBytes ∧ a.Pending v)

/-- The states after the new manifest is published. -/
structure Published (v : View) : Prop extends Base v where
  privacy : v.content .privacyIntent = none
  manifest : v.content .manifest = some (toBytes P.toFloatText a.plan.next)
  append : v.content .appendIntent = none ∨ v.content .appendIntent = some a.intentBytes
  sealedAs : SealedAs v a.nextParts
  events : v.content .events = some a.nextActive

theorem Unpublished.committed {a : Appending P} (h : a.Unpublished v)
    (hsettled : v.content .appendIntent = none) : Committed P v a.m a.ts a.parts a.active := by
  cases h.pending with
  | inl hp =>
      exact { toBase := h.toBase, append := hsettled, privacy := h.privacy,
              manifest := h.manifest, cut := a.cut, sealedAs := hp.2.1, events := hp.2.2 }
  | inr hp => rw [hsettled] at hp; exact absurd hp.1 (by simp)

theorem unpublished_of_committed (h : Committed P v a.m a.ts a.parts a.active) :
    a.Unpublished v where
  toBase := h.toBase
  privacy := h.privacy
  manifest := h.manifest
  pending := .inl ⟨h.append, h.sealedAs, h.events⟩

theorem Published.committed {a : Appending P} (h : a.Published v)
    (hsettled : v.content .appendIntent = none) :
    Committed P v a.plan.next (a.ts ++ [a.t]) a.nextParts a.nextActive :=
  { toBase := h.toBase, append := hsettled, privacy := h.privacy, manifest := h.manifest,
    cut := a.next_cut, sealedAs := h.sealedAs, events := h.events }

theorem published_of_committed
    (h : Committed P v a.plan.next (a.ts ++ [a.t]) a.nextParts a.nextActive) :
    a.Published v where
  toBase := h.toBase
  privacy := h.privacy
  manifest := h.manifest
  append := .inl h.append
  sealedAs := h.sealedAs
  events := h.events

/-- The states an interrupted append can leave. -/
def Passed (v : View) : Prop :=
  a.Unpublished v ∨ a.Published v

/-- The two kinds of states are told apart by the manifest. -/
theorem toBytes_next_ne : toBytes P.toFloatText a.plan.next ≠ toBytes P.toFloatText a.m := by
  intro h
  have hvalue := congrArg (fromBytes P.toFloatText : Bytes → Option Manifest) h
  rw [fromBytes_toBytes, fromBytes_toBytes] at hvalue
  have hseq := congrArg Manifest.sequence (Option.some.inj hvalue)
  rw [a.next_describes.sequence, a.cut.describes.sequence] at hseq
  simp at hseq

/-! ## Appending passes no others -/

/-- With the intent written, the state only has to be pending to be unpublished. -/
structure Intended (v : View) : Prop extends Base v where
  privacy : v.content .privacyIntent = none
  manifest : v.content .manifest = some (toBytes P.toFloatText a.m)
  append : v.content .appendIntent = some a.intentBytes

theorem Intended.unpublished {a : Appending P} (h : a.Intended v) (hp : a.Pending v) :
    a.Unpublished v :=
  ⟨h.toBase, h.privacy, h.manifest, .inr ⟨h.append, hp⟩⟩

theorem Intended.put {a : Appending P} (h : a.Intended v) {p : Path} (b : Option Bytes)
    (hp : p = .events ∨ ∃ i, p = .segment i) : a.Intended (v.put p b) := by
  rcases hp with rfl | ⟨i, rfl⟩
  · exact ⟨h.toBase.put b (by simp) (by simp), by simpa using h.privacy,
      by simpa using h.manifest, by simpa using h.append⟩
  · exact ⟨h.toBase.put b (by simp) (by simp), by simpa using h.privacy,
      by simpa using h.manifest, by simpa using h.append⟩

theorem Intended.of_segments {a : Appending P} (h : a.Intended v) (flag : Bool) :
    a.Intended { v with segments := flag } :=
  ⟨⟨h.foreign, h.lock⟩, h.privacy, h.manifest, h.append⟩

/-- What `events.jsonl` holds before the line is written into it. -/
def fresh : Bytes :=
  if a.plan.seals then [] else a.active

theorem nextActive_eq : a.nextActive = a.fresh ++ a.plan.line := by
  rw [nextActive, fresh]
  split_ifs <;> simp

theorem pending_of_torn (hs : SealedAs v a.nextParts) (ht : torn <+: a.plan.line)
    (he : v.content .events = some (a.fresh ++ torn)) : a.Pending v := by
  by_cases hseals : a.plan.seals
  · simp only [nextParts, hseals, if_true] at hs
    simp only [fresh, hseals, if_true, List.nil_append] at he
    exact .inr ⟨hseals, hs, .inr ⟨torn, ht, he⟩⟩
  · simp only [nextParts, hseals, if_false, Bool.false_eq_true] at hs
    simp only [fresh, hseals, if_false, Bool.false_eq_true] at he
    exact .inl ⟨torn, ht, fun h => absurd h hseals, hs, he⟩

theorem sealTargetFree_eq_ok {d : Disk} (hs : SealedAs d.view a.parts) :
    sealTargetFree a.m d = .ok d.segments := by
  have hlen : a.m.sealed.length = a.parts.length := by rw [a.cut.sealed, List.length_map]
  have hfree : d.has (.segment a.m.sealed.length) = false := by
    rw [Disk.has, hlen, hs.read]; simp
  cases hd : d.segments <;> simp [sealTargetFree, hd, hfree]

/-- Sealing, interrupted anywhere, leaves the intent pending. -/
theorem sealActive_meets {d : Disk} (hseals : a.plan.seals) (hdrawn : d.Drawn P)
    (hi : a.Intended d.view) (hs : SealedAs d.view a.parts)
    (he : d.view.content .events = some a.active) :
    (sealActive a.m).Meets d (Inv P a.Passed) (Returns fun _ d' => d'.Drawn P ∧
      a.Intended d'.view ∧ SealedAs d'.view a.nextParts ∧
      d'.view.content .events = some a.fresh) := by
  have hlen : a.m.sealed.length = a.parts.length := by rw [a.cut.sealed, List.length_map]
  have hparts : a.nextParts = a.parts ++ [a.active] := by simp [nextParts, hseals]
  have hfresh : a.fresh = [] := by simp [fresh, hseals]
  -- the rename and the creation of the new active file, once the directory is there
  have hmove : ∀ d : Disk, d.Drawn P → a.Intended d.view → SealedAs d.view a.parts →
      d.view.content .events = some a.active → d.segments = true →
      (do perform (Disk.rename .events (.segment a.m.sealed.length))
          perform (Disk.createNew .events) : Io Unit).Meets d (Inv P a.Passed)
        (Returns fun _ d' => d'.Drawn P ∧ a.Intended d'.view ∧ SealedAs d'.view a.nextParts ∧
          d'.view.content .events = some a.fresh) := by
    intro d hdrawn hi hs he hdir
    have hpending : a.Pending d.view :=
      .inl ⟨[], List.nil_prefix, fun _ => rfl, hs, by rw [List.append_nil]; exact he⟩
    refine meets_rename_bind ⟨hdrawn, .inl (hi.unpublished hpending)⟩ rfl he ?_
    intro d₁ hdrawn₁ hview₁
    rw [hlen] at hview₁
    have hs₁ : SealedAs d₁.view (a.parts ++ [a.active]) := by
      rw [hview₁]
      exact (hs.put none (by simp)).seal hdir a.active
    have hi₁ : a.Intended d₁.view := by
      rw [hview₁]
      exact (hi.put none (.inl rfl)).put _ (.inr ⟨_, rfl⟩)
    have he₁ : d₁.view.content .events = none := by
      rw [hview₁]; simp
    obtain ⟨d₂, hok, hb⟩ := Disk.createNew_eq_ok (show d₁.read .events = none from he₁)
    have hview₂ := hb.view_put rfl
    have hdrawn₂ : d₂.Drawn P := hdrawn₁.of_became hb (by simp)
    have hi₂ : a.Intended d₂.view := by rw [hview₂]; exact hi₁.put _ (.inl rfl)
    have hs₂ : SealedAs d₂.view a.nextParts := by
      rw [hview₂, hparts]; exact hs₁.put _ (by simp)
    have he₂ : d₂.view.content .events = some a.fresh := by rw [hview₂, hfresh]; simp
    have hpending₁ : a.Pending d₁.view := .inr ⟨hseals, hs₁, .inl he₁⟩
    have hpending₂ : a.Pending d₂.view :=
      a.pending_of_torn hs₂ List.nil_prefix (by rw [List.append_nil]; exact he₂)
    exact meets_perform hok ⟨hdrawn₁, .inl (hi₁.unpublished hpending₁)⟩
      ⟨hdrawn₂, .inl (hi₂.unpublished hpending₂)⟩ ⟨(), rfl, hdrawn₂, hi₂, hs₂, he₂⟩
  unfold sealActive
  refine meets_ask_bind (a.sealTargetFree_eq_ok hs) ?_
  cases hdir : d.segments with
  | true =>
      simp only [Bool.not_true, Bool.false_eq_true, if_false]
      exact hmove d hdrawn hi hs he hdir
  | false =>
      simp only [Bool.not_false, if_true]
      have hpending : a.Pending d.view :=
        .inl ⟨[], List.nil_prefix, fun _ => rfl, hs, by rw [List.append_nil]; exact he⟩
      have hcreate : Disk.createSegments d = .ok { d with segments := true } := by
        simp [Disk.createSegments, hdir]
      refine meets_perform_bind hcreate ⟨hdrawn, .inl (hi.unpublished hpending)⟩ ?_
      exact hmove _ hdrawn (hi.of_segments true) ⟨hs.content, fun _ => rfl⟩ he rfl

/-- Writing at the end of a file extends it. -/
theorem writeAt_end {d : Disk} {old : Bytes} (h : d.view.content .events = some old)
    (bytes : Bytes) :
    ∃ d', Disk.writeAt .events old.length bytes d = .ok d' ∧
      d.Became d' (Function.update d.read .events (some (old ++ bytes))) := by
  have hw := Disk.writeAt_eq_ok (show d.read .events = some old from h) old.length bytes
  have hdrop : old.drop (old.length + bytes.length) = [] := List.drop_of_length_le (by omega)
  rwa [List.take_length, hdrop, List.append_nil] at hw

theorem Intended.published {a : Appending P} (h : a.Intended v) (hs : SealedAs v a.nextParts)
    (he : v.content .events = some a.nextActive) :
    a.Published (v.put .manifest (some (toBytes P.toFloatText a.plan.next))) where
  toBase := h.toBase.put _ (by simp) (by simp)
  privacy := by simpa using h.privacy
  manifest := by simp
  append := .inr (by simpa using h.append)
  sealedAs := hs.put _ (by simp)
  events := by simpa using he

theorem Published.settle {a : Appending P} (h : a.Published v) :
    a.Published (v.put .appendIntent none) where
  toBase := h.toBase.put _ (by simp) (by simp)
  privacy := by simpa using h.privacy
  manifest := by simpa using h.manifest
  append := .inl (by simp)
  sealedAs := h.sealedAs.put _ (by simp)
  events := by simpa using h.events

/-- The last part of an append: the line in two writes, the manifest, the intent's removal. -/
theorem writeLine_meets {d : Disk} (j : Journal) (hdrawn : d.Drawn P) (hi : a.Intended d.view)
    (hs : SealedAs d.view a.nextParts) (he : d.view.content .events = some a.fresh) :
    (do perform (Disk.writeAt .events a.fresh.length (a.plan.line.take (a.plan.line.length / 2)))
        perform (Disk.writeAt .events (a.fresh.length + a.plan.line.length / 2)
          (a.plan.line.drop (a.plan.line.length / 2)))
        (atomicJson P .manifest a.plan.next).mapError fun _ => .UnknownCommit
        (perform (Disk.remove .appendIntent)).mapError fun _ => .UnknownCommit
        return j : Io Journal).Meets d (Inv P a.Passed)
      (Returns fun j' d' => j' = j ∧ d'.Drawn P ∧
        Committed P d'.view a.plan.next (a.ts ++ [a.t]) a.nextParts a.nextActive) := by
  -- a torn line keeps the intent pending
  have htorn : ∀ (d : Disk) (torn : Bytes), d.Drawn P → a.Intended d.view →
      SealedAs d.view a.nextParts → torn <+: a.plan.line →
      d.view.content .events = some (a.fresh ++ torn) → Inv P a.Passed d :=
    fun d torn hdrawn hi hs ht he =>
      ⟨hdrawn, .inl (hi.unpublished (a.pending_of_torn hs ht he))⟩
  have hinv := htorn d [] hdrawn hi hs List.nil_prefix (by rw [List.append_nil]; exact he)
  refine meets_put_bind hinv rfl (writeAt_end he _) ?_
  intro d₁ hdrawn₁ hview₁
  have hi₁ : a.Intended d₁.view := by rw [hview₁]; exact hi.put _ (.inl rfl)
  have hs₁ : SealedAs d₁.view a.nextParts := by rw [hview₁]; exact hs.put _ (by simp)
  have he₁ : d₁.view.content .events =
      some (a.fresh ++ a.plan.line.take (a.plan.line.length / 2)) := by rw [hview₁]; simp
  have hinv₁ := htorn d₁ _ hdrawn₁ hi₁ hs₁ (List.take_prefix _ _) he₁
  have hmid : a.fresh.length + a.plan.line.length / 2 =
      (a.fresh ++ a.plan.line.take (a.plan.line.length / 2)).length := by
    rw [List.length_append, List.length_take, Nat.min_eq_left (by omega)]
  rw [hmid]
  refine meets_put_bind hinv₁ rfl (writeAt_end he₁ _) ?_
  intro d₂ hdrawn₂ hview₂
  have hi₂ : a.Intended d₂.view := by rw [hview₂]; exact hi₁.put _ (.inl rfl)
  have hs₂ : SealedAs d₂.view a.nextParts := by rw [hview₂]; exact hs₁.put _ (by simp)
  have he₂ : d₂.view.content .events = some (a.fresh ++ a.plan.line) := by
    rw [hview₂, View.put_content_self, List.append_assoc, List.take_append_drop]
  have hinv₂ := htorn d₂ _ hdrawn₂ hi₂ hs₂ (List.prefix_refl _) he₂
  refine Meets.bind (Meets.mapError (atomicJson_meets hinv₂ rfl fun d₃ hdrawn₃ hview₃ => ?_))
  have hpub₃ : a.Published d₃.view := by
    rw [hview₃]
    exact hi₂.published hs₂ (by rw [a.nextActive_eq]; exact he₂)
  have happend₃ : d₃.read .appendIntent = some a.intentBytes := by
    have : d₃.view.content .appendIntent = some a.intentBytes := by
      rw [hview₃]; simpa using hi₂.append
    exact this
  refine ⟨.inr hpub₃, (), rfl, ?_⟩
  obtain ⟨d₄, hok, hb⟩ := Disk.remove_eq_ok happend₃
  have hview₄ := hb.view_put rfl
  have hdrawn₄ : d₄.Drawn P := hdrawn₃.of_became hb (by simp)
  have hpub₄ : a.Published d₄.view := by rw [hview₄]; exact hpub₃.settle
  have hgone : d₄.view.content .appendIntent = none := by rw [hview₄]; simp
  refine Meets.bind (Meets.mapError (meets_perform hok ⟨hdrawn₃, .inr hpub₃⟩
    ⟨hdrawn₄, .inr hpub₄⟩ ⟨(), rfl, ?_⟩))
  exact meets_done ⟨hdrawn₄, .inr hpub₄⟩ ⟨j, rfl, rfl, hdrawn₄, hpub₄.committed hgone⟩

/-- An append once it has made sure that a seal's target is free. -/
theorem intend_meets {d : Disk} (j : Journal) (hdrawn : d.Drawn P)
    (hc : Committed P d.view a.m a.ts a.parts a.active) :
    (do let frame ← ask fun _ => stringFromUtf8 a.plan.line
        atomicJson P .appendIntent
          ({ before := a.m, after := a.plan.next, frame } : AppendIntent)
        when a.plan.seals (sealActive a.m)
        let offset := if a.plan.seals then 0 else a.m.activeLength
        let midpoint := a.plan.line.length / 2
        perform (Disk.writeAt .events offset (a.plan.line.take midpoint))
        perform (Disk.writeAt .events (offset + midpoint) (a.plan.line.drop midpoint))
        (atomicJson P .manifest a.plan.next).mapError fun _ => .UnknownCommit
        (perform (Disk.remove .appendIntent)).mapError fun _ => .UnknownCommit
        return j : Io Journal).Meets d (Inv P a.Passed)
      (Returns fun j' d' => j' = j ∧ d'.Drawn P ∧
        Committed P d'.view a.plan.next (a.ts ++ [a.t]) a.nextParts a.nextActive) := by
  have hoffset : (if a.plan.seals then 0 else a.m.activeLength) = a.fresh.length := by
    rw [fresh, a.cut.activeLength]
    split_ifs <;> rfl
  have hinv : Inv P a.Passed d := ⟨hdrawn, .inl (a.unpublished_of_committed hc)⟩
  refine meets_ask_bind a.framed (Meets.bind ?_)
  refine atomicJson_meets hinv rfl fun d₁ hdrawn₁ hview₁ => ?_
  have hi₁ : a.Intended d₁.view := by
    rw [hview₁]
    exact ⟨hc.toBase.put _ (by simp) (by simp), by simpa using hc.privacy,
      by simpa using hc.manifest, by simp; rfl⟩
  have hs₁ : SealedAs d₁.view a.parts := by rw [hview₁]; exact hc.sealedAs.put _ (by simp)
  have he₁ : d₁.view.content .events = some a.active := by rw [hview₁]; simpa using hc.events
  have hpending₁ : a.Pending d₁.view :=
    .inl ⟨[], List.nil_prefix, fun _ => rfl, hs₁, by rw [List.append_nil]; exact he₁⟩
  have hinv₁ : Inv P a.Passed d₁ := ⟨hdrawn₁, .inl (hi₁.unpublished hpending₁)⟩
  refine ⟨hinv₁.2, (), rfl, Meets.bind (meets_when hinv₁ (fun hseals => ?_) fun hseals => ?_)⟩
  · refine (a.sealActive_meets hseals hdrawn₁ hi₁ hs₁ he₁).mono (fun _ h => h) ?_
    rintro r d₂ ⟨u, rfl, hdrawn₂, hi₂, hs₂, he₂⟩
    refine ⟨u, rfl, ?_⟩
    simp only [hoffset]
    exact a.writeLine_meets j hdrawn₂ hi₂ hs₂ he₂
  · refine ⟨(), rfl, ?_⟩
    simp only [hoffset]
    exact a.writeLine_meets j hdrawn₁ hi₁ (by simpa [nextParts, hseals] using hs₁)
      (by simpa [fresh, hseals] using he₁)

/-- **An append passes only these states**, and one that completes has published. -/
theorem append_meets {d : Disk} (j : Journal) (hj : j.manifest = a.m) (hdrawn : d.Drawn P)
    (hc : Committed P d.view a.m a.ts a.parts a.active) :
    (j.append P a.t).Meets d (Inv P a.Passed) (Returns fun j' d' =>
      j'.manifest = a.plan.next ∧ j'.transactions = j.transactions ++ [a.t] ∧
      j'.content.bytes = j.content.bytes ++ a.plan.line ∧ d'.Drawn P ∧
      Committed P d'.view a.plan.next (a.ts ++ [a.t]) a.nextParts a.nextActive) := by
  have hinv : Inv P a.Passed d := ⟨hdrawn, .inl (a.unpublished_of_committed hc)⟩
  have hrest := fun j' => a.intend_meets j' hdrawn hc
  unfold Journal.append
  refine meets_ask_bind (by rw [hj]; exact a.planned) ?_
  unfold Journal.commitPlan
  rw [hj]
  refine Meets.bind (meets_when hinv (fun _ => ?_) fun _ => ⟨(), rfl, ?_⟩)
  · -- the target of a seal is free
    refine meets_ask (a := ()) ?_ hinv ⟨(), rfl, ?_⟩
    · simp [a.sealTargetFree_eq_ok hc.sealedAs, Except.map]
    · refine (hrest _).mono (fun _ h => h) ?_
      rintro r d' ⟨_, rfl, rfl, hdrawn', hc'⟩
      exact ⟨_, rfl, rfl, rfl, rfl, hdrawn', hc'⟩
  · refine (hrest _).mono (fun _ h => h) ?_
    rintro r d' ⟨_, rfl, rfl, hdrawn', hc'⟩
    exact ⟨_, rfl, rfl, rfl, rfl, hdrawn', hc'⟩

end Appending

end Eventlog.File
