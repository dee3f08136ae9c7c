import Eventlog.File.Opening

/-!
# Eventlog.File.Rewriting

The privacy rewrite of a committed history, and the states an interruption of it can leave.

`Rewriting` packages the history before, the replacement and what the rewrite plans to
write.  Until `privacy.json` is durable the directory still holds the old history; from
then on it is `Chosen`: every state leads to the replacement, whatever has been done of
the rename, the new manifest and the removal of the old segments.
-/

namespace Eventlog.File

open Durable Program

/-! ## The plan -/

/-- A rewrite of the history `ts` that `m` commits into `us`.

    The active file and the replacement are told apart by their digests, unless they are the
    same bytes. -/
structure Rewriting (P : Primitives) where
  m : Manifest
  ts : List Json
  parts : List Bytes
  active : Bytes
  us : List Json
  bytes : Bytes
  next : Manifest
  cut : Cut P m ts parts active
  planned : m.rewrite P us = .ok (bytes, next)
  distinct : P.sha256 active = P.sha256 bytes → active = bytes

theorem length_le_encodeChain (P : Primitives) (m : Manifest) (sequence : Nat) (previous : String)
    (ts : List Json) : ts.length ≤ (encodeChain P m sequence previous ts).1.length := by
  induction ts generalizing sequence previous with
  | nil => simp
  | cons t ts ih =>
      have hline := List.length_pos_of_ne_nil (encode_ne_nil P m (sequence + 1) previous t)
      have hrest := ih (sequence + 1) (encode P m (sequence + 1) previous t).2
      simp only [encodeChain, List.length_cons, List.length_append]
      omega

theorem rewrite_eq_ok_iff {P : Primitives} {m : Manifest} {us : List Json} :
    m.rewrite P us = .ok (bytes, next) ↔ m.epoch + 1 < u64Limit ∧ bytes.length < u64Limit ∧
      bytes = (historyOf P (m.retired (m.epoch + 1)) us).1 ∧
      next = { m.retired (m.epoch + 1) with
        sequence := us.length
        length := bytes.length
        digest := (historyOf P (m.retired (m.epoch + 1)) us).2 } := by
  unfold Manifest.rewrite checkedAdd
  by_cases hepoch : m.epoch + 1 < u64Limit
  · simp only [hepoch, if_true, true_and, historyOf]
    by_cases hroom : (encodeChain P (m.retired (m.epoch + 1)) 0 ZERO us).1.length < u64Limit
    · simp only [hroom, if_true, Except.ok.injEq, Prod.mk.injEq]
      constructor
      · rintro ⟨rfl, rfl⟩
        exact ⟨hroom, rfl, rfl⟩
      · rintro ⟨-, rfl, rfl⟩
        exact ⟨rfl, rfl⟩
    · simp only [hroom, if_false, reduceCtorEq, false_iff]
      rintro ⟨hlt, rfl, -⟩
      exact hroom hlt
  · simp [hepoch]

/-! ## Segments of a retired epoch -/

/-- Some of the old segments are gone, the others are as they were. -/
structure Retiring (v : View) (parts : List Bytes) : Prop where
  content : ∀ i, v.content (.segment i) = none ∨ v.content (.segment i) = parts[i]?
  directory : parts ≠ [] → v.segments = true

theorem retiring_of_sealedAs (h : SealedAs v parts) : Retiring v parts :=
  ⟨fun i => .inr (h.content i), h.directory⟩

theorem Retiring.put (h : Retiring v parts) {p : Path} (b : Option Bytes)
    (hp : ∀ i, p ≠ .segment i) : Retiring (v.put p b) parts := by
  refine ⟨fun i => ?_, h.directory⟩
  rw [View.put_content_of_ne v b (hp i).symm]
  exact h.content i

theorem Retiring.remove (h : Retiring v parts) (index : Nat) :
    Retiring (v.put (.segment index) none) parts := by
  refine ⟨fun i => ?_, h.directory⟩
  by_cases hi : i = index
  · subst hi; simp
  · rw [View.put_content_of_ne v none (by simpa using hi)]
    exact h.content i

/-- Once every old segment is gone none is left. -/
theorem Retiring.sealedAs_nil (h : Retiring v parts)
    (hgone : ∀ i < parts.length, v.content (.segment i) = none) : SealedAs v [] := by
  refine ⟨fun i => ?_, by simp⟩
  rw [List.getElem?_nil]
  by_cases hi : i < parts.length
  · exact hgone i hi
  · cases h.content i with
    | inl hnone => exact hnone
    | inr hsome => rw [hsome, List.getElem?_eq_none (by omega)]

namespace Rewriting

variable {P : Primitives} (r : Rewriting P)

theorem next_eq : r.next = { r.m.retired (r.m.epoch + 1) with
    sequence := r.us.length
    length := r.bytes.length
    digest := (historyOf P (r.m.retired (r.m.epoch + 1)) r.us).2 } :=
  (rewrite_eq_ok_iff.mp r.planned).2.2.2

theorem room : r.bytes.length < u64Limit :=
  (rewrite_eq_ok_iff.mp r.planned).2.1

theorem next_epoch : r.next.epoch = r.m.epoch + 1 := by
  rw [r.next_eq]; rfl

theorem next_sealed : r.next.sealed = [] := by
  rw [r.next_eq]
  cases hs : r.m.segments <;> simp [Manifest.retired, Manifest.sealed, hs]

theorem historyOf_next : historyOf P r.next r.us = (r.bytes, r.next.digest) := by
  have hlineage : SameLineage r.next (r.m.retired (r.m.epoch + 1)) := by
    rw [r.next_eq]; exact ⟨rfl, rfl, rfl⟩
  have hbytes := (rewrite_eq_ok_iff.mp r.planned).2.2.1
  have hdigest : r.next.digest = (historyOf P (r.m.retired (r.m.epoch + 1)) r.us).2 := by
    rw [r.next_eq]
  rw [historyOf, encodeChain_congr P hlineage, ← historyOf, hbytes, hdigest]

theorem next_known : r.next.known := by
  have hknown := r.cut.describes.known
  rw [r.next_eq]
  cases hs : r.m.segments with
  | none =>
      simp only [Manifest.known, hs] at hknown
      simp [Manifest.known, Manifest.retired, hs] at hknown ⊢
      exact hknown
  | some s =>
      simp only [Manifest.known, hs, Bool.and_eq_true, decide_eq_true_eq] at hknown
      simp only [Manifest.known, Manifest.retired, hs, Option.map_some, hknown.1.1.1.1,
        hknown.1.1.1.2, decide_true, List.all_nil, List.sum_nil, Bool.and_self, Nat.zero_le]
      rfl

/-- What the rewrite publishes describes the replacement, all of it active. -/
theorem next_cut : Cut P r.next r.us [] r.bytes where
  describes := {
    known := r.next_known
    sequence := by rw [r.next_eq]
    length := by rw [r.historyOf_next, r.next_eq]
    digest := by rw [r.historyOf_next]
    sequence_lt := by
      have hlen : r.us.length ≤ (historyOf P r.next r.us).1.length :=
        length_le_encodeChain P r.next 0 ZERO r.us
      rw [r.historyOf_next] at hlen
      rw [r.next_eq]
      exact Nat.lt_of_le_of_lt hlen r.room
    length_lt := by rw [r.next_eq]; exact r.room }
  sealed := by rw [r.next_sealed]; rfl
  line := by simp
  bytes := by rw [r.historyOf_next]; rfl

theorem next_ne : r.next ≠ r.m := by
  intro h
  have hepoch := r.next_epoch
  rw [h] at hepoch
  omega

/-! ## The states it passes -/

/-- What `privacy.json` holds. -/
def intent : PrivacyIntent where
  before := r.m
  after := r.next
  replacementDigest := P.sha256 r.bytes

/-- The bytes of `privacy.json`. -/
def intentBytes : Bytes :=
  toBytes P.toFloatText r.intent

theorem intent_consistent : r.intent.consistent := by
  have hat : r.next.sealAt = r.m.sealAt := by
    rw [r.next_eq]
    cases hs : r.m.segments <;> simp [Manifest.sealAt, Manifest.retired, hs]
  have hstore : r.next.store = r.m.store := by rw [r.next_eq]; rfl
  have hformat : r.next.format = r.m.format := by rw [r.next_eq]; rfl
  have hepoch : checkedAdd r.m.epoch 1 = some r.next.epoch := by
    rw [r.next_epoch, checkedAdd, if_pos (rewrite_eq_ok_iff.mp r.planned).1]
  simp [PrivacyIntent.consistent, intent, hat, hstore, hformat, hepoch, r.next_known,
    r.next_sealed, r.cut.describes.known]

/-- The intent is durable, and nothing else is pending. -/
structure Prepared (v : View) : Prop extends Base v where
  append : v.content .appendIntent = none
  privacy : v.content .privacyIntent = some r.intentBytes

/-- The replacement is staged and the history is still in place. -/
structure Staged (v : View) : Prop extends r.Prepared v where
  manifest : v.content .manifest = some (toBytes P.toFloatText r.m)
  sealedAs : SealedAs v r.parts
  events : v.content .events = some r.active
  replacement : v.content .privacyNext = some r.bytes

/-- The replacement is the active file. -/
structure Installed (v : View) : Prop extends r.Prepared v where
  manifest : v.content .manifest = some (toBytes P.toFloatText r.m) ∨
    v.content .manifest = some (toBytes P.toFloatText r.next)
  retiring : Retiring v r.parts
  events : v.content .events = some r.bytes

/-- The states from which only the replacement can be reached. -/
def Chosen (v : View) : Prop :=
  r.Staged v ∨ r.Installed v ∨ Committed P v r.next r.us [] r.bytes

/-- The states an interrupted rewrite can leave. -/
def Passed (v : View) : Prop :=
  Committed P v r.m r.ts r.parts r.active ∨ r.Chosen v

variable {r}

theorem Prepared.put (h : r.Prepared v) {p : Path} (b : Option Bytes)
    (hp : p = .events ∨ p = .manifest ∨ p = .privacyNext ∨ ∃ i, p = .segment i) :
    r.Prepared (v.put p b) := by
  rcases hp with rfl | rfl | rfl | ⟨i, rfl⟩ <;>
    exact ⟨h.toBase.put b (by simp) (by simp), by simpa using h.append, by simpa using h.privacy⟩

theorem Installed.put_privacyNext (h : r.Installed v) (b : Option Bytes) :
    r.Installed (v.put .privacyNext b) where
  toPrepared := h.toPrepared.put b (by simp)
  manifest := by simpa using h.manifest
  retiring := h.retiring.put b (by simp)
  events := by simpa using h.events

theorem Installed.remove (h : r.Installed v) (index : Nat) :
    r.Installed (v.put (.segment index) none) where
  toPrepared := h.toPrepared.put none (by simp)
  manifest := by simpa using h.manifest
  retiring := h.retiring.remove index
  events := by simpa using h.events

theorem Installed.inv {d : Disk} (h : r.Installed d.view) (hd : d.Drawn P) : Inv P r.Chosen d :=
  ⟨hd, .inr (.inl h)⟩

/-! ## Finishing a rewrite -/

/-- Removing the old segments, interrupted anywhere, keeps the replacement installed. -/
theorem removeSegments_meets {d : Disk} (index count : Nat) (hd : d.Drawn P)
    (hi : r.Installed d.view)
    (hm : d.view.content .manifest = some (toBytes P.toFloatText r.next))
    (hgone : ∀ i < index, d.view.content (.segment i) = none) :
    (removeSegments index count).Meets d (Inv P r.Chosen) (Returns fun _ d' => d'.Drawn P ∧
      r.Installed d'.view ∧ d'.view.content .manifest = some (toBytes P.toFloatText r.next) ∧
      ∀ i < index + count, d'.view.content (.segment i) = none) := by
  induction count generalizing d index with
  | zero => exact meets_done (hi.inv hd) ⟨(), rfl, hd, hi, hm, hgone⟩
  | succ count ih =>
      rw [show index + (count + 1) = index + 1 + count by omega]
      unfold removeSegments
      refine meets_ask_bind rfl (Meets.bind ?_)
      cases hseg : d.view.content (.segment index) with
      | none =>
          rw [has_eq_false hseg rfl]
          refine meets_done (hi.inv hd) ⟨(), rfl, ih (index + 1) hd hi hm fun i hlt => ?_⟩
          by_cases hlast : i = index
          · rw [hlast, hseg]
          · exact hgone i (by omega)
      | some old =>
          rw [has_eq_true hseg]
          obtain ⟨d₁, hok, hb⟩ :=
            Disk.remove_eq_ok (show d.read (.segment index) = some old from hseg)
          have hd₁ : d₁.Drawn P := hd.of_became hb (by simp)
          have hview₁ := hb.view_put rfl
          have hi₁ : r.Installed d₁.view := by rw [hview₁]; exact hi.remove index
          refine meets_perform hok (hi.inv hd) (hi₁.inv hd₁) ⟨(), rfl, ih (index + 1) hd₁ hi₁ ?_ ?_⟩
          · rw [hview₁]; simpa using hm
          · intro i hlt
            rw [hview₁]
            by_cases hlast : i = index
            · rw [hlast]; simp
            · rw [View.put_content_of_ne _ none (by simpa using hlast)]
              exact hgone i (by omega)

/-- Removing the intent ends a rewrite. -/
theorem Installed.settle_meets {d : Disk} (hi : r.Installed d.view) (hd : d.Drawn P)
    (hm : d.view.content .manifest = some (toBytes P.toFloatText r.next))
    (hs : SealedAs d.view []) :
    (perform (Disk.remove .privacyIntent)).Meets d (Inv P r.Chosen) (Returns fun _ d' =>
      d'.Drawn P ∧ Committed P d'.view r.next r.us [] r.bytes) := by
  obtain ⟨d', hok, hb⟩ := Disk.remove_eq_ok (show d.read .privacyIntent = some _ from hi.privacy)
  have hd' : d'.Drawn P := hd.of_became hb (by simp)
  have hc : Committed P d'.view r.next r.us [] r.bytes := by
    rw [hb.view_put rfl]
    exact { toBase := hi.toBase.put _ (by simp) (by simp)
            append := by simpa using hi.append
            privacy := by simp
            manifest := by simpa using hm
            cut := r.next_cut
            sealedAs := hs.put _ (by simp)
            events := by simpa using hi.events }
  exact meets_perform hok (hi.inv hd) ⟨hd', .inr (.inr hc)⟩ ⟨(), rfl, hd', hc⟩

theorem removeSealed_meets {d : Disk} (hd : d.Drawn P) (hi : r.Installed d.view)
    (hm : d.view.content .manifest = some (toBytes P.toFloatText r.next)) :
    (removeSealed r.m.sealed.length).Meets d (Inv P r.Chosen) (Returns fun _ d' => d'.Drawn P ∧
      r.Installed d'.view ∧ d'.view.content .manifest = some (toBytes P.toFloatText r.next) ∧
      SealedAs d'.view []) := by
  have hlen : r.m.sealed.length = r.parts.length := by rw [r.cut.sealed, List.length_map]
  unfold removeSealed
  rw [hlen]
  by_cases hnone : r.parts.length = 0
  · rw [if_pos hnone]
    refine meets_done (hi.inv hd) ⟨(), rfl, hd, hi, hm, hi.retiring.sealedAs_nil fun i hlt => ?_⟩
    omega
  · rw [if_neg hnone]
    refine Meets.bind ((removeSegments_meets 0 r.parts.length hd hi hm (by simp)).mono
      (fun _ h => h) ?_)
    rintro x d₁ ⟨u, rfl, hd₁, hi₁, hm₁, hgone⟩
    rw [Nat.zero_add] at hgone
    have hdir : d₁.segments = true := hi₁.retiring.directory (by rintro h; simp [h] at hnone)
    refine ⟨u, rfl, meets_ask (a := ()) ?_ (hi₁.inv hd₁) ⟨(), rfl, hd₁, hi₁, hm₁, ?_⟩⟩
    · rw [hdir]; rfl
    · exact hi₁.retiring.sealedAs_nil hgone

/-- With the replacement installed, the rest of a rewrite ends at it. -/
theorem retireEpoch_meets {d : Disk} (hd : d.Drawn P) (hi : r.Installed d.view) :
    (retireEpoch P r.m r.next).Meets d (Inv P r.Chosen) (Returns fun _ d' => d'.Drawn P ∧
      Committed P d'.view r.next r.us [] r.bytes) := by
  unfold retireEpoch
  refine Meets.bind (atomicJson_meets (hi.inv hd) rfl fun d₁ hd₁ hview₁ => ?_)
  have hi₁ : r.Installed d₁.view := by
    rw [hview₁]
    exact ⟨hi.toPrepared.put _ (by simp), .inr (by simp), hi.retiring.put _ (by simp),
      by simpa using hi.events⟩
  refine ⟨.inr (.inl hi₁), (), rfl, Meets.bind ((removeSealed_meets hd₁ hi₁ ?_).mono
    (fun _ h => h) ?_)⟩
  · rw [hview₁]; simp
  rintro x d₂ ⟨u, rfl, hd₂, hi₂, hm₂, hs₂⟩
  refine ⟨u, rfl, meets_ask_bind rfl (Meets.bind (meets_when (hi₂.inv hd₂) (fun hleft => ?_)
    fun _ => ⟨(), rfl, ?_⟩))⟩
  · obtain ⟨old, hold⟩ := Option.isSome_iff_exists.mp hleft
    obtain ⟨d₃, hok, hb⟩ := Disk.remove_eq_ok hold
    have hd₃ : d₃.Drawn P := hd₂.of_became hb (by simp)
    have hview₃ := hb.view_put rfl
    have hi₃ : r.Installed d₃.view := by rw [hview₃]; exact hi₂.put_privacyNext none
    refine meets_perform hok (hi₂.inv hd₂) (hi₃.inv hd₃) ⟨(), rfl, hi₃.settle_meets hd₃ ?_ ?_⟩
    · rw [hview₃]; simpa using hm₂
    · rw [hview₃]; exact hs₂.put none (by simp)
  · exact hi₂.settle_meets hd₂ hm₂ hs₂

theorem decode_before (hts : ∀ t ∈ r.ts, Survives P t) :
    decode P (r.parts.flatten ++ r.active) r.m = .ok r.ts :=
  r.cut.describes.decode_eq_ok P hts r.cut.bytes

/-- What can be read back: the replacement, and the history it replaces unless the active
    file is the replacement already. -/
def Readable (r : Rewriting P) : Prop :=
  (∃ ws, decode P r.bytes r.next = .ok ws) ∧
    (P.sha256 r.active = P.sha256 r.bytes ∨
      ∃ ts, decode P (r.parts.flatten ++ r.active) r.m = .ok ts)

theorem readable_of_survives (hts : ∀ t ∈ r.ts, Survives P t) (hus : ∀ u ∈ r.us, Survives P u) :
    r.Readable :=
  ⟨⟨r.us, r.next_cut.describes.decode_eq_ok P hus r.next_cut.bytes⟩, .inr ⟨r.ts, decode_before hts⟩⟩

theorem checkReplacement_eq {d : Disk} (hs : r.Staged d.view) :
    checkReplacement P r.m r.next (P.sha256 r.bytes) d =
      (decode P (r.parts.flatten ++ r.active) r.m >>= fun _ =>
        (decode P r.bytes r.next).map fun _ => ()) := by
  obtain ⟨stamps, hsealed⟩ := hs.sealedAs.readSealed_eq_ok r.cut.line r.cut.sealed
  have hevents : d.read .events = some r.active := hs.events
  have hnext : d.read .privacyNext = some r.bytes := hs.replacement
  simp only [checkReplacement, Disk.readFile, hevents, hsealed, hnext, bind, Except.bind, ne_eq,
    not_true_eq_false, if_false]
  cases decode P (r.parts.flatten ++ r.active) r.m with
  | error e => rfl
  | ok ts => cases decode P r.bytes r.next <;> rfl

/-- An active file that is the replacement counts as installed. -/
theorem Staged.installed (hs : r.Staged v) (heq : r.active = r.bytes) : r.Installed v :=
  ⟨hs.toPrepared, .inl hs.manifest, retiring_of_sealedAs hs.sealedAs, heq ▸ hs.events⟩

/-- The rename puts the replacement in place; a replacement in place is left there. -/
theorem installReplacement_meets {d : Disk} (hr : r.Readable) (hd : d.Drawn P)
    (hi : r.Staged d.view ∨ r.Installed d.view) :
    (installReplacement P r.m r.next (P.sha256 r.bytes)).Meets d (Inv P r.Chosen)
      (Returns fun _ d' => d'.Drawn P ∧ r.Installed d'.view) := by
  obtain ⟨⟨ws, hread⟩, hbefore⟩ := hr
  -- once in place, only the check is left
  have hplaced : r.Installed d.view → (installReplacement P r.m r.next (P.sha256 r.bytes)).Meets d
      (Inv P r.Chosen) (Returns fun _ d' => d'.Drawn P ∧ r.Installed d'.view) := by
    intro h
    have hevents : d.readFile .events = .ok r.bytes := by
      simp [Disk.readFile, show d.read .events = some r.bytes from h.events]
    unfold installReplacement
    refine meets_ask_bind hevents ?_
    rw [if_pos rfl]
    exact meets_ask (a := ()) (by rw [hread]; rfl) (h.inv hd) ⟨(), rfl, hd, h⟩
  rcases hi with hs | h
  · by_cases hsame : P.sha256 r.active = P.sha256 r.bytes
    · exact hplaced (hs.installed (r.distinct hsame))
    · have hevents : d.readFile .events = .ok r.active := by
        simp [Disk.readFile, show d.read .events = some r.active from hs.events]
      have hinv : Inv P r.Chosen d := ⟨hd, .inl hs⟩
      unfold installReplacement
      refine meets_ask_bind hevents ?_
      rw [if_neg hsame]
      obtain ⟨ts, hbefore⟩ := hbefore.resolve_left hsame
      refine meets_ask_bind (a := ()) (by rw [checkReplacement_eq hs, hbefore, hread]; rfl) ?_
      obtain ⟨d', hok, hb⟩ :=
        Disk.rename_eq_ok (show d.read .privacyNext = some r.bytes from hs.replacement) .events
      have hd' : d'.Drawn P := hd.of_rename hb rfl
      have hi' : r.Installed d'.view := by
        rw [hb.view_rename rfl]
        exact ⟨(hs.toPrepared.put none (by simp)).put _ (by simp), .inl (by simpa using hs.manifest),
          retiring_of_sealedAs ((hs.sealedAs.put none (by simp)).put _ (by simp)), by simp⟩
      exact meets_perform hok hinv (hi'.inv hd') ⟨(), rfl, hd', hi'⟩
  · exact hplaced h

theorem read_intent {d : Disk} (h : r.Prepared d.view) : readPrivacyIntent P d = .ok r.intent := by
  have hread : d.read .privacyIntent = some r.intentBytes := h.privacy
  simp [readPrivacyIntent, Disk.readFile, hread, intentBytes, fromBytes_toBytes, bind, Except.bind]

/-- Recovery finishes a rewrite from wherever it was interrupted. -/
theorem recoverPrivacy_meets {d : Disk} {current : Manifest} (hr : r.Readable) (hd : d.Drawn P)
    (hcurrent : current = r.m ∨ current = r.next) (hi : r.Staged d.view ∨ r.Installed d.view) :
    (recoverPrivacy P current).Meets d (Inv P r.Chosen) (Returns fun m' d' => m' = r.next ∧
      d'.Drawn P ∧ Committed P d'.view r.next r.us [] r.bytes) := by
  have hprepared : r.Prepared d.view := hi.elim Staged.toPrepared Installed.toPrepared
  have hknown : ¬ (current ≠ r.intent.before ∧ current ≠ r.intent.after) := fun h =>
    hcurrent.elim h.1 h.2
  unfold recoverPrivacy
  refine meets_ask_bind (read_intent hprepared) ?_
  rw [if_neg hknown, r.intent_consistent]
  refine Meets.bind ((installReplacement_meets hr hd hi).mono (fun _ h => h) ?_)
  rintro x d₁ ⟨u, rfl, hd₁, hi₁⟩
  refine ⟨u, rfl, Meets.bind ((retireEpoch_meets hd₁ hi₁).mono (fun _ h => h) ?_)⟩
  rintro x d₂ ⟨u, rfl, hd₂, hc₂⟩
  exact ⟨u, rfl, meets_done ⟨hd₂, .inr (.inr hc₂)⟩ ⟨r.next, rfl, rfl, hd₂, hc₂⟩⟩

/-! ## Rewriting passes no other states -/

/-- A rewrite stages the replacement and its intent; what follows starts from there. -/
theorem privacy_stages {d : Disk} (j : Journal) (hj : j.manifest = r.m) (hd : d.Drawn P)
    (hc : Committed P d.view r.m r.ts r.parts r.active)
    {Q : Except EventLogError Journal → Disk → Prop}
    (hrest : ∀ d', d'.Drawn P → r.Staged d'.view →
      ((recoverPrivacy P r.m).mapError (fun _ => EventLogError.UnknownCommit) >>= fun manifest =>
        pure ⟨manifest, r.us, ⟨r.bytes, none, []⟩⟩).Meets d' (Inv P r.Passed) Q) :
    (j.privacy P r.us).Meets d (Inv P r.Passed) Q := by
  have hplan : j.manifest.rewrite P r.us = .ok (r.bytes, r.next) := by rw [hj]; exact r.planned
  -- a stale replacement is removed first; in either case the new one is written
  have hstage : ∀ d : Disk, d.Drawn P → Committed P d.view r.m r.ts r.parts r.active →
      d.view.content .privacyNext = none →
      (do writeSynced .privacyNext r.bytes
          atomicJson P .privacyIntent
            ({ before := r.m, after := r.next, replacementDigest := P.sha256 r.bytes }
              : PrivacyIntent)
          let manifest ← (recoverPrivacy P r.m).mapError fun _ => .UnknownCommit
          return { manifest, transactions := r.us, content := ⟨r.bytes, none, []⟩ }
        : Io Journal).Meets d (Inv P r.Passed) Q := by
    intro d hd hc hfree
    unfold writeSynced
    refine Meets.bind (meets_put_bind ⟨hd, .inl hc⟩ rfl
      (Disk.createNew_eq_ok (show d.read .privacyNext = none from hfree)) fun d₁ hd₁ hview₁ => ?_)
    have hc₁ : Committed P d₁.view r.m r.ts r.parts r.active := by
      rw [hview₁]; exact hc.put_privacyNext P _
    have hempty : d₁.read .privacyNext = some [] := by
      have : d₁.view.content .privacyNext = some [] := by rw [hview₁]; simp
      exact this
    obtain ⟨d₂, hok, hb⟩ := Disk.writeAt_eq_ok hempty 0 r.bytes
    have hd₂ : d₂.Drawn P := hd₁.of_became hb (by simp)
    have hview₂ := hb.view_put rfl
    have hc₂ : Committed P d₂.view r.m r.ts r.parts r.active := by
      rw [hview₂]; exact hc₁.put_privacyNext P _
    have hnext₂ : d₂.view.content .privacyNext = some r.bytes := by rw [hview₂]; simp
    refine meets_perform hok ⟨hd₁, .inl hc₁⟩ ⟨hd₂, .inl hc₂⟩ ⟨(), rfl, Meets.bind ?_⟩
    refine atomicJson_meets ⟨hd₂, .inl hc₂⟩ rfl fun d₃ hd₃ hview₃ => ?_
    have hs₃ : r.Staged d₃.view := by
      rw [hview₃]
      exact { toBase := hc₂.toBase.put _ (by simp) (by simp)
              append := by simpa using hc₂.append
              privacy := by simp; rfl
              manifest := by simpa using hc₂.manifest
              sealedAs := hc₂.sealedAs.put _ (by simp)
              events := by simpa using hc₂.events
              replacement := by simpa using hnext₂ }
    exact ⟨.inr (.inl hs₃), (), rfl, hrest d₃ hd₃ hs₃⟩
  unfold Journal.privacy
  refine meets_ask_bind hplan ?_
  simp only [hj]
  refine meets_ask_bind rfl (Meets.bind (meets_when ⟨hd, .inl hc⟩ (fun hstale => ?_)
    fun hfree => ⟨(), rfl, hstage d hd hc ?_⟩))
  · obtain ⟨old, hold⟩ := Option.isSome_iff_exists.mp hstale
    obtain ⟨d₁, hok, hb⟩ := Disk.remove_eq_ok hold
    have hd₁ : d₁.Drawn P := hd.of_became hb (by simp)
    have hview₁ := hb.view_put rfl
    have hc₁ : Committed P d₁.view r.m r.ts r.parts r.active := by
      rw [hview₁]; exact hc.put_privacyNext P none
    exact meets_perform hok ⟨hd, .inl hc⟩ ⟨hd₁, .inl hc₁⟩
      ⟨(), rfl, hstage d₁ hd₁ hc₁ (by rw [hview₁]; simp)⟩
  · simpa [Disk.has, Disk.view, Path.isStaging] using hfree

/-- **A rewrite passes only these states**, and one whose replacement can be read ends
    at it. -/
theorem privacy_meets {d : Disk} (j : Journal) (hj : j.manifest = r.m) (hr : r.Readable)
    (hd : d.Drawn P)
    (hc : Committed P d.view r.m r.ts r.parts r.active) :
    (j.privacy P r.us).Meets d (Inv P r.Passed) (Returns fun j' d' => j'.manifest = r.next ∧
      j'.transactions = r.us ∧ j'.content.bytes = r.bytes ∧ d'.Drawn P ∧
      Committed P d'.view r.next r.us [] r.bytes) := by
  refine privacy_stages j hj hd hc fun d' hd' hs => Meets.bind (Meets.mapError ?_)
  refine (recoverPrivacy_meets hr hd' (.inl rfl) (.inl hs)).mono (fun _ h => ⟨h.1, .inr h.2⟩) ?_
  rintro x d₁ ⟨m', rfl, rfl, hd₁, hc₁⟩
  exact ⟨r.next, rfl, meets_done ⟨hd₁, .inr (.inr (.inr hc₁))⟩ ⟨_, rfl, rfl, rfl, rfl, hd₁, hc₁⟩⟩

end Rewriting

end Eventlog.File
