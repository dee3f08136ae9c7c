import Eventlog.Durable.Checks
import Eventlog.File.Committed

/-!
# Eventlog.File.Chaining

Decoding a history in two parts.

A history that is cut at the end of a line decodes as its two parts do, the second from the head of
the first (`decodeLines_append`).  A tail that chains from an observed head therefore decodes behind
what was observed exactly if that decodes by itself (`decode_append_iff`).

A frame's digest covers the digest before it, so the last digest fixes the whole history
(`eq_of_historyOf_digest`).
-/

namespace Eventlog.File

open Durable

variable {P : Primitives} {m o : Manifest}

/-! ## Lines -/

theorem splitInclusive_ne_nil {bytes : Bytes} (h : bytes ≠ []) : splitInclusive bytes ≠ [] := by
  cases bytes with
  | nil => exact absurd rfl h
  | cons b bs =>
      unfold splitInclusive
      split
      · simp
      · cases splitInclusive bs <;> simp

/-- Cutting at the end of a line cuts no line. -/
theorem splitInclusive_append {a : Bytes} (h : EndsInLine a) (b : Bytes) :
    splitInclusive (a ++ b) = splitInclusive a ++ splitInclusive b := by
  induction a with
  | nil => simp [EndsInLine] at h
  | cons x xs ih =>
      by_cases hxs : xs = []
      · subst hxs
        obtain rfl : x = Json.lineFeed := by simpa [EndsInLine] using h
        simp [splitInclusive]
      · have hends : EndsInLine xs := by
          rwa [EndsInLine, List.getLast?_cons_of_ne_nil hxs] at h
        simp only [List.cons_append, splitInclusive, ih hends]
        split
        · rfl
        · obtain ⟨l, ls, hl⟩ := List.exists_cons_of_ne_nil (splitInclusive_ne_nil hxs)
          rw [hl]
          rfl

/-- A history is empty or ends in a line. -/
def Whole (bytes : Bytes) : Prop := bytes = [] ∨ EndsInLine bytes

theorem Whole.split {a : Bytes} (h : Whole a) (b : Bytes) :
    splitInclusive (a ++ b) = splitInclusive a ++ splitInclusive b := by
  rcases h with rfl | hends
  · rfl
  · exact splitInclusive_append hends b

theorem EndsInLine.append {b : Bytes} (h : EndsInLine b) (a : Bytes) : EndsInLine (a ++ b) := by
  rw [EndsInLine, List.getLast?_append, h]
  rfl

theorem Whole.append {a b : Bytes} (ha : Whole a) (hb : Whole b) : Whole (a ++ b) := by
  rcases hb with rfl | hends
  · simpa using ha
  · exact .inr (hends.append a)

theorem whole_iff {bytes : Bytes} :
    Whole bytes ↔ ¬ (bytes ≠ [] ∧ bytes.getLast? ≠ some Json.lineFeed) := by
  simp only [Whole, EndsInLine]
  tauto

/-! ## Frames -/

theorem decodeFrame_congr (h : SameLineage o m) (sequence : Nat) (previous : String) (line : Bytes) :
    decodeFrame P o sequence previous line = decodeFrame P m sequence previous line := by
  unfold decodeFrame
  rw [h.format, h.store, h.epoch]

theorem decodeLines_congr (h : SameLineage o m) (sequence : Nat) (previous : String)
    (lines : List Bytes) :
    decodeLines P o sequence previous lines = decodeLines P m sequence previous lines := by
  induction lines generalizing sequence previous with
  | nil => rfl
  | cons line lines ih => simp only [decodeLines, decodeFrame_congr h, ih]

/-- The frame that was accepted is the next one. -/
theorem next_of_decodeFrame {sequence : Nat} {previous : String} {line : Bytes} {frame : Frame}
    (h : decodeFrame P m sequence previous line = .ok frame) :
    fromBytes P.toFloatText line = some frame ∧ frame.sequence = sequence + 1 ∧
      frame.previous = previous := by
  unfold decodeFrame at h
  split at h
  · rename_i read next hread hnext
    split_ifs at h with hother
    obtain rfl := Except.ok.inj h
    simp only [not_or, ne_eq, not_not] at hother
    simp only [checkedAdd] at hnext
    split_ifs at hnext
    cases hnext
    exact ⟨hread, hother.2.2.2.1, hother.2.2.2.2⟩
  · cases h

/-- Lines are decoded one part after the other. -/
theorem decodeLines_append (sequence : Nat) (previous : String) (a b : List Bytes) :
    decodeLines P m sequence previous (a ++ b) =
      match decodeLines P m sequence previous a with
      | .error e => .error e
      | .ok (sequence, previous, ts) =>
          (decodeLines P m sequence previous b).map fun r => (r.1, r.2.1, ts ++ r.2.2) := by
  induction a generalizing sequence previous with
  | nil =>
      simp only [List.nil_append, decodeLines]
      cases decodeLines P m sequence previous b <;> rfl
  | cons line a ih =>
      simp only [List.cons_append, decodeLines]
      cases decodeFrame P m sequence previous line with
      | error e => rfl
      | ok frame =>
          simp only [ih]
          cases decodeLines P m frame.sequence frame.digest a with
          | error e => rfl
          | ok r =>
              simp only [Except.map]
              cases decodeLines P m r.1 r.2.1 b <;> rfl

theorem length_of_decodeLines {sequence : Nat} {previous : String} {lines : List Bytes}
    {r : Nat × String × List Json} (h : decodeLines P m sequence previous lines = .ok r) :
    r.1 = sequence + r.2.2.length := by
  induction lines generalizing sequence previous r with
  | nil =>
      obtain rfl := Except.ok.inj h
      rfl
  | cons line lines ih =>
      unfold decodeLines at h
      split at h
      · cases h
      · rename_i frame hframe
        obtain ⟨⟨s, p, ts⟩, hrest, rfl⟩ := Checks.map_eq_ok_iff.mp h
        have hsequence := ih hrest
        have hnext := (next_of_decodeFrame hframe).2.1
        simp only [List.length_cons] at hsequence ⊢
        omega

/-- Lines that decode from two heads have been given the same head. -/
theorem head_of_decodeLines {s s' : Nat} {p p' : String} {line : Bytes} {lines : List Bytes}
    {r r' : Nat × String × List Json} (h : decodeLines P m s p (line :: lines) = .ok r)
    (h' : decodeLines P m s' p' (line :: lines) = .ok r') : s = s' ∧ p = p' := by
  unfold decodeLines at h h'
  cases hframe : decodeFrame P m s p line with
  | error e => simp [hframe] at h
  | ok frame =>
      cases hframe' : decodeFrame P m s' p' line with
      | error e => simp [hframe'] at h'
      | ok frame' =>
          obtain ⟨hread, hseq, hprev⟩ := next_of_decodeFrame hframe
          obtain ⟨hread', hseq', hprev'⟩ := next_of_decodeFrame hframe'
          obtain rfl : frame = frame' := Option.some.inj (hread.symm.trans hread')
          exact ⟨by omega, hprev.symm.trans hprev'⟩

/-! ## Histories -/

theorem decodeChain_eq_ok_iff {bytes : Bytes} {sequence : Nat} {previous : String} {ts : List Json} :
    decodeChain P bytes m sequence previous = .ok ts ↔ Whole bytes ∧
      decodeLines P m sequence previous (splitInclusive bytes) = .ok (m.sequence, m.digest, ts) := by
  rw [whole_iff, decodeChain]
  split_ifs with hlast
  · simp [hlast]
  · simp only [hlast, not_false_eq_true, true_and]
    cases decodeLines P m sequence previous (splitInclusive bytes) with
    | error e => simp
    | ok r =>
        obtain ⟨s, p, us⟩ := r
        simp only [Except.ok.injEq, Prod.mk.injEq]
        split_ifs with hend
        · simp only [false_iff]
          rintro ⟨rfl, rfl, -⟩
          simp at hend
        · simp only [not_or, ne_eq, not_not] at hend
          simp [hend]

theorem decode_eq_ok_iff {bytes : Bytes} {ts : List Json} :
    decode P bytes m = .ok ts ↔ bytes.length = m.length ∧ Whole bytes ∧
      decodeLines P m 0 ZERO (splitInclusive bytes) = .ok (m.sequence, m.digest, ts) := by
  rw [decode]
  split_ifs with hlen
  · simp [hlen]
  · rw [decodeChain_eq_ok_iff]
    simp [not_not.mp hlen]

theorem sequence_of_decode {bytes : Bytes} {ts : List Json} (h : decode P bytes m = .ok ts) :
    m.sequence = ts.length := by
  simpa using length_of_decodeLines (decode_eq_ok_iff.mp h).2.2

/-- **Decoding behind an observed head**: given a tail that chains from it, the whole history
    decodes exactly if what was observed does. -/
theorem decode_append_iff {bytes tail : Bytes} {ts fresh : List Json} (hsame : SameLineage o m)
    (hwhole : Whole bytes) (hlength : bytes.length = o.length)
    (hlength' : (bytes ++ tail).length = m.length)
    (htail : decodeChain P tail m o.sequence o.digest = .ok fresh) :
    decode P (bytes ++ tail) m = .ok (ts ++ fresh) ↔ decode P bytes o = .ok ts := by
  obtain ⟨hwhole', hlines⟩ := decodeChain_eq_ok_iff.mp htail
  rw [decode_eq_ok_iff, decode_eq_ok_iff, hwhole.split, decodeLines_append,
    ← decodeLines_congr hsame 0 ZERO (splitInclusive bytes)]
  simp only [hlength, hlength', hwhole, hwhole.append hwhole', true_and]
  cases hprefix : decodeLines P o 0 ZERO (splitInclusive bytes) with
  | error e => simp
  | ok r =>
      obtain ⟨s, p, us⟩ := r
      simp only [Except.ok.injEq, Prod.mk.injEq]
      constructor
      · intro h
        obtain ⟨⟨s', p', rest⟩, hrest, heq⟩ := Checks.map_eq_ok_iff.mp h
        simp only [Prod.mk.injEq] at heq
        obtain ⟨rfl, rfl, hts⟩ := heq
        -- both decodings of the tail begin at one head
        have hhead : s = o.sequence ∧ p = o.digest := by
          cases hsplit : splitInclusive tail with
          | nil =>
              rw [hsplit] at hrest hlines
              simp only [decodeLines, Except.ok.injEq, Prod.mk.injEq] at hrest hlines
              exact ⟨hrest.1.trans hlines.1.symm, hrest.2.1.trans hlines.2.1.symm⟩
          | cons line lines =>
              rw [hsplit] at hrest hlines
              exact head_of_decodeLines hrest hlines
        obtain ⟨rfl, rfl⟩ := hhead
        rw [hlines] at hrest
        simp only [Except.ok.injEq, Prod.mk.injEq, true_and] at hrest
        rw [← hrest] at hts
        exact ⟨rfl, rfl, List.append_cancel_right hts⟩
      · rintro ⟨rfl, rfl, rfl⟩
        rw [hlines]
        rfl

/-! ## The last digest -/

/-- Frames of one digest are one frame. -/
theorem frame_eq_of_hash_eq (hsha : Function.Injective P.sha256) {f g : Frame}
    (h : f.hash P = g.hash P) : { f with digest := "" } = { g with digest := "" } :=
  toValue_injective (Json.toVec_injective P.toFloatText (hsha h))

/-- **The last digest fixes the history**: induction from the last frame backwards. -/
theorem eq_of_historyOf_digest (hsha : Function.Injective P.sha256) {ts us : List Json}
    (hlength : ts.length = us.length) (h : (historyOf P m ts).2 = (historyOf P o us).2) :
    ts = us ∧ (ts ≠ [] → m.format = o.format) := by
  induction ts using List.reverseRecOn generalizing us with
  | nil => exact ⟨(List.length_eq_zero_iff.mp hlength.symm).symm, fun hne => absurd rfl hne⟩
  | append_singleton ts t ih =>
      rcases List.eq_nil_or_concat us with rfl | ⟨us, u, rfl⟩
      · simp at hlength
      · rw [List.concat_eq_append] at hlength h ⊢
        simp only [List.length_append, List.length_singleton, Nat.add_right_cancel_iff] at hlength
        rw [historyOf_append_singleton, historyOf_append_singleton] at h
        have hframe := frame_eq_of_hash_eq hsha h
        simp only [Manifest.frame, Frame.mk.injEq] at hframe
        obtain ⟨hformat, -, -, -, hprevious, htransaction, -⟩ := hframe
        obtain ⟨rfl, -⟩ := ih hlength hprevious
        exact ⟨by rw [htransaction], fun _ => hformat⟩

end Eventlog.File
