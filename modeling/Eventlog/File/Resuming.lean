import Eventlog.File.Opening
import Eventlog.File.Resume

/-!
# Eventlog.File.Resuming

A resume is sound: whatever it decides from stamps and kept bytes, what it returns is the
committed history past the head the handle observed.

The lengths of the manifest alone say where the observed bytes end (`tailOf_flatten`), and
what lies past them decodes to the rest of the history or not at all.
-/

namespace Eventlog.File

open Durable Program

variable {P : Primitives} {m o : Manifest} {ts : List Json} {parts : List Bytes} {active : Bytes}
  {d : Disk}

/-! ## Observed heads -/

/-- `o` was the head of a history that `m` now commits with `ts`. -/
structure Behind (P : Primitives) (o m : Manifest) (ts : List Json) : Prop where
  lineage : SameLineage o m
  short : o.sequence ≤ ts.length
  describes : Describes P o (ts.take o.sequence)

theorem Behind.history (h : Behind P o m ts) :
    historyOf P m (ts.take o.sequence) = historyOf P o (ts.take o.sequence) :=
  (encodeChain_congr P h.lineage 0 ZERO _).symm

theorem behind_self (h : Describes P m ts) : Behind P m m ts where
  lineage := ⟨rfl, rfl, rfl⟩
  short := le_of_eq h.sequence
  describes := by rw [List.take_of_length_le (le_of_eq h.sequence.symm)]; exact h

/-- The history from the observed head on. -/
theorem Behind.rest (h : Behind P o m ts) :
    historyOf P m ts =
      ((historyOf P m (ts.take o.sequence)).1 ++
        (encodeChain P m o.sequence o.digest (ts.drop o.sequence)).1,
        (encodeChain P m o.sequence o.digest (ts.drop o.sequence)).2) := by
  have hlength : (ts.take o.sequence).length = o.sequence := by
    rw [List.length_take, Nat.min_eq_left h.short]
  have happend := encodeChain_append P m 0 ZERO (ts.take o.sequence) (ts.drop o.sequence)
  rw [List.take_append_drop, Nat.zero_add, hlength] at happend
  have hdigest : o.digest = (encodeChain P m 0 ZERO (ts.take o.sequence)).2 := by
    rw [h.describes.digest]
    exact congrArg Prod.snd h.history.symm
  rw [historyOf, happend, hdigest]
  rfl

theorem Behind.length (h : Behind P o m ts) :
    o.length = (historyOf P m (ts.take o.sequence)).1.length := by
  rw [h.describes.length, h.history]

/-! ## What lies past the observed bytes -/

/-- What is left of each file past what was seen of it. -/
def tailOf : List Bytes → List Nat → Bytes
  | [], _ => []
  | b :: bs, seen => b.drop (seen.headD 0) ++ tailOf bs seen.tail

/-- No more was seen of a file than there is. -/
def Within : List Bytes → List Nat → Prop
  | [], _ => True
  | b :: bs, seen => seen.headD 0 ≤ b.length ∧ Within bs seen.tail

theorem within_nil (bs : List Bytes) : Within bs [] := by
  induction bs with
  | nil => trivial
  | cons b bs ih => exact ⟨Nat.zero_le _, ih⟩

theorem tailOf_nil (bs : List Bytes) : tailOf bs [] = bs.flatten := by
  induction bs with
  | nil => rfl
  | cons b bs ih => simp [tailOf, ih]

/-- Files seen in full, then one seen in part, then files not seen: what was seen is a
    prefix of them all. -/
theorem tailOf_flatten (bs : List Bytes) (seen : List Nat) (part : Nat)
    (hseen : (bs.map List.length).take seen.length = seen)
    (hpart : ∀ b, bs[seen.length]? = some b → part ≤ b.length) (hshort : seen.length < bs.length) :
    Within bs (seen ++ [part]) ∧ tailOf bs (seen ++ [part]) = bs.flatten.drop (seen.sum + part) := by
  induction seen generalizing bs with
  | nil =>
      cases bs with
      | nil => simp at hshort
      | cons b bs =>
          have hle : part ≤ b.length := hpart b (by simp)
          refine ⟨⟨hle, within_nil bs⟩, ?_⟩
          simp [tailOf, tailOf_nil, List.drop_append_of_le_length hle]
  | cons n seen ih =>
      cases bs with
      | nil => simp at hshort
      | cons b bs =>
          simp only [List.map_cons, List.length_cons, List.take_succ_cons, List.cons.injEq] at hseen
          obtain ⟨hn, hrest⟩ := hseen
          obtain ⟨hwithin, htail⟩ := ih bs hrest (fun c hc => hpart c (by simpa using hc))
            (by simpa using hshort)
          refine ⟨⟨le_of_eq (by simp [hn]), hwithin⟩, ?_⟩
          have hdrop : (b ++ bs.flatten).drop (n + (seen.sum + part)) =
              bs.flatten.drop (seen.sum + part) := by
            rw [← hn, List.drop_append, List.drop_of_length_le (by omega), List.nil_append]
            congr 1
            omega
          simp only [tailOf, List.cons_append, List.headD_cons, List.tail_cons, htail,
            List.flatten_cons, List.sum_cons]
          rw [Nat.add_assoc, hdrop, ← hn, List.drop_length, List.nil_append]

/-- The loop over the files: it gives up, or it returns what lies past what was seen. -/
theorem resumeFiles_eq (files : List (Path × Bytes × Bool))
    (hread : ∀ f ∈ files, d.read f.1 = some f.2.1) (seen : List (Nat × Option Stamp))
    (hwithin : Within (files.map fun f => f.2.1) (seen.map Prod.fst)) (retained : Bytes) :
    resumeFiles d (files.map fun f => (f.1, f.2.1.length, f.2.2)) seen retained = .ok none ∨
    ∃ stamps, resumeFiles d (files.map fun f => (f.1, f.2.1.length, f.2.2)) seen retained =
      .ok (some (tailOf (files.map fun f => f.2.1) (seen.map Prod.fst), stamps)) := by
  induction files generalizing seen retained with
  | nil => exact .inr ⟨[], rfl⟩
  | cons f files ih =>
      obtain ⟨path, bytes, isSealed⟩ := f
      have hbytes : d.readFile path = .ok bytes := by
        simp [Disk.readFile, hread (path, bytes, isSealed) (by simp)]
      have hhead : (seen.map Prod.fst).headD 0 = (seen.headD (0, none)).1 := by
        cases seen <;> rfl
      simp only [List.map_cons, Within, hhead, ← List.map_tail] at hwithin
      have hpart : ((bytes.drop (seen.headD (0, none)).1).take
          (bytes.length - (seen.headD (0, none)).1 + 1)) = bytes.drop (seen.headD (0, none)).1 :=
        List.take_of_length_le (by rw [List.length_drop]; omega)
      have hrest := ih (fun g hg => hread g (by simp [hg])) seen.tail hwithin.2
        (retained.drop (seen.headD (0, none)).1)
      simp only [List.map_cons, tailOf, hhead, ← List.map_tail]
      unfold resumeFiles
      simp only [hbytes, hpart, bind, Except.bind]
      split
      · -- vouched for by its stamp, and seen in full
        rename_i hskip
        have hfull : bytes.drop (seen.headD (0, none)).1 = [] := by
          simp only [Bool.and_eq_true, beq_iff_eq] at hskip
          rw [hskip.2, List.drop_length]
        rcases hrest with hnone | ⟨stamps, hsome⟩
        · exact .inl (by rw [hnone]; rfl)
        · exact .inr ⟨_, by rw [hsome, hfull]; rfl⟩
      · split
        · exact .inl rfl
        · split
          · exact .inl rfl
          · split
            · exact .inl rfl
            · rcases hrest with hnone | ⟨stamps, hsome⟩
              · exact .inl (by rw [hnone]; rfl)
              · exact .inr ⟨_, by rw [hsome]; rfl⟩

/-! ## Resuming -/

/-- The files of a cut history with what is in them. -/
def cutFiles (parts : List Bytes) (active : Bytes) : List (Path × Bytes × Bool) :=
  (parts.zipIdx.map fun s => (Path.segment s.2, s.1, true)) ++ [(.events, active, false)]

theorem Cut.files_eq (h : Cut P m ts parts active) :
    m.files = (cutFiles parts active).map fun f => (f.1, f.2.1.length, f.2.2) := by
  simp [Manifest.files, cutFiles, h.sealed, h.activeLength, List.zipIdx_map, Function.comp_def]

theorem cutFiles_bytes (parts : List Bytes) (active : Bytes) :
    (cutFiles parts active).map (fun f => f.2.1) = parts ++ [active] := by
  simp [cutFiles, Function.comp_def]

theorem Committed.read_files (h : Committed P d.view m ts parts active) :
    ∀ f ∈ cutFiles parts active, d.read f.1 = some f.2.1 := by
  intro f hf
  rcases List.mem_append.mp hf with hf | hf
  · obtain ⟨⟨b, i⟩, hmem, rfl⟩ := List.mem_map.mp hf
    rw [h.sealedAs.read i]
    exact (List.mk_mem_zipIdx_iff_getElem?.mp hmem)
  · rw [List.mem_singleton.mp hf]
    exact h.events

theorem observedFiles_fst (o : Manifest) (content : Content) :
    (observedFiles o content).map Prod.fst = o.sealed ++ [o.activeLength] := by
  simp [observedFiles, Function.comp_def]

/-- **What a resume reads** is what the history has past the observed head. -/
theorem Behind.tail (hb : Behind P o m ts) (hc : Cut P m ts parts active)
    (hm : m.mayExtend o) :
    Within (parts ++ [active]) (o.sealed ++ [o.activeLength]) ∧
      tailOf (parts ++ [active]) (o.sealed ++ [o.activeLength]) =
        (encodeChain P m o.sequence o.digest (ts.drop o.sequence)).1 := by
  simp only [Manifest.mayExtend, Bool.and_eq_true, decide_eq_true_eq, beq_iff_eq] at hm
  obtain ⟨⟨⟨⟨⟨⟨⟨⟨-, -⟩, -⟩, -⟩, hlen⟩, -⟩, hcount⟩, hsealed⟩, hnext⟩ := hm
  rw [hc.sealed] at hsealed hcount hnext
  have hseen : ((parts ++ [active]).map List.length).take o.sealed.length = o.sealed := by
    rw [List.map_append, List.take_append_of_le_length hcount, hsealed]
  rw [List.length_map] at hcount
  have hsum := sealed_sum_le hb.describes.known
  have hpart : ∀ b, (parts ++ [active])[o.sealed.length]? = some b → o.activeLength ≤ b.length := by
    intro b hget
    by_cases hlt : o.sealed.length < parts.length
    · rw [List.getElem?_append_left hlt] at hget
      rw [List.getElem?_map, hget] at hnext
      simpa using hnext
    · -- nothing was sealed since: the active file has grown
      have heq : o.sealed.length = parts.length := by omega
      have hall : o.sealed = parts.map List.length := by
        rw [← hsealed, heq, List.take_of_length_le (by simp)]
      rw [heq, List.getElem?_concat_length] at hget
      cases hget
      have hactive := hc.activeLength
      rw [Manifest.activeLength, hc.sealed, ← hall] at hactive
      rw [Manifest.activeLength]
      omega
  obtain ⟨hwithin, htail⟩ := tailOf_flatten (parts ++ [active]) o.sealed o.activeLength hseen hpart
    (by simp; omega)
  refine ⟨hwithin, htail.trans ?_⟩
  have hwhole : o.sealed.sum + o.activeLength = o.length := by
    rw [Manifest.activeLength]; omega
  have hbytes : (parts ++ [active]).flatten = (historyOf P m ts).1 := by
    rw [← hc.bytes]; simp
  rw [hwhole, hbytes, hb.rest, hb.length, List.drop_left]

/-- The frames past the observed head, if a resume finds any, are the rest of the
    history. -/
theorem Behind.resumeTail_eq (hb : Behind P o m ts) (hd : Committed P d.view m ts parts active)
    (hm : m.mayExtend o) (hts : Genuine P (ts.drop o.sequence)) (content : Content) :
    resumeTail P m o content d = .ok none ∨ ∃ content', resumeTail P m o content d =
      .ok (some (ts.drop o.sequence, content')) := by
  obtain ⟨hwithin, htail⟩ := hb.tail hd.cut hm
  have hfiles := resumeFiles_eq (cutFiles parts active) hd.read_files (observedFiles o content)
    (by rw [cutFiles_bytes, observedFiles_fst]; exact hwithin) content.bytes
  rw [cutFiles_bytes, observedFiles_fst, htail, ← hd.cut.files_eq] at hfiles
  have hdescribes := hd.cut.describes
  have hsequence : m.sequence = o.sequence + (ts.drop o.sequence).length := by
    have hshort := hb.short
    rw [hdescribes.sequence, List.length_drop]
    omega
  have hdigest : m.digest =
      (encodeChain P m o.sequence o.digest (ts.drop o.sequence)).2 := by
    rw [hdescribes.digest, hb.rest]
  unfold resumeTail
  rcases hfiles with hnone | ⟨stamps, hsome⟩
  · exact .inl (by rw [hnone]; rfl)
  · simp only [hsome, bind, Except.bind]
    cases hdecode : decodeChain P (encodeChain P m o.sequence o.digest (ts.drop o.sequence)).1 m
        o.sequence o.digest with
    | error e => exact .inl rfl
    | ok fresh =>
        obtain ⟨rfl, -⟩ := hts.decodeChain_eq P hsequence hdigest hdescribes.sequence_lt hdecode
        exact .inr ⟨_, rfl⟩

/-- **A resume is sound**: it gives up, or it returns the committed manifest and the
    transactions past the observed head. -/
theorem Behind.resumedCommitted_eq (hb : Behind P o m ts)
    (hd : Committed P d.view m ts parts active) (hts : Genuine P (ts.drop o.sequence))
    (content : Content) :
    resumedCommitted P o content d = .ok none ∨ ∃ content', resumedCommitted P o content d =
      .ok (some (m, ts.drop o.sequence, content')) := by
  have hpending : pendingIntent d = false := by
    simp [pendingIntent, has_eq_false hd.append rfl, has_eq_false hd.privacy rfl]
  have hmanifest := readManifest_eq_ok hd.manifest hd.cut.describes.known
  have hevents : d.readFile .events = .ok active := by
    simp [Disk.readFile, show d.read .events = some active from hd.events]
  have hdirectory : (!m.sealed.isEmpty && !d.segments) = false := by
    by_cases hnil : parts = []
    · simp [hd.cut.sealed, hnil]
    · simp [show d.segments = true from hd.sealedAs.directory hnil]
  unfold resumedCommitted
  simp only [hpending, has_eq_true hd.manifest, hmanifest, hevents, hdirectory,
    hd.sealedAs.not_unexplained hd.cut.sealed, hd.cut.activeLength, bind, Except.bind,
    Bool.not_true, Bool.or_self, Bool.false_eq_true, if_false, ne_eq, not_true_eq_false]
  split
  · exact .inl rfl
  · rename_i hextends
    have hm : m.mayExtend o := by
      by_contra h
      exact hextends (by simp [h])
    rcases hb.resumeTail_eq hd hm hts content with hnone | ⟨content', hsome⟩
    · exact .inl (by rw [hnone]; rfl)
    · exact .inr ⟨content', by rw [hsome]; rfl⟩

end Eventlog.File
