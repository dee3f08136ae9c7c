import Eventlog.File.Chaining
import Eventlog.File.Content
import Eventlog.File.Resuming

/-!
# Eventlog.File.Kept

What a handle keeps of a history, and what a resume finds of it, whatever has happened to the files.

`Kept` is what every handle can say of the manifest and the bytes it keeps: they are as long as the
manifest says, and cut into files at the ends of lines.  `Checked` is what the loop of a resume has
seen when it does not give up.  Neither says that the bytes decode.
-/

namespace Eventlog.File

open Durable Program

variable {P : Primitives} {d : Disk} {m o : Manifest}

/-! ## Bytes cut into files -/

/-- Each file of a cut history is empty or ends in a line. -/
def Lined : List Nat → Bytes → Prop
  | [], _ => True
  | n :: lengths, bytes => Whole (bytes.take n) ∧ Lined lengths (bytes.drop n)

/-- The lengths the files of a manifest have. -/
def Manifest.lengths (m : Manifest) : List Nat := m.sealed ++ [m.activeLength]

theorem lined_flatten {parts : List Bytes} (h : ∀ part ∈ parts, Whole part) :
    Lined (parts.map List.length) parts.flatten := by
  induction parts with
  | nil => trivial
  | cons part parts ih =>
      simp only [List.map_cons, List.flatten_cons, Lined, List.take_left', List.drop_left']
      exact ⟨h part (by simp), ih fun q hq => h q (by simp [hq])⟩

theorem Manifest.sum_lengths (h : m.known) : m.lengths.sum = m.length := by
  have := sealed_sum_le h
  simp only [lengths, activeLength, List.sum_append, List.sum_singleton]
  omega

/-- No more of a file was seen than is committed of it. -/
def Fits : List Nat → List Nat → Prop
  | [], _ => True
  | n :: committed, seen => seen.headD 0 ≤ n ∧ Fits committed seen.tail

theorem fits_nil (committed : List Nat) : Fits committed [] := by
  induction committed with
  | nil => trivial
  | cons n committed ih => exact ⟨Nat.zero_le _, ih⟩

/-- Files seen in full, then one seen in part. -/
theorem fits_of_take (seen committed : List Nat) (part : Nat)
    (hseen : committed.take seen.length = seen)
    (hpart : ∀ n, committed[seen.length]? = some n → part ≤ n) : Fits committed (seen ++ [part]) := by
  induction seen generalizing committed with
  | nil =>
      cases committed with
      | nil => trivial
      | cons n committed => exact ⟨hpart n rfl, fits_nil committed⟩
  | cons n seen ih =>
      cases committed with
      | nil => trivial
      | cons c committed =>
          simp only [List.length_cons, List.take_succ_cons, List.cons.injEq] at hseen
          exact ⟨by simp [hseen.1], ih committed hseen.2 fun k hk => hpart k (by simpa using hk)⟩

/-- What a manifest that may extend another has in common with it. -/
structure Extends (o m : Manifest) : Prop where
  same : SameLineage o m
  longer : o.length ≤ m.length
  count : o.sealed.length ≤ m.sealed.length
  sealed : m.sealed.take o.sealed.length = o.sealed
  grown : ∀ n, m.sealed[o.sealed.length]? = some n → o.activeLength ≤ n

theorem extends_of_mayExtend (h : m.mayExtend o) : Extends o m := by
  simp only [Manifest.mayExtend, Bool.and_eq_true, decide_eq_true_eq, beq_iff_eq] at h
  obtain ⟨⟨⟨⟨⟨⟨⟨⟨hformat, hstore⟩, hepoch⟩, -⟩, hlonger⟩, -⟩, hcount⟩, hsealed⟩, hnext⟩ := h
  refine ⟨⟨hformat.symm, hstore.symm, hepoch.symm⟩, hlonger, hcount, hsealed, fun n hn => ?_⟩
  rw [hn] at hnext
  simpa using hnext

theorem Extends.lengths (h : Extends o m) : m.lengths.take o.sealed.length = o.sealed := by
  rw [Manifest.lengths, List.take_append_of_le_length h.count, h.sealed]

/-- **The arithmetic of a resume is in range**: no more was seen of a file than is committed. -/
theorem Extends.fits (h : Extends o m) : Fits m.lengths o.lengths := by
  refine fits_of_take _ _ _ h.lengths fun n hn => ?_
  by_cases hlt : o.sealed.length < m.sealed.length
  · rw [Manifest.lengths, List.getElem?_append_left hlt] at hn
    exact h.grown n hn
  · -- nothing was sealed since: the active file has grown
    have heq : o.sealed.length = m.sealed.length := Nat.le_antisymm h.count (by omega)
    have hall : o.sealed = m.sealed := by
      rw [← h.sealed, heq, List.take_of_length_le (Nat.le_refl _)]
    rw [Manifest.lengths, heq, List.getElem?_concat_length] at hn
    cases hn
    have := h.longer
    rw [Manifest.activeLength, Manifest.activeLength, hall]
    omega

/-! ## What a resume has seen -/

/-- A file that carries a stamp the handle kept holds the bytes it verified then. -/
def Vouched (d : Disk) : List (Nat × Option Stamp) → Bytes → Prop
  | [], _ => True
  | (verified, kept) :: seen, retained =>
      (∀ s p, kept = some s → d.stamp p = some s → d.read p = some (retained.take verified)) ∧
        Vouched d seen (retained.drop verified)

/-- A file whose bytes begin with those that were seen of it; what a sealed one has gained ends in a
    line. -/
structure CheckedFile (d : Disk) (file : Path × Nat × Bool) (verified : Nat) (retained : Bytes)
    (bytes : Bytes) : Prop where
  read : d.read file.1 = some bytes
  length : bytes.length = file.2.1
  seen : bytes.take verified = retained.take verified
  line : file.2.2 = true → verified < bytes.length → EndsInLine (bytes.drop verified)

/-- The files of a history, each checked against what of the kept bytes it should begin with. -/
inductive Checked (d : Disk) :
    List (Path × Nat × Bool) → List Nat → Bytes → List Bytes → Prop
  | nil {seen : List Nat} {retained : Bytes} : Checked d [] seen retained []
  | cons {file : Path × Nat × Bool} {files : List (Path × Nat × Bool)} {seen : List Nat}
      {retained bytes : Bytes} {parts : List Bytes}
      (hfile : CheckedFile d file (seen.headD 0) retained bytes)
      (hfiles : Checked d files seen.tail (retained.drop (seen.headD 0)) parts) :
      Checked d (file :: files) seen retained (bytes :: parts)

/-- The loop over the files, when it does not give up, has checked them all, and returns what they
    have gained. -/
theorem checked_of_resumeFiles {files : List (Path × Nat × Bool)} {seen : List (Nat × Option Stamp)}
    {retained tail : Bytes} {stamps : List (Option Stamp)}
    (h : resumeFiles d files seen retained = .ok (some (tail, stamps)))
    (hvouched : Vouched d seen retained)
    (hfits : Fits (files.map fun f => f.2.1) (seen.map Prod.fst))
    (hkept : (seen.map Prod.fst).sum ≤ retained.length) :
    ∃ parts, Checked d files (seen.map Prod.fst) retained parts ∧
      tail = tailOf parts (seen.map Prod.fst) := by
  induction files generalizing seen retained tail stamps with
  | nil =>
      simp only [resumeFiles, Except.ok.injEq, Option.some.injEq, Prod.mk.injEq] at h
      exact ⟨[], .nil, h.1.symm⟩
  | cons file files ih =>
      obtain ⟨path, committed, isSealed⟩ := file
      have hhead : (seen.map Prod.fst).headD 0 = (seen.headD (0, none)).1 := by
        cases seen <;> rfl
      have hrest : Vouched d seen.tail (retained.drop (seen.headD (0, none)).1) := by
        cases seen with
        | nil => trivial
        | cons s seen => exact hvouched.2
      have hroom : (seen.headD (0, none)).1 ≤ retained.length ∧ (seen.tail.map Prod.fst).sum ≤
          (retained.drop (seen.headD (0, none)).1).length := by
        cases seen with
        | nil => simp
        | cons s seen =>
            simp only [List.map_cons, List.sum_cons] at hkept
            simp only [List.headD_cons, List.tail_cons, List.length_drop]
            omega
      simp only [List.map_cons, Fits, hhead, ← List.map_tail] at hfits
      unfold resumeFiles at h
      dsimp only at h
      split at h
      · -- vouched for by its stamp, and seen in full
        rename_i hskip
        simp only [Bool.and_eq_true, beq_iff_eq] at hskip
        obtain ⟨⟨hsome, hstamp⟩, hfull⟩ := hskip
        obtain ⟨r, hr, hmap⟩ := Checks.map_eq_ok_iff.mp h
        obtain ⟨⟨tail', stamps'⟩, rfl, heq⟩ := Option.map_eq_some_iff.mp hmap
        obtain ⟨rfl, -⟩ := Prod.mk.inj heq
        obtain ⟨parts, hchecked, rfl⟩ := ih hr hrest hfits.2 hroom.2
        have hread : d.read path = some (retained.take (seen.headD (0, none)).1) := by
          cases seen with
          | nil => simp at hsome
          | cons s seen =>
              obtain ⟨stamp, hkeptstamp⟩ := Option.isSome_iff_exists.mp hsome
              exact hvouched.1 stamp path hkeptstamp (hstamp ▸ hkeptstamp)
        have hlength : (retained.take (seen.headD (0, none)).1).length = committed := by
          rw [List.length_take, Nat.min_eq_left hroom.1, hfull]
        refine ⟨_ :: parts, .cons ⟨hread, hlength, ?_, fun _ hlt => ?_⟩ ?_, ?_⟩
        · rw [hhead, List.take_take, Nat.min_self]
        · rw [hhead, hlength, hfull] at hlt
          exact absurd hlt (Nat.lt_irrefl _)
        · rw [hhead, ← List.map_tail]
          exact hchecked
        · rw [tailOf, hhead, ← List.map_tail, List.drop_of_length_le (by simp), List.nil_append]
      · obtain ⟨bytes, hbytes, h⟩ := Checks.bind_eq_ok_iff.mp h
        have hread : d.read path = some bytes := by
          unfold Disk.readFile at hbytes
          split at hbytes
          · rename_i hsome
            rw [hsome, Except.ok.inj hbytes]
          · cases hbytes
        by_cases hprefix : bytes.take (seen.headD (0, none)).1 = retained.take (seen.headD (0, none)).1
        swap
        · rw [if_pos hprefix] at h
          cases h
        rw [if_neg (not_not.mpr hprefix)] at h
        split at h
        · cases h
        rename_i hgained
        split at h
        · cases h
        rename_i hline
        rw [ne_eq, not_not] at hgained
        obtain ⟨r, hr, hmap⟩ := Checks.map_eq_ok_iff.mp h
        obtain ⟨⟨tail', stamps'⟩, rfl, heq⟩ := Option.map_eq_some_iff.mp hmap
        obtain ⟨rfl, -⟩ := Prod.mk.inj heq
        obtain ⟨parts, hchecked, rfl⟩ := ih hr hrest hfits.2 hroom.2
        have hlong : (seen.headD (0, none)).1 ≤ bytes.length := by
          have := congrArg List.length hprefix
          simp only [List.length_take] at this
          omega
        have hlength : bytes.length = committed := by
          have := hfits.1
          simp only [List.length_take, List.length_drop] at hgained
          omega
        have hpart : (bytes.drop (seen.headD (0, none)).1).take
            (committed - (seen.headD (0, none)).1 + 1) = bytes.drop (seen.headD (0, none)).1 :=
          List.take_of_length_le (by rw [List.length_drop]; omega)
        rw [hpart] at hline
        refine ⟨bytes :: parts, .cons ⟨hread, hlength, ?_, fun hsealed hlt => ?_⟩ ?_, ?_⟩
        · rw [hhead]
          exact hprefix
        · rw [hhead] at hlt ⊢
          have hgrown : committed - (seen.headD (0, none)).1 > 0 := by omega
          simp only at hsealed
          simp only [hsealed, hgrown, decide_true, Bool.and_self, Bool.true_and, decide_eq_true_eq,
            not_not, ne_eq] at hline
          exact hline
        · rw [hhead, ← List.map_tail]
          exact hchecked
        · rw [tailOf, hhead, ← List.map_tail, hpart]

/-- What is known of a file once it is checked: it holds its committed bytes, and a sealed one ends
    in a line. -/
def Holds (d : Disk) (file : Path × Nat × Bool) (bytes : Bytes) : Prop :=
  d.read file.1 = some bytes ∧ bytes.length = file.2.1 ∧ (file.2.2 = true → EndsInLine bytes)

theorem Checked.holds {files : List (Path × Nat × Bool)} {seen : List Nat} {retained : Bytes}
    {parts : List Bytes} (h : Checked d files seen retained parts) (hlined : Lined seen retained)
    (hpos : ∀ f ∈ files, f.2.2 = true → 0 < f.2.1) : List.Forall₂ (Holds d) files parts := by
  induction h with
  | nil => exact .nil
  | @cons file files seen retained bytes parts hfile hfiles ih =>
      have htail : Lined seen.tail (retained.drop (seen.headD 0)) := by
        cases seen with
        | nil => trivial
        | cons n seen => exact hlined.2
      refine .cons ⟨hfile.read, hfile.length, fun hsealed => ?_⟩
        (ih htail fun f hf => hpos f (List.mem_cons_of_mem _ hf))
      by_cases hlt : seen.headD 0 < bytes.length
      · have := (hfile.line hsealed hlt).append (bytes.take (seen.headD 0))
        rwa [List.take_append_drop] at this
      · -- nothing was gained: the file is one of those the handle saw
        have hnonempty := hpos file List.mem_cons_self hsealed
        have hlength := hfile.length
        have hall := hfile.seen
        rw [List.take_of_length_le (Nat.not_lt.mp hlt)] at hall
        cases seen with
        | nil =>
            simp only [List.headD_nil] at hlt
            omega
        | cons n seen =>
            rcases hlined.1 with hnil | hends
            · rw [List.headD_cons, hnil] at hall
              rw [hall, List.length_nil] at hlength
              omega
            · rw [hall]
              exact hends

/-- The files hold what was kept, and behind it what they have gained. -/
theorem Checked.flatten_eq {files : List (Path × Nat × Bool)} {seen : List Nat} {part : Nat}
    {retained : Bytes} {parts : List Bytes} (h : Checked d files (seen ++ [part]) retained parts)
    (hseen : (parts.map List.length).take seen.length = seen) (hshort : seen.length < parts.length)
    (hlength : retained.length = seen.sum + part) :
    parts.flatten = retained ++ tailOf parts (seen ++ [part]) := by
  induction seen generalizing files retained parts with
  | nil =>
      cases h with
      | nil => simp at hshort
      | @cons file files _ _ bytes parts hfile hfiles =>
          have hshort' : retained.length ≤ part := by simpa using Nat.le_of_eq hlength
          have hall : bytes.take part = retained := by
            rw [← List.take_of_length_le hshort']
            exact hfile.seen
          simp only [List.nil_append, tailOf, List.headD_cons, List.tail_cons, tailOf_nil,
            List.flatten_cons]
          rw [← hall, ← List.append_assoc, List.take_append_drop]
  | cons n seen ih =>
      cases h with
      | nil => simp at hshort
      | @cons file files _ _ bytes parts hfile hfiles =>
          simp only [List.map_cons, List.length_cons, List.take_succ_cons, List.cons.injEq] at hseen
          have hall := hfile.seen
          simp only [List.cons_append, List.headD_cons, List.tail_cons, List.sum_cons] at hall hfiles hlength
          have hrest := ih hfiles hseen.2 (by simpa using hshort)
            (by rw [List.length_drop]; omega)
          rw [List.take_of_length_le (Nat.le_of_eq hseen.1)] at hall
          simp only [List.cons_append, tailOf, List.headD_cons, List.tail_cons, List.flatten_cons,
            hrest]
          rw [List.drop_of_length_le (Nat.le_of_eq hseen.1), List.nil_append, hall,
            ← List.append_assoc, List.take_append_drop]

/-! ## The files of a manifest -/

theorem Manifest.files_lengths (m : Manifest) : m.files.map (fun f => f.2.1) = m.lengths := by
  simp [files, lengths, Function.comp_def]

theorem Manifest.files_pos (h : m.known) : ∀ f ∈ m.files, f.2.2 = true → 0 < f.2.1 := by
  intro f hf hsealed
  rcases List.mem_append.mp hf with hseg | hevents
  · obtain ⟨⟨n, i⟩, hmem, rfl⟩ := List.mem_map.mp hseg
    have hn : n ∈ m.sealed := (List.mem_zipIdx hmem).2.2 ▸ List.getElem_mem _
    unfold Manifest.known at h
    unfold Manifest.sealed at hn
    cases hs : m.segments with
    | none => simp [hs] at hn
    | some segments =>
        simp only [hs, Bool.and_eq_true, List.all_eq_true, decide_eq_true_eq] at h hn
        exact h.1.1.2 n hn
  · rw [List.mem_singleton.mp hevents] at hsealed
    cases hsealed

theorem lengths_of_holds {parts : List Bytes} (h : List.Forall₂ (Holds d) m.files parts) :
    parts.map List.length = m.lengths := by
  rw [← Manifest.files_lengths]
  generalize m.files = files at h
  induction h with
  | nil => rfl
  | cons hfile _ ih => simp only [List.map_cons, hfile.2.1, ih]

/-- The sealed segments and the active file, if every file of a manifest holds its part. -/
theorem holds_files {parts : List Bytes} (h : List.Forall₂ (Holds d) m.files parts) :
    ∃ sealed active, parts = sealed ++ [active] ∧ m.sealed = sealed.map List.length ∧
      (∀ i, (hi : i < sealed.length) → d.read (.segment i) = some sealed[i]) ∧
      (∀ part ∈ sealed, EndsInLine part) ∧
      d.read .events = some active ∧ active.length = m.activeLength := by
  obtain ⟨sealed, active, rfl⟩ : ∃ sealed active, parts = sealed ++ [active] := by
    rcases List.eq_nil_or_concat parts with rfl | ⟨sealed, active, rfl⟩
    · have := h.length_eq
      simp [Manifest.files] at this
    · exact ⟨sealed, active, List.concat_eq_append⟩
  have hcount : m.sealed.length = sealed.length := by
    have := h.length_eq
    simpa [Manifest.files] using this
  rw [List.forall₂_iff_get] at h
  have hget (i : Nat) (hi : i < sealed.length) :
      Holds d (.segment i, m.sealed.get ⟨i, by omega⟩, true) sealed[i] := by
    have := h.2 i (by simp [Manifest.files]; omega) (by simp; omega)
    simpa [Manifest.files, List.getElem_append_left, hi, hcount] using this
  refine ⟨sealed, active, rfl, ?_, fun i hi => (hget i hi).1, ?_, ?_⟩
  · refine List.ext_getElem (by simp [hcount]) fun i h₁ h₂ => ?_
    have := (hget i (by simpa using h₂)).2.1
    simpa using this.symm
  · intro part hpart
    obtain ⟨i, hi, rfl⟩ := List.getElem_of_mem hpart
    exact (hget i hi).2.2 rfl
  · have := h.2 sealed.length (by simp [Manifest.files, hcount]) (by simp)
    simp only [Manifest.files, List.get_eq_getElem, List.getElem_append_right, List.length_map,
      List.length_zipIdx, hcount, Nat.le_refl, Nat.sub_self, List.getElem_singleton] at this
    exact ⟨this.1, this.2.1⟩

/-- A complete read of files that hold their parts decodes them. -/
theorem readCommitted_of_holds {parts : List Bytes} (h : List.Forall₂ (Holds d) m.files parts)
    (hdir : m.sealed ≠ [] → d.segments = true) (hlisted : unexplainedSegments d m = false) :
    ∃ content : Content, content.bytes = parts.flatten ∧
      readCommitted P m d = (decode P parts.flatten m).map fun ts => (ts, content) := by
  obtain ⟨sealed, active, rfl, hsealed, hread, hline, hevents, hactive⟩ := holds_files h
  obtain ⟨stamps, hstamps⟩ := readSealed_eq_ok hread
    (fun hne => hdir (by simpa [hsealed] using hne)) hline hsealed
  refine ⟨⟨sealed.flatten ++ active, d.trusted .events, stamps⟩, by simp, ?_⟩
  simp only [readCommitted, Disk.readFile, hevents, hstamps, hlisted, bind, Except.bind, ← hactive,
    List.take_length, lt_irrefl, if_false, Bool.false_eq_true, List.flatten_append,
    List.flatten_cons, List.flatten_nil, List.append_nil]
  cases decode P (sealed.flatten ++ active) m <;> rfl

/-! ## Handles -/

/-- What a handle keeps: bytes as long as its manifest says, cut at the ends of lines. -/
structure Kept (j : Journal) : Prop where
  known : j.manifest.known
  length : j.content.bytes.length = j.manifest.length
  lined : Lined j.manifest.lengths j.content.bytes
  sequence : j.manifest.sequence = j.transactions.length

theorem Lined.whole {lengths : List Nat} {bytes : Bytes} (h : Lined lengths bytes)
    (hsum : bytes.length = lengths.sum) : Whole bytes := by
  induction lengths generalizing bytes with
  | nil => exact .inl (List.eq_nil_of_length_eq_zero hsum)
  | cons n lengths ih =>
      have htail := ih h.2 (by rw [List.length_drop]; simp only [List.sum_cons] at hsum; omega)
      have := h.1.append htail
      rwa [List.take_append_drop] at this

theorem Kept.whole {j : Journal} (h : Kept j) : Whole j.content.bytes :=
  h.lined.whole (by rw [h.length, Manifest.sum_lengths h.known])

/-- A whole history whose sealed parts end in lines is lined. -/
theorem lined_of_parts {sealed : List Bytes} {active : Bytes}
    (hsealed : m.sealed = sealed.map List.length) (hactive : active.length = m.activeLength)
    (hline : ∀ part ∈ sealed, EndsInLine part) (hwhole : Whole (sealed ++ [active]).flatten) :
    Lined m.lengths (sealed ++ [active]).flatten := by
  have hlengths : m.lengths = (sealed ++ [active]).map List.length := by
    simp [Manifest.lengths, hsealed, hactive]
  rw [hlengths]
  refine lined_flatten fun part hpart => ?_
  rcases List.mem_append.mp hpart with hmem | hmem
  · exact .inr (hline part hmem)
  · rw [List.mem_singleton.mp hmem]
    rcases hwhole with hnil | hends
    · simp only [List.flatten_append, List.append_eq_nil_iff, List.flatten_cons] at hnil
      exact .inl hnil.2.1
    · by_cases hne : active = []
      · exact .inl hne
      · refine .inr ?_
        have : (sealed ++ [active]).flatten = sealed.flatten ++ active := by simp
        rw [EndsInLine, this, List.getLast?_append_of_ne_nil _ hne] at hends
        exact hends

theorem lined_of_holds {parts : List Bytes} (h : List.Forall₂ (Holds d) m.files parts)
    (hwhole : Whole parts.flatten) : Lined m.lengths parts.flatten := by
  obtain ⟨sealed, active, rfl, hsealed, -, hline, -, hactive⟩ := holds_files h
  exact lined_of_parts hsealed hactive hline hwhole

theorem known_of_readManifest (h : readManifest P d = .ok m) : m.known := by
  obtain ⟨bytes, -, h⟩ := Checks.bind_eq_ok_iff.mp h
  split at h
  · split_ifs at h with hknown
    obtain rfl := Except.ok.inj h
    exact hknown
  · cases h

/-- What a resume that returns something has found. -/
structure Found (P : Primitives) (d : Disk) (o : Manifest) (c : Content) (m : Manifest)
    (fresh : List Json) (c' : Content) (tail : Bytes) (parts : List Bytes) : Prop where
  pending : pendingIntent d = false
  manifest : readManifest P d = .ok m
  extending : Extends o m
  directory : m.sealed ≠ [] → d.segments = true
  listed : unexplainedSegments d m = false
  holds : List.Forall₂ (Holds d) m.files parts
  bytes : parts.flatten = c.bytes ++ tail
  content : c'.bytes = c.bytes ++ tail
  chains : decodeChain P tail m o.sequence o.digest = .ok fresh

theorem found_of_resumed {ts : List Json} {c c' : Content} {fresh : List Json}
    (hkept : Kept ⟨o, ts, c⟩) (hvouched : Vouched d (observedFiles o c) c.bytes)
    (h : resumedCommitted P o c d = .ok (some (m, fresh, c'))) :
    ∃ tail parts, Found P d o c m fresh c' tail parts := by
  unfold resumedCommitted at h
  split at h
  · cases h
  rename_i hpending
  obtain ⟨n, hmanifest, h⟩ := Checks.bind_eq_ok_iff.mp h
  split at h
  · cases h
  rename_i hextends
  split at h
  · cases h
  rename_i hdirectory
  split at h
  · cases h
  rename_i hlisted
  obtain ⟨events, hevents, h⟩ := Checks.bind_eq_ok_iff.mp h
  split at h
  · cases h
  obtain ⟨r, hr, hmap⟩ := Checks.map_eq_ok_iff.mp h
  obtain ⟨⟨fresh', content'⟩, rfl, heq⟩ := Option.map_eq_some_iff.mp hmap
  simp only [Prod.mk.injEq] at heq
  obtain ⟨rfl, rfl, rfl⟩ := heq
  have hmay : Extends o n := by
    refine extends_of_mayExtend ?_
    by_contra hnot
    exact hextends (by simp [hnot])
  obtain ⟨files, hfiles, hrest⟩ := Checks.bind_eq_ok_iff.mp hr
  cases files with
  | none => cases hrest
  | some files =>
      obtain ⟨tail, stamps⟩ := files
      simp only at hrest
      split at hrest
      · cases hrest
      rename_i fresh'' hchains
      simp only [Except.ok.injEq, Option.some.injEq, Prod.mk.injEq] at hrest
      obtain ⟨rfl, rfl⟩ := hrest
      have hseen := observedFiles_fst o c
      obtain ⟨parts, hchecked, htail⟩ := checked_of_resumeFiles hfiles hvouched
        (by rw [hseen, Manifest.files_lengths]; exact hmay.fits)
        (by rw [hseen, hkept.length]; exact Nat.le_of_eq (Manifest.sum_lengths hkept.known))
      rw [hseen] at hchecked htail
      have hknown := known_of_readManifest hmanifest
      have hholds := hchecked.holds hkept.lined (Manifest.files_pos hknown)
      refine ⟨tail, parts, ?_, hmanifest, hmay, ?_, ?_, hholds, ?_, rfl, hchains⟩
      · cases hp : pendingIntent d
        · rfl
        · simp [hp] at hpending
      · intro hne
        by_contra hno
        exact hdirectory (by simp [hne, hno])
      · simpa using hlisted
      · rw [htail]
        refine hchecked.flatten_eq ?_ ?_ ?_
        · rw [lengths_of_holds hholds, hmay.lengths]
        · have := hmay.count
          have hcount := congrArg List.length (lengths_of_holds hholds)
          simp only [List.length_map, Manifest.lengths, List.length_append] at hcount
          simp only [List.length_singleton] at hcount
          omega
        · rw [hkept.length, ← Manifest.sum_lengths hkept.known]
          simp [Manifest.lengths]

end Eventlog.File
