import Eventlog.File.Operations
import Eventlog.File.Staging
import Eventlog.File.Store

/-!
# Eventlog.File.Content

Objects and snapshots lie beside the journal.

Nothing the journal does touches them (`Aside`), and nothing their disposal does touches
the journal (`Disposed`).  The first is a frame for every journal program, whichever way it
ends; the second says what `clean_blobs`, `clear_snapshots` and the disposal after a refusal
take away.
-/

namespace Eventlog.File

open Durable Program

variable {P : Primitives}

/-- Objects and snapshots. -/
def Path.isContent : Path → Bool
  | .object _ | .snapshot _ => true
  | _ => false

/-! ## The journal leaves content alone -/

/-- Only the journal's own files may differ. -/
structure Aside (d d' : Disk) : Prop where
  content : ∀ p : Path, p.isContent → d'.read p = d.read p
  blobs : d'.blobs = d.blobs
  clock : d'.clock = d.clock
  drawn : d.drawn ≤ d'.drawn

instance : Std.Refl Aside := ⟨fun _ => ⟨fun _ _ => rfl, rfl, rfl, le_refl _⟩⟩

instance : IsTrans Disk Aside := ⟨fun _ _ _ h h' =>
  ⟨fun p hp => (h'.content p hp).trans (h.content p hp), h'.blobs.trans h.blobs,
    h'.clock.trans h.clock, le_trans h.drawn h'.drawn⟩⟩

/-- The journal's own files. -/
def Path.isJournal : Path → Bool
  | .storeJson | .object _ | .snapshot _ => false
  | _ => true

theorem Path.isJournal_of_isContent {p : Path} (h : p.isContent) : p.isJournal = false := by
  cases p <;> first | rfl | cases h

/-- Only the journal's own files may differ, and they do not become those of a Tree store. -/
structure Beside (d d' : Disk) : Prop extends Aside d d' where
  foreign : d'.read .storeJson = d.read .storeJson

instance : Std.Refl Beside := ⟨fun _ => ⟨Std.Refl.refl _, rfl⟩⟩

instance : IsTrans Disk Beside := ⟨fun _ _ _ h h' =>
  ⟨trans_of Aside h.toAside h'.toAside, h'.foreign.trans h.foreign⟩⟩

theorem Beside.of_became {d d' : Disk} {read : Path → Option Bytes} (h : d.Became d' read)
    (hread : ∀ q : Path, q.isJournal = false → read q = d.read q) : Beside d d' :=
  ⟨⟨fun q hq => by rw [h.read, hread q (Path.isJournal_of_isContent hq)], h.blobs, h.clock,
    le_of_eq h.drawn.symm⟩, by rw [h.read, hread _ rfl]⟩

theorem beside_of_became {d d' : Disk} {p : Path} {b : Option Bytes} (hp : p.isJournal = true)
    (h : d.Became d' (Function.update d.read p b)) : Beside d d' := by
  refine .of_became h fun q hq => ?_
  have hne : q ≠ p := by rintro rfl; rw [hp] at hq; contradiction
  rw [Function.update_of_ne hne]

section Operations

variable {p q : Path}

theorem keeps_createNew (hp : p.isJournal = true) : Keeps Beside (perform (Disk.createNew p)) := by
  refine keeps_perform fun d d' h => ?_
  cases hr : d.read p with
  | some b => simp [Disk.createNew, Disk.has, hr] at h
  | none =>
      obtain ⟨d₁, hok, hb⟩ := Disk.createNew_eq_ok hr
      rw [hok] at h
      cases h
      exact beside_of_became hp hb

theorem keeps_writeAt (hp : p.isJournal = true) (offset : Nat) (bytes : Bytes) :
    Keeps Beside (perform (Disk.writeAt p offset bytes)) := by
  refine keeps_perform fun d d' h => ?_
  cases hr : d.read p with
  | none =>
      have hlookup : d.files.lookup p = none := by simpa [Disk.read] using hr
      simp [Disk.writeAt, hlookup] at h
  | some b =>
      obtain ⟨d₁, hok, hb⟩ := Disk.writeAt_eq_ok hr offset bytes
      rw [hok] at h
      cases h
      exact beside_of_became hp hb

theorem keeps_setLen (hp : p.isJournal = true) (length : Nat) :
    Keeps Beside (perform (Disk.setLen p length)) := by
  refine keeps_perform fun d d' h => ?_
  cases hr : d.read p with
  | none =>
      have hlookup : d.files.lookup p = none := by simpa [Disk.read] using hr
      simp [Disk.setLen, hlookup] at h
  | some b =>
      obtain ⟨d₁, hok, hb⟩ := Disk.setLen_eq_ok hr length
      rw [hok] at h
      cases h
      exact beside_of_became hp hb

theorem keeps_remove (hp : p.isJournal = true) : Keeps Beside (perform (Disk.remove p)) := by
  refine keeps_perform fun d d' h => ?_
  cases hr : d.read p with
  | none => simp [Disk.remove, Disk.has, hr] at h
  | some b =>
      obtain ⟨d₁, hok, hb⟩ := Disk.remove_eq_ok hr
      rw [hok] at h
      cases h
      exact beside_of_became hp hb

theorem keeps_rename (hp : p.isJournal = true) (hq : q.isJournal = true) :
    Keeps Beside (perform (Disk.rename p q)) := by
  refine keeps_perform fun d d' h => ?_
  cases hr : d.read p with
  | none =>
      have hlookup : d.files.lookup p = none := by simpa [Disk.read] using hr
      simp [Disk.rename, hlookup] at h
  | some b =>
      obtain ⟨d₁, hok, hb⟩ := Disk.rename_eq_ok hr q
      rw [hok] at h
      cases h
      refine .of_became hb fun r hother => ?_
      have hne : r ≠ p := by rintro rfl; rw [hp] at hother; contradiction
      have hne' : r ≠ q := by rintro rfl; rw [hq] at hother; contradiction
      rw [Function.update_of_ne hne', Function.update_of_ne hne]

theorem keeps_createSegments : Keeps Beside (perform Disk.createSegments) := by
  refine keeps_perform fun d d' h => ?_
  simp only [Disk.createSegments] at h
  split_ifs at h
  cases h
  exact ⟨⟨fun _ _ => rfl, rfl, rfl, le_refl _⟩, rfl⟩

end Operations

section Journal

theorem newEventId_keeps : Keeps Beside (newEventId P) :=
  (keeps_perform fun _ _ h => by
    cases h
    exact ⟨⟨fun _ _ => rfl, rfl, rfl, Nat.le_succ _⟩, rfl⟩).bind fun _ => keeps_ask _

theorem writeSynced_keeps {p : Path} (hp : p.isJournal = true) (bytes : Bytes) :
    Keeps Beside (writeSynced p bytes) :=
  (keeps_createNew hp).bind fun _ => keeps_writeAt hp 0 bytes

theorem atomicJson_keeps [Serde α] {p : Path} (hp : p.isJournal = true) (value : α) :
    Keeps Beside (atomicJson P p value) :=
  newEventId_keeps.bind fun _ => (writeSynced_keeps rfl _).bind fun _ => keeps_rename rfl hp

theorem sweepUnselected_keeps : Keeps Beside (sweepUnselected P) := by
  have hentries : ∀ entries, Keeps Beside (sweepEntries P entries) := by
    intro entries
    induction entries with
    | nil => exact keeps_done _
    | cons p ps ih =>
        unfold sweepEntries
        split
        · rename_i hp
          have hown : p.isJournal = true := by
            cases p <;> first | rfl | simp [Path.unselected] at hp
          exact (keeps_remove hown).bind fun _ => ih.bind fun _ => keeps_done _
        · exact ih
  exact (keeps_ask _).bind fun entries => hentries entries

theorem sealActive_keeps (m : Manifest) : Keeps Beside (sealActive m) := by
  refine (keeps_ask _).bind fun present => ?_
  have hrest : Keeps Beside (do
      perform (Disk.rename .events (.segment m.sealed.length))
      perform (Disk.createNew .events) : Io Unit) :=
    (keeps_rename rfl rfl).bind fun _ => keeps_createNew rfl
  cases present with
  | true => exact hrest
  | false => exact keeps_createSegments.bind fun _ => hrest

/-- **Appending** leaves content alone. -/
theorem append_keeps (j : Journal) (t : Json) : Keeps Beside (j.append P t) := by
  refine (keeps_ask _).bind fun plan => (keeps_when (keeps_ask _)).bind fun _ =>
    (keeps_ask _).bind fun frame => (atomicJson_keeps rfl _).bind fun _ =>
    (keeps_when (sealActive_keeps _)).bind fun _ => (keeps_writeAt rfl _ _).bind fun _ =>
    (keeps_writeAt rfl _ _).bind fun _ => (atomicJson_keeps rfl _).mapError.bind fun _ =>
    (keeps_remove rfl).mapError.bind fun _ => keeps_done _

theorem undoSeal_keeps (before after : Manifest) (frame : String) (sealed : Bytes) :
    Keeps Beside (undoSeal P before after frame sealed) :=
  (keeps_ask _).bind fun _ => (keeps_when ((keeps_ask _).bind fun _ =>
    keeps_rename rfl rfl)).bind fun _ => keeps_ask _

theorem recoverAppend_keeps (m : Manifest) : Keeps Beside (recoverAppend P m) := by
  refine (keeps_ask _).bind fun intent => ?_
  split
  · exact keeps_fail _
  · split
    · exact keeps_fail _
    · refine (keeps_ask _).bind fun sealed => ?_
      split
      · split
        · exact (undoSeal_keeps _ _ _ _).bind fun _ => keeps_remove rfl
        · exact (keeps_ask _).bind fun _ => keeps_remove rfl
      · exact ((keeps_ask _).bind fun _ => keeps_when (keeps_setLen rfl _)).bind fun _ =>
          keeps_remove rfl

theorem removeSealed_keeps (count : Nat) : Keeps Beside (removeSealed count) := by
  have hloop : ∀ index count, Keeps Beside (removeSegments index count) := by
    intro index count
    induction count generalizing index with
    | zero => exact keeps_done _
    | succ count ih =>
        exact (keeps_ask _).bind fun _ => (keeps_when (keeps_remove rfl)).bind fun _ => ih _
  unfold removeSealed
  split
  · exact keeps_done _
  · exact (hloop 0 count).bind fun _ => keeps_ask _

theorem recoverPrivacy_keeps (m : Manifest) : Keeps Beside (recoverPrivacy P m) := by
  refine (keeps_ask _).bind fun intent => ?_
  split
  · exact keeps_fail _
  · split
    · exact keeps_fail _
    · refine Keeps.bind ?_ fun _ => Keeps.bind ?_ fun _ => keeps_done _
      · refine (keeps_ask _).bind fun events => ?_
        split
        · exact keeps_ask _
        · exact (keeps_ask _).bind fun _ => keeps_rename rfl rfl
      · exact (atomicJson_keeps rfl _).bind fun _ => (removeSealed_keeps _).bind fun _ =>
          (keeps_ask _).bind fun _ => (keeps_when (keeps_remove rfl)).bind fun _ =>
          keeps_remove rfl

/-- **Rewriting** leaves content alone. -/
theorem privacy_keeps (j : Journal) (us : List Json) : Keeps Beside (j.privacy P us) :=
  (keeps_ask _).bind fun _ => (keeps_ask _).bind fun _ =>
    (keeps_when (keeps_remove rfl)).bind fun _ => (writeSynced_keeps rfl _).bind fun _ =>
    (atomicJson_keeps rfl _).bind fun _ => (recoverPrivacy_keeps _).mapError.bind fun _ =>
    keeps_done _

theorem createStore_keeps (layout : Option FileLayout) : Keeps Beside (createStore P layout) := by
  cases layout with
  | none => exact keeps_fail _
  | some layout =>
      refine (keeps_ask _).bind fun orphaned => ?_
      cases orphaned with
      | true => exact keeps_fail _
      | false =>
          exact (keeps_ask _).bind fun _ => newEventId_keeps.bind fun _ =>
            (writeSynced_keeps rfl _).bind fun _ => atomicJson_keeps rfl _

theorem recover_keeps (m : Manifest) : Keeps Beside (recover P m) := by
  refine (keeps_ask _).bind fun both => ?_
  cases both with
  | true => exact keeps_fail _
  | false =>
      refine (keeps_ask _).bind fun rewriting => ?_
      have hrest : ∀ m, Keeps Beside (do
          let appending ← ask fun d => .ok (d.has .appendIntent)
          when appending (recoverAppend P m)
          return m : Io Manifest) := fun m =>
        (keeps_ask _).bind fun _ => (keeps_when (recoverAppend_keeps m)).bind fun _ => keeps_done _
      cases rewriting with
      | true => exact (recoverPrivacy_keeps m).bind fun m => hrest m
      | false => exact (keeps_done m).bind fun m => hrest m

/-- **Opening** leaves content alone. -/
theorem openJournal_keeps (layout : Option FileLayout) : Keeps Beside (openJournal P layout) := by
  have hprovisioned : Keeps Beside (openProvisioned P) :=
    (keeps_ask _).bind fun m => (recover_keeps m).bind fun m => (keeps_ask _).bind fun _ =>
      sweepUnselected_keeps.bind fun _ => keeps_done _
  have hlock : ∀ create, Keeps Beside (takeLock create) := by
    intro create
    refine (keeps_ask _).bind fun present => ?_
    cases present <;> cases create <;>
      first | exact keeps_done _ | exact keeps_fail _ | exact keeps_createNew rfl
  refine (keeps_ask _).bind fun foreign => ?_
  cases foreign with
  | true => exact keeps_fail _
  | false =>
      exact (hlock _).bind fun _ => (keeps_ask _).bind fun _ =>
        (keeps_when (createStore_keeps layout)).bind fun _ => hprovisioned

end Journal

/-! ## Disposal leaves the journal alone -/

/-- The files in `A` are gone, and nothing else has changed. -/
structure Trimmed (A : Path → Prop) (d d' : Disk) : Prop where
  gone : ∀ p, A p → d'.read p = none
  kept : ∀ p, ¬ A p → d'.read p = d.read p
  segments : d'.segments = d.segments
  blobs : d'.blobs = d.blobs
  clock : d'.clock = d.clock
  drawn : d'.drawn = d.drawn

theorem Trimmed.refl (d : Disk) : Trimmed (fun _ => False) d d :=
  ⟨fun _ h => h.elim, fun _ _ => rfl, rfl, rfl, rfl, rfl⟩

theorem Trimmed.trans {A B : Path → Prop} {d₁ d₂ d₃ : Disk} (h : Trimmed A d₁ d₂)
    (h' : Trimmed B d₂ d₃) : Trimmed (fun p => A p ∨ B p) d₁ d₃ := by
  refine ⟨fun p hp => ?_, fun p hp => ?_, h'.segments.trans h.segments, h'.blobs.trans h.blobs,
    h'.clock.trans h.clock, h'.drawn.trans h.drawn⟩
  · by_cases hB : B p
    · exact h'.gone p hB
    · rw [h'.kept p hB]
      exact h.gone p (hp.resolve_right hB)
  · rw [h'.kept p fun hB => hp (.inr hB), h.kept p fun hA => hp (.inl hA)]

theorem Trimmed.congr {A B : Path → Prop} {d d' : Disk} (h : Trimmed A d d')
    (hAB : ∀ p, (d.read p).isSome → (A p ↔ B p)) : Trimmed B d d' := by
  -- where there was nothing there is nothing to tell apart
  have habsent : ∀ p, d.read p = none → d'.read p = none := fun p hp => by
    by_cases hA : A p
    · exact h.gone p hA
    · rw [h.kept p hA, hp]
  refine ⟨fun p hp => ?_, fun p hp => ?_, h.segments, h.blobs, h.clock, h.drawn⟩
  · cases hr : d.read p with
    | none => exact habsent p hr
    | some b => exact h.gone p ((hAB p (by simp [hr])).mpr hp)
  · cases hr : d.read p with
    | none => exact habsent p hr
    | some b => exact (h.kept p fun hA => hp ((hAB p (by simp [hr])).mp hA)).trans hr

theorem trimmed_remove {d d' : Disk} {p : Path}
    (h : d.Became d' (Function.update d.read p none)) : Trimmed (· = p) d d' := by
  refine ⟨fun q hq => ?_, fun q hq => ?_, h.segments, h.blobs, h.clock, h.drawn⟩
  · rw [h.read, hq, Function.update_self]
  · rw [h.read, Function.update_of_ne hq]

/-- A program of disposal: it ends well, and takes the files in `A` away. -/
def Disposes (p : Io Unit) (d : Disk) (A : Path → Prop) : Prop :=
  p.Meets d (fun _ => True) (Returns fun _ d' => Trimmed A d d')

theorem Disposes.congr {p : Io Unit} {d : Disk} {A B : Path → Prop} (h : Disposes p d A)
    (hAB : ∀ q, (d.read q).isSome → (A q ↔ B q)) : Disposes p d B :=
  h.mono (fun _ h => h) fun _ _ ⟨u, hr, ht⟩ => ⟨u, hr, ht.congr hAB⟩

theorem Disposes.bind {p q : Io Unit} {d : Disk} {A B : Path → Prop} (hp : Disposes p d A)
    (hq : ∀ d', Trimmed A d d' → Disposes q d' B) :
    Disposes (p >>= fun _ => q) d fun x => A x ∨ B x := by
  refine Meets.bind (hp.mono (fun _ h => h) ?_)
  rintro r d₁ ⟨u, rfl, ht⟩
  refine ⟨u, rfl, (hq d₁ ht).mono (fun _ h => h) ?_⟩
  rintro r d₂ ⟨u, rfl, ht'⟩
  exact ⟨u, rfl, ht.trans ht'⟩

theorem disposes_done (d : Disk) : Disposes (pure ()) d fun _ => False :=
  meets_done trivial ⟨(), rfl, .refl d⟩

theorem disposes_remove {d : Disk} {p : Path} (h : (d.read p).isSome) :
    Disposes (perform (Disk.remove p)) d (· = p) := by
  obtain ⟨b, hb⟩ := Option.isSome_iff_exists.mp h
  obtain ⟨d', hok, hbecame⟩ := Disk.remove_eq_ok hb
  exact meets_perform hok trivial trivial ⟨(), rfl, trimmed_remove hbecame⟩

theorem disposes_removeIfPresent (d : Disk) (p : Path) :
    Disposes (removeIfPresent p) d (· = p) := by
  refine meets_ask_bind rfl (meets_when trivial (fun hhas => ?_) fun hhas => ⟨(), rfl, ?_⟩)
  · exact disposes_remove hhas
  · refine (Trimmed.refl d).congr fun q hq => ⟨fun h => h.elim, fun h => ?_⟩
    subst h
    rw [Disk.has] at hhas
    rw [hhas] at hq
    contradiction

/-- Disposal of one file after another. -/
theorem disposes_forM {f : γ → Io Unit} {target : γ → Path} (xs : List γ) (d : Disk)
    (h : ∀ x ∈ xs, ∀ d, Disposes (f x) d (· = target x)) :
    Disposes (xs.forM f) d fun p => ∃ x ∈ xs, p = target x := by
  induction xs generalizing d with
  | nil => exact (disposes_done d).congr (by simp)
  | cons x xs ih =>
      refine Disposes.congr ((h x (by simp) d).bind fun d' _ =>
        ih d' fun y hy => h y (by simp [hy])) ?_
      simp

theorem disposes_cleanupStaged (ids : List String) (d : Disk) :
    Disposes (cleanupStaged ids) d fun p => ∃ id ∈ ids, p = .object id :=
  disposes_forM ids d fun id _ d => disposes_removeIfPresent d (.object id)

theorem disposes_discardWritten {ids : List String} {d : Disk} (hids : ∀ id ∈ ids, P.isEventId id)
    (hblobs : d.blobs = true) :
    Disposes (discardWritten P ids) d fun p => ∃ id ∈ ids, p = .object id := by
  refine meets_ask_bind rfl (meets_when trivial (fun _ => ?_) fun h => by simp [hblobs] at h)
  refine disposes_forM ids d fun id hid d => ?_
  refine meets_ask_bind (a := ()) (by simp [validateObject, hids id hid]) ?_
  exact disposes_removeIfPresent d (.object id)

/-- **The disposal after a refusal** takes every object away that the transaction created. -/
theorem disposes_discard {tx : Tx} (hids : ∀ id ∈ tx.written, P.isEventId id)
    (hblobs : tx.written ≠ [] → tx.disk.blobs = true) :
    Disposes (tx.discard P) tx.disk fun p => ∃ id ∈ tx.created, p = .object id := by
  unfold Tx.discard
  refine Disposes.congr ((disposes_cleanupStaged tx.stagedBlobs tx.disk).bind
    (B := fun p => ∃ id ∈ tx.written, p = .object id) fun d' ht => ?_) ?_
  · refine meets_when trivial (fun hsome => ?_) fun hnone => ⟨(), rfl, ?_⟩
    · have hne : tx.written ≠ [] := by simpa using hsome
      exact disposes_discardWritten hids (ht.blobs.trans (hblobs hne))
    · have hnil : tx.written = [] := by simpa using hnone
      exact (Trimmed.refl d').congr (by simp [hnil])
  · intro p _
    simp only [Tx.created, List.mem_append]
    constructor
    · rintro (⟨id, hid, rfl⟩ | ⟨id, hid, rfl⟩)
      · exact ⟨id, .inr hid, rfl⟩
      · exact ⟨id, .inl hid, rfl⟩
    · rintro ⟨id, hid | hid, rfl⟩
      · exact .inr ⟨id, hid, rfl⟩
      · exact .inl ⟨id, hid, rfl⟩

/-! ## What nothing refers to -/

/-- A loop over distinct names, each of which it removes or leaves: what it decides of a
    name it decides from the file under it, which the rounds before have left alone. -/
theorem disposes_entries {f : Path → Io Unit} {D : Path → Prop} (entries : List Path)
    (d : Disk) (hnodup : entries.Nodup)
    (h : ∀ p ∈ entries, ∀ d', d'.read p = d.read p →
      Disposes (f p) d' fun q => q = p ∧ D p) :
    Disposes (entries.forM f) d fun p => p ∈ entries ∧ D p := by
  induction entries generalizing d with
  | nil => exact (disposes_done d).congr (by simp)
  | cons p ps ih =>
      obtain ⟨hp, hps⟩ := List.nodup_cons.mp hnodup
      refine Disposes.congr ((h p (by simp) d rfl).bind
        (B := fun q => q ∈ ps ∧ D q) fun d' ht => ?_) ?_
      · refine ih d' hps fun q hq d'' hread => h q (by simp [hq]) d'' ?_
        have hne : ¬ (q = p ∧ D p) := by
          rintro ⟨rfl, -⟩
          exact hp hq
        rw [hread, ht.kept q hne]
      · intro q _
        constructor
        · rintro (⟨rfl, hd⟩ | ⟨hq, hd⟩)
          · exact ⟨by simp, hd⟩
          · exact ⟨by simp [hq], hd⟩
        · rintro ⟨hq, hd⟩
          rcases List.mem_cons.mp hq with rfl | hq
          · exact .inl ⟨rfl, hd⟩
          · exact .inr ⟨hq, hd⟩

/-- Removing a name, or leaving it. -/
theorem disposes_when_remove {d : Disk} {p : Path} {doomed : Prop} {c : Bool}
    (hp : (d.read p).isSome) (hc : c = true ↔ doomed) :
    Disposes (when c (perform (Disk.remove p))) d fun q => q = p ∧ doomed := by
  refine meets_when trivial (fun htrue => ?_) fun hfalse => ⟨(), rfl, ?_⟩
  · exact (disposes_remove hp).congr fun q _ => by simp [hc.mp htrue]
  · have hnot : ¬ doomed := fun h => by simp [hc.mpr h] at hfalse
    exact (Trimmed.refl d).congr fun q _ => by simp [hnot]

/-- **`clean_blobs`** takes away exactly the objects the state does not refer to. -/
theorem disposes_cleanBlobs (s : State) (d : Disk)
    (hnames : ∀ id, (d.read (.object id)).isSome → P.isEventId id)
    (hblobs : ∀ id, (d.read (.object id)).isSome → d.blobs = true) :
    Disposes (cleanBlobs P s) d fun p => ∃ id, id ∉ s.live ∧ p = .object id := by
  refine meets_ask_bind rfl (meets_when trivial (fun _ => ?_) fun habsent => ⟨(), rfl, ?_⟩)
  · refine meets_ask_bind rfl (Disposes.congr (disposes_entries d.paths d
      (AList.keys_nodup d.files) (D := fun p => ∃ id, id ∉ s.live ∧ p = .object id) ?_) ?_)
    · intro p hp d' hread
      have hp' : (d'.read p).isSome := by rw [hread]; exact Disk.mem_paths.mp hp
      cases p with
      | object id =>
          have hname := hnames id (Disk.mem_paths.mp hp)
          refine meets_ask_bind (a := ()) (by simp [validateObject, hname]) ?_
          exact disposes_when_remove hp' (by simp)
      | _ => exact (disposes_done d').congr (by simp)
    · exact fun p hp => by simp [Disk.mem_paths.mpr hp]
  · refine (Trimmed.refl d).congr fun p hp => ⟨fun h => h.elim, ?_⟩
    rintro ⟨id, -, rfl⟩
    rw [hblobs id hp] at habsent
    contradiction

/-- **`clear_snapshots`** takes away exactly the snapshots of dead generations. -/
theorem disposes_clearSnapshots (s : State) (d : Disk) :
    Disposes (clearSnapshots P s) d fun p =>
      ∃ name, p = .snapshot name ∧ (d.read p).any (s.keeps P) = false := by
  refine meets_ask_bind rfl (Disposes.congr (disposes_entries d.paths d
    (AList.keys_nodup d.files) (D := fun p =>
      ∃ name, p = .snapshot name ∧ (d.read p).any (s.keeps P) = false) ?_) ?_)
  · intro p hp d' hread
    have hp' : (d'.read p).isSome := by rw [hread]; exact Disk.mem_paths.mp hp
    cases p with
    | snapshot name =>
        refine meets_ask_bind rfl (disposes_when_remove hp' ?_)
        rw [hread]
        simp
    | _ => exact (disposes_done d').congr (by simp)
  · exact fun p hp => by simp [Disk.mem_paths.mpr hp]

end Eventlog.File
