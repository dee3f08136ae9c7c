import Eventlog.Core.Types
import Eventlog.Durable.Program

/-!
# Eventlog.File.Disk

The directory of a File store, and the file operations the store performs on it.

A completed operation persists and `rename` is atomic; `fsync` therefore changes nothing
here.  Every file carries the inode metadata a `Stamp` is made of, so that what a handle
decides from an unchanged stamp can be stated.

What the store reads is `Disk.read`; each operation comes with an equation that says what
is read after it.
-/

namespace Eventlog.File

open Durable

/-! ## The directory -/

/-- The names a File store uses under its root. -/
inductive Path where
  /-- `store.json`, which only a Tree store has. -/
  | storeJson
  | lock
  | manifest
  | events
  | appendIntent
  | privacyIntent
  | privacyNext
  /-- `.write-<id>`. -/
  | staging (id : String)
  /-- `segments/<index>.jsonl`. -/
  | segment (index : Nat)
  /-- `blobs/<id>`. -/
  | object (id : String)
  /-- `.cache/<name>`. -/
  | snapshot (name : String)
  deriving DecidableEq

/-- The inode metadata the kernel moves whenever a file's bytes change. -/
structure Stamp where
  ino : Nat
  len : Nat
  mtime : Int
  ctime : Int
  deriving DecidableEq

/-- A regular file. -/
structure FileData where
  bytes : Bytes
  ino : Nat
  mtime : Int
  ctime : Int
  deriving DecidableEq

def FileData.stamp (f : FileData) : Stamp where
  ino := f.ino
  len := f.bytes.length
  mtime := f.mtime
  ctime := f.ctime

/-- A store's directory, with the clock that stamps its files, the next inode and the
    number of identifiers drawn so far. -/
structure Disk where
  files : AList fun _ : Path => FileData
  segments : Bool
  blobs : Bool
  inodes : Nat
  clock : Int
  drawn : Nat

namespace Disk

/-- The bytes of a file. -/
def read (d : Disk) (p : Path) : Option Bytes :=
  (d.files.lookup p).map FileData.bytes

/-- `Path::exists`. -/
def has (d : Disk) (p : Path) : Bool :=
  (d.read p).isSome

/-- `Stamp::of`. -/
def stamp (d : Disk) (p : Path) : Option Stamp :=
  (d.files.lookup p).map FileData.stamp

/-- Every name present, in the order a listing gives them. -/
def paths (d : Disk) : List Path :=
  d.files.keys

theorem mem_paths {d : Disk} {p : Path} : p ∈ d.paths ↔ (d.read p).isSome := by
  rw [paths, ← AList.mem_keys, ← AList.lookup_isSome, read, Option.isSome_map]

/-- Puts a file under a name. -/
def set (d : Disk) (p : Path) (f : FileData) : Disk :=
  { d with files := d.files.insert p f }

/-- Takes a name away. -/
def erase (d : Disk) (p : Path) : Disk :=
  { d with files := d.files.erase p }

theorem read_set (d : Disk) (p : Path) (f : FileData) :
    (d.set p f).read = Function.update d.read p (some f.bytes) := by
  funext q
  by_cases h : q = p
  · subst h; simp [read, set]
  · simp [read, set, AList.lookup_insert_ne h, Function.update_of_ne h]

theorem read_erase (d : Disk) (p : Path) :
    (d.erase p).read = Function.update d.read p none := by
  funext q
  by_cases h : q = p
  · subst h; simp [read, erase]
  · simp [read, erase, AList.lookup_erase_ne h, Function.update_of_ne h]

/-! ## Operations -/

/-- The failure of an operation on a name that is not there. -/
def notFound : EventLogError :=
  .Backend "No such file or directory (os error 2)"

/-- The failure of an exclusive creation of a name that is there. -/
def alreadyExists : EventLogError :=
  .Backend "File exists (os error 17)"

/-- A new empty file at `p`. -/
def emptyFile (d : Disk) : FileData where
  bytes := []
  ino := d.inodes
  mtime := d.clock
  ctime := d.clock

/-- A file whose bytes were replaced now. -/
def rewritten (d : Disk) (f : FileData) (bytes : Bytes) : FileData :=
  { f with bytes, mtime := d.clock, ctime := d.clock }

/-- `OpenOptions::create_new`. -/
def createNew (p : Path) (d : Disk) : Except EventLogError Disk :=
  if d.has p then .error alreadyExists
  else .ok { d.set p d.emptyFile with inodes := d.inodes + 1 }

/-- `write_all` at an offset of an open file. -/
def writeAt (p : Path) (offset : Nat) (bytes : Bytes) (d : Disk) : Except EventLogError Disk :=
  match d.files.lookup p with
  | none => .error notFound
  | some f =>
      .ok (d.set p (d.rewritten f
        (f.bytes.take offset ++ bytes ++ f.bytes.drop (offset + bytes.length))))

/-- `File::set_len` to a length the file has. -/
def setLen (p : Path) (length : Nat) (d : Disk) : Except EventLogError Disk :=
  match d.files.lookup p with
  | none => .error notFound
  | some f => .ok (d.set p (d.rewritten f (f.bytes.take length)))

/-- `fs::rename`: atomic, and over whatever had the new name. -/
def rename (p q : Path) (d : Disk) : Except EventLogError Disk :=
  match d.files.lookup p with
  | none => .error notFound
  | some f => .ok ((d.erase p).set q { f with ctime := d.clock })

/-- `fs::remove_file`. -/
def remove (p : Path) (d : Disk) : Except EventLogError Disk :=
  if d.has p then .ok (d.erase p) else .error notFound

/-- `fs::create_dir` of `segments/`. -/
def createSegments (d : Disk) : Except EventLogError Disk :=
  if d.segments then .error alreadyExists else .ok { d with segments := true }

/-- An operation left the directory reading as `content`, and touched nothing else that a
    later operation looks at. -/
structure Became (d d' : Disk) (content : Path → Option Bytes) : Prop where
  read : d'.read = content
  segments : d'.segments = d.segments
  drawn : d'.drawn = d.drawn
  blobs : d'.blobs = d.blobs
  clock : d'.clock = d.clock

theorem createNew_eq_ok {d : Disk} {p : Path} (h : d.read p = none) :
    ∃ d', createNew p d = .ok d' ∧ Became d d' (Function.update d.read p (some [])) :=
  ⟨{ d.set p d.emptyFile with inodes := d.inodes + 1 }, by simp [createNew, has, h],
    read_set d p d.emptyFile, rfl, rfl, rfl, rfl⟩

theorem writeAt_eq_ok {d : Disk} {p : Path} {old : Bytes} (h : d.read p = some old)
    (offset : Nat) (bytes : Bytes) :
    ∃ d', writeAt p offset bytes d = .ok d' ∧ Became d d' (Function.update d.read p
      (some (old.take offset ++ bytes ++ old.drop (offset + bytes.length)))) := by
  obtain ⟨f, hf, rfl⟩ := Option.map_eq_some_iff.mp h
  exact ⟨d.set p (d.rewritten f _), by simp only [writeAt, hf], read_set d p _, rfl, rfl, rfl,
    rfl⟩

theorem setLen_eq_ok {d : Disk} {p : Path} {old : Bytes} (h : d.read p = some old)
    (length : Nat) :
    ∃ d', setLen p length d = .ok d' ∧
      Became d d' (Function.update d.read p (some (old.take length))) := by
  obtain ⟨f, hf, rfl⟩ := Option.map_eq_some_iff.mp h
  exact ⟨d.set p (d.rewritten f _), by simp only [setLen, hf], read_set d p _, rfl, rfl, rfl, rfl⟩

theorem rename_eq_ok {d : Disk} {p : Path} {old : Bytes} (h : d.read p = some old) (q : Path) :
    ∃ d', rename p q d = .ok d' ∧
      Became d d' (Function.update (Function.update d.read p none) q (some old)) := by
  obtain ⟨f, hf, rfl⟩ := Option.map_eq_some_iff.mp h
  refine ⟨(d.erase p).set q { f with ctime := d.clock }, by simp only [rename, hf], ?_, rfl, rfl,
    rfl, rfl⟩
  rw [read_set, read_erase]

theorem remove_eq_ok {d : Disk} {p : Path} {old : Bytes} (h : d.read p = some old) :
    ∃ d', remove p d = .ok d' ∧ Became d d' (Function.update d.read p none) :=
  ⟨d.erase p, by simp [remove, has, h], read_erase d p, rfl, rfl, rfl, rfl⟩

end Disk

/-! ## What recovery sees

A recovery never reads a staging file; it only removes them.  So a directory is looked at
through its `View`, which leaves them out, and each operation is described by what it does
to the view.
-/

/-- A `.write-<id>` name. -/
def Path.isStaging : Path → Bool
  | .staging _ => true
  | _ => false

/-- A directory without its staging files. -/
structure View where
  content : Path → Option Bytes
  segments : Bool

/-- Changes what is under one name. -/
def View.put (v : View) (p : Path) (b : Option Bytes) : View :=
  { v with content := Function.update v.content p b }

@[simp] theorem View.put_content_self (v : View) (p : Path) (b : Option Bytes) :
    (v.put p b).content p = b := by
  simp [View.put]

@[simp] theorem View.put_content_of_ne (v : View) {p q : Path} (b : Option Bytes) (h : q ≠ p) :
    (v.put p b).content q = v.content q := by
  simp [View.put, Function.update_of_ne h]

@[simp] theorem View.put_segments (v : View) (p : Path) (b : Option Bytes) :
    (v.put p b).segments = v.segments := rfl

namespace Disk

/-- The view of a directory. -/
def view (d : Disk) : View where
  content p := if p.isStaging then none else d.read p
  segments := d.segments

theorem Became.view_put {d d' : Disk} {p : Path} {b : Option Bytes}
    (h : Became d d' (Function.update d.read p b)) (hp : p.isStaging = false) :
    d'.view = d.view.put p b := by
  simp only [view, h.read, h.segments, View.put, View.mk.injEq, and_true]
  funext q
  by_cases hq : q = p
  · subst hq; simp [hp]
  · simp [Function.update_of_ne hq]

/-- Changing a staging file changes nothing in view. -/
theorem Became.view_staging {d d' : Disk} {id : String} {b : Option Bytes}
    (h : Became d d' (Function.update d.read (.staging id) b)) : d'.view = d.view := by
  simp only [view, h.read, h.segments, View.mk.injEq, and_true]
  funext q
  by_cases hq : q = .staging id
  · subst hq; simp [Path.isStaging]
  · simp [Function.update_of_ne hq]

/-- Every staging name present was drawn before, so the next one drawn is free. -/
def Drawn (P : Primitives) (d : Disk) : Prop :=
  ∀ id, (d.read (.staging id)).isSome → ∃ n < d.drawn, id = P.eventId n

theorem Drawn.fresh {d : Disk} (h : Drawn P d) : d.read (.staging (P.eventId d.drawn)) = none := by
  cases hr : d.read (.staging (P.eventId d.drawn)) with
  | none => rfl
  | some b =>
      obtain ⟨n, hn, heq⟩ := h (P.eventId d.drawn) (by simp [hr])
      have := P.eventId_injective heq
      omega

/-- Staging names that were there before, or were drawn, keep the count right. -/
theorem Drawn.of_read {d d' : Disk} (h : Drawn P d) (hn : d'.drawn = d.drawn)
    (hread : ∀ id, (d'.read (.staging id)).isSome →
      (d.read (.staging id)).isSome ∨ ∃ n < d.drawn, id = P.eventId n) : Drawn P d' := by
  intro id hid
  rw [hn]
  cases hread id hid with
  | inl hold => exact h id hold
  | inr hnew => exact hnew

theorem Drawn.of_became {d d' : Disk} {p : Path} {b : Option Bytes} (h : Drawn P d)
    (hb : Became d d' (Function.update d.read p b))
    (hp : ∀ id, p = .staging id → ∃ n < d.drawn, id = P.eventId n) : Drawn P d' := by
  refine h.of_read hb.drawn fun id hid => ?_
  by_cases hne : Path.staging id = p
  · exact .inr (hp id hne.symm)
  · rw [hb.read, Function.update_of_ne hne] at hid
    exact .inl hid

/-- A rename can only take a staging name away. -/
theorem Drawn.of_rename {d d' : Disk} {p q : Path} {old : Bytes} (h : Drawn P d)
    (hb : Became d d' (Function.update (Function.update d.read p none) q (some old)))
    (hq : q.isStaging = false) : Drawn P d' := by
  refine h.of_read hb.drawn fun id hid => .inl ?_
  have hne : Path.staging id ≠ q := by rintro rfl; contradiction
  rw [hb.read, Function.update_of_ne hne] at hid
  by_cases heq : Path.staging id = p
  · subst heq; simp at hid
  · rwa [Function.update_of_ne heq] at hid

theorem isStaging_ne {p : Path} (hp : p.isStaging = false) (id : String) : p ≠ .staging id := by
  rintro rfl; contradiction

/-- A rename within view moves the bytes. -/
theorem Became.view_rename {d d' : Disk} {p q : Path} {old : Bytes}
    (hb : Became d d' (Function.update (Function.update d.read p none) q (some old)))
    (hq : q.isStaging = false) : d'.view = (d.view.put p none).put q (some old) := by
  simp only [view, hb.read, hb.segments, View.put, View.mk.injEq, and_true]
  funext r
  by_cases hr : r = q
  · subst hr; simp [hq]
  · by_cases hr' : r = p
    · subst hr'; simp [Function.update_of_ne hr]
    · simp [Function.update_of_ne hr, Function.update_of_ne hr']

theorem view_put_staging (d : Disk) (id : String) : d.view.put (.staging id) none = d.view := by
  simp only [view, View.put, View.mk.injEq, and_true]
  funext r
  by_cases hr : r = .staging id
  · subst hr; simp [Path.isStaging]
  · simp [Function.update_of_ne hr]

end Disk

end Eventlog.File
