import Eventlog.File.AppendCrash
import Eventlog.File.Handles

/-!
# Eventlog.Contract.Resumption

A resume of the File store against a complete open of the same files.

A resume compares the bytes a handle kept and decodes only what lies behind them.  It refines the
complete open, which decodes everything, exactly if what the handle kept decodes; a handle that has
appended a transaction which does not survive its text resumes on a history nobody can open.
-/

namespace Eventlog.File

open Durable Program

variable {P : Primitives} {j : Journal} {d : Disk} {m : Manifest} {fresh : List Json} {c : Content}

/-- What a resume that returned `m`, `fresh` and `c` should mean for the handle `j`. -/
structure Refined (P : Primitives) (j : Journal) (d : Disk) (m : Manifest) (fresh : List Json)
    (c : Content) : Prop where
  /-- A complete open reads the same history. -/
  opens : ∀ layout, ∃ content, content.bytes = c.bytes ∧
    (openJournal P layout d).result = .ok ⟨m, j.transactions ++ fresh, content⟩
  /-- What is new are the frames after the observed sequence. -/
  fresh : (j.transactions ++ fresh).drop j.manifest.sequence = fresh
  /-- No `committed - verified` underflows and no slice of the kept bytes is out of range. -/
  inRange : Fits m.lengths j.manifest.lengths ∧
    j.manifest.lengths.sum = j.content.bytes.length
  /-- The files still begin with the bytes that were kept. -/
  unchanged : ∃ parts, m.files.mapM (fun f => d.read f.1) = some parts ∧
    parts.flatten.take j.manifest.length = j.content.bytes

/-- The complete open of files in which a resume has found a history. -/
theorem Found.open_result {o : Manifest} {c₀ : Content} {tail : Bytes} {parts : List Bytes}
    (h : Found P d o c₀ m fresh c tail parts) (hforeign : d.has .storeJson = false)
    (hlock : d.has .lock = true) {swept : Bool} (hswept : (sweepUnselected P d).result = .ok swept)
    {ts : List Json} {content : Content} (hread : readCommitted P m d = .ok (ts, content))
    (layout : Option FileLayout) : (openJournal P layout d).result = .ok ⟨m, ts, content⟩ := by
  have hmanifest : d.has .manifest = true := by
    obtain ⟨bytes, hbytes, -⟩ := Checks.bind_eq_ok_iff.mp h.manifest
    unfold Disk.readFile at hbytes
    split at hbytes
    · rename_i hsome
      simp [Disk.has, hsome]
    · cases hbytes
  have hpending := h.pending
  simp only [pendingIntent, Bool.or_eq_false_iff] at hpending
  have hrecover : recover P m d = ⟨[], .ok m⟩ := by
    simp [recover, Bind.bind, andThen, ask, hpending, last, when, pure, done]
  have hprovisioned : (openProvisioned P d).result = .ok ⟨m, ts, content⟩ := by
    simp [openProvisioned, Bind.bind, andThen, ask, h.manifest, hrecover, last, hread, hswept, pure,
      done]
  simp [openJournal, takeLock, Bind.bind, andThen, ask, hforeign, hlock, hmanifest, last, when, pure,
    done, hprovisioned]

theorem mapM_read_of_holds {files : List (Path × Nat × Bool)} {parts : List Bytes}
    (h : List.Forall₂ (Holds d) files parts) : files.mapM (fun f => d.read f.1) = some parts := by
  induction h with
  | nil => rfl
  | cons hfile _ ih => simp [List.mapM_cons, hfile.1, ih]

theorem Found.unchanged {ts : List Json} {o : Manifest} {c₀ : Content} {tail : Bytes}
    {parts : List Bytes} (h : Found P d o c₀ m fresh c tail parts) (hkept : Kept ⟨o, ts, c₀⟩) :
    m.files.mapM (fun f => d.read f.1) = some parts ∧
      parts.flatten.take o.length = c₀.bytes :=
  ⟨mapM_read_of_holds h.holds, by rw [h.bytes, List.take_left' hkept.length]⟩

/-- **A resume refines the complete open** exactly if what the handle kept decodes: for every
    handle, whatever it and others have done and whatever was damaged, as long as files that carry a
    stamp it kept are unchanged. -/
theorem resume_refines_iff (hhandle : Observes P j d)
    (hstamps : Vouched d (observedFiles j.manifest j.content) j.content.bytes)
    (hresume : (resume P j.manifest j.content d).result = .ok (some (m, fresh, c))) :
    Refined P j d m fresh c ↔ decode P j.content.bytes j.manifest = .ok j.transactions := by
  obtain ⟨hkept, hforeign⟩ := hhandle.kept
  obtain ⟨hresumed, hlock, swept, hswept⟩ := resumed_of_resume hresume
  obtain ⟨tail, parts, hfound⟩ := found_of_resumed hkept hstamps hresumed
  have hdecode : decode P (j.content.bytes ++ tail) m = .ok (j.transactions ++ fresh) ↔
      decode P j.content.bytes j.manifest = .ok j.transactions :=
    decode_append_iff hfound.extending.same hkept.whole hkept.length
      (by rw [← hfound.content]; exact (hfound.kept hkept).length) hfound.chains
  constructor
  · intro h
    obtain ⟨content, hbytes, hopen⟩ := h.opens none
    have := (kept_of_open hopen).2
    rw [hbytes, hfound.content] at this
    exact hdecode.mp this
  · intro h
    obtain ⟨content, hbytes, hread⟩ :=
      readCommitted_of_holds (P := P) hfound.holds hfound.directory hfound.listed
    rw [hfound.bytes, hdecode.mpr h] at hread
    refine ⟨fun layout => ⟨content, ?_, hfound.open_result hforeign hlock hswept hread layout⟩, ?_,
      ⟨hfound.extending.fits, ?_⟩, parts, hfound.unchanged hkept⟩
    · rw [hbytes, hfound.bytes, hfound.content]
    · rw [List.drop_left' hkept.sequence.symm]
    · rw [Manifest.sum_lengths hkept.known, hkept.length]

/-! ## A handle that appended to a new store -/

theorem mayExtend_self (m : Manifest) : m.mayExtend m := by
  simp [Manifest.mayExtend]

/-- A history in one file that is as the handle left it is resumed without anything new. -/
theorem Committed.resume_result {ts : List Json} {content : Content} (hd : d.Drawn P)
    (h : Committed P d.view m ts [] content.bytes) :
    ∃ c, (resume P m content d).result = .ok (some (m, [], c)) := by
  have hlock : d.has .lock = true := h.lock
  have hpending : pendingIntent d = false := by
    simp [pendingIntent, has_eq_false h.append rfl, has_eq_false h.privacy rfl]
  have hmanifest := readManifest_eq_ok h.manifest h.cut.describes.known
  have hevents : d.readFile .events = .ok content.bytes := by
    simp [Disk.readFile, show d.read .events = some content.bytes from h.events]
  have hsealed : m.sealed = [] := h.cut.sealed
  have hactive := h.cut.activeLength
  have hlength : content.bytes.length = m.length := by
    rw [← hactive, Manifest.activeLength, hsealed]
    rfl
  obtain ⟨swept, hswept, -⟩ :=
    (sweepUnselected_meets (C := fun _ => True) hd trivial trivial).2
  have hfiles : ∃ stamps, resumeFiles d m.files (observedFiles m content) content.bytes =
      .ok (some ([], stamps)) := by
    simp only [Manifest.files, observedFiles, hsealed, hactive, List.zipIdx_nil, List.map_nil,
      List.nil_append, resumeFiles, List.headD_cons, hevents, bind, Except.bind, List.take_length,
      Nat.sub_self, List.drop_length, List.take_nil, List.length_nil]
    split
    · exact ⟨_, rfl⟩
    · simp [Except.map]
  obtain ⟨stamps, hfiles⟩ := hfiles
  have htail : resumeTail P m m content d =
      .ok (some ([], ⟨content.bytes, stamps.getLast?.join, stamps.dropLast⟩)) := by
    simp [resumeTail, hfiles, bind, Except.bind, decodeChain, splitInclusive, decodeLines]
  have hresumed : resumedCommitted P m content d =
      .ok (some (m, [], ⟨content.bytes, stamps.getLast?.join, stamps.dropLast⟩)) := by
    simp only [resumedCommitted, hpending, has_eq_true h.manifest, hmanifest, hevents, hsealed,
      h.sealedAs.not_unexplained h.cut.sealed, hactive, bind, Except.bind, mayExtend_self,
      hlength, htail, Bool.not_true, Bool.or_self, Bool.false_eq_true, if_false, ne_eq,
      not_true_eq_false, List.isEmpty_nil, Bool.false_and, decide_false, Except.map, Option.map_some]
  refine ⟨⟨content.bytes, stamps.getLast?.join, stamps.dropLast⟩, ?_⟩
  simp only [resume, Bind.bind, andThen, ask, hlock, if_true, last, List.getLastD_nil, hresumed,
    hswept]
  rfl

/-- A transaction appended to a store that was just minted: the handle, the files, and what it
    resumes to. -/
theorem appended_resumes (P : Primitives) {t : Json}
    (hplan : ∃ plan, (mintedManifest FORMAT (P.eventId 0) none).plan P t = .ok plan) :
    ∃ j d c, Observes P j d ∧
      Vouched d (observedFiles j.manifest j.content) j.content.bytes ∧
      (resume P j.manifest j.content d).result = .ok (some (j.manifest, [], c)) ∧
      j.transactions = [t] ∧ d.Drawn P ∧
      Committed P d.view j.manifest [t] [] j.content.bytes := by
  obtain ⟨j, d, hj, rfl, hm, hts, hsettled⟩ := minted_settled (P := P) .Single rfl
  have hminted := (kept_of_open hj).1
  obtain ⟨plan, hplan⟩ := hplan
  rw [← hm] at hplan
  obtain ⟨j', parts', active', hj', hmanifest, htransactions, hd', hc'⟩ :=
    hsettled.committed.append_returns hsettled.drawn hplan
  obtain ⟨plan', hplan', -, -, hbytes, hstamp⟩ := append_returns hj'
  obtain rfl := Except.ok.inj (hplan.symm.trans hplan')
  rw [← hmanifest] at hc'
  have hsealed : j'.manifest.sealed = [] := by
    rw [hmanifest, ((plan_eq_ok_iff P).mp hplan).2.2, hm]
    rfl
  obtain rfl : parts' = [] := by
    have := hc'.cut.sealed
    rw [hsealed] at this
    simpa using this.symm
  have hactive : j'.content.bytes = active' := by
    have hempty : j.content.bytes = [] := by
      refine List.eq_nil_of_length_eq_zero ?_
      rw [hminted.length, hm]
      rfl
    have hcut := hc'.cut.bytes
    rw [hbytes, hempty, List.nil_append]
    simp only [List.flatten_nil, List.nil_append] at hcut
    rw [hcut, hmanifest, ((plan_eq_ok_iff P).mp hplan).2.2, hm]
    exact (List.append_nil _).symm
  subst hactive
  obtain ⟨c, hresume⟩ := hc'.resume_result hd'
  refine ⟨j', _, c, .appends t (.opens _ hj) hj', ?_, hresume, ?_, hd', hc'⟩
  · -- it keeps no stamp
    simp [observedFiles, hsealed, hstamp, Vouched]
  · rw [htransactions, hts]
    rfl

/-- An empty transaction appended to a new store: the handle resumes, and the history opens. -/
theorem resume_refines_iff_appended :
    ∃ j d c, (Refined samplePrimitives j d j.manifest [] c ↔
      decode samplePrimitives j.content.bytes j.manifest = .ok j.transactions) ∧
      Refined samplePrimitives j d j.manifest [] c := by
  obtain ⟨j, d, c, hhandle, hstamps, hresume, hts, -, hcommitted⟩ :=
    appended_resumes samplePrimitives (t := .arr [])
      ⟨_, (plan_eq_ok_iff _).mpr ⟨by decide, by decide +kernel, rfl⟩⟩
  have hiff := resume_refines_iff hhandle hstamps hresume
  refine ⟨j, d, c, hiff, hiff.mpr ?_⟩
  rw [hts]
  refine hcommitted.cut.describes.decode_eq_ok samplePrimitives (fun t ht => ?_) ?_
  · rw [List.mem_singleton.mp ht]
    simp [Survives, Json.Stable, Json.StableItems, Json.depth, Json.depthItems, Json.maxDepth]
  · simpa using hcommitted.cut.bytes

/-- A number that its reader misses: the handle that appended `950.5250979473323` to a new store
    resumes on it, and a complete open of the same files fails. -/
theorem resume_not_refines :
    ∃ j d c, Observes samplePrimitives j d ∧
      Vouched d (observedFiles j.manifest j.content) j.content.bytes ∧
      (resume samplePrimitives j.manifest j.content d).result = .ok (some (j.manifest, [], c)) ∧
      ¬ Refined samplePrimitives j d j.manifest [] c ∧
      ∀ layout, ∃ e, (openJournal samplePrimitives layout d).result = .error e := by
  obtain ⟨j, d, c, hhandle, hstamps, hresume, hts, hdrawn, hcommitted⟩ :=
    appended_resumes samplePrimitives minted_plan_written
  have hfails (layout : Option FileLayout) :
      ∃ e, (openJournal samplePrimitives layout d).result = .error e := by
    have hreads := (hcommitted.open_meets hdrawn layout).2
    unfold Reads at hreads
    split at hreads
    · rename_i us hdecode
      have hdescribes := hcommitted.cut.describes
      obtain ⟨-, hwhole, hlines⟩ := decode_eq_ok_iff.mp hdecode
      have hsurvives := (Genuine.decodeChain_eq samplePrimitives (.inl sampleDigest_injective)
        (by rw [hdescribes.sequence, Nat.zero_add]) hdescribes.digest hdescribes.sequence_lt
        (decodeChain_eq_ok_iff.mpr ⟨hwhole, hlines⟩)).2
      exact absurd (hsurvives _ List.mem_cons_self) not_survives_writtenTransaction
    · exact ⟨_, hreads⟩
  refine ⟨j, d, c, hhandle, hstamps, hresume, fun h => ?_, hfails⟩
  obtain ⟨content, -, hopen⟩ := h.opens none
  obtain ⟨e, he⟩ := hfails none
  rw [hopen] at he
  cases he

end Eventlog.File
