import Eventlog.File.AppendCrash

/-!
# Eventlog.Contract.Creation

Creating a File store, and being cut on the way.

A creating open writes `events.jsonl` before the manifest.  Cut in between, it leaves a directory
that every later open takes for a damaged store: a history without its commit authority
(`Orphaned`).  Cut anywhere else it leaves nothing yet, or the store.
-/

namespace Eventlog.File

open Durable Program

variable {P : Primitives} {d : Disk}

/-- What any number of creating opens leave of an empty directory, each in some layout and each cut
    somewhere. -/
inductive CreationCut (P : Primitives) : Disk → Prop
  | empty {d : Disk} (files : ∀ p, d.read p = none) : CreationCut P d
  | opened {d d' : Disk} (layout : FileLayout) (h : CreationCut P d)
      (cut : (openJournal P (some layout)).Interrupted d d') : CreationCut P d'

/-- A creating open, left to itself, yields a store with an empty history that accepts appends. -/
def Ready (P : Primitives) (layout : FileLayout) (d : Disk) : Prop :=
  ∃ j, (openJournal P (some layout) d).result = .ok j ∧ j.transactions = [] ∧
    ∀ t plan, j.manifest.plan P t = .ok plan →
      ∃ j', (j.append P t ((openJournal P (some layout)).last d)).result = .ok j' ∧
        j'.transactions = [t]

theorem unprovisioned_of_empty (h : ∀ p, d.read p = none) : d.Drawn P ∧ Unprovisioned d.view := by
  have hnone : ∀ p, d.view.content p = none := by
    intro p
    simp [Disk.view, h]
  refine ⟨fun id hid => by simp [h] at hid, hnone _, hnone _, hnone _, hnone _, hnone _, ?_⟩
  exact ⟨fun i => by simp [hnone], by simp⟩

/-- An orphaned directory refuses every creating open, and stays as it is. -/
theorem Orphaned.open_meets (h : Orphaned d.view) (layout : FileLayout) {C : Disk → Prop} (hd : C d) :
    (openJournal P (some layout)).Meets d C fun r d' => r = .error corrupt ∧ d' = d := by
  unfold openJournal
  refine meets_ask_bind rfl ?_
  simp only [has_eq_false h.foreign rfl, Bool.false_eq_true, if_false]
  refine Meets.bind (takeLock_meets hd h.toBase ⟨(), rfl, meets_ask_bind rfl ?_⟩)
  rw [has_eq_false h.manifest rfl]
  have hevents : d.has .events = true := by
    have : d.read .events = some [] := h.events
    simp [Disk.has, this]
  refine Meets.bind_error (meets_ask_bind rfl ?_)
  simp only [hevents, Bool.true_or, if_true]
  exact meets_fail hd ⟨corrupt, rfl, rfl, rfl⟩

theorem Orphaned.not_ready (h : Orphaned d.view) (layout : FileLayout) : ¬ Ready P layout d := by
  rintro ⟨j, hj, -⟩
  have hrefused := (h.open_meets (P := P) layout (C := fun _ => True) trivial).2.1
  exact nomatch hj.symm.trans hrefused

/-- A layout that no store can have is refused before anything but the lock is made. -/
theorem Unprovisioned.open_refused (hd : d.Drawn P) (h : Unprovisioned d.view) {layout : FileLayout}
    {e : EventLogError} (hstart : layout.start = .error e) :
    (openJournal P (some layout)).Meets d (Inv P (Creating P)) fun r _ => r = .error e := by
  unfold openJournal
  refine meets_ask_bind rfl ?_
  simp only [has_eq_false h.foreign rfl, Bool.false_eq_true, if_false]
  refine Meets.bind ((takeLock_creates hd h).mono (fun _ h => h) ?_)
  rintro r d₁ ⟨u, rfl, hd₁, hu₁, -, -⟩
  refine ⟨u, rfl, meets_ask_bind rfl ?_⟩
  rw [has_eq_false hu₁.manifest rfl]
  refine Meets.bind_error (meets_ask_bind rfl ?_)
  simp only [has_eq_false hu₁.events rfl, has_eq_false hu₁.privacy rfl, Bool.or_self,
    Bool.false_eq_true, if_false]
  exact meets_ask_bind_error hstart ⟨hd₁, .inl hu₁⟩ ⟨e, rfl, rfl⟩

/-- Whatever a creating open is cut at, the directory is still one that creation passes. -/
theorem Creating.open_meets (hd : Inv P (Creating P) d) (layout : FileLayout) :
    (openJournal P (some layout)).Meets d (Inv P (Creating P)) fun _ _ => True := by
  rcases hd.2 with hu | ho | ⟨m, hc⟩
  · cases hstart : layout.start with
    | error e => exact (hu.open_refused hd.1 hstart).mono (fun _ h => h) fun _ _ _ => trivial
    | ok started => exact (open_mints layout hstart hd.1 hu).mono (fun _ h => h) fun _ _ _ => trivial
  · exact (ho.open_meets layout hd).mono (fun _ h => h) fun _ _ _ => trivial
  · exact (hc.open_meets hd.1 (some layout)).mono (fun _ h => ⟨h.1, .inr (.inr ⟨m, h.2⟩)⟩)
      fun _ _ _ => trivial

theorem CreationCut.creating (h : CreationCut P d) : Inv P (Creating P) d := by
  induction h with
  | empty files =>
      obtain ⟨hdrawn, hu⟩ := unprovisioned_of_empty files (P := P)
      exact ⟨hdrawn, .inl hu⟩
  | opened layout _ cut ih => exact (Creating.open_meets ih layout).interrupted cut

/-- A settled store with an empty history accepts appends. -/
theorem ready_of_settled {layout : FileLayout} {j : Journal}
    (hj : (openJournal P (some layout) d).result = .ok j) (hts : j.transactions = [])
    (hsettled : Settled P j.manifest [] [] [] ((openJournal P (some layout)).last d)) :
    Ready P layout d := by
  refine ⟨j, hj, hts, fun t plan hplan => ?_⟩
  obtain ⟨j', -, -, hresult, -, htransactions, -⟩ :=
    hsettled.committed.append_returns hsettled.drawn hplan
  exact ⟨j', hresult, by rw [htransactions, hts]; rfl⟩

/-- **Creating a File store survives a crash** exactly if the crash did not fall between the events
    file and the manifest: a later creating open succeeds just when the manifest is there, or the
    events file is not. -/
theorem creation_survives_iff (h : CreationCut P d) (layout : FileLayout) :
    Ready P layout d ↔
      d.has .manifest = true ∨ d.has .events = false ∧ layout.start.isOk = true := by
  obtain ⟨hdrawn, hu | ho | ⟨m, hc⟩⟩ := h.creating
  · rw [has_eq_false hu.manifest rfl, has_eq_false hu.events rfl]
    cases hstart : layout.start with
    | error e =>
        refine iff_of_false ?_ (by simp [Except.isOk, Except.toBool])
        rintro ⟨j, hj, -⟩
        have hrefused := (hu.open_refused hdrawn hstart).2
        cases hj.symm.trans hrefused
    | ok started =>
        refine iff_of_true ?_ (.inr ⟨rfl, rfl⟩)
        obtain ⟨j, hj, -, hts, hsettled⟩ := (open_mints layout hstart hdrawn hu).2
        exact ready_of_settled hj hts hsettled
  · have hevents : d.read .events = some [] := ho.events
    rw [has_eq_false ho.manifest rfl]
    exact iff_of_false (ho.not_ready layout) (by simp [Disk.has, hevents])
  · have hmanifest : d.read .manifest = some (toBytes P.toFloatText m) := hc.manifest
    refine iff_of_true ?_ (.inl (by simp [Disk.has, hmanifest]))
    obtain ⟨j, hj, hm, hts, -, hsettled⟩ :=
      (hc.open_meets hdrawn (some layout)).2.returns hc.cut.describes (by simp)
    exact ready_of_settled hj hts (hm ▸ hsettled)

/-- An empty directory, cut before anything was made. -/
theorem creation_survives_empty : Ready samplePrimitives .Single emptyDisk :=
  (creation_survives_iff (.empty fun _ => rfl) .Single).mpr (.inr ⟨rfl, rfl⟩)

/-- A creating open that is cut once the events file exists: no later one succeeds. -/
theorem creation_orphans :
    ∃ d, (openJournal samplePrimitives (some .Single)).Interrupted emptyDisk d ∧
      ∀ layout, ¬ Ready samplePrimitives layout d := by
  have hany : ((openJournal samplePrimitives (some .Single) emptyDisk).passed.any fun d =>
      d.has .events && !d.has .manifest) = true := by
    decide +kernel
  obtain ⟨d, hmem, hcut⟩ := List.any_eq_true.mp hany
  simp only [Bool.and_eq_true, Bool.not_eq_true'] at hcut
  have hinterrupted : (openJournal samplePrimitives (some .Single)).Interrupted emptyDisk d :=
    List.mem_cons_of_mem _ hmem
  have hcreation : CreationCut samplePrimitives d :=
    .opened .Single (.empty fun _ => rfl) hinterrupted
  refine ⟨d, hinterrupted, fun layout => ?_⟩
  rcases hcreation.creating.2 with hu | ho | ⟨m, hc⟩
  · rw [has_eq_false hu.events rfl] at hcut
    exact nomatch hcut.1
  · exact ho.not_ready layout
  · have hmanifest : d.read .manifest = some _ := hc.manifest
    simp [Disk.has, hmanifest] at hcut

end Eventlog.File
