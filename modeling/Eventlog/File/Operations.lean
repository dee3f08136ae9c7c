import Eventlog.File.Committed

/-!
# Eventlog.File.Operations

Rules for the file operations of a journal program, one per operation, in terms of the
view: what has to hold before, and where the rest of the program starts.

The crash conditions used here look at the view only (`Inv`), so whatever happens to
staging files keeps them.
-/

namespace Eventlog.File

open Durable Program

variable {P : Primitives}

/-- A condition on the view, of a directory whose staging names were all drawn. -/
def Inv (P : Primitives) (C : View → Prop) (d : Disk) : Prop :=
  d.Drawn P ∧ C d.view

variable {C : View → Prop} {d : Disk} {k : Unit → Io α} {Q : Except EventLogError α → Disk → Prop}

/-- An operation that changes what is under one name. -/
theorem meets_put_bind {f : Disk → Except EventLogError Disk} {p : Path} {b : Option Bytes}
    (hd : Inv P C d) (hp : p.isStaging = false)
    (hf : ∃ d', f d = .ok d' ∧ d.Became d' (Function.update d.read p b))
    (h : ∀ d', d'.Drawn P → d'.view = d.view.put p b → (k ()).Meets d' (Inv P C) Q) :
    (perform f >>= k).Meets d (Inv P C) Q := by
  obtain ⟨d', hok, hbecame⟩ := hf
  have hdrawn : d'.Drawn P :=
    hd.1.of_became hbecame fun id heq => absurd heq (Disk.isStaging_ne hp id)
  exact meets_perform_bind hok hd (h d' hdrawn (hbecame.view_put hp))

theorem meets_rename_bind {p q : Path} {old : Bytes} (hd : Inv P C d)
    (hq : q.isStaging = false) (hread : d.read p = some old)
    (h : ∀ d', d'.Drawn P → d'.view = (d.view.put p none).put q (some old) →
      (k ()).Meets d' (Inv P C) Q) :
    (perform (Disk.rename p q) >>= k).Meets d (Inv P C) Q := by
  obtain ⟨d', hok, hbecame⟩ := Disk.rename_eq_ok hread q
  exact meets_perform_bind hok hd (h d' (hd.1.of_rename hbecame hq) (hbecame.view_rename hq))

/-! ## Presence -/

theorem has_eq_false {p : Path} (h : d.view.content p = none) (hp : p.isStaging = false) :
    d.has p = false := by
  have hread : d.read p = none := by simpa [Disk.view, hp] using h
  simp [Disk.has, hread]

theorem has_eq_true {p : Path} (h : d.view.content p = some bytes) : d.has p = true := by
  have hread : d.read p = some bytes := by
    by_cases hp : p.isStaging <;> simp_all [Disk.view]
  simp [Disk.has, hread]

/-! ## Publishing -/

theorem newEventId_meets {C : Disk → Prop} {Q : Except EventLogError String → Disk → Prop}
    (hd : C d) (hC : C { d with drawn := d.drawn + 1 })
    (hQ : Q (.ok (P.eventId d.drawn)) { d with drawn := d.drawn + 1 }) :
    (newEventId P).Meets d C Q := by
  unfold newEventId
  refine meets_perform_bind rfl hd ?_
  exact ⟨by simpa [ask] using hC, hQ⟩

/-- What is staged under a drawn name that is free is invisible until the rename, which
    shows it as a whole. -/
theorem stage_meets {p : Path} {id : String} {bytes : Bytes}
    {Q : Except EventLogError Unit → Disk → Prop} (hd : Inv P C d) (hp : p.isStaging = false)
    (hid : ∃ n < d.drawn, id = P.eventId n) (hfree : d.read (.staging id) = none)
    (h : ∀ d', d'.Drawn P → d'.view = d.view.put p (some bytes) → C d'.view ∧ Q (.ok ()) d') :
    (writeSynced (.staging id) bytes >>= fun _ =>
      perform (Disk.rename (.staging id) p)).Meets d (Inv P C) Q := by
  obtain ⟨d₁, hok₁, hb₁⟩ := Disk.createNew_eq_ok hfree
  have hread₁ : d₁.read (.staging id) = some [] := by
    rw [hb₁.read, Function.update_self]
  obtain ⟨d₂, hok₂, hb₂⟩ := Disk.writeAt_eq_ok hread₁ 0 bytes
  have hread₂ : d₂.read (.staging id) = some bytes := by
    rw [hb₂.read, Function.update_self]; simp
  obtain ⟨d₃, hok₃, hb₃⟩ := Disk.rename_eq_ok hread₂ p
  have hown : ∀ n, n = d.drawn → ∀ id', Path.staging id = .staging id' →
      ∃ k < n, id' = P.eventId k := by
    rintro n rfl id' heq
    cases heq
    exact hid
  have hinv₁ : Inv P C d₁ := ⟨hd.1.of_became hb₁ (hown _ rfl), hb₁.view_staging ▸ hd.2⟩
  have hinv₂ : Inv P C d₂ :=
    ⟨hinv₁.1.of_became hb₂ (hown _ hb₁.drawn), hb₂.view_staging ▸ hinv₁.2⟩
  have hview₃ : d₃.view = d.view.put p (some bytes) := by
    rw [hb₃.view_rename hp, Disk.view_put_staging, hb₂.view_staging, hb₁.view_staging]
  have hdrawn₃ := hinv₂.1.of_rename hb₃ hp
  obtain ⟨hC, hQ⟩ := h d₃ hdrawn₃ hview₃
  unfold writeSynced
  refine Meets.bind (meets_perform_bind hok₁ hd ?_)
  refine meets_perform hok₂ hinv₁ hinv₂ ⟨(), rfl, ?_⟩
  exact meets_perform hok₃ hinv₂ ⟨hdrawn₃, hC⟩ hQ

theorem atomicJson_meets [Serde β] {p : Path} {value : β}
    {Q : Except EventLogError Unit → Disk → Prop} (hd : Inv P C d) (hp : p.isStaging = false)
    (h : ∀ d', d'.Drawn P → d'.view = d.view.put p (some (toBytes P.toFloatText value)) →
      C d'.view ∧ Q (.ok ()) d') :
    (atomicJson P p value).Meets d (Inv P C) Q := by
  have hcounted : Inv P C { d with drawn := d.drawn + 1 } := by
    refine ⟨fun id hid => ?_, hd.2⟩
    obtain ⟨n, hn, heq⟩ := hd.1 id hid
    exact ⟨n, Nat.lt_succ_of_lt hn, heq⟩
  unfold atomicJson
  refine Meets.bind (newEventId_meets hd hcounted ⟨_, rfl, ?_⟩)
  exact stage_meets hcounted hp ⟨d.drawn, Nat.lt_succ_self _, rfl⟩ hd.1.fresh h

/-! ## Sweeping -/

theorem unselected_eventId (n : Nat) : (Path.staging (P.eventId n)).unselected P :=
  P.isEventId_eventId n

/-- No staging file is left, nor a replacement that no intent selected. -/
structure Clean (d : Disk) : Prop where
  staging : ∀ id, d.read (.staging id) = none
  replacement : d.read .privacyNext = none

/-- What a sweep may have done so far: removed unselected names, and nothing else. -/
structure Swept (P : Primitives) (d d' : Disk) : Prop where
  kept : ∀ p, p.unselected P = false → d'.read p = d.read p
  removed : ∀ p, d'.read p = none ∨ d'.read p = d.read p
  segments : d'.segments = d.segments
  drawn : d'.drawn = d.drawn

theorem Swept.refl (d : Disk) : Swept P d d :=
  ⟨fun _ _ => rfl, fun _ => .inr rfl, rfl, rfl⟩

theorem Swept.erase {d d' d'' : Disk} {p : Path} (h : Swept P d d') (hp : p.unselected P)
    (hb : d'.Became d'' (Function.update d'.read p none)) : Swept P d d'' := by
  refine ⟨fun q hq => ?_, fun q => ?_, hb.segments.trans h.segments, hb.drawn.trans h.drawn⟩
  · have hne : q ≠ p := by rintro rfl; rw [hp] at hq; contradiction
    rw [hb.read, Function.update_of_ne hne, h.kept q hq]
  · rw [hb.read]
    by_cases hq : q = p
    · subst hq; simp
    · rw [Function.update_of_ne hq]; exact h.removed q

theorem Swept.drawn_of {d d' : Disk} (h : Swept P d d') (hd : d.Drawn P) : d'.Drawn P :=
  hd.of_read h.drawn fun id hid => by
    cases h.removed (.staging id) with
    | inl hnone => simp [hnone] at hid
    | inr heq => exact .inl (heq ▸ hid)

/-- A sweep leaves the view alone, except that it may take the replacement away. -/
theorem Swept.view {d d' : Disk} (h : Swept P d d') :
    d'.view = d.view ∨ d'.view = d.view.put .privacyNext none := by
  have hother : ∀ p : Path, p ≠ .privacyNext → p.isStaging = false → d'.read p = d.read p := by
    intro p hne hs
    refine h.kept p ?_
    cases p <;> simp_all [Path.unselected, Path.isStaging]
  have hview : d'.view = d.view.put .privacyNext (d'.read .privacyNext) := by
    simp only [Disk.view, h.segments, View.put, View.mk.injEq, and_true]
    funext p
    by_cases hp : p = .privacyNext
    · subst hp; simp [Path.isStaging]
    · rw [Function.update_of_ne hp]
      by_cases hs : p.isStaging
      · simp [hs]
      · simp [hs, hother p hp (by simpa using hs)]
  cases h.removed .privacyNext with
  | inl hnone => exact .inr (by rw [hview, hnone])
  | inr heq =>
      refine .inl ?_
      rw [hview, heq]
      exact congrArg (fun c => View.mk c d.segments) (Function.update_eq_self _ _)

theorem sweepEntries_meets {d₀ : Disk} (entries : List Path) (hnodup : entries.Nodup)
    (hpresent : ∀ p ∈ entries, (d.read p).isSome) (hswept : Swept P d₀ d) (hd₀ : d₀.Drawn P)
    (hC : C d₀.view) (hC' : C (d₀.view.put .privacyNext none)) :
    (sweepEntries P entries).Meets d (Inv P C) (Returns fun _ d' =>
      Swept P d₀ d' ∧ (∀ p, d'.read p = none ∨ d'.read p = d.read p) ∧
        ∀ p ∈ entries, p.unselected P → d'.read p = none) := by
  have hinv : ∀ d', Swept P d₀ d' → Inv P C d' := by
    intro d' h
    refine ⟨h.drawn_of hd₀, ?_⟩
    cases h.view with
    | inl heq => rw [heq]; exact hC
    | inr heq => rw [heq]; exact hC'
  induction entries generalizing d with
  | nil => exact meets_done (hinv d hswept) ⟨_, rfl, hswept, fun _ => .inr rfl, by simp⟩
  | cons p ps ih =>
      have hps : ps.Nodup := (List.nodup_cons.mp hnodup).2
      have hnot : p ∉ ps := (List.nodup_cons.mp hnodup).1
      unfold sweepEntries
      by_cases hp : p.unselected P
      · rw [if_pos hp]
        obtain ⟨old, hold⟩ := Option.isSome_iff_exists.mp (hpresent p (by simp))
        obtain ⟨d₁, hok, hb⟩ := Disk.remove_eq_ok hold
        have hne : ∀ q ∈ ps, q ≠ p := fun q hq heq => hnot (heq ▸ hq)
        have hpresent₁ : ∀ q ∈ ps, (d₁.read q).isSome := fun q hq => by
          rw [hb.read, Function.update_of_ne (hne q hq)]
          exact hpresent q (by simp [hq])
        refine meets_perform_bind hok (hinv d hswept) (Meets.bind ?_)
        refine (ih hps hpresent₁ (hswept.erase hp hb)).mono (fun _ h => h) ?_
        rintro r d' ⟨b, rfl, hs, hsub, hgone⟩
        refine ⟨b, rfl, meets_done (hinv d' hs) ⟨true, rfl, hs, fun q => ?_, ?_⟩⟩
        · cases hsub q with
          | inl h => exact .inl h
          | inr h =>
              by_cases hq : q = p
              · subst hq; rw [hb.read, Function.update_self] at h; exact .inl h
              · rw [hb.read, Function.update_of_ne hq] at h; exact .inr h
        · intro q hq hu
          cases List.mem_cons.mp hq with
          | inl heq =>
              subst heq
              cases hsub q with
              | inl h => exact h
              | inr h => rw [h, hb.read, Function.update_self]
          | inr hmem => exact hgone q hmem hu
      · rw [if_neg hp]
        refine (ih hps (fun q hq => hpresent q (by simp [hq])) hswept).mono (fun _ h => h) ?_
        rintro r d' ⟨b, rfl, hs, hsub, hgone⟩
        refine ⟨b, rfl, hs, hsub, fun q hq hu => ?_⟩
        cases List.mem_cons.mp hq with
        | inl heq => subst heq; contradiction
        | inr hmem => exact hgone q hmem hu

/-- A sweep ends with nothing unselected left, and the view as it was but for the
    replacement. -/
theorem sweepUnselected_meets (hd : d.Drawn P) (hC : C d.view)
    (hC' : C (d.view.put .privacyNext none)) :
    (sweepUnselected P).Meets d (Inv P C) (Returns fun _ d' =>
      d'.Drawn P ∧ Clean d' ∧ d'.view = d.view.put .privacyNext none) := by
  unfold sweepUnselected
  refine meets_ask_bind rfl ((sweepEntries_meets d.paths (AList.keys_nodup d.files)
    (fun p hp => Disk.mem_paths.mp hp) (Swept.refl d) hd hC hC').mono (fun _ h => h) ?_)
  rintro r d' ⟨b, rfl, hs, hsub, hgone⟩
  have hnone : ∀ p : Path, p.unselected P → d'.read p = none := by
    intro p hp
    cases hr : d.read p with
    | none =>
        cases hsub p with
        | inl h => exact h
        | inr h => rw [h, hr]
    | some old => exact hgone p (Disk.mem_paths.mpr (by simp [hr])) hp
  have hclean : Clean d' := by
    refine ⟨fun id => ?_, hnone _ rfl⟩
    cases hr : d.read (.staging id) with
    | none =>
        cases hsub (.staging id) with
        | inl h => exact h
        | inr h => rw [h, hr]
    | some old =>
        obtain ⟨n, -, rfl⟩ := hd id (by simp [hr])
        exact hnone _ (unselected_eventId n)
  refine ⟨b, rfl, hs.drawn_of hd, hclean, ?_⟩
  cases hs.view with
  | inr h => exact h
  | inl h =>
      -- the replacement was not there in the first place
      have hread : d.view.content .privacyNext = none := by
        rw [← h]; exact hclean.replacement
      rw [h, View.put, ← hread, Function.update_eq_self]

/-- Where there is nothing to sweep, a sweep does nothing. -/
theorem Clean.sweepUnselected_meets {C : Disk → Prop} {Q : Except EventLogError Bool → Disk → Prop}
    (h : Clean d) (hC : C d) (hQ : Q (.ok false) d) : (sweepUnselected P).Meets d C Q := by
  have hkept : ∀ p ∈ d.paths, p.unselected P = false := by
    intro p hp
    have hsome := Disk.mem_paths.mp hp
    cases p with
    | staging id => rw [h.staging id] at hsome; contradiction
    | privacyNext => rw [h.replacement] at hsome; contradiction
    | _ => rfl
  have hnone : ∀ ps : List Path, (∀ p ∈ ps, p.unselected P = false) →
      sweepEntries P ps = pure false := by
    intro ps hps
    induction ps with
    | nil => rfl
    | cons p ps ih =>
        rw [sweepEntries, hps p (by simp)]
        exact ih fun q hq => hps q (by simp [hq])
  unfold sweepUnselected
  refine meets_ask_bind rfl ?_
  rw [hnone d.paths hkept]
  exact meets_done hC hQ

end Eventlog.File
