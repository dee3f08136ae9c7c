import Eventlog.File.Ending
import Eventlog.File.InlineAdmin
import Eventlog.File.Working

/-!
# Eventlog.File.Administering

What the administration of inline projectors does to a stored directory.

* `openStrict_reads` — a strict open that succeeds reads the committed history.
* `Administered` — the ways an administrative call can end.
* `registerInline_administered`, `attachInlineExisting_administered`,
  `rebuildInlineProjection_administered` — each call ends in one of them.
-/

namespace Eventlog.File

open Durable Program Session

variable {P : Primitives} {B : Bodies} {d : Disk} {m : Manifest} {ts : List Json} {s₀ : State}
  {h : Handle}

theorem Stored.strip_eq (hst : Stored P B d m ts s₀) : s₀.strip = s₀ :=
  strip_eq_self (replayFrom_strip hst.journaled (rows_empty _) hst.replayed)

/-- The transaction administration works in. -/
theorem Stored.begins {j : Journal} (hst : Stored P B d m ts s₀) (hm : j.manifest = m)
    (hts : j.transactions = ts) (h : Handle) : (h.begin j s₀ d).Starts P B m ts s₀ :=
  ⟨hst, hm, hts, hst.strip_eq, replayFrom_rows hst.journaled (rows_empty _) hst.replayed,
    rfl, rfl, rfl, rfl⟩

theorem openStrict_reads {j : Journal} (hst : Stored P B d m ts s₀) (hts : Genuine P ts)
    (h : openStrict P d = .ok j) : j.manifest = m ∧ j.transactions = ts := by
  obtain ⟨parts, active, hc⟩ := hst.committed
  have hread := readManifest_eq_ok hc.manifest hc.cut.describes.known
  obtain ⟨content, -, hcommitted⟩ := hc.cut.readCommitted_eq P hc.sealedAs hc.events
  unfold openStrict at h
  split_ifs at h
  simp only [hread, hcommitted] at h
  cases hdecode : decode P (historyOf P m ts).1 m with
  | error e => simp [hdecode, Except.map] at h
  | ok us =>
      simp only [hdecode, Except.map, Except.ok.injEq] at h
      subst h
      exact ⟨rfl, hts.decode_eq hc.cut.describes hdecode⟩

/-- A history that replays for a handle is the committed one, and extends what it observed. -/
theorem replayed_eq {j : Journal} {s : State} (hst : Stored P B d m ts s₀)
    (hobserved : ∀ o, h.observed = some o → Observed P o m ts) (hm : j.manifest = m)
    (hts : j.transactions = ts) (hs : j.replayed P h.observed = .ok s) :
    s = s₀ ∧ ∀ o, h.observed = some o → Behind P o m ts := by
  obtain ⟨parts, active, hc⟩ := hst.committed
  unfold Journal.replayed at hs
  rw [hm, hts, hst.replayed] at hs
  rcases Observed.extends hc.cut.describes hobserved with ⟨hbehind, hextends⟩ | ⟨-, hextends⟩
  · rw [if_neg (by simp [hextends])] at hs
    cases hs
    exact ⟨rfl, hbehind⟩
  · rw [if_pos hextends] at hs
    contradiction

/-- Appending what a transaction staged: the journal has no room for it, or it is committed. -/
theorem append_cases {tx₀ tx : Tx} {us : List Op} (hstart : tx₀.Starts P B m ts s₀)
    (hran : Ran P B tx₀ true tx) (hus : tx₀.state.applyAll us = .ok tx.state)
    (hbodied : ∀ op ∈ us, op.Bodied B) :
    (∃ e, (tx.journal.append P (toValue us) tx.disk).result = .error e ∧
      (tx.journal.append P (toValue us)).last tx.disk = tx.disk) ∨
    ∃ j, (tx.journal.append P (toValue us) tx.disk).result = .ok j ∧ SameLineage m j.manifest ∧
      Stored P B ((tx.journal.append P (toValue us)).last tx.disk) j.manifest
        (ts ++ [toValue us]) tx.state.strip ∧
      tx.disk.drawn ≤ ((tx.journal.append P (toValue us)).last tx.disk).drawn := by
  have hmanifest : tx.journal.manifest = m := hran.journal ▸ hstart.manifest
  have hstored := hstart.grew hran.grew
  obtain ⟨parts, active, hc⟩ := hstored.committed
  cases hplan : m.plan P (toValue us) with
  | error e =>
      have happend : tx.journal.append P (toValue us) tx.disk = ⟨[], .error e⟩ := by
        simp [Journal.append, hmanifest, hplan, Bind.bind, Program.andThen, Program.ask]
      exact .inl ⟨e, by rw [happend], by simp [Program.last, happend]⟩
  | ok plan =>
      have hlineage := plan_lineage hplan
      rw [← hmanifest] at hc hplan
      obtain ⟨j, parts', active', hj, hnext, -, hdrawn, hc'⟩ :=
        hc.append_returns hstored.drawn hplan
      have haside : Aside tx.disk ((tx.journal.append P (toValue us)).last tx.disk) :=
        ((append_keeps tx.journal (toValue us)).last tx.disk).toAside
      exact .inr ⟨j, hj, hnext ▸ hlineage,
        hnext ▸ hstart.appended hran haside hdrawn hus hbodied hc', haside.drawn⟩

/-- The handle administration leaves: it knows a head, and drives the projectors `ps` too. -/
def Handle.attached (h : Handle) (m : Manifest) (ps : List Projector) : Handle :=
  { h with observed := some m, inline := h.inline ++ ps }

/-- **The ways an administrative call can end**, from a directory that holds the history `ts`
    under `m`. -/
inductive Administered (P : Primitives) (B : Bodies) (m : Manifest) (ts : List Json) (s₀ : State)
    (h : Handle) (d : Disk) (ps : List Projector) (w : Work α) : Served α → Prop
  /-- It was refused, or the journal had no room for it. -/
  | refused {e : EventLogError} {d' : Disk} (stored : Stored P B d' m ts s₀)
      (drawn : d.drawn ≤ d'.drawn) : Administered P B m ts s₀ h d ps w ⟨.error e, h, d'⟩
  /-- There was nothing to commit. -/
  | quiet {a : α} {d' : Disk} (behind : ∀ o, h.observed = some o → Behind P o m ts)
      (stored : Stored P B d' m ts s₀) (drawn : d.drawn ≤ d'.drawn) :
      Administered P B m ts s₀ h d ps w ⟨.ok a, h.attached m ps, d'⟩
  /-- What it recorded is committed. -/
  | committed {tx₀ tx : Tx} {a : α} {us : List Op} {j : Journal} {d' : Disk}
      (behind : ∀ o, h.observed = some o → Behind P o m ts) (starts : tx₀.Starts P B m ts s₀)
      (begun : d.drawn ≤ tx₀.disk.drawn) (work : w tx₀ = (.ok a, tx)) (ran : Ran P B tx₀ true tx)
      (ops : us = tx.pending ∨ us = tx.sealed) (lineage : SameLineage m j.manifest)
      (stored : Stored P B d' j.manifest (ts ++ [toValue us]) tx.state.strip)
      (ended : tx.disk.drawn ≤ d'.drawn) :
      Administered P B m ts s₀ h d ps w ⟨.ok a, h.attached j.manifest ps, d'⟩

/-! ## The three calls -/

section

variable (hst : Stored P B d m ts s₀) (hts : Genuine P ts) (hh : h.Sound P B m ts)

include hst hts hh

theorem registerInline_administered (p : Projector) :
    Administered P B m ts s₀ h d [p] (Work.register p) (h.registerInline P p d) := by
  unfold Handle.registerInline
  cases h.admits p with
  | error e => exact .refused hst (le_refl _)
  | ok u =>
      obtain ⟨hst₁, haside, hr⟩ := (openJournal_meets_stored hst hts (some .Single)).2
      cases hj : (openJournal P (some .Single) d).result with
      | error e =>
          simp only [hj]
          exact .refused hst₁ haside.drawn
      | ok j =>
          rw [hj] at hr
          simp only [hj]
          cases hs : j.replayed P h.observed with
          | error e => exact .refused hst₁ haside.drawn
          | ok s =>
              obtain ⟨rfl, hbehind⟩ := replayed_eq hst₁ hh.observed hr.1 hr.2.1 hs
              have hstart := hst₁.begins hr.1 hr.2.1 h
              have hran := registerSpecs_obeys (P := P) (B := B) [] p.projections
                (h.begin j s ((openJournal P (some .Single)).last d))
              rcases hwork : Work.register p (h.begin j s ((openJournal P (some .Single)).last d))
                with ⟨x, tx⟩
              rw [show Work.registerSpecs [] p.projections = Work.register p from rfl, hwork] at hran
              simp only [hwork]
              have hdrawn := le_trans haside.drawn hran.grew.drawn
              cases x with
              | error e => exact .refused (hstart.grew hran.grew) hdrawn
              | ok u =>
                  obtain ⟨happlied, hbodied⟩ := hstart.applied hran
                  have hjournal : tx.journal.manifest = m := hran.journal ▸ hstart.manifest
                  change Administered P B m ts s h d [p] (Work.register p) (h.registered P p tx)
                  unfold Handle.registered
                  by_cases hpending : tx.pending = []
                  · simp only [hpending, List.isEmpty_nil, if_true]
                    change Administered P B m ts s h d [p] (Work.register p)
                      ⟨.ok (), h.attached tx.journal.manifest [p], tx.disk⟩
                    rw [hjournal]
                    exact .quiet hbehind (hstart.grew hran.grew) hdrawn
                  · simp only [List.isEmpty_eq_false_iff.mpr hpending, Bool.false_eq_true, if_false]
                    rcases append_cases hstart hran happlied hbodied with ⟨e, he, hlast⟩ |
                      ⟨j', hj', hlineage, hstored, hended⟩
                    · simp only [he, hlast]
                      exact .refused (hstart.grew hran.grew) hdrawn
                    · simp only [hj']
                      exact .committed hbehind hstart haside.drawn hwork hran (.inl rfl) hlineage
                        hstored hended

/-- A strict open that a projector passes reads the committed history, for a handle it still
    extends. -/
theorem strict_reads {p : Projector} {j : Journal} {s : State}
    (hstrict : h.strict P p d = .ok (j, s)) :
    j.manifest = m ∧ j.transactions = ts ∧ s = s₀ ∧ ∀ o, h.observed = some o → Behind P o m ts := by
  unfold Handle.strict at hstrict
  obtain ⟨j', hj', hstrict⟩ := Checks.bind_eq_ok_iff.mp hstrict
  obtain ⟨s', hs', hstrict⟩ := Checks.bind_eq_ok_iff.mp hstrict
  obtain ⟨u, -, hstrict⟩ := Checks.bind_eq_ok_iff.mp hstrict
  cases hstrict
  obtain ⟨hm, hts'⟩ := openStrict_reads hst hts hj'
  obtain ⟨hs, hbehind⟩ := replayed_eq hst hh.observed hm hts' hs'
  exact ⟨hm, hts', hs, hbehind⟩

theorem attachInlineExisting_administered (p : Projector) :
    Administered P B m ts s₀ h d [p] (pure ()) (h.attachInlineExisting P p d) := by
  unfold Handle.attachInlineExisting
  split
  · exact .refused hst (le_refl _)
  · rename_i j s hstrict
    obtain ⟨u, -, hstrict⟩ := Checks.bind_eq_ok_iff.mp hstrict
    obtain ⟨u', -, hstrict⟩ := Checks.bind_eq_ok_iff.mp hstrict
    obtain ⟨hm, -, -, hbehind⟩ := strict_reads hst hts hh hstrict
    subst hm
    exact .quiet hbehind hst (le_refl _)

end

theorem rebuildInline_obeys {p : Projector} (hp : p.Writes B.row) (tenant : TenantId) :
    Obeys (Ran P B) (Work.rebuildInline P p tenant) := by
  have hR := ran_composes (P := P) B
  refine Obeys.bind hR (obeys_forM hR fun spec _ => ?_) fun _ => ?_
  · exact Obeys.bind hR (record_obeys (fun _ => trivial) rfl) fun _ =>
      record_obeys (fun _ => trivial) rfl
  · refine (obeys_ask hR _).bind hR fun events => (check_obeys _).bind hR fun _ => ?_
    refine (obeys_forM hR fun event _ => call_obeys _ _ (hp event)).bind hR fun _ => ?_
    exact Obeys.bind hR (record_obeys (fun _ => trivial) rfl) fun _ => obeys_pure hR _

theorem rebuildInlineProjection_administered (hst : Stored P B d m ts s₀) (hts : Genuine P ts)
    (hh : h.Sound P B m ts) (name : String) (tenant : TenantId) :
    (∃ e, h.rebuildInlineProjection P name tenant d = ⟨.error e, h, d⟩) ∨
      ∃ p ∈ h.inline, p.name = name ∧ Administered P B m ts s₀ h d []
        (Work.rebuildInline P p tenant) (h.rebuildInlineProjection P name tenant d) := by
  unfold Handle.rebuildInlineProjection
  cases validateIdentifier "projector name" name with
  | error e => exact .inl ⟨e, rfl⟩
  | ok u =>
      cases hfind : h.inline.find? fun p => p.name == name with
      | none => exact .inl ⟨_, rfl⟩
      | some p =>
          have hmem := List.mem_of_find?_eq_some hfind
          have hname : p.name = name := by simpa using List.find?_some hfind
          refine .inr ⟨p, hmem, hname, ?_⟩
          simp only
          split
          · exact .refused hst (le_refl _)
          · rename_i j s hstrict
            obtain ⟨u, -, hstrict⟩ := Checks.bind_eq_ok_iff.mp hstrict
            obtain ⟨hm, hts', rfl, hbehind⟩ := strict_reads hst hts hh hstrict
            have hstart := hst.begins hm hts' h
            have hran := rebuildInline_obeys (P := P) (hh.inline p hmem) tenant (h.begin j s d)
            rcases hwork : Work.rebuildInline P p tenant (h.begin j s d) with ⟨x, tx⟩
            rw [hwork] at hran
            cases x with
            | error e => exact .refused (hstart.grew hran.grew) hran.grew.drawn
            | ok a =>
                obtain ⟨happlied, hbodied⟩ := hstart.applied hran
                simp only
                rcases append_cases hstart hran (sealed_applied happlied) (sealed_bodied hbodied)
                  with ⟨e, he, hlast⟩ | ⟨j', hj', hlineage, hstored, hended⟩
                · simp only [he, hlast]
                  exact .refused (hstart.grew hran.grew) hran.grew.drawn
                · have hattached : ({ h with observed := some j'.manifest } : Handle) =
                      h.attached j'.manifest [] := by
                    simp [Handle.attached]
                  simp only [hj', hattached]
                  exact .committed hbehind hstart (le_refl _) hwork hran (.inr rfl) hlineage hstored hended

end Eventlog.File
