import Eventlog.File.Stored

/-!
# Eventlog.File.Entering

Entering a transaction, whichever way it goes.

* `enter_meets` — a handle that enters is given exactly the committed history and its
  state, by a resume or by a complete open; it is refused only if its epoch is over or the
  history cannot be read.  Either way the directory holds what it held.
-/

namespace Eventlog.File

open Durable Program

variable {P : Primitives} {B : Bodies} {d : Disk} {m o : Manifest} {ts : List Json} {s₀ : State}
  {observed : Option Manifest}

/-! ## Divergence -/

theorem Behind.extendsObserved (h : Behind P o m ts) (hm : Describes P m ts) :
    extendsObserved P m ts o = true := by
  have hsequence : ¬ (o.store ≠ m.store ∨ o.epoch ≠ m.epoch ∨ o.sequence > m.sequence) := by
    have hshort := h.short
    have hlen := hm.sequence
    simp only [h.lineage.store, h.lineage.epoch, ne_eq, not_true_eq_false, false_or]
    omega
  rw [File.extendsObserved, if_neg hsequence, h.describes.digest, ← h.history]
  simp [historyOf]

theorem extendsObserved_of_epoch_lt (h : o.epoch < m.epoch) :
    extendsObserved P m ts o = false := by
  have hne : o.epoch ≠ m.epoch := by omega
  simp [extendsObserved, hne]

theorem resumedCommitted_of_epoch_lt {content : Content} {parts : List Bytes} {active : Bytes}
    (hd : Committed P d.view m ts parts active) (h : o.epoch < m.epoch) :
    resumedCommitted P o content d = .ok none := by
  have hmay : m.mayExtend o = false := by
    have hne : (m.epoch == o.epoch) = false := by
      rw [beq_eq_false_iff_ne]
      omega
    simp [Manifest.mayExtend, hne]
  have hpending : pendingIntent d = false := by
    simp [pendingIntent, has_eq_false hd.append rfl, has_eq_false hd.privacy rfl]
  simp [resumedCommitted, hpending, has_eq_true hd.manifest,
    readManifest_eq_ok hd.manifest hd.cut.describes.known, hmay, bind, Except.bind]

/-! ## Resuming -/

/-- A resume gives up, or returns the rest of the history and a swept directory. -/
theorem resume_meets (hst : Stored P B d m ts s₀) (hts : Genuine P ts)
    (ho : o.epoch < m.epoch ∨ Behind P o m ts) (content : Content) :
    (resume P o content).Meets d (fun _ => True) (Returns fun r d' =>
      Stored P B d' m ts s₀ ∧ Tended P s₀ d d' ∧ (r = none ∨ Behind P o m ts ∧ Clean d' ∧
        ∃ content', r = some (m, ts.drop o.sequence, content'))) := by
  obtain ⟨parts, active, hc⟩ := hst.committed
  have hlock : d.has .lock = true := hc.lock
  have htended : Tended P s₀ d d := tended_of_aside s₀ (Std.Refl.refl d)
  unfold resume
  refine meets_ask_bind (a := ()) (by simp [hlock]) ?_
  have hresumed : resumedCommitted P o content d = .ok none ∨ Behind P o m ts ∧
      ∃ content', resumedCommitted P o content d = .ok (some (m, ts.drop o.sequence, content')) := by
    rcases ho with hepoch | hb
    · exact .inl (resumedCommitted_of_epoch_lt hc hepoch)
    · have hdrop : Genuine P (ts.drop o.sequence) :=
        hts.imp_right fun h t ht => h t (List.mem_of_mem_drop ht)
      exact (hb.resumedCommitted_eq hc hdrop content).imp_right fun h => ⟨hb, h⟩
  rcases hresumed with hnone | ⟨hb, content', hsome⟩
  · exact meets_ask_bind hnone (meets_done trivial ⟨none, rfl, hst, htended, .inl rfl⟩)
  · refine meets_ask_bind hsome (Meets.bind ?_)
    have hsweep := sweepUnselected_meets (C := fun _ => True) hst.drawn trivial trivial
    refine ⟨fun _ _ => trivial, ?_⟩
    obtain ⟨b, hb', hdrawn, hclean, hview⟩ := hsweep.2
    have haside : Aside d ((sweepUnselected P).last d) :=
      (sweepUnselected_keeps.last d).toAside
    have hc' := hc.put_privacyNext P none
    rw [← hview] at hc'
    exact ⟨b, hb', meets_done trivial ⟨_, rfl, hst.of_aside haside hdrawn hc',
      tended_of_aside s₀ haside, .inr ⟨hb, hclean, content', rfl⟩⟩⟩

/-! ## The complete open -/

theorem mem_live {s : State} {k : List String} {b : Blob} (h : s.blobs[k]? = some b) :
    b.id ∈ s.live :=
  List.mem_map.mpr ⟨(k, b), Std.ExtTreeMap.mem_toList_iff_getElem?_eq_some.mpr h, rfl⟩

/-- What disposal leaves of a stored directory. -/
structure Disposed (P : Primitives) (B : Bodies) (m : Manifest) (ts : List Json) (s₀ : State)
    (d d' : Disk) : Prop where
  stored : Stored P B d' m ts s₀
  tended : Tended P s₀ d d'
  aside : ∀ p : Path, p.isContent = false → d'.read p = d.read p

theorem Disposed.trans {d' d'' : Disk} (h : Disposed P B m ts s₀ d d')
    (h' : Disposed P B m ts s₀ d' d'') : Disposed P B m ts s₀ d d'' where
  stored := h'.stored
  tended := h.tended.trans h'.tended
  aside p hp := (h'.aside p hp).trans (h.aside p hp)

/-- Disposing of the snapshots of generations the state does not have. -/
theorem clearSnapshots_meets (hst : Stored P B d m ts s₀) :
    (clearSnapshots P s₀).Meets d (fun _ => True)
      (Returns fun _ d' => Disposed P B m ts s₀ d d') := by
  refine (disposes_clearSnapshots s₀ d).mono (fun _ h => h) ?_
  rintro r d' ⟨u, rfl, ht⟩
  refine ⟨u, rfl, hst.of_trimmed ht fun p hp => ?_, tended_of_trimmed ht (fun k b _ hA => ?_)
    fun name hkeeps hA => ?_, fun p hp => ht.kept p ?_⟩
  · obtain ⟨name, rfl, -⟩ := hp
    exact ⟨rfl, fun _ _ _ => by simp⟩
  · obtain ⟨name, hname, -⟩ := hA
    simp at hname
  · obtain ⟨-, -, hdead⟩ := hA
    rw [hkeeps] at hdead
    contradiction
  · rintro ⟨name, rfl, -⟩
    contradiction

/-- Disposing of the objects the state does not refer to. -/
theorem cleanBlobs_meets (hst : Stored P B d m ts s₀) :
    (cleanBlobs P s₀).Meets d (fun _ => True)
      (Returns fun _ d' => Disposed P B m ts s₀ d d') := by
  have hlive : ∀ (k : List String) b, s₀.blobs[k]? = some b →
      ¬ ∃ id, id ∉ s₀.live ∧ Path.object b.id = .object id := by
    rintro k b hb ⟨id, hid, heq⟩
    cases heq
    exact hid (mem_live hb)
  refine (disposes_cleanBlobs s₀ d (fun id hid => ?_) hst.placed).mono (fun _ h => h) ?_
  · obtain ⟨n, -, rfl⟩ := hst.named id hid
    exact P.isEventId_eventId n
  rintro r d' ⟨u, rfl, ht⟩
  refine ⟨u, rfl, hst.of_trimmed ht fun p hp => ?_, tended_of_trimmed ht hlive fun name _ hA => ?_,
    fun p hp => ht.kept p ?_⟩
  · obtain ⟨id, hid, rfl⟩ := hp
    refine ⟨rfl, fun k b hb heq => ?_⟩
    cases heq
    exact hid (mem_live hb)
  · obtain ⟨id, -, hid⟩ := hA
    simp at hid
  · rintro ⟨id, -, rfl⟩
    contradiction

/-- Disposing of what the state does not refer to. -/
theorem dispose_meets (hst : Stored P B d m ts s₀) :
    (dispose P s₀).Meets d (fun _ => True)
      (Returns fun _ d' => Disposed P B m ts s₀ d d') := by
  refine Meets.bind ((clearSnapshots_meets hst).mono (fun _ h => h) ?_)
  rintro r d₁ ⟨u, rfl, h₁⟩
  refine ⟨u, rfl, (cleanBlobs_meets h₁.stored).mono (fun _ h => h) ?_⟩
  rintro r d₂ ⟨u, rfl, h₂⟩
  exact ⟨u, rfl, h₁.trans h₂⟩

theorem Stored.checkBound (hst : Stored P B d m ts s₀) {s : State} (hs : s.strip = s₀)
    (key : List String) : s.checkBound P d key = .ok () := by
  have hblobs : s.blobs = s₀.blobs := by rw [← hs]; rfl
  unfold State.checkBound
  cases hb : s.blobs[key]? with
  | none => rfl
  | some b =>
      obtain ⟨bytes, hobject, -⟩ := (hst.holds key b (hblobs ▸ hb)).object_eq
      simp [hobject, Except.map]

theorem forM_ok {f : α → Except ε Unit} (xs : List α) (h : ∀ x ∈ xs, f x = .ok ()) :
    xs.forM f = .ok () := by
  induction xs with
  | nil => rfl
  | cons x xs ih =>
      change (f x >>= fun _ => xs.forM f) = .ok ()
      rw [h x (by simp)]
      exact ih fun y hy => h y (by simp [hy])

/-- What entering comes to. -/
def Entered (P : Primitives) (B : Bodies) (m : Manifest) (ts : List Json) (s₀ : State)
    (observed : Option Manifest) (d : Disk) (r : Except EventLogError (Journal × State))
    (d' : Disk) : Prop :=
  Stored P B d' m ts s₀ ∧ Tended P s₀ d d' ∧
    match r with
    | .ok (j, s) => j.manifest = m ∧ j.transactions = ts ∧ s.strip = s₀ ∧ s.Rows B.row ∧
        Clean d' ∧ ∀ o, observed = some o → Behind P o m ts
    | .error _ => (∃ o, observed = some o ∧ o.epoch < m.epoch) ∨ ¬ ∀ t ∈ ts, Survives P t

/-- What a complete open comes to: the committed history, unless it cannot be read. -/
def Opened (P : Primitives) (B : Bodies) (m : Manifest) (ts : List Json) (s₀ : State) (d : Disk)
    (r : Except EventLogError Journal) (d' : Disk) : Prop :=
  Stored P B d' m ts s₀ ∧ Aside d d' ∧
    match r with
    | .ok j => j.manifest = m ∧ j.transactions = ts ∧ Clean d'
    | .error _ => ¬ ∀ t ∈ ts, Survives P t

/-- Whatever a described history decodes to is that history. -/
theorem Genuine.decode_eq {us : List Json} (hts : Genuine P ts) (hm : Describes P m ts)
    (h : decode P (historyOf P m ts).1 m = .ok us) : us = ts := by
  have hlen : ¬ (historyOf P m ts).1.length ≠ m.length := by simp [hm.length]
  rw [decode, if_neg hlen] at h
  exact (hts.decodeChain_eq P (by rw [hm.sequence, Nat.zero_add]) hm.digest hm.sequence_lt h).1

/-- **Opening a stored directory completely.** -/
theorem openJournal_meets_stored (hst : Stored P B d m ts s₀) (hts : Genuine P ts)
    (layout : Option FileLayout) :
    (openJournal P layout).Meets d (fun _ => True) (Opened P B m ts s₀ d) := by
  obtain ⟨parts, active, hc⟩ := hst.committed
  have hopen := hc.open_meets hst.drawn layout
  have haside : Aside d ((openJournal P layout).last d) :=
    ((openJournal_keeps layout).last d).toAside
  have hst₁ : Stored P B ((openJournal P layout).last d) m ts s₀ :=
    hst.of_aside haside hopen.last.1 hopen.last.2
  have hreads := hopen.2
  have hdescribes := hc.cut.describes
  refine ⟨fun _ _ => trivial, hst₁, haside, ?_⟩
  rw [Reads] at hreads
  cases hdecode : decode P (historyOf P m ts).1 m with
  | error e =>
      rw [hdecode] at hreads
      rw [hreads]
      intro hsurvive
      rw [(hdescribes.decode_iff P).mpr hsurvive] at hdecode
      contradiction
  | ok us =>
      rw [hdecode] at hreads
      obtain ⟨j, hj, hmanifest, htransactions, -, hsettled⟩ := hreads
      rw [hj]
      exact ⟨hmanifest, htransactions.trans (hts.decode_eq hdescribes hdecode), hsettled.toClean⟩

/-- A handle that observed a head of this epoch, or none, follows the history. -/
theorem Observed.extends (hm : Describes P m ts)
    (hobserved : ∀ o, observed = some o → Observed P o m ts) :
    (∀ o, observed = some o → Behind P o m ts) ∧
        (observed.any fun o => !extendsObserved P m ts o) = false ∨
      (∃ o, observed = some o ∧ o.epoch < m.epoch) ∧
        (observed.any fun o => !extendsObserved P m ts o) = true := by
  cases observed with
  | none => exact .inl ⟨by simp, rfl⟩
  | some o =>
      rcases (hobserved o rfl).2 with hepoch | hb
      · exact .inr ⟨⟨o, rfl, hepoch⟩, by simp [extendsObserved_of_epoch_lt hepoch]⟩
      · refine .inl ⟨fun o' ho' => ?_, by simp [hb.extendsObserved hm]⟩
        cases ho'
        exact hb

/-- **Entering by a complete open.** -/
theorem enterComplete_meets (hst : Stored P B d m ts s₀) (hts : Genuine P ts)
    (hobserved : ∀ o, observed = some o → Observed P o m ts) :
    (enterComplete P observed).Meets d (fun _ => True) (Entered P B m ts s₀ observed d) := by
  obtain ⟨parts, active, hc⟩ := hst.committed
  unfold enterComplete
  refine Meets.bind_either ((openJournal_meets_stored hst hts none).mono (fun _ h => h) ?_)
  rintro r d₁ ⟨hst₁, haside, hr⟩
  have htended : Tended P s₀ d d₁ := tended_of_aside s₀ haside
  cases r with
  | error e => exact .inr ⟨e, rfl, hst₁, htended, .inr hr⟩
  | ok j =>
      obtain ⟨hmanifest, htransactions, hclean⟩ := hr
      refine .inl ⟨j, rfl, ?_⟩
      rw [hmanifest, htransactions]
      rcases Observed.extends hc.cut.describes hobserved with ⟨hbehind, hextends⟩ | ⟨hover, hextends⟩
      · have hstrip : s₀.strip = s₀ :=
          strip_eq_self (replayFrom_strip hst.journaled (rows_empty _) hst.replayed)
        refine meets_ask_bind (a := ()) (by simp [hextends]) ?_
        refine meets_ask_bind hst.replayed ?_
        refine Meets.bind ((dispose_meets hst₁).mono (fun _ h => h) ?_)
        rintro r d₂ ⟨u, rfl, hst₂, htended₂, hsame⟩
        have hchecked : s₀.blobs.keys.forM (s₀.checkBound P d₂) = .ok () :=
          forM_ok _ fun key _ => hst₂.checkBound hstrip key
        refine ⟨u, rfl, meets_ask_bind hchecked (meets_done trivial ?_)⟩
        refine ⟨hst₂, htended.trans htended₂, hmanifest, htransactions, hstrip,
          replayFrom_rows hst.journaled (rows_empty _) hst.replayed, ?_, hbehind⟩
        exact ⟨fun id => (hsame _ rfl).trans (hclean.staging id),
          (hsame _ rfl).trans hclean.replacement⟩
      · refine meets_ask_bind_error (by rw [if_pos hextends]) trivial ?_
        exact ⟨hst₁, htended, .inl hover⟩

theorem Entered.of_tended {d₁ : Disk} {r : Except EventLogError (Journal × State)} {d' : Disk}
    (h : Entered P B m ts s₀ observed d₁ r d') (ht : Tended P s₀ d d₁) :
    Entered P B m ts s₀ observed d r d' :=
  ⟨h.1, ht.trans h.2.1, h.2.2⟩

/-- **Entering by a resume.** -/
theorem enterResumed_meets {v : Verified} {content : Content} (hst : Stored P B d m ts s₀)
    (hclean : Clean d) (hb : Behind P v.manifest m ts)
    (htransactions : v.transactions = ts.take v.manifest.sequence)
    (hfolds : Folds v.transactions v.state) (hrows : v.state.Rows B.row) :
    (enterResumed P v m (ts.drop v.manifest.sequence) content).Meets d (fun _ => True)
      (Entered P B m ts s₀ (some v.manifest) d) := by
  have hjournaled := hst.journaled.drop v.manifest.sequence
  have hreplay : v.state.strip.replayFrom (ts.drop v.manifest.sequence) = .ok s₀ := by
    have hall := hst.replayed
    rw [← List.take_append_drop v.manifest.sequence ts, State.replay, State.replayFrom_append,
      ← State.replay, ← htransactions, hfolds] at hall
    exact hall
  obtain ⟨s, bound, hfold, hstrip⟩ := foldAll_strip hjournaled hreplay
  have hchecked : (bound.forM fun b => s.checkBound P d [b.1.value, b.2]) = .ok () :=
    forM_ok _ fun b _ => hst.checkBound hstrip _
  unfold enterResumed
  refine meets_ask_bind hfold (meets_ask_bind hchecked (meets_done trivial ?_))
  refine ⟨hst, tended_of_aside s₀ (Std.Refl.refl d), rfl, ?_, hstrip,
    foldAll_rows hjournaled hrows hfold, hclean, fun o ho => by cases ho; exact hb⟩
  rw [htransactions, List.take_append_drop]

/-- **Entering**: by a resume or by a complete open, a handle is given exactly the committed
    history and its state, or refused. -/
theorem enter_meets {h : Handle} (hst : Stored P B d m ts s₀) (hts : Genuine P ts)
    (hh : h.Sound P B m ts) :
    (enter P h.observed h.current).Meets d (fun _ => True) (Entered P B m ts s₀ h.observed d) := by
  have hcomplete : ∀ d', Stored P B d' m ts s₀ → Tended P s₀ d d' →
      (enterComplete P h.observed).Meets d' (fun _ => True) (Entered P B m ts s₀ h.observed d) :=
    fun d' hst' ht => (enterComplete_meets hst' hts hh.observed).mono (fun _ h => h)
      fun _ _ hentered => hentered.of_tended ht
  have hstart := hcomplete d hst (tended_of_aside s₀ (Std.Refl.refl d))
  unfold enter
  cases hv : h.current with
  | none =>
      cases ho : h.observed with
      | none => rw [ho] at hstart; exact hstart
      | some o => rw [ho] at hstart; exact hstart
  | some v =>
      obtain ⟨hverified, ho⟩ := Handle.current_eq_some hv
      rw [ho] at hcomplete ⊢
      simp only
      refine Meets.bind ((resume_meets hst hts (hh.observed _ ho).2 v.content).mono
        (fun _ h => h) ?_)
      rintro r d₁ ⟨x, rfl, hst₁, htended₁, hx⟩
      refine ⟨x, rfl, ?_⟩
      rcases hx with rfl | ⟨hb, hclean, content, rfl⟩
      · exact hcomplete d₁ hst₁ htended₁
      · obtain ⟨htransactions, hfolds, hrows⟩ := (hh.verified v hverified).2 hb
        exact (enterResumed_meets hst₁ hclean hb htransactions hfolds hrows).mono (fun _ h => h)
          fun _ _ hentered => hentered.of_tended htended₁

end Eventlog.File
