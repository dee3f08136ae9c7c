import Eventlog.File.AppendCrash
import Eventlog.File.Entering

/-!
# Eventlog.File.Ending

The end of a transaction whose work staged operations and objects: a commit, or a refusal.

* `finish_spec` — a transaction that succeeds extends the history by what it staged, or
  leaves it if it staged nothing, and its handle keeps a true view of it.
* `refused_spec` — a transaction that is refused leaves the directory reading as it did
  when it was entered.
-/

namespace Eventlog.File

open Durable Program

variable {P : Primitives} {B : Bodies} {d : Disk} {m m' o : Manifest} {ts ts' : List Json}
  {s s' s₀ : State}

/-! ## Longer histories -/

theorem Behind.extend (h : Behind P o m ts) (hl : SameLineage m m') (hp : ts <+: ts') :
    Behind P o m' ts' where
  lineage := ⟨h.lineage.format.trans hl.format, h.lineage.store.trans hl.store,
    h.lineage.epoch.trans hl.epoch⟩
  short := le_trans h.short hp.length_le
  describes := by
    obtain ⟨us, rfl⟩ := hp
    rw [List.take_append_of_le_length h.short]
    exact h.describes

theorem Observed.extend (h : Observed P o m ts) (hl : SameLineage m m') (hp : ts <+: ts') :
    Observed P o m' ts' :=
  ⟨h.1.trans hl.store, h.2.imp (fun hlt => hl.epoch ▸ hlt) fun hb => hb.extend hl hp⟩

/-- A handle stays sound while the history of its epoch grows. -/
theorem Handle.Sound.extend {h : Handle} (hh : h.Sound P B m ts) (hl : SameLineage m m')
    (hp : ts <+: ts') : h.Sound P B m' ts' where
  observed o ho := (hh.observed o ho).extend hl hp
  verified v hv := by
    obtain ⟨hobserved, hview⟩ := hh.verified v hv
    refine ⟨hobserved.extend hl hp, fun hb => ?_⟩
    have hb₀ : Behind P v.manifest m ts := by
      refine hobserved.2.resolve_left fun hlt => ?_
      have heq := hb.lineage.epoch
      rw [← hl.epoch] at heq
      omega
    obtain ⟨htransactions, hrest⟩ := hview hb₀
    refine ⟨?_, hrest⟩
    obtain ⟨us, rfl⟩ := hp
    rw [htransactions, List.take_append_of_le_length hb₀.short]
  inline := hh.inline

/-! ## The transaction's directory -/

/-- A transaction that has been given the committed history. -/
structure Tx.Starts (P : Primitives) (B : Bodies) (m : Manifest) (ts : List Json) (s₀ : State)
    (tx : Tx) : Prop where
  stored : Stored P B tx.disk m ts s₀
  manifest : tx.journal.manifest = m
  transactions : tx.journal.transactions = ts
  strip : tx.state.strip = s₀
  rows : tx.state.Rows B.row
  pending : tx.pending = []
  written : tx.written = []
  stagedBlobs : tx.stagedBlobs = []
  privacy : tx.privacy = false

theorem Tx.Starts.created {tx : Tx} (h : tx.Starts P B m ts s₀) : tx.created = [] := by
  simp [Tx.created, h.written, h.stagedBlobs]

theorem Tx.Starts.folds {tx : Tx} (h : tx.Starts P B m ts s₀) : Folds ts tx.state := by
  rw [Folds, h.stored.replayed, h.strip]

/-- What is beside the objects a transaction created is as it was. -/
theorem Grew.read_of_not_content {tx tx' : Tx} (h : Grew P tx tx') {p : Path}
    (hp : p.isContent = false) : tx'.disk.read p = tx.disk.read p := by
  rcases h.only p with heq | ⟨id, -, rfl⟩
  · exact heq
  · contradiction

theorem Tx.Starts.placed {tx tx' : Tx} (h : tx.Starts P B m ts s₀) (hg : Grew P tx tx') (id : String)
    (hid : (tx'.disk.read (.object id)).isSome) : tx'.disk.blobs = true := by
  rcases hg.only (.object id) with heq | ⟨id', hmem, heq⟩
  · exact hg.blobs (h.stored.placed id (heq ▸ hid))
  · rcases hg.fresh id' hmem with hold | ⟨-, -, hblobs⟩
    · rw [h.created] at hold
      contradiction
    · exact hblobs

theorem Tx.Starts.named {tx tx' : Tx} (h : tx.Starts P B m ts s₀) (hg : Grew P tx tx') (id : String)
    (hid : (tx'.disk.read (.object id)).isSome) : ∃ n < tx'.disk.drawn, id = P.eventId n := by
  rcases hg.named id hid with hold | hnew
  · obtain ⟨n, hn, heq⟩ := h.stored.named id hold
    exact ⟨n, lt_of_lt_of_le hn hg.drawn, heq⟩
  · exact hnew

/-- Work in a transaction leaves the directory stored: it only adds objects. -/
theorem Tx.Starts.grew {tx tx' : Tx} (h : tx.Starts P B m ts s₀) (hg : Grew P tx tx') :
    Stored P B tx'.disk m ts s₀ :=
  h.stored.of_agree (fun _ hp => hg.read_of_not_content hp) hg.segments hg.drawn
    (fun k b hb => (h.stored.holds k b hb).grew hg) (h.named hg) (h.placed hg)

/-! ## Refusals -/

/-- A directory that reads as it did. -/
structure Unmoved (d d' : Disk) : Prop where
  read : d'.read = d.read
  segments : d'.segments = d.segments
  blobs : d.blobs = true → d'.blobs = true
  clock : d'.clock = d.clock
  drawn : d.drawn ≤ d'.drawn

theorem Stored.unmoved {d' : Disk} (h : Stored P B d m ts s₀) (hd : Unmoved d d') :
    Stored P B d' m ts s₀ := by
  refine h.of_agree (fun p _ => congrFun hd.read p) hd.segments hd.drawn (fun k b hb => ?_)
    (fun id hid => ?_) fun id hid => hd.blobs (h.placed id (hd.read ▸ hid))
  · obtain ⟨hid, bytes, hread, hhash⟩ := h.holds k b hb
    exact ⟨hid, bytes, hd.read ▸ hread, hhash⟩
  · obtain ⟨n, hn, heq⟩ := h.named id (hd.read ▸ hid)
    exact ⟨n, lt_of_lt_of_le hn hd.drawn, heq⟩

/-- Taking away the objects a transaction created takes away all it did. -/
theorem Tx.Starts.unmoved {tx tx' : Tx} {d' : Disk} (h : tx.Starts P B m ts s₀)
    (hg : Grew P tx tx') (ht : Trimmed (fun p => ∃ id ∈ tx'.created, p = .object id) tx'.disk d') :
    Unmoved tx.disk d' where
  read := by
    funext p
    by_cases hp : ∃ id ∈ tx'.created, p = .object id
    · rw [ht.gone p hp]
      obtain ⟨id, hid, rfl⟩ := hp
      rcases hg.fresh id hid with hold | ⟨hnone, -, -⟩
      · rw [h.created] at hold
        contradiction
      · exact hnone.symm
    · rw [ht.kept p hp]
      exact (hg.only p).resolve_right hp
  segments := ht.segments.trans hg.segments
  blobs hb := ht.blobs.trans (hg.blobs hb)
  clock := ht.clock.trans hg.clock
  drawn := le_of_le_of_eq hg.drawn ht.drawn.symm

/-- The view of a journal a transaction was given and has not touched is a true one. -/
theorem keep_sound {j : Journal} (hst : Stored P B d m ts s₀) (hj : j.manifest = m)
    (hts : j.transactions = ts) (hs : s.strip = s₀) (hrows : s.Rows B.row) {h : Handle}
    (hinline : ∀ p ∈ h.inline, p.Writes B.row) :
    (h.keep j s).Sound P B m ts := by
  obtain ⟨parts, active, hc⟩ := hst.committed
  have hself := behind_self hc.cut.describes
  have hobserved : Observed P j.manifest m ts := by rw [hj]; exact ⟨rfl, .inr hself⟩
  refine ⟨fun o ho => ?_, fun v hv => ?_, hinline⟩
  · cases ho
    exact hobserved
  · cases hv
    refine ⟨hobserved, fun _ => ⟨?_, ?_, hrows⟩⟩
    · simp only [Journal.keep]
      rw [hj, hts, List.take_of_length_le (le_of_eq hc.cut.describes.sequence.symm)]
    · simp only [Journal.keep]
      rw [hts, Folds, hst.replayed, hs]

theorem forgotten_sound {h : Handle} (hh : h.Sound P B m ts) :
    h.forget.Sound P B m ts where
  observed := hh.observed
  verified v hv := by simp [Handle.forget] at hv
  inline := hh.inline

/-- **A refused transaction** leaves the directory reading as it did when it was entered,
    and its handle sound. -/
theorem refused_spec {α : Type} {h : Handle} {e : EventLogError} {tx₀ tx : Tx}
    (hstart : tx₀.Starts P B m ts s₀) (hran : Ran P B tx₀ false tx) (hh : h.Sound P B m ts) :
    (h.refused P e tx : Served α).result = .error e ∧
      Unmoved tx₀.disk (h.refused P e tx : Served α).disk ∧
      (h.refused P e tx : Served α).handle.Sound P B m ts ∧
      ∀ o, (h.refused P e tx : Served α).handle.observed = some o → h.observed = some o ∨ o = m := by
  obtain ⟨ops, hpending, hstaged⟩ := hran.staged
  have hcreated := hstart.created
  unfold Handle.refused
  by_cases huntouched : tx.untouched
  · simp only [huntouched, if_true]
    simp only [Tx.untouched, Bool.and_eq_true, List.isEmpty_iff] at huntouched
    obtain ⟨⟨⟨⟨hnone, hwritten⟩, hblobs⟩, -⟩, -⟩ := huntouched
    have hops : ops = [] := by
      rw [hpending, hstart.pending, List.nil_append] at hnone
      exact hnone
    have hstate := hstaged.untouched hops
    have htrim : Trimmed (fun p => ∃ id ∈ tx.created, p = .object id) tx.disk tx.disk :=
      (Trimmed.refl tx.disk).congr (by simp [Tx.created, hwritten, hblobs])
    refine ⟨trivial, hstart.unmoved hran.grew htrim, ?_, fun o ho => .inr ?_⟩
    · exact keep_sound hstart.stored (hran.journal ▸ hstart.manifest)
        (hran.journal ▸ hstart.transactions) (hstate ▸ hstart.strip) (hstate ▸ hstart.rows)
        hh.inline
    · cases ho
      rw [hran.journal, hstart.manifest]
  · rw [if_neg huntouched]
    have hvalid : ∀ id ∈ tx.created, P.isEventId id ∧ tx.disk.blobs = true := fun id hid => by
      rcases hran.grew.fresh id hid with hold | ⟨-, hname, hblobs⟩
      · rw [hcreated] at hold
        contradiction
      · exact ⟨hname, hblobs⟩
    have hdiscard : Disposes (tx.discard P) tx.disk _ := disposes_discard
      (fun id hid => (hvalid id (by simp [Tx.created, hid])).1)
      (fun hne => by
        obtain ⟨id, hid⟩ := List.exists_mem_of_ne_nil _ hne
        exact (hvalid id (by simp [Tx.created, hid])).2)
    obtain ⟨u, hok, htrim⟩ := hdiscard.2
    simp only [hok]
    exact ⟨trivial, hstart.unmoved hran.grew htrim, forgotten_sound hh, fun o ho => .inl ho⟩

/-! ## Commits -/

/-- What a transaction journals applies like what it staged. -/
theorem sealed_applied {tx : Tx} (h : s.applyAll tx.pending = .ok tx.state) :
    s.applyAll tx.sealed = .ok tx.state := by
  unfold Tx.sealed
  split
  · rename_i hempty
    rw [List.isEmpty_iff.mp hempty] at h
    exact h
  · rw [State.applyAll_append, h]
    simp [State.applyAll, State.apply, State.update, bind, Except.bind, pure, Except.pure]

theorem sealed_bodied {tx : Tx} (h : ∀ op ∈ tx.pending, op.Bodied B) :
    ∀ op ∈ tx.sealed, op.Bodied B := by
  unfold Tx.sealed
  split
  · simp
  · intro op hop
    rcases List.mem_append.mp hop with hop | hop
    · exact h op hop
    · rw [List.mem_singleton.mp hop]
      trivial

theorem sealed_isEmpty (tx : Tx) : tx.sealed.isEmpty = tx.pending.isEmpty := by
  unfold Tx.sealed
  cases tx.pending <;> simp

/-- A transaction that staged nothing leaves the directory as its work left it. -/
theorem finish_of_nothing {h : Handle} {a : α} {tx : Tx} (hprivacy : tx.privacy = false)
    (hpending : tx.pending = []) :
    h.finish P a tx = ⟨.ok a, h.keep tx.journal tx.state, tx.disk⟩ := by
  have hsealed : tx.sealed = [] := by simp [Tx.sealed, hpending]
  have hpublish : tx.publish P = pure tx.journal := by simp [Tx.publish, hprivacy, hsealed]
  have hcommit : tx.commit P tx.disk = ⟨[], .ok tx.journal⟩ := by
    simp [Tx.commit, hpublish, hprivacy, hsealed, Program.when, Bind.bind, Program.andThen, pure,
      Program.done]
  simp [Handle.finish, hcommit, Program.last, hprivacy]

theorem Tx.Starts.applied {tx₀ tx : Tx} (hstart : tx₀.Starts P B m ts s₀)
    (hran : Ran P B tx₀ true tx) : tx₀.state.applyAll tx.pending = .ok tx.state ∧
      ∀ op ∈ tx.pending, op.Bodied B := by
  obtain ⟨ops, hpending, hstaged⟩ := hran.staged
  rw [hstart.pending, List.nil_append] at hpending
  subst hpending
  exact ⟨hstaged.applied rfl, fun op hop => (hstaged.good op hop).bodied⟩

/-- The directory an append of `us` leaves, where `us` applies like what was staged. -/
theorem Tx.Starts.appended {tx₀ tx : Tx} {d' : Disk} {parts : List Bytes} {active : Bytes}
    (hstart : tx₀.Starts P B m ts s₀) (hran : Ran P B tx₀ true tx) (ha : Aside tx.disk d')
    (hdrawn : d'.Drawn P) {us : List Op} (hus : tx₀.state.applyAll us = .ok tx.state)
    (hbodied : ∀ op ∈ us, op.Bodied B)
    (hc : Committed P d'.view m' (ts ++ [toValue us]) parts active) :
    Stored P B d' m' (ts ++ [toValue us]) tx.state.strip := by
  obtain ⟨ops, hpending, hstaged⟩ := hran.staged
  rw [hstart.pending, List.nil_append] at hpending
  subst hpending
  have happlied := hstaged.applied rfl
  have hbefore : tx₀.state.events = s₀.events := by rw [← hstart.strip]; rfl
  have hids := applyAll_eventIds happlied
  constructor
  · exact hdrawn
  · exact ⟨parts, active, hc⟩
  · exact hstart.stored.journaled.append (journaled_singleton hbodied)
  · exact hstart.folds.append hus
  · -- old identifiers were drawn before the transaction, new ones in it
    have hold : ∀ id ∈ tx₀.state.events.map RecordedEvent.eventId,
        ∃ n < tx₀.disk.drawn, id = P.eventId n := by
      intro id hid
      obtain ⟨e, he, rfl⟩ := List.mem_map.mp hid
      exact hstart.stored.minted.1 e (hbefore ▸ he)
    have hnodup : (tx₀.state.events.map RecordedEvent.eventId).Nodup := by
      rw [hbefore]; exact hstart.stored.minted.2
    have hle := hran.grew.drawn
    refine ⟨fun e he => ?_, ?_⟩
    · have hid : e.eventId ∈ tx.state.events.map RecordedEvent.eventId := List.mem_map_of_mem he
      rw [hids] at hid
      rcases List.mem_append.mp hid with hid | hid
      · obtain ⟨n, hn, heq⟩ := hold _ hid
        exact ⟨n, by have := ha.drawn; omega, heq⟩
      · obtain ⟨n, -, hn, heq⟩ := hstaged.minted.drawn _ hid
        exact ⟨n, by have := ha.drawn; omega, heq⟩
    · change (tx.state.events.map RecordedEvent.eventId).Nodup
      rw [hids, List.nodup_append]
      refine ⟨hnodup, hstaged.minted.nodup, fun id hid id' hid' heq => ?_⟩
      obtain ⟨n, hn, hid⟩ := hold id hid
      obtain ⟨n', hle', -, hid'⟩ := hstaged.minted.drawn id' hid'
      have : n = n' := P.eventId_injective (by rw [← hid, ← hid', heq])
      omega
  · intro k b hb
    have hheld : tx.disk.Holds P b := by
      rcases applyAll_blobs happlied k b hb with hold | ⟨tenant, digest, hmem⟩
      · have hblobs : tx₀.state.blobs = s₀.blobs := by rw [← hstart.strip]; rfl
        exact (hstart.stored.holds k b (hblobs ▸ hold)).grew hran.grew
      · exact hstaged.good _ hmem
    obtain ⟨hid, bytes, hread, hhash⟩ := hheld
    exact ⟨hid, bytes, (ha.content _ rfl).trans hread, hhash⟩
  · intro id hid
    rw [ha.content _ rfl] at hid
    obtain ⟨n, hn, heq⟩ := hstart.named hran.grew id hid
    exact ⟨n, lt_of_lt_of_le hn ha.drawn, heq⟩
  · intro id hid
    rw [ha.content _ rfl] at hid
    exact ha.blobs.trans (hstart.placed hran.grew id hid)

/-- A commit passes to the longer history, and disposes of what it no longer refers to. -/
theorem commit_meets {tx₀ tx : Tx} {plan : Planned} (hstart : tx₀.Starts P B m ts s₀)
    (hran : Ran P B tx₀ true tx) (hpending : tx.pending ≠ [])
    (hplan : m.plan P (toValue tx.sealed) = .ok plan) :
    (tx.commit P).Meets tx.disk (fun _ => True) (Returns fun j d' =>
      j.manifest = plan.next ∧ j.transactions = ts ++ [toValue tx.sealed] ∧
        Stored P B d' plan.next (ts ++ [toValue tx.sealed]) tx.state.strip ∧
        Tended P tx.state.strip tx.disk d') := by
  have hsealed : tx.sealed.isEmpty = false := by
    rw [sealed_isEmpty]
    simpa using hpending
  have hprivacy : tx.privacy = false := hran.privacy.trans hstart.privacy
  have hmanifest : tx.journal.manifest = m := hran.journal ▸ hstart.manifest
  have hstored := hstart.grew hran.grew
  obtain ⟨parts, active, hc⟩ := hstored.committed
  rw [← hmanifest] at hc hplan
  obtain ⟨j, parts', active', hj, hnext, htransactions, hdrawn, hc'⟩ :=
    hc.append_returns hstored.drawn hplan
  obtain ⟨happlied, hbodied⟩ := hstart.applied hran
  have hstored' := hstart.appended hran
    ((append_keeps tx.journal (toValue tx.sealed)).last tx.disk).toAside hdrawn (sealed_applied happlied)
    (sealed_bodied hbodied) hc'
  have hts : tx.journal.transactions = ts := hran.journal ▸ hstart.transactions
  rw [hts] at htransactions
  have hpublish : tx.publish P = (tx.journal.append P (toValue tx.sealed)).mapError fun e =>
      if tx.atomicContent then .UnknownCommit else e := by
    simp [Tx.publish, hprivacy, hsealed]
  unfold Tx.commit
  rw [hpublish, hprivacy, hsealed]
  refine Meets.bind (Meets.mapError ⟨fun _ _ => trivial, j, hj, ?_⟩)
  refine Meets.bind (Meets.mapError ((cleanBlobs_meets hstored').mono (fun _ h => h) ?_))
  rintro r d' ⟨u, rfl, hdisposed⟩
  have haside := ((append_keeps (P := P) tx.journal (toValue tx.sealed)).last tx.disk).toAside
  exact ⟨u, rfl, meets_done trivial ⟨j, rfl, hnext, htransactions, hdisposed.stored,
    (tended_of_aside _ haside).trans hdisposed.tended⟩⟩

/-- **A transaction that staged something** extends the history by it. -/
theorem finish_of_staged {h : Handle} {a : α} {tx₀ tx : Tx} {plan : Planned}
    (hstart : tx₀.Starts P B m ts s₀) (hran : Ran P B tx₀ true tx) (hpending : tx.pending ≠ [])
    (hplan : m.plan P (toValue tx.sealed) = .ok plan) :
    ∃ j, j.manifest = plan.next ∧ j.transactions = ts ++ [toValue tx.sealed] ∧
      (h.finish P a tx).result = .ok a ∧ (h.finish P a tx).handle = h.keep j tx.state ∧
      Stored P B (h.finish P a tx).disk plan.next (ts ++ [toValue tx.sealed]) tx.state.strip ∧
      Tended P tx.state.strip tx.disk (h.finish P a tx).disk := by
  have hprivacy : tx.privacy = false := hran.privacy.trans hstart.privacy
  obtain ⟨j, hj, hnext, htransactions, hstored, htended⟩ := (commit_meets hstart hran hpending hplan).2
  refine ⟨j, hnext, htransactions, ?_⟩
  simp only [Handle.finish, hj, hprivacy, Bool.false_eq_true, if_false]
  exact ⟨trivial, trivial, hstored, htended⟩

/-- Where the journal has no room for it, nothing is committed. -/
theorem finish_of_no_room {h : Handle} {a : α} {tx₀ tx : Tx} {e : EventLogError}
    (hstart : tx₀.Starts P B m ts s₀) (hran : Ran P B tx₀ true tx) (hpending : tx.pending ≠ [])
    (hplan : m.plan P (toValue tx.sealed) = .error e) :
    ∃ e', h.finish P a tx = ⟨.error e', h.forget, tx.disk⟩ := by
  have hsealed : tx.sealed.isEmpty = false := by
    rw [sealed_isEmpty]
    simpa using hpending
  have hprivacy : tx.privacy = false := hran.privacy.trans hstart.privacy
  have hmanifest : tx.journal.manifest = m := hran.journal ▸ hstart.manifest
  rw [← hmanifest] at hplan
  have hcommit : tx.commit P tx.disk =
      ⟨[], .error (if tx.atomicContent then .UnknownCommit else e)⟩ := by
    simp [Tx.commit, Tx.publish, hprivacy, hsealed, Journal.append, hplan, Program.mapError,
      Bind.bind, Program.andThen, Program.ask, Except.mapError]
  exact ⟨_, by simp [Handle.finish, hcommit, Program.last]; rfl⟩

/-! ## Transactions -/

theorem plan_lineage {t : Json} {plan : Planned} (h : m.plan P t = .ok plan) :
    SameLineage m plan.next := by
  rw [((plan_eq_ok_iff P).mp h).2.2]
  exact ⟨rfl, rfl, rfl⟩

/-- What a transaction starts from once it has entered. -/
theorem Entered.starts {h : Handle} {j : Journal} {d' : Disk}
    (hentered : Entered P B m ts s₀ h.observed d (.ok (j, s)) d') :
    (h.begin j s d').Starts P B m ts s₀ := by
  obtain ⟨hst, -, hj, hts, hs, hrows, -, -⟩ := hentered
  exact ⟨hst, hj, hts, hs, hrows, rfl, rfl, rfl, rfl⟩

/-- **Every transaction** is refused at its entry, or does its work on exactly the committed
    history and ends it. -/
theorem transaction_cases {h : Handle} (w : Work α) (hst : Stored P B d m ts s₀)
    (hts : Genuine P ts) (hh : h.Sound P B m ts) :
    (∃ e d', h.transaction P w d = ⟨.error e, h.forget, d'⟩ ∧
      Entered P B m ts s₀ h.observed d (.error e) d') ∨
    ∃ j s d', Entered P B m ts s₀ h.observed d (.ok (j, s)) d' ∧
      h.transaction P w d = match w (h.begin j s d') with
        | (.ok a, tx) => h.finish P a tx
        | (.error e, tx) => h.refused P e tx := by
  have hentered := (enter_meets hst hts hh).2
  unfold Handle.transaction
  simp only
  cases hresult : (enter P h.observed h.current d).result with
  | error e =>
      rw [hresult] at hentered
      exact .inl ⟨e, _, rfl, hentered⟩
  | ok r =>
      obtain ⟨j, s⟩ := r
      rw [hresult] at hentered
      exact .inr ⟨j, s, _, hentered, rfl⟩

end Eventlog.File
