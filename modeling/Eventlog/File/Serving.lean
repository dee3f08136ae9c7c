import Eventlog.File.Replacing
import Eventlog.File.Working

/-!
# Eventlog.File.Serving

Everything a call can do to a stored directory and to the handle it is made on.

* `Turn` — the ways a call can end, with what each of them leaves behind.
* `call_turn` — a call that passes its checks ends in one of these ways.
-/

namespace Eventlog.File

open Durable Program

variable {P : Primitives} {B : Bodies} {d : Disk} {m : Manifest} {ts : List Json} {s₀ : State}
  {h : Handle}

/-- A transaction a handle was given for its work. -/
structure Given (P : Primitives) (B : Bodies) (m : Manifest) (ts : List Json) (s₀ : State)
    (h : Handle) (d : Disk) (tx : Tx) : Prop where
  starts : tx.Starts P B m ts s₀
  clean : Clean tx.disk
  tended : Tended P s₀ d tx.disk
  inline : tx.inline = h.inline
  permit : tx.permit = h.permit
  behind : ∀ o, h.observed = some o → Behind P o m ts

/-- What redaction and erasure make of their transaction. -/
inductive Replaced (P : Primitives) (ts : List Json) (s₀ : State) (tx : Tx) :
    Request → Response → Tx → List Json → State → List Op → Prop
  | forgot {tenant : TenantId} {s : State}
      (replayed : State.replay (rewritten (forgetOps tenant) ts) = .ok s)
      (without : Without tenant s₀ s) :
      Replaced P ts s₀ tx (.forgetTenant tenant) .unit tx (rewritten (forgetOps tenant) ts) s []
  | redacted {stream : StreamId} {version : Nat} {reason : String} {old event : RecordedEvent}
      {s : State} (found : old ∈ s₀.ofStream stream) (place : old.version = version)
      (replaces : event = redactedEvent old reason (P.utc tx.disk.clock))
      (replayed : State.replay (rewritten (redactOps stream.tenant event) ts) = .ok s)
      (redacted : Redacted stream.tenant event s₀ s) :
      Replaced P ts s₀ tx (.redact stream version reason) (.event event) tx.drew
        (rewritten (redactOps stream.tenant event) ts) s
        (redactionMarks s stream (P.eventId tx.disk.drawn))

/-- **The ways a call can end** once it has passed its checks, from a directory that holds the
    history `ts` under `m`. -/
inductive Turn (P : Primitives) (B : Bodies) (m : Manifest) (ts : List Json) (s₀ : State)
    (h : Handle) (d : Disk) (r : Request) : Served Response → Prop
  /-- It was not let in. -/
  | shut {e : EventLogError} {d' : Disk}
      (entered : Entered P B m ts s₀ h.observed d (.error e) d') :
      Turn P B m ts s₀ h d r ⟨.error e, h.forget, d'⟩
  /-- Its work was refused. -/
  | refused {tx₀ tx : Tx} {e : EventLogError} {h' : Handle} {d' : Disk}
      (given : Given P B m ts s₀ h d tx₀) (work : r.work P tx₀ = (.error e, tx))
      (unmoved : Unmoved tx₀.disk d') (sound : h'.Sound P B m ts)
      (observed : ∀ o, h'.observed = some o → h.observed = some o ∨ o = m) :
      Turn P B m ts s₀ h d r ⟨.error e, h', d'⟩
  /-- Its work recorded nothing. -/
  | quiet {tx₀ tx : Tx} {a : Response} (given : Given P B m ts s₀ h d tx₀)
      (rewrites : r.rewrites = false) (work : r.work P tx₀ = (.ok a, tx)) (ran : Ran P B tx₀ true tx) (pending : tx.pending = [])
      (state : tx.state = tx₀.state) (stored : Stored P B tx.disk m ts s₀) :
      Turn P B m ts s₀ h d r ⟨.ok a, h.keep tx.journal tx.state, tx.disk⟩
  /-- It kept a snapshot. -/
  | saved {tx₀ : Tx} {stream : StreamId} {snapshot : Snapshot} {generation : String} {d' : Disk}
      (given : Given P B m ts s₀ h d tx₀)
      (request : r = .saveSnapshotChecked stream snapshot generation)
      (current : s₀.generations[StreamId.key stream]? = some generation)
      (became : tx₀.disk.Became d' (Function.update tx₀.disk.read
        (.snapshot (snapshotName P stream)) (some (keptBytes P generation snapshot))))
      (stored : Stored P B d' m ts s₀) :
      Turn P B m ts s₀ h d r ⟨.ok (.saved true), h.keep tx₀.journal tx₀.state, d'⟩
  /-- The journal had no room for what its work recorded. -/
  | full {tx₀ tx : Tx} {a : Response} {e : EventLogError} (given : Given P B m ts s₀ h d tx₀)
      (work : r.work P tx₀ = (.ok a, tx)) (grew : Grew P tx₀ tx)
      (stored : Stored P B tx.disk m ts s₀) :
      Turn P B m ts s₀ h d r ⟨.error e, h.forget, tx.disk⟩
  /-- What its work recorded is committed. -/
  | committed {tx₀ tx : Tx} {a : Response} {j : Journal} {d' : Disk}
      (given : Given P B m ts s₀ h d tx₀) (rewrites : r.rewrites = false)
      (work : r.work P tx₀ = (.ok a, tx)) (ran : Ran P B tx₀ true tx) (pending : tx.pending ≠ [])
      (lineage : SameLineage m j.manifest)
      (transactions : j.transactions = ts ++ [toValue tx.sealed])
      (stored : Stored P B d' j.manifest (ts ++ [toValue tx.sealed]) tx.state.strip)
      (tended : Tended P tx.state.strip tx.disk d') :
      Turn P B m ts s₀ h d r ⟨.ok a, h.keep j tx.state, d'⟩
  /-- It replaced the history. -/
  | replaced {tx₀ tx : Tx} {a : Response} {us : List Json} {s : State} {ops : List Op}
      {j : Journal} {d' : Disk} (given : Given P B m ts s₀ h d tx₀)
      (work : r.work P tx₀ = (.ok a, tx.rewrote us s ops))
      (replaced : Replaced P ts s₀ tx₀ r a tx us s ops)
      (epoch : j.manifest.epoch = m.epoch + 1) (store : j.manifest.store = m.store)
      (stored : Stored P B d' j.manifest (replacement us s ops) (s.marked ops))
      (tended : Tended P (s.marked ops) tx.disk d') :
      Turn P B m ts s₀ h d r ⟨.ok a, (h.keep j (s.marked ops)).forget, d'⟩
  /-- It was to replace the history, and the journal is stuck. -/
  | stuck {tx₀ tx : Tx} {a : Response} {us : List Json} {s : State} {ops : List Op} {d' : Disk}
      (given : Given P B m ts s₀ h d tx₀) (work : r.work P tx₀ = (.ok a, tx.rewrote us s ops))
      (replaced : Replaced P ts s₀ tx₀ r a tx us s ops) (wedged : Wedged P d') :
      Turn P B m ts s₀ h d r ⟨.error .UnknownCommit, h.forget, d'⟩

/-! ## Work that stages -/

theorem Given.runs {tx₀ : Tx} (hg : Given P B m ts s₀ h d tx₀) (hh : h.Sound P B m ts)
    {r : Request} (hstages : r.stages) (hr : r.Carries B) :
    Ran P B tx₀ (r.work P tx₀).1.isOk (r.work P tx₀).2 :=
  work_runs hstages hr tx₀ (by intro p hp; rw [hg.inline] at hp; exact hh.inline p hp)

theorem rewrites_of_stages {r : Request} (h : r.stages) : r.rewrites = false := by
  cases r <;> simp_all [Request.stages, Request.rewrites]

theorem turn_of_refused {r : Request} {tx₀ tx : Tx} {e : EventLogError}
    (hg : Given P B m ts s₀ h d tx₀) (hh : h.Sound P B m ts) (hwork : r.work P tx₀ = (.error e, tx))
    (hran : Ran P B tx₀ false tx) : Turn P B m ts s₀ h d r (h.refused P e tx) := by
  obtain ⟨hresult, hunmoved, hsound, hobserved⟩ :=
    refused_spec (α := Response) (e := e) hg.starts hran hh
  have heq : (h.refused P e tx : Served Response) =
      ⟨.error e, (h.refused P e tx : Served Response).handle,
        (h.refused P e tx : Served Response).disk⟩ := by
    rw [← hresult]
  rw [heq]
  exact .refused hg hwork hunmoved hsound hobserved

theorem turn_of_ran {r : Request} {tx₀ tx : Tx} {a : Response} (hg : Given P B m ts s₀ h d tx₀)
    (hrewrites : r.rewrites = false) (hwork : r.work P tx₀ = (.ok a, tx)) (hran : Ran P B tx₀ true tx) :
    Turn P B m ts s₀ h d r (h.finish P a tx) := by
  by_cases hpending : tx.pending = []
  · have hprivacy : tx.privacy = false := hran.privacy.trans hg.starts.privacy
    obtain ⟨ops, hops, hstaged⟩ := hran.staged
    have hnone : ops = [] := by
      rw [hpending, hg.starts.pending, List.nil_append] at hops
      exact hops.symm
    rw [finish_of_nothing hprivacy hpending]
    exact .quiet hg hrewrites hwork hran hpending (hstaged.untouched hnone) (hg.starts.grew hran.grew)
  · cases hplan : m.plan P (toValue tx.sealed) with
    | error e =>
        obtain ⟨e', he'⟩ := finish_of_no_room (h := h) (a := a) hg.starts hran hpending hplan
        rw [he']
        exact .full hg hwork hran.grew (hg.starts.grew hran.grew)
    | ok plan =>
        obtain ⟨j, hnext, htransactions, hresult, hhandle, hstored, htended⟩ :=
          finish_of_staged (h := h) (a := a) hg.starts hran hpending hplan
        have heq : h.finish P a tx = ⟨.ok a, h.keep j tx.state, (h.finish P a tx).disk⟩ := by
          rw [← hresult, ← hhandle]
        rw [heq]
        exact .committed hg hrewrites hwork hran hpending (hnext ▸ plan_lineage hplan) htransactions
          (hnext ▸ hstored) htended

/-! ## The other three calls -/

theorem Disk.overwrite_eq_ok (d : Disk) (p : Path) (bytes : Bytes) :
    ∃ d', Disk.overwrite p bytes d = .ok d' ∧
      d.Became d' (Function.update d.read p (some bytes)) := by
  unfold Disk.overwrite
  cases d.files.lookup p with
  | none => exact ⟨_, rfl, Disk.read_set d p _, rfl, rfl, rfl, rfl⟩
  | some f => exact ⟨_, rfl, Disk.read_set d p _, rfl, rfl, rfl, rfl⟩

/-- A snapshot is beside everything a stored directory is about. -/
theorem Stored.overwritten {d' : Disk} {name : String} {bytes : Bytes}
    (hst : Stored P B d m ts s₀)
    (hb : d.Became d' (Function.update d.read (.snapshot name) (some bytes))) :
    Stored P B d' m ts s₀ := by
  have hread : ∀ p : Path, p ≠ .snapshot name → d'.read p = d.read p := fun p hp => by
    rw [hb.read, Function.update_of_ne hp]
  refine hst.of_agree (fun p hp => hread p ?_) hb.segments (le_of_eq hb.drawn.symm)
    (fun k b hk => ?_) (fun id hid => ?_) fun id hid => ?_
  · rintro rfl
    contradiction
  · obtain ⟨hid, bytes, hbytes, hhash⟩ := hst.holds k b hk
    exact ⟨hid, bytes, (hread _ (by simp)).trans hbytes, hhash⟩
  · rw [hread _ (by simp)] at hid
    rw [hb.drawn]
    exact hst.named id hid
  · rw [hread _ (by simp)] at hid
    rw [hb.blobs]
    exact hst.placed id hid

theorem turn_of_save {tx₀ : Tx} (hg : Given P B m ts s₀ h d tx₀) (stream : StreamId)
    (snapshot : Snapshot) (generation : String) :
    ∃ a tx, (Request.saveSnapshotChecked stream snapshot generation).work P tx₀ = (.ok a, tx) ∧
      Turn P B m ts s₀ h d (.saveSnapshotChecked stream snapshot generation) (h.finish P a tx) := by
  have hgenerations : tx₀.state.generations = s₀.generations := by rw [← hg.starts.strip]; rfl
  by_cases hcurrent : tx₀.state.generations[StreamId.key stream]? = some generation
  · obtain ⟨d', hok, hb⟩ := Disk.overwrite_eq_ok tx₀.disk (.snapshot (snapshotName P stream))
      (keptBytes P generation snapshot)
    have hwork : (Request.saveSnapshotChecked stream snapshot generation).work P tx₀ =
        (.ok (.saved true), { tx₀ with disk := d' }) := by
      change (Work.saveSnapshotChecked P stream snapshot generation >>= _) tx₀ = _
      have hsave : Work.saveSnapshotChecked P stream snapshot generation tx₀ =
          (.ok true, { tx₀ with disk := d' }) := by
        unfold Work.saveSnapshotChecked
        rw [Session.get_bind, if_neg (by simpa using hcurrent)]
        exact (Session.bind_of_ok (run_perform_ok hok)).trans rfl
      exact (Session.bind_of_ok hsave).trans rfl
    refine ⟨_, _, hwork, ?_⟩
    rw [finish_of_nothing (by exact hg.starts.privacy) (by exact hg.starts.pending)]
    change Turn P B m ts s₀ h d _ ⟨.ok (.saved true), h.keep tx₀.journal tx₀.state, d'⟩
    exact .saved hg rfl (hgenerations ▸ hcurrent) hb (hg.starts.stored.overwritten hb)
  · have hwork : (Request.saveSnapshotChecked stream snapshot generation).work P tx₀ =
        (.ok (.saved false), tx₀) := by
      change (Work.saveSnapshotChecked P stream snapshot generation >>= _) tx₀ = _
      have hsave : Work.saveSnapshotChecked P stream snapshot generation tx₀ = (.ok false, tx₀) := by
        unfold Work.saveSnapshotChecked
        rw [Session.get_bind, if_pos (by simpa using hcurrent)]
        rfl
      exact (Session.bind_of_ok hsave).trans rfl
    exact ⟨_, _, hwork, turn_of_ran hg rfl hwork ((ran_composes B).refl tx₀ true)⟩

/-- The end of a call whose work replaced the history. -/
theorem turn_of_rewrote {r : Request} {tx₀ tx : Tx} {a : Response} {us : List Json} {s : State}
    {ops : List Op} (hg : Given P B m ts s₀ h d tx₀) (hsha : Function.Injective P.sha256)
    (hwork : r.work P tx₀ = (.ok a, tx.rewrote us s ops))
    (hreplaced : Replaced P ts s₀ tx₀ r a tx us s ops) (htx : tx.Replaces P B m ts s₀ us s)
    (hgrew : Grew P tx₀ tx) (hops : ∀ op ∈ ops, op.Marks) :
    Turn P B m ts s₀ h d r (h.finish P a (tx.rewrote us s ops)) := by
  rcases finish_rewrote (h := h) (a := a) htx hops hsha with ⟨e, he⟩ |
    ⟨j, d', hserved, hepoch, hstore, hstored, htended⟩ | ⟨d', hserved, hwedged⟩
  · rw [he]
    change Turn P B m ts s₀ h d r ⟨.error e, h.forget, (tx.rewrote us s ops).disk⟩
    exact .full hg hwork (hgrew.trans (grew_of_disk_eq rfl rfl rfl)) htx.stored
  · rw [hserved]
    exact .replaced hg hwork hreplaced hepoch hstore hstored htended
  · rw [hserved]
    exact .stuck hg hwork hreplaced hwedged

/-- An erasure leaves only events and objects that were there. -/
theorem turn_of_forget {tx₀ : Tx} (hg : Given P B m ts s₀ h d tx₀)
    (hsha : Function.Injective P.sha256) (tenant : TenantId) :
    ∃ a tx, (Request.forgetTenant tenant).work P tx₀ = (.ok a, tx) ∧
      Turn P B m ts s₀ h d (.forgetTenant tenant) (h.finish P a tx) := by
  obtain ⟨s, hreplay, hwithout, hforget⟩ := forgetTenant_eq hg.starts tenant
  have hwork : (Request.forgetTenant tenant).work P tx₀ =
      (.ok .unit, tx₀.rewrote (rewritten (forgetOps tenant) ts) s []) :=
    (Session.bind_of_ok hforget).trans rfl
  refine ⟨_, _, hwork, turn_of_rewrote hg hsha hwork (.forgot hreplay hwithout) ?_ (.refl _)
    (by simp)⟩
  have hminted := hg.starts.stored.minted
  constructor
  · exact hg.starts.stored
  · exact hg.starts.manifest
  · exact hg.starts.pending
  · exact (forgetOps_follows tenant).journaled hg.starts.stored.journaled
  · exact hreplay
  · rw [State.Minted, hwithout.events]
    exact ⟨fun e he => hminted.1 e (List.mem_of_mem_filter he),
      hminted.2.sublist (List.filter_sublist.map _)⟩
  · intro k b hb
    by_cases hlost : Owned tenant k
    · rw [(hwithout.blobs k).1 hlost] at hb
      contradiction
    · rwa [(hwithout.blobs k).2 hlost] at hb

theorem redactEvent_eventId (event e : RecordedEvent) :
    (redactEvent event e).eventId = e.eventId := by
  unfold redactEvent
  split_ifs with h
  · exact h.symm
  · rfl

theorem turn_of_redact {tx₀ : Tx} (hg : Given P B m ts s₀ h d tx₀) (hh : h.Sound P B m ts)
    (hsha : Function.Injective P.sha256) (hB : ∀ reason, B.data (redactionTombstone reason))
    (stream : StreamId) (version : Nat) (reason : String) :
    (∃ e tx, (Request.redact stream version reason).work P tx₀ = (.error e, tx) ∧
      Turn P B m ts s₀ h d (.redact stream version reason) (h.refused P e tx)) ∨
    ∃ a tx, (Request.redact stream version reason).work P tx₀ = (.ok a, tx) ∧
      Turn P B m ts s₀ h d (.redact stream version reason) (h.finish P a tx) := by
  rcases redact_cases hg.starts hB stream version reason with ⟨e, he⟩ |
    ⟨old, event, s, hfound, hversion, hevent, hreplay, hredacted, hjournaled, hredact⟩
  · have hwork : (Request.redact stream version reason).work P tx₀ = (.error e, tx₀) :=
      Session.bind_of_error he
    exact .inl ⟨e, tx₀, hwork, turn_of_refused hg hh hwork ((ran_composes B).refl tx₀ false)⟩
  · have hwork : (Request.redact stream version reason).work P tx₀ = (.ok (.event event), _) :=
      (Session.bind_of_ok hredact).trans rfl
    have hdrew := (drew_ran (P := P) (B := B) tx₀ true).grew
    refine .inr ⟨_, _, hwork, turn_of_rewrote hg hsha hwork
      (.redacted hfound hversion hevent hreplay hredacted) ?_ hdrew (redactionMarks_marks _ _ _)⟩
    have hminted := hg.starts.stored.minted.mono hdrew.drawn
    have hids : s.events.map RecordedEvent.eventId = s₀.events.map RecordedEvent.eventId := by
      rw [hredacted.events, List.map_map]
      exact List.map_congr_left fun e _ => redactEvent_eventId event e
    constructor
    · exact hg.starts.grew hdrew
    · exact hg.starts.manifest
    · exact hg.starts.pending
    · exact hjournaled
    · exact hreplay
    · refine ⟨fun e he => ?_, hids ▸ hminted.2⟩
      rw [hredacted.events] at he
      obtain ⟨e₀, he₀, rfl⟩ := List.mem_map.mp he
      rw [redactEvent_eventId]
      exact hminted.1 e₀ he₀
    · intro k b hb
      rwa [hredacted.blobs] at hb

/-! ## Every call -/

/-- The handle a call is served with. -/
def Handle.serving (h : Handle) (r : Request) : Handle :=
  if r.freezes then { h with frozen := true } else h

theorem serving_sound {r : Request} (hh : h.Sound P B m ts) : (h.serving r).Sound P B m ts := by
  unfold Handle.serving
  split_ifs
  · exact ⟨hh.observed, hh.verified, hh.inline⟩
  · exact hh

/-- **Every call** is answered by its checks, or takes one of the turns. -/
theorem call_turn {r : Request} (hst : Stored P B d m ts s₀) (hh : h.Sound P B m ts)
    (hsha : Function.Injective P.sha256) (hB : ∀ reason, B.data (redactionTombstone reason))
    (hr : r.Carries B) :
    (∃ e, r.precheck P = .error e ∧ h.call P r d = ⟨.error e, h, d⟩) ∨
      r.precheck P = .ok () ∧ Turn P B m ts s₀ (h.serving r) d r (h.call P r d) := by
  cases hcheck : r.precheck P with
  | error e => exact .inl ⟨e, rfl, by simp only [Handle.call, hcheck]⟩
  | ok u =>
      refine .inr ⟨rfl, ?_⟩
      have hcall : h.call P r d = (h.serving r).transaction P (r.work P) d := by
        simp only [Handle.call, hcheck, Handle.serving]
      have hh' : (h.serving r).Sound P B m ts := serving_sound hh
      rw [hcall]
      rcases transaction_cases (r.work P) hst (.inl hsha) hh' with ⟨e, d', heq, hentered⟩ |
        ⟨j, s, d', hentered, heq⟩
      · rw [heq]
        exact .shut hentered
      · have hg : Given P B m ts s₀ (h.serving r) d ((h.serving r).begin j s d') :=
          ⟨hentered.starts, hentered.2.2.2.2.2.2.1, hentered.2.1, rfl, rfl, hentered.2.2.2.2.2.2.2⟩
        rw [heq]
        cases hstages : r.stages with
        | true =>
            have hran := hg.runs hh' hstages hr
            rcases hwork : r.work P ((h.serving r).begin j s d') with ⟨x, tx⟩
            rw [hwork] at hran
            cases x with
            | ok a => exact turn_of_ran hg (rewrites_of_stages hstages) hwork hran
            | error e => exact turn_of_refused hg hh' hwork hran
        | false =>
            cases r with
            | saveSnapshotChecked stream snapshot generation =>
                obtain ⟨a, tx, hwork, hturn⟩ := turn_of_save hg stream snapshot generation
                rw [hwork]
                exact hturn
            | forgetTenant tenant =>
                obtain ⟨a, tx, hwork, hturn⟩ := turn_of_forget hg hsha tenant
                rw [hwork]
                exact hturn
            | redact stream version reason =>
                rcases turn_of_redact hg hh' hsha hB stream version reason with
                  ⟨e, tx, hwork, hturn⟩ | ⟨a, tx, hwork, hturn⟩
                · rw [hwork]
                  exact hturn
                · rw [hwork]
                  exact hturn
            | _ => simp [Request.stages] at hstages

end Eventlog.File
