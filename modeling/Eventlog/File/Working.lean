import Eventlog.File.Staging

/-!
# Eventlog.File.Working

Every request of the port but three obeys `Ran`: appends, groups, registrations, catch-up
and rebuilds stage operations and objects, and do nothing else.  The three are redaction
and erasure, which rewrite history, and the saving of a snapshot, which is no history.

An append runs the transaction's inline projectors, so what it stages is good when they
are (`Runs`).
-/

namespace Eventlog.File

open Durable Session

variable {P : Primitives} {B : Bodies}

/-! ## Appending -/

/-- An event is recorded under an identifier drawn for it. -/
theorem recordEvent_obeys (stream : StreamId) (command : CommandMeta) (version globalSeq : Nat)
    {e : NewEvent} (h : B.data e.data) :
    Obeys (Ran P B) (Work.recordEvent P stream command version globalSeq e) := by
  intro tx
  let event := NewEvent.recorded e stream command version globalSeq (P.eventId tx.disk.drawn)
    (P.utc tx.disk.clock)
  have hgood : (Op.Event event).Good P B tx.drew.disk := h
  have hminted : Minted P tx.disk.drawn tx.drew.disk.drawn [.Event event] := by
    refine ⟨fun id hid => ⟨tx.disk.drawn, le_refl _, Nat.lt_succ_self _, ?_⟩,
      by simp [Op.eventId?, Op.event?]⟩
    simpa [Op.eventId?, Op.event?, event, NewEvent.recorded] using hid
  have hran := record_ran_after (drew_ran tx true) rfl rfl hgood hminted
  have hrun : Work.recordEvent P stream command version globalSeq e tx =
      (Work.record (.Event event) >>= fun _ => pure event) tx.drew :=
    bind_of_ok (newEventId_eq tx)
  rcases hrecord : Work.record (.Event event) tx.drew with ⟨r, tx'⟩
  rw [hrecord] at hran
  cases r with
  | error e => rw [hrun, bind_of_error hrecord]; exact hran
  | ok u => rw [hrun, bind_of_ok hrecord]; exact hran

theorem recordEvents_obeys (stream : StreamId) (command : CommandMeta) (first : Nat)
    (written : List RecordedEvent) (events : List NewEvent) (h : ∀ e ∈ events, B.data e.data) :
    Obeys (Ran P B) (Work.recordEvents P stream command first written events) := by
  have hR := ran_composes (P := P) B
  induction events generalizing written with
  | nil => exact obeys_pure hR _
  | cons e rest ih =>
      refine (check_obeys _).bind hR fun version => (obeys_ask hR _).bind hR fun globalSeq => ?_
      exact (recordEvent_obeys stream command version globalSeq (h e (by simp))).bind hR
        fun event => ih (written ++ [event]) fun e he => h e (by simp [he])

theorem project_obeys (tenant : TenantId) (written : List RecordedEvent) {p : Projector}
    (h : p.Writes B.row) : Obeys (Ran P B) (Work.project P tenant written p) := by
  have hR := ran_composes (P := P) B
  exact (obeys_forM hR fun _ _ => obeys_ask hR _).bind hR fun _ =>
    obeys_forM hR fun event _ => call_obeys _ _ (h event)

/-- The inline projectors of a transaction write good rows only. -/
def Tx.Inlined (B : Bodies) (tx : Tx) : Prop :=
  ∀ p ∈ tx.inline, p.Writes B.row

/-- `Ran`, of a transaction whose inline projectors are good. -/
def Runs (P : Primitives) (B : Bodies) (tx : Tx) (ok : Bool) (tx' : Tx) : Prop :=
  tx.Inlined B → Ran P B tx ok tx'

theorem runs_composes (B : Bodies) : Composes (Runs P B) where
  refl tx ok _ := (ran_composes B).refl tx ok
  trans tx₁ tx₂ tx₃ ok h h' hin := by
    have hran := h hin
    have hin₂ : tx₂.Inlined B := by rw [Tx.Inlined, hran.inline]; exact hin
    exact (ran_composes B).trans tx₁ tx₂ tx₃ ok hran (h' hin₂)

theorem runs_of_ran {w : Work α} (h : Obeys (Ran P B) w) : Obeys (Runs P B) w :=
  fun tx _ => h tx

theorem append_runs (stream : StreamId) (expected : Expected) (events : List NewEvent)
    (command : CommandMeta) (h : ∀ e ∈ events, B.data e.data) :
    Obeys (Runs P B) (Work.append P stream expected events command) := by
  have hR := runs_composes (P := P) B
  refine (obeys_ask hR _).bind hR fun _ => (obeys_ask hR _).bind hR fun head =>
    (obeys_ask hR _).bind hR fun first => ?_
  refine (runs_of_ran (recordEvents_obeys stream command first [] events h)).bind hR
    fun written => ?_
  refine obeys_of_delivers fun tx => Delivers.bind hR (delivers_ask hR fun inline hinline => ?_)
  cases hinline
  refine Delivers.bind hR ⟨fun hin => ?_, fun _ _ => delivers_pure hR trivial⟩
  exact obeys_forM (ran_composes B) (fun p hp => project_obeys stream.tenant written (hin p hp)) tx

/-! ## Administration -/

theorem registerSpecs_obeys (names : List String) (specs : List ProjectionSpec) :
    Obeys (Ran P B) (Work.registerSpecs names specs) := by
  have hR := ran_composes (P := P) B
  induction specs generalizing names with
  | nil => exact obeys_pure hR _
  | cons spec rest ih =>
      refine (check_obeys _).bind hR fun _ => ?_
      split
      · exact obeys_refuse hR _
      · refine (obeys_ask hR _).bind hR fun old => ?_
        cases old with
        | none => exact Obeys.bind hR (record_obeys (fun _ => trivial) rfl) fun _ => ih _
        | some old =>
            simp only
            split
            · exact obeys_refuse hR _
            · exact ih _

theorem generation_obeys (stream : StreamId) : Obeys (Ran P B) (Work.generation P stream) := by
  have hR := ran_composes (P := P) B
  refine (obeys_ask hR _).bind hR fun known => ?_
  cases known with
  | some id => exact obeys_pure hR _
  | none =>
      exact newEventId_obeys.bind hR fun id =>
        Obeys.bind hR (record_obeys (fun _ => trivial) rfl) fun _ => obeys_pure hR _

theorem catchUp_obeys {p : Projector} (h : p.Writes B.row) (tenant : TenantId) (limit : Nat) :
    Obeys (Ran P B) (Work.catchUp P p tenant limit) := by
  have hR := ran_composes (P := P) B
  refine (obeys_ask hR _).bind hR fun _ => (obeys_ask hR _).bind hR fun position =>
    (obeys_ask hR _).bind hR fun waiting => ?_
  exact (obeys_forM hR fun event _ => call_obeys _ _ (h event)).bind hR fun _ =>
    Obeys.bind hR (record_obeys (fun _ => trivial) rfl) fun _ => obeys_pure hR _

/-! ## Groups -/

section Groups

variable (command : CommandMeta) (guard : Callback)

theorem appendNew_runs (stream : StreamId) (expected : Expected) (events : List NewEvent)
    (h : ∀ e ∈ events, B.data e.data) (hg : guard.Writes B.row) :
    Obeys (Runs P B) (Work.appendNew P stream expected events command guard) := by
  have hR := runs_composes (P := P) B
  have hrecord {op : Op} (hgood : ∀ d, op.Good P B d) (hevent : op.eventId? = none) :
      Obeys (Runs P B) (Work.record op) := runs_of_ran (record_obeys hgood hevent)
  refine (obeys_ask hR _).bind hR fun _ => (runs_of_ran (call_obeys _ guard hg)).bind hR fun _ => ?_
  refine (append_runs stream expected events command h).bind hR fun result => ?_
  refine Obeys.bind hR (hrecord (fun _ => trivial) rfl) fun _ => ?_
  cases command.claim with
  | none => exact obeys_pure hR _
  | some claim => exact Obeys.bind hR (hrecord (fun _ => trivial) rfl) fun _ => obeys_pure hR _

theorem appendGuarded_runs (stream : StreamId) (expected : Expected) (events : List NewEvent)
    (h : ∀ e ∈ events, B.data e.data) (hg : guard.Writes B.row) :
    Obeys (Runs P B) (Work.appendGuarded P stream expected events command guard) := by
  have hR := runs_composes (P := P) B
  refine (obeys_ask hR _).bind hR fun found => ?_
  cases found with
  | some result => exact obeys_pure hR _
  | none => exact appendNew_runs command guard stream expected events h hg

theorem appendEntries_runs (entries : List StreamAppend)
    (h : ∀ entry ∈ entries, ∀ e ∈ entry.events, B.data e.data) :
    Obeys (Runs P B) (Work.appendEntries P command entries) := by
  have hR := runs_composes (P := P) B
  induction entries with
  | nil => exact obeys_pure hR _
  | cons entry rest ih =>
      refine (append_runs entry.stream entry.expected entry.events command
        (h entry (by simp))).bind hR fun result => ?_
      exact (ih fun entry hentry => h entry (by simp [hentry])).bind hR fun others => obeys_pure hR _

theorem commitEntries_runs (g : AppendGroup) (digest : String) (blobs : List String)
    (h : ∀ entry ∈ g.appends, ∀ e ∈ entry.events, B.data e.data) :
    Obeys (Runs P B) (Work.commitEntries P g digest blobs) := by
  have hR := runs_composes (P := P) B
  refine (appendEntries_runs g.command g.appends h).bind hR fun entries => ?_
  exact Obeys.bind hR (runs_of_ran (record_obeys (fun _ => trivial) rfl)) fun _ => obeys_pure hR _

theorem group_runs (g : AppendGroup) (blobs : List BlobWrite) (digest : String)
    (h : ∀ entry ∈ g.appends, ∀ e ∈ entry.events, B.data e.data) (hg : guard.Writes B.row) :
    Obeys (Runs P B) (Work.group P g guard blobs digest) := by
  have hR := runs_composes (P := P) B
  have hguard := runs_of_ran (call_obeys (P := P) (guardView g.tenant) guard hg)
  refine (obeys_ask hR _).bind hR fun committed => ?_
  cases committed with
  | none =>
      exact hguard.bind hR fun _ => (runs_of_ran (bindBlobs_obeys g.tenant blobs)).bind hR
        fun _ => commitEntries_runs g digest _ h
  | some receipt =>
      refine Obeys.bind hR ?_ fun _ => ?_
      · unfold Work.admitRetry
        split
        · exact obeys_pure hR _
        · exact hguard
      · split
        · exact obeys_ask hR _
        · split
          · exact obeys_refuse hR _
          · exact (obeys_ask hR _).bind hR fun _ => obeys_ask hR _

/-- Marking a request as an atomic one. -/
theorem atomicContent_obeys (f : Tx → Bool) :
    Obeys (Ran P B) (Session.change fun tx => { tx with atomicContent := f tx } : Work Unit) :=
  fun _ => ⟨rfl, rfl, rfl, rfl, grew_of_disk_eq rfl rfl rfl, [], by simp [Session.change],
    staged_nil rfl⟩

theorem atomicGroup_runs (g : AppendGroup) (blobs : List BlobWrite) (digest : String)
    (h : ∀ entry ∈ g.appends, ∀ e ∈ entry.events, B.data e.data) (hg : guard.Writes B.row) :
    Obeys (Runs P B) (Work.atomicGroup P g guard blobs digest) := by
  have hR := runs_composes (P := P) B
  refine (obeys_ask hR _).bind hR fun committed => ?_
  cases committed with
  | none =>
      refine Obeys.bind hR (obeys_forM hR fun b _ => runs_of_ran (bindBlob_obeys g.tenant b))
        fun _ => ?_
      refine Obeys.bind hR (runs_of_ran (atomicContent_obeys _)) fun _ => ?_
      exact (runs_of_ran (call_obeys _ guard hg)).bind hR fun _ => commitEntries_runs g digest _ h
  | some receipt =>
      simp only
      split
      · exact obeys_refuse hR _
      · exact obeys_ask hR _

end Groups

/-! ## Requests -/

theorem streamIdentity_obeys (tenant : TenantId) :
    Obeys (Ran P B) (Work.streamIdentity P tenant) := by
  have hR := ran_composes (P := P) B
  refine (obeys_ask hR _).bind hR fun known => ?_
  cases known with
  | some id => exact obeys_pure hR _
  | none =>
      exact newEventId_obeys.bind hR fun id =>
        Obeys.bind hR (record_obeys (fun _ => trivial) rfl) fun _ => obeys_pure hR _

theorem snapshotGeneration_obeys (stream : StreamId) :
    Obeys (Ran P B) (Work.snapshotGeneration P stream) := by
  have hR := ran_composes (P := P) B
  refine (generation_obeys stream).bind hR fun id => ?_
  split
  · exact obeys_pure hR _
  · exact obeys_refuse hR _

theorem rebuildProjection_obeys {p : Projector} (h : p.Writes B.row) (tenant : TenantId) :
    Obeys (Ran P B) (Work.rebuildProjection P p tenant) := by
  have hR := ran_composes (P := P) B
  refine (registerSpecs_obeys [] p.projections).bind hR fun _ => ?_
  refine Obeys.bind hR (obeys_forM hR fun spec _ => ?_) fun _ => ?_
  · exact Obeys.bind hR (record_obeys (fun _ => trivial) rfl) fun _ =>
      record_obeys (fun _ => trivial) rfl
  · refine (obeys_ask hR _).bind hR fun events => ?_
    refine (obeys_forM hR fun event _ => call_obeys _ _ (h event)).bind hR fun _ => ?_
    exact Obeys.bind hR (record_obeys (fun _ => trivial) rfl) fun _ => obeys_pure hR _

/-- What is asked of the bodies a request hands in, and of the rows its callbacks write. -/
def Request.Carries (B : Bodies) : Request → Prop
  | .append _ _ events _ guard => (∀ e ∈ events, B.data e.data) ∧ guard.Writes B.row
  | .group g guard _ =>
      (∀ entry ∈ g.appends, ∀ e ∈ entry.events, B.data e.data) ∧ guard.Writes B.row
  | .atomicGroup g guard =>
      (∀ entry ∈ g.group.appends, ∀ e ∈ entry.events, B.data e.data) ∧ guard.Writes B.row
  | .runCatchUp projector _ _ | .rebuildProjection projector _ => projector.Writes B.row
  | _ => True

/-- The requests whose work stages operations and objects, and does nothing else. -/
def Request.stages : Request → Bool
  | .redact .. | .forgetTenant .. | .saveSnapshotChecked .. => false
  | _ => true

/-- **What a request does in its transaction**, however it ends. -/
theorem work_runs {r : Request} (hstages : r.stages) (h : r.Carries B) :
    Obeys (Runs P B) (r.work P) := by
  have hR := runs_composes (P := P) B
  cases r with
  | append stream expected events command guard =>
      exact (appendGuarded_runs command guard stream expected events h.1 h.2).map hR
  | group g guard blobs =>
      exact (obeys_ask hR _).bind hR fun digest => (group_runs guard g blobs digest h.1 h.2).map hR
  | atomicGroup g guard =>
      exact (obeys_ask hR _).bind hR fun digest =>
        (atomicGroup_runs guard g.group _ digest h.1 h.2).map hR
  | streamIdentity tenant => exact (runs_of_ran (streamIdentity_obeys tenant)).map hR
  | snapshotGeneration stream => exact (runs_of_ran (snapshotGeneration_obeys stream)).map hR
  | putBlob tenant digest bytes =>
      exact (runs_of_ran (bindBlobs_obeys tenant _)).bind hR fun _ => obeys_pure hR _
  | deleteBlob tenant digest =>
      exact Obeys.bind hR (runs_of_ran (record_obeys (fun _ => trivial) rfl)) fun _ =>
        obeys_pure hR _
  | createProjections projector =>
      exact (runs_of_ran (registerSpecs_obeys [] projector.projections)).bind hR fun _ =>
        obeys_pure hR _
  | runCatchUp projector tenant batch => exact (runs_of_ran (catchUp_obeys h tenant batch)).map hR
  | rebuildProjection projector tenant =>
      exact (runs_of_ran (rebuildProjection_obeys h tenant)).map hR
  | saveSnapshotChecked | redact | forgetTenant => contradiction
  | _ => exact obeys_ask hR _

end Eventlog.File
