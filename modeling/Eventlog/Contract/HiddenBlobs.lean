import Eventlog.Sqlite.Effects
import Eventlog.Tree.World

/-!
# Eventlog.Contract.HiddenBlobs

What a refused guard tells a caller that brings a batch.

`append_group_guarded_with_blobs` is to ask its guard before it says anything about blobs.
SQLite and File do.  The tree store answers a committed key, and refuses a batch that
contradicts what is bound, before its engine asks: there the refusal is the guard's exactly
when neither happens (`Tree.Unread`).
-/

namespace Eventlog

open Durable

variable (P : Platform)

/-! ## SQLite -/

namespace Sqlite

/-- SQLite asks the guard of a batch before it compares anything. -/
theorem batch_refused {e : Engine} {D : Draws} {group : AppendGroup} {guard : Callback}
    {blobs : List BlobWrite} {plan : String × List BlobWrite × String} {refusal : EventLogError}
    (hblobs : blobs ≠ []) (hplan : Engine.planBatch P group blobs = .ok plan)
    (hguard : ((Work.guardView e.serving group.tenant).call P guard e.db).1 = .error refusal) :
    (e.appendGroupGuardedWithBlobs P D group guard blobs).1 = .error refusal := by
  obtain ⟨fingerprint, writes, blobFingerprint⟩ := plan
  have hasked : ∀ k : Unit → Work AppendGroupResult,
      (((Work.admission P e.serving group guard >>= k) ⟨e.db, e.restored, 0, 0⟩).1) =
        .error refusal := by
    intro k
    rw [Session.bind_of_error (e := refusal)]
    simp only [Work.admission, Work.call]
    rw [← hguard]
  have hwork : (Work.guardedBatchInTransaction P e.serving D group fingerprint blobFingerprint
      writes guard ⟨e.db, e.restored, 0, 0⟩).1 = .error refusal := by
    rw [Work.guardedBatchInTransaction, Session.get_bind]
    cases e.db.receipt group with
    | none => exact hasked _
    | some receipt => exact hasked _
  have hempty : blobs.isEmpty = false := by simpa using hblobs
  simp only [Engine.appendGroupGuardedWithBlobs, hempty, hplan, Engine.transact, Engine.freeze]
  rcases hrun : Work.guardedBatchInTransaction P e.serving D group fingerprint blobFingerprint
      writes guard ⟨e.db, e.restored, 0, 0⟩ with ⟨r, tx⟩
  rw [hrun] at hwork
  obtain rfl : r = .error refusal := hwork
  rfl

/-- SQLite refuses a malformed batch before it looks at anything. -/
theorem batch_malformed {e : Engine} {D : Draws} {group : AppendGroup} {guard : Callback}
    {blobs : List BlobWrite} {own : EventLogError} (hblobs : blobs ≠ [])
    (hplan : Engine.planBatch P group blobs = .error own) :
    (e.appendGroupGuardedWithBlobs P D group guard blobs).1 = .error own := by
  have hempty : blobs.isEmpty = false := by simpa using hblobs
  simp [Engine.appendGroupGuardedWithBlobs, hempty, hplan]

end Sqlite

/-! ## File -/

namespace File

/-- No object was written. -/
def SameObjects (tx : Tx) (_ : Bool) (tx' : Tx) : Prop :=
  tx'.written = tx.written ∧ tx'.stagedBlobs = tx.stagedBlobs

theorem sameObjects_composes : Session.Composes SameObjects where
  refl _ _ := ⟨rfl, rfl⟩
  trans _ _ _ _ h h' := ⟨h'.1.trans h.1, h'.2.trans h.2⟩

theorem record_sameObjects (op : Op) : Session.Obeys SameObjects (Work.record op) := by
  intro tx
  unfold Work.record
  split <;> exact ⟨rfl, rfl⟩

theorem reserve_sameObjects (v : ProjectionView) (permit : Nat) (rs : List Reservation) :
    Session.Obeys SameObjects (v.reserve permit rs) := by
  refine (Session.obeys_ask sameObjects_composes _).bind sameObjects_composes fun writes => ?_
  refine Session.Obeys.bind sameObjects_composes ?_ fun _ => Session.obeys_pure sameObjects_composes _
  exact Session.obeys_forM sameObjects_composes fun w _ => record_sameObjects w.1

/-- A callback writes no object. -/
theorem call_sameObjects (v : ProjectionView) (c : Callback) :
    Session.Obeys SameObjects (v.call P.toPrimitives c) := by
  have hrow : ∀ (f : Tx → Except EventLogError Unit) (op : Op), Session.Obeys SameObjects
      (do Session.ask f; Work.record op : Work Unit) := fun f op =>
    (Session.obeys_ask sameObjects_composes f).bind sameObjects_composes fun _ =>
      record_sameObjects op
  induction c with
  | done result => exact Session.obeys_ask sameObjects_composes _
  | reserve permit rs next ih =>
      intro tx
      obtain ⟨hwritten, hstaged⟩ := reserve_sameObjects v permit rs tx
      obtain ⟨hwritten', hstaged'⟩ := ih (v.reserve permit rs tx).1 (v.reserve permit rs tx).2
      exact ⟨hwritten'.trans hwritten, hstaged'.trans hstaged⟩
  | getBlob digest next ih => exact fun tx => ih _ tx
  | upsert spec tenant key body next ih =>
      intro tx
      obtain ⟨hwritten, hstaged⟩ := hrow _ _ tx
      obtain ⟨hwritten', hstaged'⟩ :=
        ih (v.upsert spec tenant key body tx).1 (v.upsert spec tenant key body tx).2
      exact ⟨hwritten'.trans hwritten, hstaged'.trans hstaged⟩
  | delete spec tenant key next ih =>
      intro tx
      obtain ⟨hwritten, hstaged⟩ := hrow _ _ tx
      obtain ⟨hwritten', hstaged'⟩ := ih (v.delete spec tenant key tx).1 (v.delete spec tenant key tx).2
      exact ⟨hwritten'.trans hwritten, hstaged'.trans hstaged⟩
  | get spec tenant key next ih => exact fun tx => ih _ tx
  | getForUpdate spec tenant key next ih => exact fun tx => ih _ tx
  | find spec tenant field value limit next ih => exact fun tx => ih _ tx

/-- The transaction a call of a handle works in. -/
def Handle.Begins (h : Handle) (d : Disk) (tx : Tx) : Prop :=
  ∃ journal state, (enter P.toPrimitives h.observed h.current d).result = .ok (journal, state) ∧
    tx = h.begin journal state ((enter P.toPrimitives h.observed h.current).last d)

/-- A refusal with no object to discard is the answer. -/
theorem Handle.refused_result {h : Handle} {e : EventLogError} {tx : Tx} (hwritten : tx.written = [])
    (hstaged : tx.stagedBlobs = []) :
    (h.refused P.toPrimitives e tx : Served α).result = .error e := by
  have hdiscard : (tx.discard P.toPrimitives tx.disk).result = .ok () := by
    simp [Tx.discard, hwritten, hstaged, cleanupStaged, Program.when]
    rfl
  unfold refused
  split
  · rfl
  · simp only [hdiscard]

/-- File asks the guard of a batch before it compares anything. -/
theorem batch_refused {h : Handle} {d : Disk} {tx : Tx} {group : AppendGroup} {guard : Callback}
    {blobs : List BlobWrite} {fingerprint : String} {refusal : EventLogError}
    (hblobs : blobs ≠ []) (hplan : group.fingerprint P.toPrimitives = .ok fingerprint)
    (hbegins : h.Begins P d tx)
    (hguard : ((guardView group.tenant).call P.toPrimitives guard tx).1 = .error refusal) :
    (h.call P.toPrimitives (.group group guard blobs) d).result = .error refusal := by
  obtain ⟨journal, state, henter, rfl⟩ := hbegins
  generalize hfrozen : ({ h with frozen := true } : Handle) = h'
  obtain ⟨hobserved, hcurrent, hbegin⟩ : h'.observed = h.observed ∧ h'.current = h.current ∧
      h'.begin = h.begin := by
    subst hfrozen
    exact ⟨rfl, rfl, rfl⟩
  generalize htx : h.begin journal state ((enter P.toPrimitives h.observed h.current).last d) = tx
    at hguard
  obtain ⟨tx', hcall⟩ : ∃ tx', (guardView group.tenant).call P.toPrimitives guard tx =
      (.error refusal, tx') := ⟨_, Prod.ext hguard rfl⟩
  have hasked : ∀ k : Unit → Work AppendGroupResult,
      (((guardView group.tenant).call P.toPrimitives guard >>= k) tx) = (.error refusal, tx') :=
    fun k => Session.bind_of_error hcall
  have hgroup : Work.group P.toPrimitives group guard blobs fingerprint tx =
      (.error refusal, tx') := by
    rw [Work.group, Session.get_bind]
    cases tx.state.receipt group with
    | none => exact hasked _
    | some receipt =>
        obtain ⟨old, ranges, bound⟩ := receipt
        have hempty : blobs.isEmpty = false := by simpa using hblobs
        simp only [Work.groupCommitted, Work.admitRetry, hempty]
        exact hasked _
  have hwork : (Request.group group guard blobs).work P.toPrimitives tx = (.error refusal, tx') := by
    have hcheck : Work.check (group.fingerprint P.toPrimitives) tx = (.ok fingerprint, tx) :=
      Session.ask_eq hplan
    rw [Request.work, Session.bind_of_ok hcheck]
    exact Session.bind_of_error hgroup
  have hobjects : tx'.written = [] ∧ tx'.stagedBlobs = [] := by
    have hsame := call_sameObjects P (guardView group.tenant) guard tx
    rw [hcall] at hsame
    exact ⟨hsame.1.trans (by rw [← htx]; rfl), hsame.2.trans (by rw [← htx]; rfl)⟩
  simp only [Handle.call, Request.precheck, hplan, Except.map, Request.freezes, if_true, hfrozen,
    Handle.transaction, hobserved, hcurrent, henter, hbegin, htx, hwork]
  exact Handle.refused_result P hobjects.1 hobjects.2

/-- File refuses a malformed group before it begins. -/
theorem batch_malformed {h : Handle} {d : Disk} {group : AppendGroup} {guard : Callback}
    {blobs : List BlobWrite} {own : EventLogError}
    (hplan : group.fingerprint P.toPrimitives = .error own) :
    (h.call P.toPrimitives (.group group guard blobs) d).result = .error own := by
  simp [Handle.call, Request.precheck, hplan, Except.map]

end File

/-! ## Tree -/

namespace Tree

open Sqlite (Engine Ledger)

/-- A call of a handle works on `s'`: the handle is open, and refreshed to it. -/
def Store.Begins (E : Env) (s s' : Store) : Prop :=
  s.state.poisoned = false ∧ s.refresh P E = (.ok (), s')

/-- Nothing of a handle's state answers a group with a batch before its guard is asked: the
    streams have the heads the group expects, its key is not committed, and its batch agrees
    with what is bound. -/
structure Unread (s : Store) (group : AppendGroup) (blobs : List (String × Bytes)) : Prop where
  heads : (s.state.checkHeads P (group.appends.map fun a => (a.stream, a.expected))).isOk
  receipt : s.state.engine.db.receipt group = none
  agrees : s.state.engine.db.Agrees group.tenant (blobGroup group blobs).blobs

/-- The tables the guard of a group with a batch is asked at. -/
def Store.askedAt (s : Store) (group : AppendGroup) (blobs : List (String × Bytes)) : Sqlite.Db :=
  { s.state.engine.db with
    toLedger := s.state.engine.db.holding group.tenant (sortByDigest (blobGroup group blobs).blobs) }

/-- The guard of a group with a batch refuses. -/
def Store.Refuses (s : Store) (group : AppendGroup) (blobs : List (String × Bytes))
    (guard : Callback) (refusal : EventLogError) : Prop :=
  ((Sqlite.Work.guardView s.state.engine.serving group.tenant).call P guard
    (s.askedAt group blobs)).1 = .error refusal

/-- What a group expects is no part of its checks. -/
theorem check_rewritten {group : AppendGroup} {passed : List Expected}
    (h : passed.length = group.appends.length) : (rewritten group passed).check = group.check := by
  have hentries : ∀ (g g' : AppendGroup) (appends : List StreamAppend) (passed : List Expected),
      g'.tenant = g.tenant → g'.command = g.command → passed.length = appends.length →
      ((appends.zip passed).map fun a => { a.1 with expected := a.2 }).forM g'.checkEntry =
        appends.forM g.checkEntry := by
    intro g g' appends passed htenant hcommand hlength
    induction appends generalizing passed with
    | nil => rfl
    | cons a rest ih =>
        obtain ⟨p, ps, rfl⟩ := List.exists_cons_of_length_eq_add_one hlength
        have hentry : g'.checkEntry { a with expected := p } = g.checkEntry a := by
          simp [AppendGroup.checkEntry, htenant, hcommand]
        change (g'.checkEntry { a with expected := p } >>= fun _ => List.forM _ _) =
          (g.checkEntry a >>= fun _ => List.forM _ _)
        rw [hentry]
        exact bind_congr fun _ => ih ps (by simpa using hlength)
  have hempty : (rewritten group passed).appends.isEmpty = group.appends.isEmpty := by
    have hlength : (rewritten group passed).appends.length = group.appends.length := by
      simp [rewritten, h]
    rw [Bool.eq_iff_iff, List.isEmpty_iff_length_eq_zero, List.isEmpty_iff_length_eq_zero, hlength]
  unfold AppendGroup.check
  rw [hempty]
  rw [show (rewritten group passed).appends.forM (rewritten group passed).checkEntry =
    group.appends.forM group.checkEntry from hentries group _ _ passed rfl rfl h]
  rfl

/-- A group with a batch passes its checks whatever it expects. -/
theorem fingerprint_rewritten {group : AppendGroup} {blobs : List (String × Bytes)}
    {fingerprint : String} {passed : List Expected}
    (h : (blobGroup group blobs).fingerprint P.toPrimitives = .ok fingerprint)
    (hpassed : passed.length = group.appends.length) :
    ∃ f, (blobGroup (rewritten group passed) blobs).fingerprint P.toPrimitives = .ok f := by
  rw [BlobAppendGroup.fingerprint_eq_ok_iff] at h
  obtain ⟨hcheck, hempty, hblobs, -⟩ := h
  refine ⟨_, (BlobAppendGroup.fingerprint_eq_ok_iff _).mpr ⟨?_, hempty, hblobs, rfl⟩⟩
  exact (check_rewritten hpassed).trans hcheck

theorem Agrees.sorted {l : Ledger} {tenant : TenantId} {blobs : List BlobWrite} :
    l.Agrees tenant (sortByDigest blobs) ↔ l.Agrees tenant blobs := by
  simp [Ledger.Agrees, sortByDigest, List.mem_insertionSort]

theorem nodup_sorted {blobs : List BlobWrite} (h : (blobs.map BlobWrite.digest).Nodup) :
    ((sortByDigest blobs).map BlobWrite.digest).Nodup :=
  ((List.perm_insertionSort _ blobs).map _).nodup_iff.mpr h

/-- What the checks of a group with a batch say of it. -/
theorem planned {group : AppendGroup} {blobs : List (String × Bytes)} {fingerprint : String}
    (h : (blobGroup group blobs).fingerprint P.toPrimitives = .ok fingerprint) :
    group.check = .ok () ∧ blobs ≠ [] ∧
      ((sortByDigest (blobGroup group blobs).blobs).map BlobWrite.digest).Nodup := by
  obtain ⟨hcheck, hempty, hdistinct, -⟩ := (BlobAppendGroup.fingerprint_eq_ok_iff _).mp h
  refine ⟨hcheck, ?_, nodup_sorted (checkBlobs_eq_ok_iff.mp hdistinct).2.1⟩
  rintro rfl
  exact hempty rfl

/-- A transaction that a receipt answers, or that what is bound refuses, does not reach its
    guard. -/
theorem transact_unasked {e : Engine} {D : Draws} {group : AppendGroup} {f : String}
    {blobs : List BlobWrite} (hnodup : (blobs.map BlobWrite.digest).Nodup)
    (h : e.db.receipt group = none → ¬ e.db.Agrees group.tenant blobs) (guard : Callback) :
    e.freeze.transact (Sqlite.Work.groupInTransaction P e.serving D group f blobs guard) =
      e.freeze.transact (Sqlite.Work.groupInTransaction P e.serving D group f blobs noGuard) := by
  simp only [Engine.transact, Engine.freeze, Sqlite.Work.groupInTransaction, Session.get_bind]
  rcases hreceipt : e.db.receipt group with _ | receipt
  · have hrefused : ∃ tx, Sqlite.Work.bindGroupBlobs group.tenant blobs ⟨e.db, e.restored, 0, 0⟩ =
        (.error File.contradicted, tx) :=
      ⟨_, Prod.ext (Sqlite.Work.bindGroupBlobs_of_not_agrees hnodup (h hreceipt)) rfl⟩
    obtain ⟨tx, hrefused⟩ := hrefused
    simp only [Session.bind_of_error hrefused]
  · rfl

section Asked

variable {E : Env} {s s' : Store} {group : AppendGroup} {blobs : List (String × Bytes)}
  {fingerprint : String}

/-- A group that passes its checks is answered by a commit on the refreshed handle. -/
theorem group_answer (hcheck : group.check = .ok ()) (hbegins : s.Begins P E s') (guard : Callback) :
    (s.group P E group guard blobs).1 =
      ((groupCommit P E.draws group guard blobs).append P s').1.map fun r => ⟨r.1, r.2⟩ := by
  have hgroup : group.fingerprint P.toPrimitives = .ok (requestHash P.toPrimitives group.toJson) :=
    (AppendGroup.fingerprint_eq_ok_iff _).mpr ⟨hcheck, rfl⟩
  have hclaim : (groupCommit P E.draws group guard blobs).command.claim = none :=
    AppendGroup.claim_of_check hcheck
  simp only [Store.group, hgroup, Commit.run, hclaim, Option.isSome_none, Bool.false_eq_true, if_false,
    hbegins.1, hbegins.2]

/-- The engine's part of a commit, once the heads are those the group expects. -/
theorem call_eq {e : Engine} {passed : List Expected} {D : Draws}
    (hplan : (blobGroup group blobs).fingerprint P.toPrimitives = .ok fingerprint)
    (hpassed : passed.length = group.appends.length) :
    ∃ f, ∀ guard, (groupCommit P D group guard blobs).call e passed =
      let (answer, e') := e.freeze.transact (Sqlite.Work.groupInTransaction P e.serving D
        (rewritten group passed) f (sortByDigest (blobGroup group blobs).blobs) guard)
      (answer.map fun result => (result.appends, result.deduplicated), e') := by
  obtain ⟨f, hf⟩ := fingerprint_rewritten P hplan hpassed
  have hblobs : blobs.isEmpty = false := by simpa using (planned P hplan).2.1
  refine ⟨f, fun guard => ?_⟩
  simp only [groupCommit, hblobs, Bool.false_eq_true, if_false, Engine.appendGroupWithBlobsGuarded, hf]
  rfl

/-- A commit depends on its guard through what the engine answers only. -/
theorem append_congr {D : Draws} {guard guard' : Callback} {passed : List Expected}
    (hheads : s'.state.checkHeads P (group.appends.map fun a => (a.stream, a.expected)) = .ok passed)
    (h : (groupCommit P D group guard blobs).call s'.state.engine passed =
      (groupCommit P D group guard' blobs).call s'.state.engine passed) :
    (groupCommit P D group guard blobs).append P s' =
      (groupCommit P D group guard' blobs).append P s' := by
  have hmembers : ∀ g, (groupCommit P D group g blobs).members =
    group.appends.map fun a => (a.stream, a.expected) := fun _ => rfl
  simp only [Commit.append, hmembers, hheads, h]
  rfl

/-- With nothing to answer from, the guard's refusal is the answer. -/
theorem Unread.refused (h : Unread P s' group blobs)
    (hplan : (blobGroup group blobs).fingerprint P.toPrimitives = .ok fingerprint)
    (hbegins : s.Begins P E s') {guard : Callback} {refusal : EventLogError}
    (hguard : s'.Refuses P group blobs guard refusal) :
    (s.group P E group guard blobs).1 = .error refusal := by
  obtain ⟨passed, hpassed⟩ := Checks.isOk_iff.mp h.heads
  have hlength : passed.length = group.appends.length := by
    simpa using (Checks.mapM_eq_ok_iff.mp hpassed).length_eq.symm
  obtain ⟨hcheck, -, hnodup⟩ := planned P hplan
  obtain ⟨f, hcall⟩ := call_eq P (e := s'.state.engine) (D := E.draws) hplan hlength
  have hwork : (Sqlite.Work.groupInTransaction P s'.state.engine.serving E.draws
      (rewritten group passed) f (sortByDigest (blobGroup group blobs).blobs) guard
      ⟨s'.state.engine.db, s'.state.engine.restored, 0, 0⟩).1 = .error refusal := by
    rw [Sqlite.Work.groupInTransaction, Session.get_bind]
    simp only [show s'.state.engine.db.receipt (rewritten group passed) = none from h.receipt]
    rw [Session.bind_of_ok (Sqlite.Work.bindGroupBlobs_of_agrees hnodup
      (Agrees.sorted.mpr h.agrees))]
    rw [Session.bind_of_error (e := refusal)]
    exact Prod.ext hguard rfl
  have hanswer : ((groupCommit P E.draws group guard blobs).call s'.state.engine passed).1 =
      .error refusal := by
    rw [hcall guard]
    simp only [Engine.transact, Engine.freeze]
    rcases hrun : Sqlite.Work.groupInTransaction P s'.state.engine.serving E.draws
      (rewritten group passed) f (sortByDigest (blobGroup group blobs).blobs) guard
      ⟨s'.state.engine.db, s'.state.engine.restored, 0, 0⟩ with ⟨r, tx⟩
    rw [hrun] at hwork
    obtain rfl : r = .error refusal := hwork
    rfl
  rw [group_answer P hcheck hbegins]
  simp only [Commit.append, show s'.state.checkHeads P
    (groupCommit P E.draws group guard blobs).members = .ok passed from hpassed, hanswer]
  rfl

/-- With something to answer from, the answer is the same whatever the guard. -/
theorem unasked_of_not_unread (h : ¬ Unread P s' group blobs)
    (hplan : (blobGroup group blobs).fingerprint P.toPrimitives = .ok fingerprint)
    (hbegins : s.Begins P E s') (guard : Callback) :
    (s.group P E group guard blobs).1 = (s.group P E group noGuard blobs).1 := by
  obtain ⟨hcheck, -, hnodup⟩ := planned P hplan
  rw [group_answer P hcheck hbegins, group_answer P hcheck hbegins]
  rcases hheads : s'.state.checkHeads P (group.appends.map fun a => (a.stream, a.expected)) with
    e | passed
  · simp only [Commit.append, groupCommit, hheads]
  · have hlength : passed.length = group.appends.length := by
      simpa using (Checks.mapM_eq_ok_iff.mp hheads).length_eq.symm
    obtain ⟨f, hcall⟩ := call_eq P (e := s'.state.engine) (D := E.draws) hplan hlength
    have hread : s'.state.engine.db.receipt (rewritten group passed) = none →
        ¬ s'.state.engine.db.Agrees (rewritten group passed).tenant
          (sortByDigest (blobGroup group blobs).blobs) := fun hreceipt hagrees =>
      h ⟨by rw [hheads]; rfl, hreceipt, Agrees.sorted.mp hagrees⟩
    have hsame : (groupCommit P E.draws group guard blobs).call s'.state.engine passed =
        (groupCommit P E.draws group noGuard blobs).call s'.state.engine passed := by
      rw [hcall guard, hcall noGuard, transact_unasked P hnodup hread guard]
    rw [append_congr P hheads hsame]

/-- The refusal of a batch that names a digest twice, or a digest that cannot be stored. -/
theorem checkBlobs_error {seen : List String} {writes : List BlobWrite} {own : EventLogError}
    (h : checkBlobs seen writes = .error own) :
    own ≠ .Invalid "a merge expectation names a stream that has not forked" ∧
      ∀ stream heads, own ≠ forked stream heads := by
  induction writes generalizing seen with
  | nil => exact nomatch h
  | cons b rest ih =>
      rw [checkBlobs] at h
      rcases hfield : validateField "blob digest" b.digest with e | u
      · rw [hfield] at h
        obtain rfl : e = own := Except.error.inj h
        unfold validateField at hfield
        repeat' split at hfield
        all_goals cases hfield
        all_goals exact ⟨by decide, fun _ _ => by simp [forked]⟩
      · rw [hfield] at h
        change (if b.digest ∈ seen then _ else _) = _ at h
        split at h
        · obtain rfl : _ = own := Except.error.inj h
          exact ⟨by decide, fun _ _ => by simp [forked]⟩
        · exact ih h

/-- The refusals of a stream whose heads are not those expected. -/
theorem checkHeads_error {state : State} {members : List (StreamId × Expected)} {e : EventLogError}
    (h : state.checkHeads P members = .error e) :
    e = .Invalid "a merge expectation names a stream that has not forked" ∨
      ∃ stream heads, e = forked stream heads := by
  obtain ⟨m, -, hm⟩ := Checks.exists_of_mapM_eq_error h
  unfold passed at hm
  repeat' split at hm
  all_goals cases hm
  · exact .inr ⟨_, _, rfl⟩
  · exact .inl rfl
  · exact .inr ⟨_, _, rfl⟩

/-- A batch that fails its own checks is refused for that, if the heads are those expected. -/
theorem group_malformed {own : EventLogError} (hcheck : group.check = .ok ())
    (hplan : (blobGroup group blobs).fingerprint P.toPrimitives = .error own) (hblobs : blobs ≠ [])
    (hbegins : s.Begins P E s') (guard : Callback) :
    (s.group P E group guard blobs).1 = .error own ↔
      (s'.state.checkHeads P (group.appends.map fun a => (a.stream, a.expected))).isOk := by
  have hloop : checkBlobs [] (blobGroup group blobs).blobs = .error own :=
    (BlobAppendGroup.fingerprint_eq_error_iff _ hcheck (by simpa [blobGroup] using hblobs)).mp hplan
  rw [group_answer P hcheck hbegins]
  rcases hheads : s'.state.checkHeads P (group.appends.map fun a => (a.stream, a.expected)) with
    e | passed
  · have hanswer : ((groupCommit P E.draws group guard blobs).append P s').1 = .error e := by
      simp only [Commit.append, groupCommit, hheads]
    have hne : e ≠ own := by
      obtain ⟨hmerge, hforked⟩ := checkBlobs_error hloop
      rcases checkHeads_error P hheads with rfl | ⟨stream, heads, rfl⟩
      · exact hmerge.symm
      · exact (hforked stream heads).symm
    simp [hanswer, hheads, Except.map, hne, Except.isOk, Except.toBool]
  · have hlength : passed.length = group.appends.length := by
      simpa using (Checks.mapM_eq_ok_iff.mp hheads).length_eq.symm
    have hrewritten : (blobGroup (rewritten group passed) blobs).fingerprint P.toPrimitives =
        .error own :=
      (BlobAppendGroup.fingerprint_eq_error_iff _ ((check_rewritten hlength).trans hcheck)
        (by simpa [blobGroup] using hblobs)).mpr hloop
    have hempty : blobs.isEmpty = false := by simpa using hblobs
    simp [Commit.append, groupCommit, hheads, hempty, Engine.appendGroupWithBlobsGuarded, hrewritten,
      Except.map, Except.isOk, Except.toBool]

end Asked

/-- Nothing but the request and its guard decides what a handle answers. -/
def Silent (s : Store) (group : AppendGroup) (blobs : List (String × Bytes)) : Prop :=
  group.check = .ok () →
    (s.state.checkHeads P (group.appends.map fun a => (a.stream, a.expected))).isOk ∧
      (((blobGroup group blobs).fingerprint P.toPrimitives).isOk →
        s.state.engine.db.receipt group = none ∧
        s.state.engine.db.Agrees group.tenant (blobGroup group blobs).blobs)

end Tree

/-! ## The three providers -/

/-- An answer is the refusal a request brings on itself, or else the guard's. -/
def Settles (own : Except EventLogError α) (refusal : EventLogError)
    (answer : Except EventLogError β) : Prop :=
  match own with
  | .error e => answer = .error e
  | .ok _ => answer = .error refusal

/-- A guard that refuses whatever it is asked about. -/
def refusing (code : String) : Callback := .done (.error (.GuardRefused code))

theorem exists_other_code (answer : Except EventLogError α) :
    ∃ code, answer ≠ .error (.GuardRefused code) := by
  by_cases h : answer = .error (.GuardRefused "")
  · exact ⟨"refused", by rw [h]; simp⟩
  · exact ⟨"", h⟩

namespace Tree

theorem refusing_refuses (s : Store) (group : AppendGroup) (blobs : List (String × Bytes))
    (code : String) : s.Refuses P group blobs (refusing code) (.GuardRefused code) := rfl

theorem silent_iff_unread {s : Store} {group : AppendGroup} {blobs : List (String × Bytes)}
    {fingerprint : String}
    (hplan : (blobGroup group blobs).fingerprint P.toPrimitives = .ok fingerprint) :
    Silent P s group blobs ↔ Unread P s group blobs := by
  have hok : ((blobGroup group blobs).fingerprint P.toPrimitives).isOk := by rw [hplan]; rfl
  constructor
  · intro h
    obtain ⟨hheads, hrest⟩ := h (planned P hplan).1
    exact ⟨hheads, (hrest hok).1, (hrest hok).2⟩
  · exact fun h _ => ⟨h.heads, fun _ => ⟨h.receipt, h.agrees⟩⟩

/-- A group that fails its own checks is refused for that. -/
theorem group_unchecked (E : Env) (s : Store) {group : AppendGroup} (blobs : List (String × Bytes))
    {own : EventLogError} (hcheck : group.check = .error own) (guard : Callback) :
    (blobGroup group blobs).fingerprint P.toPrimitives = .error own ∧
      (s.group P E group guard blobs).1 = .error own := by
  have hgroup : group.fingerprint P.toPrimitives = .error own := by
    rw [AppendGroup.fingerprint, hcheck]
    rfl
  refine ⟨?_, by simp only [Store.group, hgroup]⟩
  rw [BlobAppendGroup.fingerprint, show (blobGroup group blobs).group.fingerprint P.toPrimitives =
    .error own from hgroup]
  rfl

section Decided

variable {E : Env} {s s' : Store} {group : AppendGroup} {blobs : List (String × Bytes)}

/-- Where nothing else decides, the guard's refusal is the answer. -/
theorem Silent.settles (h : Silent P s' group blobs) (hblobs : blobs ≠ [])
    (hbegins : s.Begins P E s') {guard : Callback} {refusal : EventLogError}
    (hguard : s'.Refuses P group blobs guard refusal) :
    Settles ((blobGroup group blobs).fingerprint P.toPrimitives) refusal
      (s.group P E group guard blobs).1 := by
  rcases hcheck : group.check with own | u
  · obtain ⟨hplan, hanswer⟩ := group_unchecked P E s blobs hcheck guard
    rw [hplan]
    exact hanswer
  rcases hplan : (blobGroup group blobs).fingerprint P.toPrimitives with own | fingerprint
  · exact (group_malformed P hcheck hplan hblobs hbegins guard).mpr (h hcheck).1
  · exact ((silent_iff_unread P hplan).mp h).refused P hplan hbegins hguard

/-- Where guards that refuse everything get their refusal through, nothing else decides. -/
theorem silent_of_refusing (hblobs : blobs ≠ []) (hbegins : s.Begins P E s')
    (h : ∀ code, Settles ((blobGroup group blobs).fingerprint P.toPrimitives) (.GuardRefused code)
      (s.group P E group (refusing code) blobs).1) : Silent P s' group blobs := by
  intro hcheck
  rcases hplan : (blobGroup group blobs).fingerprint P.toPrimitives with own | fingerprint
  · -- the batch is malformed: only the heads are looked at before that is said
    have hheads := (group_malformed P hcheck hplan hblobs hbegins (refusing "")).mp
      (by simpa only [hplan, Settles] using h "")
    exact ⟨hheads, fun hok => nomatch hok⟩
  · by_contra hread
    obtain ⟨code, hcode⟩ := exists_other_code (s.group P E group noGuard blobs).1
    apply hcode
    have hunread : ¬ Unread P s' group blobs := fun hunread =>
      hread ⟨hunread.heads, fun _ => ⟨hunread.receipt, hunread.agrees⟩⟩
    rw [← unasked_of_not_unread P hunread hplan hbegins (refusing code)]
    simpa only [hplan, Settles] using h code

end Decided

end Tree

end Eventlog
