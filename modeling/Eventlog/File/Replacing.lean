import Eventlog.File.Ending
import Eventlog.File.Erasing
import Eventlog.File.RewriteCrash

/-!
# Eventlog.File.Replacing

The transactions that replace history: redaction and erasure.

Their work rewrites the journal's transactions, replays them and, for a redaction, marks
what has to be derived again (`redact_cases`, `forgetTenant_eq`).  Their end is the rewrite
of the journal: it commits the new history in a new epoch, is refused before it begins, or
leaves a directory that no open gets past (`finish_rewrote`).
-/

namespace Eventlog.File

open Durable Program

variable {P : Primitives} {B : Bodies} {m : Manifest} {ts us : List Json} {s s' s₀ s₁ : State}

/-! ## The work -/

/-- Operations that mark what is stale: they touch no event, row or binding. -/
def Op.Marks : Op → Prop
  | .DirtyView _ _ _ | .Generation _ _ => True
  | _ => False

theorem Op.Marks.plain {op : Op} (h : op.Marks) : op.Plain := by
  cases op <;> trivial

theorem Op.Marks.bodied {op : Op} (h : op.Marks) : op.Bodied B := by
  cases op <;> trivial

/-- A state with marks on it. -/
def State.marked (s : State) (ops : List Op) : State :=
  ops.foldl State.update s

/-- Marks leave what they are about alone. -/
structure Unmarked (s s' : State) : Prop where
  events : s'.events = s.events
  nextPosition : s'.nextPosition = s.nextPosition
  commands : s'.commands = s.commands
  claims : s'.claims = s.claims
  groups : s'.groups = s.groups
  identities : s'.identities = s.identities
  projections : s'.projections = s.projections
  rows : s'.rows = s.rows
  cursors : s'.cursors = s.cursors
  blobs : s'.blobs = s.blobs
  counters : s'.counters = s.counters

theorem unmarked_update {op : Op} (h : op.Marks) (s : State) : Unmarked s (s.update op) := by
  cases op with
  | DirtyView tenant name dirty => constructor <;> rfl
  | Generation stream id => constructor <;> rfl
  | _ => exact h.elim

theorem unmarked_marked {ops : List Op} (h : ∀ op ∈ ops, op.Marks) (s : State) :
    Unmarked s (s.marked ops) := by
  induction ops generalizing s with
  | nil => constructor <;> rfl
  | cons op ops ih =>
      have hfirst := unmarked_update (h op (by simp)) s
      have hrest := ih (fun op hop => h op (by simp [hop])) (s.update op)
      constructor <;> simp only [State.marked, List.foldl_cons] at hrest ⊢
      · exact hrest.events.trans hfirst.events
      · exact hrest.nextPosition.trans hfirst.nextPosition
      · exact hrest.commands.trans hfirst.commands
      · exact hrest.claims.trans hfirst.claims
      · exact hrest.groups.trans hfirst.groups
      · exact hrest.identities.trans hfirst.identities
      · exact hrest.projections.trans hfirst.projections
      · exact hrest.rows.trans hfirst.rows
      · exact hrest.cursors.trans hfirst.cursors
      · exact hrest.blobs.trans hfirst.blobs
      · exact hrest.counters.trans hfirst.counters

theorem applyAll_marks {ops : List Op} (h : ∀ op ∈ ops, op.Marks) (s : State) :
    s.applyAll ops = .ok (s.marked ops) := by
  induction ops generalizing s with
  | nil => rfl
  | cons op ops ih =>
      rw [applyAll_cons, State.apply_of_plain (h op (by simp)).plain]
      exact ih (fun op hop => h op (by simp [hop])) (s.update op)

/-- A transaction that has replaced its history by `us`, which replays to `s`, and marked
    it. -/
def Tx.rewrote (tx : Tx) (us : List Json) (s : State) (ops : List Op) : Tx :=
  { tx with
    journal := { tx.journal with transactions := us }
    state := s.marked ops
    pending := tx.pending ++ ops
    privacy := true }

theorem rewrite_eq {f : List Op → List Op} (hts : Journaled B ts) (done : List Json) (tx : Tx) :
    Work.rewrite f done ts tx =
      (.ok (), { tx with journal := { tx.journal with transactions := done ++ rewritten f ts } }) := by
  induction ts generalizing done with
  | nil => simp [Work.rewrite, rewritten, Session.change]
  | cons t ts ih =>
      obtain ⟨ops, rfl, -⟩ := hts t (by simp)
      have hread := fromValue_toValue_ops ops
      rw [Work.rewrite, hread]
      simp only
      rw [ih fun t ht => hts t (by simp [ht])]
      simp [rewritten, hread]

/-- Rewriting and replaying, where the rewritten history replays. -/
theorem replayRewritten_eq {f : List Op → List Op} {tx : Tx}
    (hts : Journaled B tx.journal.transactions)
    (h : State.replay (rewritten f tx.journal.transactions) = .ok s) :
    Work.replayRewritten f tx = (.ok (), { tx with
      journal := { tx.journal with transactions := rewritten f tx.journal.transactions }
      state := s }) := by
  unfold Work.replayRewritten
  rw [Session.get_bind, Session.bind_of_ok (rewrite_eq hts [] tx), List.nil_append]
  exact (Session.ask_bind_ok (by exact h)).trans rfl

theorem record_mark {op : Op} (h : op.Marks) (tx : Tx) :
    Work.record op tx = (.ok (), { tx with
      pending := tx.pending ++ [op]
      state := tx.state.update op }) := by
  simp [Work.record, State.apply_of_plain h.plain]

theorem recordAll_marks {f : γ → Op} (xs : List γ) (h : ∀ x ∈ xs, (f x).Marks) (tx : Tx) :
    (xs.forM fun x => Work.record (f x)) tx = (.ok (), { tx with
      pending := tx.pending ++ xs.map f
      state := tx.state.marked (xs.map f) }) := by
  induction xs generalizing tx with
  | nil => simp [State.marked, pure]
  | cons x xs ih =>
      change (Work.record (f x) >>= fun _ => xs.forM fun x => Work.record (f x)) tx = _
      rw [Session.bind_of_ok (record_mark (h x (by simp)) tx), ih fun y hy => h y (by simp [hy])]
      simp [State.marked]

/-- **What erasure does**: it replaces the history, and never fails. -/
theorem forgetTenant_eq {tx : Tx} (hstart : tx.Starts P B m ts s₀) (tenant : TenantId) :
    ∃ s, State.replay (rewritten (forgetOps tenant) ts) = .ok s ∧ Without tenant s₀ s ∧
      Work.forgetTenant tenant tx =
        (.ok (), tx.rewrote (rewritten (forgetOps tenant) ts) s []) := by
  have hjournaled := hstart.stored.journaled
  obtain ⟨s, hreplay, hwithout⟩ := (forgetOps_follows (B := B) tenant).replayFrom hjournaled
    (fun t ht ops hread op hop => hjournaled.bodied ht hread op hop)
    (without_empty tenant) hstart.stored.replayed
  refine ⟨s, hreplay, hwithout, ?_⟩
  unfold Work.forgetTenant
  rw [Session.bind_of_ok (replayRewritten_eq (by rw [hstart.transactions]; exact hjournaled)
    (by rw [hstart.transactions]; exact hreplay)), hstart.transactions]
  simp [Session.change, Tx.rewrote, State.marked, hstart.pending]

/-- The event that takes the place of a redacted one. -/
def redactedEvent (old : RecordedEvent) (reason : String) (now : OffsetDateTime) : RecordedEvent :=
  { old with data := redactionTombstone reason, redactedAt := some now }

/-- What a redaction marks: every projection of the tenant as stale, and a new generation of
    the stream. -/
def redactionMarks (s : State) (stream : StreamId) (id : String) : List Op :=
  (s.projections.keys.flatten.map fun name => Op.DirtyView stream.tenant name true) ++
    [.Generation stream id]

theorem redactionMarks_marks (s : State) (stream : StreamId) (id : String) :
    ∀ op ∈ redactionMarks s stream id, op.Marks := by
  intro op hop
  rcases List.mem_append.mp hop with hop | hop
  · obtain ⟨name, -, rfl⟩ := List.mem_map.mp hop
    trivial
  · rw [List.mem_singleton.mp hop]
    trivial

/-- A redacted event keeps its place: identifiers are drawn once. -/
theorem redact_places {tx : Tx} (hstart : tx.Starts P B m ts s₀) {old : RecordedEvent}
    (hold : old ∈ s₀.events) (reason : String) (now : OffsetDateTime) (e : RecordedEvent)
    (he : e ∈ s₀.events) : SamePlace (redactEvent (redactedEvent old reason now) e) e := by
  unfold redactEvent
  split_ifs with hid
  · have heq : e = old := List.inj_on_of_nodup_map hstart.stored.minted.2 he hold hid
    rw [heq]
    exact ⟨rfl, rfl, rfl, rfl, rfl⟩
  · exact ⟨rfl, rfl, rfl, rfl, rfl⟩

/-- A redaction of an event it finds, where the rewritten history replays. -/
theorem redact_eq {tx : Tx} {stream : StreamId} {version : Nat} {reason : String}
    {old : RecordedEvent} (hvalid : validateField "redaction reason" reason = .ok ())
    (hfind : ((tx.state.ofStream stream).find? fun e => e.version == version) = some old)
    (hrewritten : Work.replayRewritten
      (redactOps stream.tenant (redactedEvent old reason (P.utc tx.disk.clock))) tx =
        (.ok (), { tx with journal := { tx.journal with transactions := us }, state := s })) :
    Work.redact P stream version reason tx =
      (.ok (redactedEvent old reason (P.utc tx.disk.clock)),
        tx.drew.rewrote us s (redactionMarks s stream (P.eventId tx.disk.drawn))) := by
  have hcheck : Work.check (validateField "redaction reason" reason) tx = (.ok (), tx) :=
    Session.ask_eq hvalid
  unfold Work.redact
  refine (Session.bind_of_ok hcheck).trans ?_
  refine (Session.ask_bind_ok (a := old) (by simp only [hfind])).trans ?_
  rw [Session.get_bind]
  refine (Session.bind_of_ok hrewritten).trans ?_
  rw [Session.get_bind]
  refine (Session.bind_of_ok (recordAll_marks (f := fun name => .DirtyView stream.tenant name true)
    _ (fun _ _ => trivial) _)).trans ?_
  refine (Session.bind_of_ok (newEventId_eq _)).trans ?_
  refine (Session.bind_of_ok (record_mark (show Op.Marks (.Generation stream _) from trivial) _)).trans ?_
  refine Session.change_bind.trans ?_
  simp [pure, Tx.rewrote, Tx.drew, redactionMarks, State.marked, List.foldl_append, redactedEvent]

/-- **What redaction does**: refused, it leaves the transaction alone; else it replaces the
    history and marks it. -/
theorem redact_cases {tx : Tx} (hstart : tx.Starts P B m ts s₀)
    (hB : ∀ reason, B.data (redactionTombstone reason)) (stream : StreamId) (version : Nat)
    (reason : String) :
    (∃ e, Work.redact P stream version reason tx = (.error e, tx)) ∨
    ∃ old event s, old ∈ s₀.ofStream stream ∧ old.version = version ∧
      event = redactedEvent old reason (P.utc tx.disk.clock) ∧
      State.replay (rewritten (redactOps stream.tenant event) ts) = .ok s ∧
      Redacted stream.tenant event s₀ s ∧
      Journaled B (rewritten (redactOps stream.tenant event) ts) ∧
      Work.redact P stream version reason tx =
        (.ok event, tx.drew.rewrote (rewritten (redactOps stream.tenant event) ts) s
          (redactionMarks s stream (P.eventId tx.disk.drawn))) := by
  have hofStream : tx.state.ofStream stream = s₀.ofStream stream := by rw [← hstart.strip]; rfl
  cases hvalid : validateField "redaction reason" reason with
  | error e => exact .inl ⟨e, Session.ask_bind_error hvalid⟩
  | ok u =>
      cases hfind : (tx.state.ofStream stream).find? fun e => e.version == version with
      | none =>
          have hcheck : Work.check (validateField "redaction reason" reason) tx = (.ok (), tx) :=
            Session.ask_eq hvalid
          exact .inl ⟨.NotFound, (Session.bind_of_ok hcheck).trans
            (Session.ask_bind_error (by simp only [hfind]))⟩
      | some old =>
          have hmem : old ∈ s₀.ofStream stream := hofStream ▸ List.mem_of_find?_eq_some hfind
          have hversion : old.version = version := by simpa using List.find?_some hfind
          have hjournaled := hstart.stored.journaled
          have hreplayed := hstart.stored.replayed
          have hfollows : Follows B (redactOps stream.tenant
              (redactedEvent old reason (P.utc tx.disk.clock))) _ _ :=
            redactOps_follows stream.tenant (hB reason)
          obtain ⟨s, hreplay, hredacted⟩ := hfollows.replayFrom hjournaled
            (fun t ht ops hread op hop e he => redact_places hstart (List.mem_filter.mp hmem).1
              reason _ e ((mem_events_of_replayFrom hjournaled hreplayed e).2 t ht ops hread
                (he ▸ hop))) (redacted_empty _ _) hreplayed
          refine .inr ⟨old, _, s, hmem, hversion, rfl, hreplay, hredacted,
            hfollows.journaled hjournaled, redact_eq hvalid hfind ?_⟩
          rw [← hstart.transactions] at hjournaled hreplay ⊢
          exact replayRewritten_eq hjournaled hreplay

/-! ## The end -/

/-- A directory with a pending rewrite that cannot be read back. -/
def Wedged (P : Primitives) (d : Disk) : Prop :=
  d.Drawn P ∧ ∃ r : Rewriting P, ¬ r.Readable ∧ r.Staged d.view

/-- What a transaction has at hand to replace its history by `us`, which replays to `s`. -/
structure Tx.Replaces (P : Primitives) (B : Bodies) (m : Manifest) (ts : List Json) (s₀ : State)
    (us : List Json) (s : State) (tx : Tx) : Prop where
  stored : Stored P B tx.disk m ts s₀
  manifest : tx.journal.manifest = m
  pending : tx.pending = []
  journaled : Journaled B us
  replayed : State.replay us = .ok s
  minted : s.Minted P tx.disk.drawn
  blobs : ∀ (k : List String) b, s.blobs[k]? = some b → s₀.blobs[k]? = some b

/-- What marks are journaled as. -/
def journalOf (ops : List Op) (s : State) : List Json :=
  if ops.isEmpty then [] else [toValue (ops ++ [.Watermark s.nextPosition])]

/-- The history a transaction that replaces its history commits. -/
def replacement (us : List Json) (s : State) (ops : List Op) : List Json :=
  us ++ journalOf ops (s.marked ops)

variable {tx : Tx} {ops : List Op}

theorem rewrote_sealed (hpending : tx.pending = []) :
    (tx.rewrote us s ops).sealed =
      if ops.isEmpty then [] else ops ++ [.Watermark (s.marked ops).nextPosition] := by
  simp [Tx.sealed, Tx.rewrote, hpending]

theorem marked_strip (hus : Journaled B us) (hreplay : State.replay us = .ok s)
    (hops : ∀ op ∈ ops, op.Marks) : (s.marked ops).strip = s.marked ops := by
  refine strip_eq_self fun k body hbody => ?_
  rw [(unmarked_marked hops s).rows] at hbody
  exact replayFrom_strip hus (rows_empty _) hreplay k body hbody

theorem replacement_replays (hus : Journaled B us) (hreplay : State.replay us = .ok s)
    (hops : ∀ op ∈ ops, op.Marks) : State.replay (replacement us s ops) = .ok (s.marked ops) := by
  unfold replacement journalOf
  split_ifs with hempty
  · rw [List.isEmpty_iff.mp hempty, List.append_nil]
    exact hreplay
  · have happlied : s.applyAll (ops ++ [.Watermark (s.marked ops).nextPosition]) =
        .ok (s.marked ops) := by
      rw [State.applyAll_append, applyAll_marks hops]
      simp [State.applyAll, State.apply, State.update, bind, Except.bind, pure, Except.pure]
    have hfolds := (replay_folds hus hreplay).append happlied
    rw [Folds, marked_strip hus hreplay hops] at hfolds
    exact hfolds

theorem replacement_journaled (hus : Journaled B us) (hops : ∀ op ∈ ops, op.Marks) :
    Journaled B (replacement us s ops) := by
  unfold replacement journalOf
  split_ifs
  · rw [List.append_nil]
    exact hus
  · refine hus.append (journaled_singleton fun op hop => ?_)
    rcases List.mem_append.mp hop with hop | hop
    · exact (hops op hop).bodied
    · rw [List.mem_singleton.mp hop]
      trivial

/-- The directory that holds the replacement. -/
theorem Tx.Replaces.stored_replacement {d : Disk} {next : Manifest} {parts : List Bytes}
    {active : Bytes} (h : tx.Replaces P B m ts s₀ us s) (hops : ∀ op ∈ ops, op.Marks)
    (ha : Aside tx.disk d) (hdrawn : d.Drawn P)
    (hc : Committed P d.view next (replacement us s ops) parts active) :
    Stored P B d next (replacement us s ops) (s.marked ops) where
  drawn := hdrawn
  committed := ⟨parts, active, hc⟩
  journaled := replacement_journaled h.journaled hops
  replayed := replacement_replays h.journaled h.replayed hops
  minted := by
    have hevents := (unmarked_marked hops s).events
    have hminted := h.minted.mono ha.drawn
    exact ⟨fun e he => hminted.1 e (hevents ▸ he), hevents ▸ hminted.2⟩
  holds k b hb := by
    rw [(unmarked_marked hops s).blobs] at hb
    obtain ⟨hid, bytes, hread, hhash⟩ := h.stored.holds k b (h.blobs k b hb)
    exact ⟨hid, bytes, (ha.content _ rfl).trans hread, hhash⟩
  named id hid := by
    rw [ha.content _ rfl] at hid
    obtain ⟨n, hn, heq⟩ := h.stored.named id hid
    exact ⟨n, lt_of_lt_of_le hn ha.drawn, heq⟩
  placed id hid := by
    rw [ha.content _ rfl] at hid
    exact ha.blobs.trans (h.stored.placed id hid)

theorem rewrote_transactions (hpending : tx.pending = []) :
    (tx.rewrote us s ops).journal.transactions ++
      (if (tx.rewrote us s ops).sealed.isEmpty then [] else [toValue (tx.rewrote us s ops).sealed]) =
        replacement us s ops := by
  rw [rewrote_sealed hpending, replacement, journalOf]
  cases ops <;> simp [Tx.rewrote]

/-- What is left of the commit once the journal is rewritten. -/
theorem rewrote_disposes {d : Disk} {next : Manifest} (j : Journal)
    (hst : Stored P B d next (replacement us s ops) (s.marked ops)) :
    (clearSnapshots P (s.marked ops) >>= fun _ => pure j).Meets d (fun _ => True)
      (Returns fun j' d₁ => j' = j ∧ ∀ f : EventLogError → EventLogError,
        (when true ((cleanBlobs P (s.marked ops)).mapError f) >>= fun _ => pure j').Meets d₁
          (fun _ => True) (Returns fun j' d' => j' = j ∧
            Disposed P B next (replacement us s ops) (s.marked ops) d d')) := by
  refine Meets.bind ((clearSnapshots_meets hst).mono (fun _ h => h) ?_)
  rintro r d₁ ⟨u, rfl, h₁⟩
  refine ⟨u, rfl, meets_done trivial ⟨j, rfl, rfl, fun f => ?_⟩⟩
  refine Meets.bind (Meets.mapError ((cleanBlobs_meets h₁.stored).mono (fun _ h => h) ?_))
  rintro r d₂ ⟨u, rfl, h₂⟩
  exact ⟨u, rfl, meets_done trivial ⟨j, rfl, rfl, h₁.trans h₂⟩⟩

/-- The commit of a transaction that replaces history. -/
theorem commit_rewrote (htx : tx.Replaces P B m ts s₀ us s) (hops : ∀ op ∈ ops, op.Marks)
    (hsha : Function.Injective P.sha256) :
    ((tx.rewrote us s ops).commit P).Meets tx.disk (fun _ => True) fun x d' =>
      (∃ e, x = .error e ∧ d' = tx.disk) ∨
      (∃ j, x = .ok j ∧ j.manifest.epoch = m.epoch + 1 ∧ j.manifest.store = m.store ∧
        Stored P B d' j.manifest (replacement us s ops) (s.marked ops) ∧
        Tended P (s.marked ops) tx.disk d') ∨
      x = .error .UnknownCommit ∧ Wedged P d' := by
  have hprivacy : (tx.rewrote us s ops).privacy = true := rfl
  have hmanifest : (tx.rewrote us s ops).journal.manifest = m := htx.manifest
  obtain ⟨parts, active, hc⟩ := htx.stored.committed
  unfold Tx.commit Tx.publish
  simp only [hprivacy, if_true, rewrote_transactions htx.pending, Bool.true_or]
  refine Meets.bind_either (Meets.bind_either ?_)
  cases hplan : m.rewrite P (replacement us s ops) with
  | error e =>
      refine meets_ask_bind_error (e := e) (by rw [hmanifest, hplan]) trivial (.inr ⟨e, rfl, ?_⟩)
      exact .inr ⟨e, rfl, .inl ⟨e, rfl, rfl⟩⟩
  | ok planned =>
      obtain ⟨bytes, next⟩ := planned
      obtain ⟨r, rfl, rfl, rfl, rfl, hus, rfl, rfl⟩ :=
        exists_rewriting hc.cut hplan (replaceable_of_injective hsha _ _ _)
      rw [← hus] at hplan ⊢
      have haside := ((privacy_keeps (P := P) (tx.rewrote us s ops).journal r.us).last tx.disk).toAside
      by_cases hr : r.Readable
      · obtain ⟨-, j, hj, hnext, -, -, hdrawn, hc'⟩ :=
          r.privacy_meets (tx.rewrote us s ops).journal hmanifest hr htx.stored.drawn hc
        have hst := htx.stored_replacement hops haside hdrawn (by rw [← hus]; exact hc')
        refine ⟨fun _ _ => trivial, .inl ⟨j, hj, ?_⟩⟩
        refine (rewrote_disposes j hst).mono (fun _ h => h) ?_
        rintro x d₁ ⟨j', rfl, rfl, hrest⟩
        refine .inl ⟨j', rfl, (hrest _).mono (fun _ h => h) ?_⟩
        rintro x d₂ ⟨j'', rfl, rfl, hdisposed⟩
        refine .inr (.inl ⟨j'', rfl, ?_, ?_, ?_, ?_⟩)
        · rw [hnext, r.next_epoch]
        · rw [hnext, r.next_eq]
          rfl
        · rw [hnext]
          exact hus ▸ hdisposed.stored
        · exact (tended_of_aside _ haside).trans hdisposed.tended
      · obtain ⟨-, hx, hdrawn, hs⟩ :=
          r.privacy_refused (tx.rewrote us s ops).journal hmanifest hr htx.stored.drawn hc
        refine ⟨fun _ _ => trivial, .inr ⟨_, hx, .inr ⟨_, rfl, .inr (.inr ⟨rfl, hdrawn, r, hr, hs⟩)⟩⟩⟩

/-- **The end of a transaction that replaces history**: it is refused where there is no room
    for another epoch; it commits the replacement; or it leaves a directory that no open gets
    past. -/
theorem finish_rewrote {h : Handle} {a : α} (htx : tx.Replaces P B m ts s₀ us s)
    (hops : ∀ op ∈ ops, op.Marks) (hsha : Function.Injective P.sha256) :
    (∃ e, h.finish P a (tx.rewrote us s ops) = ⟨.error e, h.forget, tx.disk⟩) ∨
    (∃ j d', h.finish P a (tx.rewrote us s ops) = ⟨.ok a, (h.keep j (s.marked ops)).forget, d'⟩ ∧
      j.manifest.epoch = m.epoch + 1 ∧ j.manifest.store = m.store ∧
      Stored P B d' j.manifest (replacement us s ops) (s.marked ops) ∧
      Tended P (s.marked ops) tx.disk d') ∨
    ∃ d', h.finish P a (tx.rewrote us s ops) = ⟨.error .UnknownCommit, h.forget, d'⟩ ∧
      Wedged P d' := by
  obtain ⟨-, hcommit⟩ := commit_rewrote htx hops hsha
  have hdisk : (tx.rewrote us s ops).disk = tx.disk := rfl
  have hprivacy : (tx.rewrote us s ops).privacy = true := rfl
  unfold Handle.finish
  simp only [hdisk, hprivacy, if_true]
  rcases hcommit with ⟨e, hx, hd⟩ | ⟨j, hx, hj⟩ | ⟨hx, hwedged⟩
  · exact .inl ⟨e, by rw [hx, hd]⟩
  · exact .inr (.inl ⟨j, _, by rw [hx]; rfl, hj⟩)
  · exact .inr (.inr ⟨_, by rw [hx], hwedged⟩)

end Eventlog.File
