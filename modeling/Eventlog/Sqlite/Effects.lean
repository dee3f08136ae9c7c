import Eventlog.Sqlite.Projections

/-!
# Eventlog.Sqlite.Effects

What an append or a group that succeeds has done to the tables.

The events of an append get the next versions of their stream and the next positions
(`Ledger.inserted`), with the identities that were restored or drawn for them.  Callbacks only
add rows and counters to that (`Appended.ledger`, `Appended.rest`).
-/

namespace Eventlog.Sqlite

open Durable
open File (Table StreamId.key RecordedEvent.isOn)

variable (P : Platform)

/-! ## Inserting events -/

/-- The tables once events are inserted, from a version on. -/
def Ledger.inserted (l : Ledger) (stream : StreamId) (command : CommandMeta) :
    Nat → List (NewEvent × RestoredEvent) → Ledger
  | _, [] => l
  | version, (e, identity) :: rest =>
      (l.insertEvent stream command version e identity).inserted stream command (version + 1) rest

/-- Those events as history holds them, from a version and a position on. -/
def recordedFrom (stream : StreamId) (command : CommandMeta) :
    Nat → Nat → List (NewEvent × RestoredEvent) → List RecordedEvent
  | _, _, [] => []
  | version, position, (e, identity) :: rest =>
      recordedAs stream command version position e identity ::
        recordedFrom stream command (version + 1) (position + 1) rest

/-- The identities of the next `n` events: those restored first, then drawn ones. -/
def identities (D : Draws) (minted : OffsetDateTime) :
    List RestoredEvent → Nat → Nat → List RestoredEvent
  | _, _, 0 => []
  | restored :: rest, drawn, n + 1 => restored :: identities D minted rest drawn n
  | [], drawn, n + 1 => ⟨D.id drawn, minted, none⟩ :: identities D minted [] (drawn + 1) n

@[simp] theorem length_identities (D : Draws) (minted : OffsetDateTime)
    (restored : List RestoredEvent) (drawn n : Nat) :
    (identities D minted restored drawn n).length = n := by
  induction n generalizing restored drawn with
  | zero => simp [identities]
  | succ n ih => cases restored <;> simp [identities, ih]

section Inserted

variable (l : Ledger) (stream : StreamId) (command : CommandMeta)

@[simp] theorem Ledger.inserted_events (version : Nat) (ps : List (NewEvent × RestoredEvent)) :
    (l.inserted stream command version ps).events =
      l.events ++ recordedFrom stream command version (l.position + 1) ps := by
  induction ps generalizing l version with
  | nil => simp [inserted, recordedFrom]
  | cons p rest ih =>
      obtain ⟨e, identity⟩ := p
      simp [inserted, recordedFrom, ih, insertEvent]

@[simp] theorem Ledger.inserted_position (version : Nat) (ps : List (NewEvent × RestoredEvent)) :
    (l.inserted stream command version ps).position = l.position + ps.length := by
  induction ps generalizing l version with
  | nil => simp [inserted]
  | cons p rest ih =>
      obtain ⟨e, identity⟩ := p
      simp [inserted, ih, insertEvent]
      omega

/-- Receipts, identities and blobs are as they were. -/
structure Ledger.SameBook (l l' : Ledger) : Prop where
  commands : l'.commands = l.commands
  claims : l'.claims = l.claims
  groups : l'.groups = l.groups
  batches : l'.batches = l.batches
  identities : l'.identities = l.identities
  blobs : l'.blobs = l.blobs

theorem Ledger.inserted_sameBook (version : Nat) (ps : List (NewEvent × RestoredEvent)) :
    Ledger.SameBook l (l.inserted stream command version ps) := by
  induction ps generalizing l version with
  | nil => exact ⟨rfl, rfl, rfl, rfl, rfl, rfl⟩
  | cons p rest ih =>
      obtain ⟨e, identity⟩ := p
      obtain ⟨h₁, h₂, h₃, h₄, h₅, h₆⟩ := ih (l.insertEvent stream command version e identity) (version + 1)
      exact ⟨h₁, h₂, h₃, h₄, h₅, h₆⟩

end Inserted

section Recorded

variable {stream : StreamId} {command : CommandMeta}

@[simp] theorem length_recordedFrom (version position : Nat) (ps : List (NewEvent × RestoredEvent)) :
    (recordedFrom stream command version position ps).length = ps.length := by
  induction ps generalizing version position with
  | nil => rfl
  | cons p rest ih => obtain ⟨e, identity⟩ := p; simp [recordedFrom, ih]

theorem map_version_recordedFrom (version position : Nat) (ps : List (NewEvent × RestoredEvent)) :
    (recordedFrom stream command version position ps).map RecordedEvent.version =
      List.range' version ps.length := by
  induction ps generalizing version position with
  | nil => rfl
  | cons p rest ih =>
      obtain ⟨e, identity⟩ := p
      simp [recordedFrom, ih, List.range'_succ, recordedAs, File.NewEvent.recorded]

/-- Every event is on its stream, live, with the identity and the body it was given. -/
theorem of_mem_recordedFrom {version position : Nat} {ps : List (NewEvent × RestoredEvent)}
    {event : RecordedEvent} (h : event ∈ recordedFrom stream command version position ps) :
    ∃ v q, ∃ p ∈ ps, event = recordedAs stream command v q p.1 p.2 := by
  induction ps generalizing version position with
  | nil => simp [recordedFrom] at h
  | cons p rest ih =>
      obtain ⟨e, identity⟩ := p
      rcases List.mem_cons.mp h with rfl | h
      · exact ⟨version, position, _, List.mem_cons_self, rfl⟩
      · obtain ⟨v, q, p, hp, rfl⟩ := ih h
        exact ⟨v, q, p, List.mem_cons_of_mem _ hp, rfl⟩

end Recorded

theorem recordedAs_isOn {stream s : StreamId} {command : CommandMeta} {version position : Nat}
    {e : NewEvent} {identity : RestoredEvent} :
    RecordedEvent.isOn (recordedAs stream command version position e identity) s =
      decide (stream = s) := by
  obtain ⟨t, ty, id, _, _⟩ := stream
  obtain ⟨t', ty', id', _, _⟩ := s
  simp only [RecordedEvent.isOn, recordedAs, File.NewEvent.recorded, StreamId.mk.injEq]
  grind

theorem filter_recordedFrom {stream s : StreamId} {command : CommandMeta} (version position : Nat)
    (ps : List (NewEvent × RestoredEvent)) :
    (recordedFrom stream command version position ps).filter (fun e => RecordedEvent.isOn e s) =
      if stream = s then recordedFrom stream command version position ps else [] := by
  split
  · next h =>
      refine List.filter_eq_self.mpr fun e he => ?_
      obtain ⟨v, q, p, -, rfl⟩ := of_mem_recordedFrom he
      simp [recordedAs_isOn, h]
  · next h =>
      refine List.filter_eq_nil_iff.mpr fun e he => ?_
      obtain ⟨v, q, p, -, rfl⟩ := of_mem_recordedFrom he
      simp [recordedAs_isOn, h]

/-- What an insertion adds to each stream. -/
theorem Ledger.ofStream_inserted (l : Ledger) (stream s : StreamId) (command : CommandMeta)
    (version : Nat) (ps : List (NewEvent × RestoredEvent)) :
    (l.inserted stream command version ps).ofStream s = l.ofStream s ++
      if stream = s then recordedFrom stream command version (l.position + 1) ps else [] := by
  rw [ofStream, inserted_events, List.filter_append, filter_recordedFrom, ofStream]

/-! ## Numbering -/

/-- The versions of every stream are 1, 2, and so on. -/
def Ledger.Numbered (l : Ledger) : Prop :=
  ∀ s, (l.ofStream s).map RecordedEvent.version = List.range' 1 (l.ofStream s).length

theorem foldr_max_concat (xs : List Nat) (a : Nat) :
    (xs ++ [a]).foldr max 0 = max (xs.foldr max 0) a := by
  induction xs with
  | nil => simp
  | cons x xs ih => simp [ih, max_assoc]

theorem foldr_max_range' (n : Nat) : (List.range' 1 n).foldr max 0 = n := by
  induction n with
  | zero => rfl
  | succ n ih =>
      rw [List.range'_1_concat, foldr_max_concat, ih]
      omega

theorem Ledger.Numbered.head {l : Ledger} (h : l.Numbered) (s : StreamId) :
    l.head s = (l.ofStream s).length := by
  rw [Ledger.head, h s, foldr_max_range']

/-- Events at the next versions keep the numbering. -/
theorem Ledger.Numbered.inserted {l : Ledger} (h : l.Numbered) (stream : StreamId)
    (command : CommandMeta) (ps : List (NewEvent × RestoredEvent)) :
    (l.inserted stream command (l.head stream + 1) ps).Numbered := by
  intro s
  rw [Ledger.ofStream_inserted]
  split
  · next hs =>
      subst hs
      rw [List.map_append, map_version_recordedFrom, h stream, List.length_append, h.head,
        length_recordedFrom, Nat.add_comm _ 1]
      exact List.range'_append_1
  · simpa using h s

/-! ## Inside a transaction -/

/-- The transaction with other tables of history. -/
def Tx.withLedger (tx : Tx) (l : Ledger) : Tx := { tx with db := { tx.db with toLedger := l } }

/-- The transaction once the identities of events are taken and the events inserted. -/
def Tx.inserted (tx : Tx) (stream : StreamId) (command : CommandMeta) (version : Nat)
    (events : List NewEvent) (ids : List RestoredEvent) : Tx where
  db := { tx.db with toLedger := tx.db.toLedger.inserted stream command version (events.zip ids) }
  restored := tx.restored.drop events.length
  drawn := tx.drawn + (events.length - tx.restored.length)
  reads := tx.reads

/-- The loop over the events of an append succeeds if every instant can be written, and does
    what `Tx.inserted` says. -/
theorem Work.insertEvents_eq_ok_iff {D : Draws} {stream : StreamId} {command : CommandMeta}
    {minted : OffsetDateTime} {version : Nat} {events : List NewEvent} {tx tx' : Tx}
    {written : List RecordedEvent} :
    Work.insertEvents P D stream command minted version events tx = (.ok written, tx') ↔
      (∀ i ∈ identities D minted tx.restored tx.drawn events.length,
        checkTime P i.recordedAt = .ok ()) ∧
      written = recordedFrom stream command version (tx.db.position + 1)
        (events.zip (identities D minted tx.restored tx.drawn events.length)) ∧
      tx' = tx.inserted stream command version events
        (identities D minted tx.restored tx.drawn events.length) := by
  induction events generalizing version tx tx' written with
  | nil =>
      simp only [insertEvents, Session.pure_eq_ok_iff, identities, List.length_nil]
      constructor
      · rintro ⟨rfl, rfl⟩
        exact ⟨by simp, rfl, by simp [Tx.inserted, Ledger.inserted]⟩
      · rintro ⟨-, rfl, rfl⟩
        exact ⟨rfl, by simp [Tx.inserted, Ledger.inserted]⟩
  | cons e rest ih =>
      rcases hq : tx.restored with _ | ⟨first, others⟩
      all_goals
        simp only [insertEvents, insertEvent, Session.bind_eq_ok_iff, identity, hq, check,
          Session.ask_eq_ok_iff, changeLedger, Session.change_eq_ok_iff, Session.pure_eq_ok_iff, ih,
          Prod.mk.injEq, Except.ok.injEq, identities, List.length_cons, List.mem_cons,
          List.zip_cons_cons, recordedFrom, forall_eq_or_imp]
        constructor
        · rintro ⟨_, _, ⟨_, _, ⟨rfl, rfl⟩, _, _, ⟨htime, rfl⟩, _, _, ⟨rfl, rfl⟩, _, _, rfl, rfl, rfl⟩,
            _, _, ⟨htimes, rfl, rfl⟩, rfl, rfl⟩
          exact ⟨⟨htime, htimes⟩, rfl, by simp [Tx.inserted, Ledger.inserted, hq]; try omega⟩
        · rintro ⟨⟨htime, htimes⟩, rfl, rfl⟩
          refine ⟨_, _, ⟨_, _, ⟨rfl, rfl⟩, (), _, ⟨htime, rfl⟩, _, _, ⟨rfl, rfl⟩, (), _, rfl, rfl, rfl⟩,
            _, _, ⟨htimes, rfl, rfl⟩, rfl, ?_⟩
          simp [Tx.inserted, Ledger.inserted, hq]
          try omega

/-! ## Callbacks -/

/-- Nothing but rows and counters differs, and nothing was taken. -/
structure Tx.Framed (tx : Tx) (tx' : Tx) : Prop where
  rows : RowsOnly tx.db tx'.db
  restored : tx'.restored = tx.restored
  drawn : tx'.drawn = tx.drawn
  reads : tx'.reads = tx.reads

theorem Tx.framed_composes : Session.Composes fun tx (_ : Bool) tx' => Tx.Framed tx tx' where
  refl tx _ := ⟨.refl tx.db, rfl, rfl, rfl⟩
  trans _ _ _ _ h h' := ⟨h.rows.trans h'.rows, h'.restored.trans h.restored,
    h'.drawn.trans h.drawn, h'.reads.trans h.reads⟩

theorem Work.call_framed (v : View) (c : Callback) :
    Session.Obeys (fun tx _ tx' => Tx.Framed tx tx') (Work.call P v c) :=
  fun tx => ⟨v.call_rowsOnly P c tx.db, rfl, rfl, rfl⟩

theorem Work.project_framed (S : Serving) (tenant : TenantId) (written : List RecordedEvent) :
    Session.Obeys (fun tx _ tx' => Tx.Framed tx tx') (Work.project P S tenant written) :=
  Session.obeys_forM Tx.framed_composes fun p _ =>
    Session.obeys_forM Tx.framed_composes fun event _ => Work.call_framed P _ _

/-! ## One append -/

/-- The tables once an append is done: its events, and the receipts of its command. -/
def Ledger.appended (l : Ledger) (stream : StreamId) (command : CommandMeta)
    (events : List NewEvent) (ids : List RestoredEvent) (recordCommand : Bool) : Ledger :=
  let first := l.head stream + 1
  let last := l.head stream + events.length
  let inserted := l.inserted stream command first (events.zip ids)
  let booked := if recordCommand then inserted.recordCommand stream command first last else inserted
  match command.claim with
  | some claim => booked.recordClaim stream claim first last
  | none => booked

section Appended

variable {l : Ledger} {stream : StreamId} {command : CommandMeta} {events : List NewEvent}
  {ids : List RestoredEvent} {recordCommand : Bool}

@[simp] theorem Ledger.appended_events :
    (l.appended stream command events ids recordCommand).events = l.events ++
      recordedFrom stream command (l.head stream + 1) (l.position + 1) (events.zip ids) := by
  unfold appended
  cases command.claim <;> cases recordCommand <;>
    simp [Ledger.recordCommand, recordClaim]

theorem Ledger.ofStream_appended (s : StreamId) :
    (l.appended stream command events ids recordCommand).ofStream s = l.ofStream s ++
      if stream = s then
        recordedFrom stream command (l.head stream + 1) (l.position + 1) (events.zip ids)
      else [] := by
  rw [ofStream, appended_events, List.filter_append, filter_recordedFrom, ofStream]

theorem Ledger.Numbered.appended (h : l.Numbered) :
    (l.appended stream command events ids recordCommand).Numbered := by
  have hinserted := h.inserted stream command (events.zip ids)
  intro s
  have hs := hinserted s
  rw [ofStream_inserted] at hs
  rwa [ofStream_appended]

/-- Without a claim an append leaves everything but its events and its receipt alone. -/
theorem Ledger.appended_groups : (l.appended stream command events ids recordCommand).groups = l.groups ∧
    (l.appended stream command events ids recordCommand).batches = l.batches ∧
    (l.appended stream command events ids recordCommand).identities = l.identities ∧
    (l.appended stream command events ids recordCommand).blobs = l.blobs := by
  have hbook := l.inserted_sameBook stream command (l.head stream + 1) (events.zip ids)
  unfold appended
  cases command.claim <;> cases recordCommand <;>
    exact ⟨hbook.groups, hbook.batches, hbook.identities, hbook.blobs⟩

end Appended

/-- The identities the next events of a transaction get. -/
def Tx.identities (tx : Tx) (D : Draws) (n : Nat) : List RestoredEvent :=
  Sqlite.identities D (D.now tx.reads) tx.restored tx.drawn n

/-- What an append that found its key new has checked, and what it has done. -/
structure Tx.Wrote (D : Draws) (stream : StreamId) (expected : Expected) (events : List NewEvent)
    (command : CommandMeta) (recordCommand : Bool) (tx : Tx) (result : AppendResult) (tx' : Tx) :
    Prop where
  expectation : tx.restored = [] → checkExpected expected (tx.db.head stream) = .ok ()
  occurred : checkTime P command.occurredAt = .ok ()
  times : ∀ i ∈ tx.identities D events.length, checkTime P i.recordedAt = .ok ()
  result : result = ⟨tx.db.head stream + 1, tx.db.head stream + events.length,
    recordedFrom stream command (tx.db.head stream + 1) (tx.db.position + 1)
      (events.zip (tx.identities D events.length)), false⟩
  ledger : tx'.db.toLedger =
    tx.db.appended stream command events (tx.identities D events.length) recordCommand
  cursors : tx'.db.cursors = tx.db.cursors
  snapshots : tx'.db.snapshots = tx.db.snapshots
  generations : tx'.db.generations = tx.db.generations
  registry : tx'.db.registry = tx.db.registry
  restored : tx'.restored = tx.restored.drop events.length
  drawn : tx'.drawn = tx.drawn + (events.length - tx.restored.length)
  reads : tx'.reads = tx.reads + 1

theorem Work.appendNew_wrote {S : Serving} {D : Draws} {stream : StreamId} {expected : Expected}
    {events : List NewEvent} {command : CommandMeta} {guard : Callback} {recordCommand : Bool}
    {tx tx' : Tx} {result : AppendResult}
    (h : Work.appendNew P S D stream expected events command guard recordCommand tx =
      (.ok result, tx')) :
    tx.Wrote P D stream expected events command recordCommand result tx' := by
  simp only [appendNew, Session.bind_eq_ok_iff, Session.ask_eq_ok_iff, Work.check,
    Work.insertEvents_eq_ok_iff, now, Prod.mk.injEq, Except.ok.injEq] at h
  obtain ⟨_, _, ⟨rfl, rfl⟩, _, _, ⟨hexpected, rfl⟩, _, tx₁, hguard, _, _, ⟨rfl, rfl⟩, _, _,
    ⟨hoccurred, rfl⟩, _, _, ⟨htimes, rfl, rfl⟩, _, _, ⟨-, rfl⟩, h⟩ := h
  have hguarded := call_framed P (guardView S stream.tenant) guard tx
  rw [hguard] at hguarded
  obtain ⟨⟨l₁, _, _, _, _, _, _⟩, _, _, _⟩ := tx₁
  obtain ⟨⟨rfl, rfl, rfl, rfl, rfl⟩, rfl, rfl, rfl⟩ := hguarded
  have hprojected : ∀ {written tx₂ tx₃ u}, project P S stream.tenant written tx₂ = (.ok u, tx₃) →
      Tx.Framed tx₂ tx₃ := by
    intro written tx₂ tx₃ u hrun
    have hframed := project_framed P S stream.tenant written tx₂
    rwa [hrun] at hframed
  have hexpectation : tx.restored = [] → checkExpected expected (tx.db.head stream) = .ok () :=
    fun hempty => by simpa [hempty] using hexpected
  cases recordCommand with
  | false =>
      rcases hclaim : command.claim with _ | claim
      · simp only [hclaim, Bool.false_eq_true, if_false, Session.bind_eq_ok_iff,
          Session.pure_eq_ok_iff] at h
        obtain ⟨_, _, hrun, rfl, rfl⟩ := h
        obtain ⟨⟨hl, hc, hs, hg, hr⟩, hrestored, hdrawn, hreads⟩ := hprojected hrun
        exact ⟨hexpectation, hoccurred, htimes, rfl, by simp only [hl, Ledger.appended, hclaim]; rfl,
          hc, hs, hg, hr, hrestored, hdrawn, hreads⟩
      · simp only [hclaim, Bool.false_eq_true, if_false, Session.bind_eq_ok_iff,
          Session.pure_eq_ok_iff, changeLedger, Session.change_eq_ok_iff] at h
        obtain ⟨_, _, hrun, _, _, rfl, rfl, rfl⟩ := h
        obtain ⟨⟨hl, hc, hs, hg, hr⟩, hrestored, hdrawn, hreads⟩ := hprojected hrun
        exact ⟨hexpectation, hoccurred, htimes, rfl, by simp only [hl, Ledger.appended, hclaim]; rfl,
          hc, hs, hg, hr, hrestored, hdrawn, hreads⟩
  | true =>
      rcases hclaim : command.claim with _ | claim
      · simp only [hclaim, if_true, Session.bind_eq_ok_iff, Session.pure_eq_ok_iff, changeLedger,
          Session.change_eq_ok_iff] at h
        obtain ⟨_, _, rfl, _, _, hrun, rfl, rfl⟩ := h
        obtain ⟨⟨hl, hc, hs, hg, hr⟩, hrestored, hdrawn, hreads⟩ := hprojected hrun
        exact ⟨hexpectation, hoccurred, htimes, rfl, by simp only [hl, Ledger.appended, hclaim]; rfl,
          hc, hs, hg, hr, hrestored, hdrawn, hreads⟩
      · simp only [hclaim, if_true, Session.bind_eq_ok_iff, Session.pure_eq_ok_iff, changeLedger,
          Session.change_eq_ok_iff] at h
        obtain ⟨_, _, rfl, _, _, hrun, _, _, rfl, rfl, rfl⟩ := h
        obtain ⟨⟨hl, hc, hs, hg, hr⟩, hrestored, hdrawn, hreads⟩ := hprojected hrun
        exact ⟨hexpectation, hoccurred, htimes, rfl, by simp only [hl, Ledger.appended, hclaim]; rfl,
          hc, hs, hg, hr, hrestored, hdrawn, hreads⟩

/-- An append answers from a receipt, or writes. -/
theorem Work.appendInTransaction_cases {S : Serving} {D : Draws} {stream : StreamId}
    {expected : Expected} {events : List NewEvent} {command : CommandMeta} {guard : Callback}
    {recordCommand : Bool} {tx tx' : Tx} {result : AppendResult}
    (h : Work.appendInTransaction P S D stream expected events command guard recordCommand tx =
      (.ok result, tx')) :
    (recordCommand = true ∧ recordedAppend P tx.db.toLedger stream command = .ok (some result) ∧
        tx' = tx) ∨
      ((recordCommand = true → recordedAppend P tx.db.toLedger stream command = .ok none) ∧
        tx.Wrote P D stream expected events command recordCommand result tx') := by
  rw [appendInTransaction, Session.bind_eq_ok_iff] at h
  obtain ⟨found, _, hask, h⟩ := h
  obtain ⟨hfound, rfl⟩ := Session.ask_eq_ok_iff.mp hask
  cases found with
  | none =>
      refine .inr ⟨fun hrecord => by simpa [hrecord] using hfound, appendNew_wrote P h⟩
  | some r =>
      obtain ⟨rfl, rfl⟩ := Session.pure_eq_ok_iff.mp h
      cases recordCommand with
      | false => simp at hfound
      | true => exact .inl ⟨rfl, by simpa using hfound, rfl⟩

section Wrote

variable {D : Draws} {stream : StreamId} {expected : Expected} {events : List NewEvent}
  {command : CommandMeta} {recordCommand : Bool} {tx tx' : Tx} {result : AppendResult}

theorem Tx.Wrote.groups (h : tx.Wrote P D stream expected events command recordCommand result tx') :
    tx'.db.groups = tx.db.groups ∧ tx'.db.batches = tx.db.batches ∧
      tx'.db.identities = tx.db.identities ∧ tx'.db.blobs = tx.db.blobs := by
  rw [h.ledger]
  exact Ledger.appended_groups

end Wrote

/-! ## Binding content -/

/-- The content of a batch agrees with what its digests are bound to. -/
def Ledger.Agrees (l : Ledger) (tenant : TenantId) (blobs : List BlobWrite) : Prop :=
  ∀ b ∈ blobs, ∀ bytes, l.boundBlob tenant b.digest = some bytes → bytes = b.bytes

/-- The tables once a batch is bound: what was bound stays. -/
def Ledger.holding (l : Ledger) (tenant : TenantId) (blobs : List BlobWrite) : Ledger :=
  blobs.foldl (fun l b => if (l.boundBlob tenant b.digest).isSome then l else l.bind tenant b) l

theorem Ledger.boundBlob_bind (l : Ledger) (tenant : TenantId) (b : BlobWrite) (digest : String) :
    (l.bind tenant b).boundBlob tenant digest =
      if b.digest = digest then some b.bytes else l.boundBlob tenant digest := by
  simp [Ledger.bind, boundBlob, Std.ExtTreeMap.getElem?_insert, Std.LawfulEqCmp.compare_eq_iff_eq]

/-- Binding leaves everything but the blobs alone. -/
theorem Ledger.holding_rest (l : Ledger) (tenant : TenantId) (blobs : List BlobWrite) :
    l.holding tenant blobs = { l with blobs := (l.holding tenant blobs).blobs } := by
  induction blobs generalizing l with
  | nil => rfl
  | cons b rest ih =>
      simp only [holding, List.foldl_cons]
      change (holding _ tenant rest) = { l with blobs := (holding _ tenant rest).blobs }
      rw [ih]
      split <;> rfl

theorem Ledger.Agrees.bind {l : Ledger} {tenant : TenantId} {b : BlobWrite} {rest : List BlobWrite}
    (h : l.Agrees tenant rest) (hb : b.digest ∉ rest.map BlobWrite.digest) :
    (l.bind tenant b).Agrees tenant rest := by
  intro c hc bytes hbytes
  have hne : b.digest ≠ c.digest := fun heq => hb (heq ▸ List.mem_map_of_mem hc)
  rw [boundBlob_bind, if_neg hne] at hbytes
  exact h c hc bytes hbytes

/-- A batch that agrees with what is bound is bound. -/
theorem Work.bindGroupBlobs_of_agrees {tenant : TenantId} {blobs : List BlobWrite} {tx : Tx}
    (hnodup : (blobs.map BlobWrite.digest).Nodup) (h : tx.db.Agrees tenant blobs) :
    Work.bindGroupBlobs tenant blobs tx =
      (.ok (), tx.withLedger (tx.db.holding tenant blobs)) := by
  induction blobs generalizing tx with
  | nil => rfl
  | cons b rest ih =>
      obtain ⟨hb, hrest⟩ := List.nodup_cons.mp hnodup
      have hagrees : tx.db.Agrees tenant rest := fun c hc => h c (List.mem_cons_of_mem _ hc)
      rw [bindGroupBlobs, Session.get_bind]
      rcases hbound : tx.db.boundBlob tenant b.digest with _ | bytes
      · simp only [changeLedger, Session.change_bind]
        rw [ih hrest (hagrees.bind hb)]
        simp [Ledger.holding, hbound, Tx.withLedger]
      · obtain rfl := h b List.mem_cons_self bytes hbound
        simp only [ne_eq, not_true_eq_false, if_false]
        rw [ih hrest hagrees]
        simp [Ledger.holding, hbound]

/-- A batch that contradicts what is bound is refused. -/
theorem Work.bindGroupBlobs_of_not_agrees {tenant : TenantId} {blobs : List BlobWrite} {tx : Tx}
    (hnodup : (blobs.map BlobWrite.digest).Nodup) (h : ¬ tx.db.Agrees tenant blobs) :
    (Work.bindGroupBlobs tenant blobs tx).1 = .error File.contradicted := by
  induction blobs generalizing tx with
  | nil => exact absurd (fun b hb => by simp at hb) h
  | cons b rest ih =>
      obtain ⟨hb, hrest⟩ := List.nodup_cons.mp hnodup
      rw [bindGroupBlobs, Session.get_bind]
      rcases hbound : tx.db.boundBlob tenant b.digest with _ | bytes
      · simp only [changeLedger, Session.change_bind]
        refine ih hrest fun hagrees => h fun c hc bytes hbytes => ?_
        rcases List.mem_cons.mp hc with rfl | hc
        · simp [hbound] at hbytes
        · have hne : b.digest ≠ c.digest := fun heq => hb (heq ▸ List.mem_map_of_mem hc)
          exact hagrees c hc bytes (by simpa [Ledger.boundBlob_bind, hne] using hbytes)
      · by_cases hbytes : bytes = b.bytes
        · simp only [hbytes, ne_eq, not_true_eq_false, if_false]
          refine ih hrest fun hagrees => h fun c hc bytes' hc' => ?_
          rcases List.mem_cons.mp hc with rfl | hc
          · rw [hbound] at hc'
            exact (Option.some.inj hc').symm.trans hbytes
          · exact hagrees c hc bytes' hc'
        · simp only [hbytes, ne_eq, not_false_eq_true, if_true]
          rfl

/-! ## Groups -/

/-- What the entries of a group that succeeded have done, one after another. -/
inductive Tx.Entered (D : Draws) (command : CommandMeta) :
    Tx → List StreamAppend → List AppendResult → Tx → Prop
  | nil {tx : Tx} : Tx.Entered D command tx [] [] tx
  | cons {tx tx₁ tx₂ : Tx} {entry : StreamAppend} {rest : List StreamAppend} {result : AppendResult}
      {results : List AppendResult}
      (hentry : tx.Wrote P D entry.stream entry.expected entry.events command false result tx₁)
      (hrest : Tx.Entered D command tx₁ rest results tx₂) :
      Tx.Entered D command tx (entry :: rest) (result :: results) tx₂

/-- The range a result takes of its entry's stream. -/
def rangeOf (entry : StreamAppend) (result : AppendResult) : GroupRange :=
  ⟨entry.stream, result.firstVersion, result.lastVersion⟩

theorem Work.appendEntries_entered {S : Serving} {D : Draws} {command : CommandMeta}
    {entries : List StreamAppend} {tx tx' : Tx} {out : List (GroupRange × AppendResult)}
    (h : Work.appendEntries P S D command entries tx = (.ok out, tx')) :
    Tx.Entered P D command tx entries (out.map Prod.snd) tx' ∧
      out.map Prod.fst = List.zipWith rangeOf entries (out.map Prod.snd) := by
  induction entries generalizing tx out with
  | nil =>
      obtain ⟨rfl, rfl⟩ := Session.pure_eq_ok_iff.mp h
      exact ⟨.nil, rfl⟩
  | cons entry rest ih =>
      simp only [appendEntries, Session.bind_eq_ok_iff, Session.pure_eq_ok_iff] at h
      obtain ⟨result, tx₁, hentry, others, tx₂, hrest, rfl, rfl⟩ := h
      obtain ⟨hothers, hranges⟩ := ih hrest
      rcases appendInTransaction_cases P hentry with ⟨hrecord, -⟩ | ⟨-, hwrote⟩
      · exact absurd hrecord (by simp)
      · exact ⟨.cons hwrote hothers, by simp [hranges, rangeOf]⟩

section Entered

variable {D : Draws} {command : CommandMeta} {tx tx' : Tx} {entries : List StreamAppend}
  {results : List AppendResult}

theorem Tx.Entered.groups (h : Tx.Entered P D command tx entries results tx') :
    tx'.db.groups = tx.db.groups ∧ tx'.db.batches = tx.db.batches ∧
      tx'.db.identities = tx.db.identities ∧ tx'.db.blobs = tx.db.blobs := by
  induction h with
  | nil => exact ⟨rfl, rfl, rfl, rfl⟩
  | cons hentry _ ih =>
      obtain ⟨hg, hb, hi, hbl⟩ := ih
      rw [hg, hb, hi, hbl]
      exact hentry.groups P

end Entered

/-- A group answers from its receipt, or binds its content, is admitted, and enters. -/
theorem Work.groupInTransaction_cases {S : Serving} {D : Draws} {group : AppendGroup}
    {fingerprint : String} {blobs : List BlobWrite} {guard : Callback} {tx tx' : Tx}
    {result : AppendGroupResult} (hnodup : (blobs.map BlobWrite.digest).Nodup)
    (h : Work.groupInTransaction P S D group fingerprint blobs guard tx = (.ok result, tx')) :
    (∃ ranges, tx.db.receipt group = some (fingerprint, ranges) ∧
        tx.db.replay P group ranges = .ok result ∧ tx' = tx) ∨
      (tx.db.receipt group = none ∧ tx.db.Agrees group.tenant blobs ∧ ∃ results tx₁ tx₂,
        Tx.Framed (tx.withLedger (tx.db.holding group.tenant blobs)) tx₁ ∧
        Tx.Entered P D group.command tx₁ group.appends results tx₂ ∧ result = ⟨results, false⟩ ∧
        tx' = tx₂.withLedger (tx₂.db.recordGroup group fingerprint
          (List.zipWith rangeOf group.appends results))) := by
  rw [groupInTransaction, Session.get_bind] at h
  rcases hreceipt : tx.db.receipt group with _ | ⟨recorded, ranges⟩
  · right
    rw [hreceipt] at h
    dsimp only at h
    by_cases hagrees : tx.db.Agrees group.tenant blobs
    · rw [Session.bind_of_ok (bindGroupBlobs_of_agrees hnodup hagrees)] at h
      obtain ⟨_, tx₁, hadmitted, h⟩ := Session.bind_eq_ok_iff.mp h
      have hframed := call_framed P (guardView S group.tenant) guard
        (tx.withLedger (tx.db.holding group.tenant blobs))
      rw [show call P (guardView S group.tenant) guard _ = _ from hadmitted] at hframed
      simp only [appendMembers, Session.bind_eq_ok_iff, changeLedger, Session.change_eq_ok_iff,
        Session.pure_eq_ok_iff] at h
      obtain ⟨out, tx₂, hentries, _, _, rfl, rfl, rfl⟩ := h
      obtain ⟨hentered, hranges⟩ := appendEntries_entered P hentries
      exact ⟨rfl, hagrees, _, tx₁, tx₂, hframed, hentered, rfl, by rw [hranges]; rfl⟩
    · have hrefused := bindGroupBlobs_of_not_agrees hnodup hagrees
      obtain ⟨_, _, hbound, -⟩ := Session.bind_eq_ok_iff.mp h
      rw [hbound] at hrefused
      exact nomatch hrefused
  · left
    rw [hreceipt] at h
    dsimp only at h
    split at h
    · exact nomatch h
    · next hsame =>
        obtain ⟨hreplay, rfl⟩ := Session.ask_eq_ok_iff.mp h
        exact ⟨ranges, by rw [not_not.mp hsame], hreplay, rfl⟩

end Eventlog.Sqlite
