import Eventlog.Core.Platform
import Eventlog.Durable.Mvcc
import Eventlog.File.Requests

/-!
# Eventlog.Postgres.Feed

The feed of a PostgreSQL store, read while others write.

Writers hold the publication gate shared and are concurrent; `read_feed`, `run_catch_up` and
`rebuild_projection` hold it exclusively, and query in a snapshot taken after they got it.  A row
is settled once the transaction that wrote it is older than every transaction still running,
whoever runs it; nothing is handed out from the first unsettled row on (`firstUnsettled`).

A follower is whoever starts at 0 and goes on from where the last page ended: a reader with the
`next_position` it was given, or a projector with its cursor.
-/

namespace Eventlog.Postgres

open Mvcc (Mode Phase)
open File (FeedPage)

/-- A row of the events table. -/
abbrev EventRow : Type := Mvcc.Row RecordedEvent

abbrev Database : Type := Mvcc.Db RecordedEvent

/-- `read_event`. -/
def readEvent (r : EventRow) : RecordedEvent :=
  { r.value with globalSeq := r.position, digest := none, parents := [] }

/-! ## Queries -/

/-- `WATERMARK`. -/
def watermark (d : Database) (r : EventRow) : Bool := r.xid < d.xmin

/-- The first withheld position. -/
def firstUnsettled (d : Database) : Option Nat :=
  ((d.rows.filter fun r => !watermark d r).map Mvcc.Row.position).min?

/-- The rows of a tenant that may be handed out. -/
def eligible (d : Database) (tenant : TenantId) (r : EventRow) : Bool :=
  r.value.tenant = tenant && watermark d r &&
    match firstUnsettled d with
    | none => true
    | some first => r.position < first

/-- `ORDER BY global_seq`. -/
def orderBySeq (rows : List EventRow) : List EventRow :=
  rows.insertionSort fun a b => a.position ≤ b.position

/-- `SELECT … WHERE … ORDER BY global_seq LIMIT …`. -/
def select (d : Database) (q : EventRow → Bool) (limit : Nat) : List EventRow :=
  (orderBySeq (d.rows.filter q)).take limit

/-- The position of the last event, or where one was. -/
def lastSeq (position : Nat) (events : List RecordedEvent) : Nat :=
  (events.getLast?.map RecordedEvent.globalSeq).getD position

/-- What `read_feed` and `run_catch_up` fetch: one more than was asked for. -/
def fetched (d : Database) (tenant : TenantId) (after limit : Nat) : List RecordedEvent :=
  (select d (fun r => eligible d tenant r && after < r.position) (limit + 1)).map readEvent

/-- `read_feed`. -/
def readFeed (d : Database) (tenant : TenantId) (after limit : Nat) : FeedPage :=
  let limit := boundedLimit limit
  let rows := fetched d tenant after limit
  let events := rows.take limit
  ⟨events, lastSeq after events, decide (limit < rows.length)⟩

/-- What `run_catch_up` applies, and what it answers once that is committed. -/
def runCatchUp (d : Database) (tenant : TenantId) (position batch : Nat) :
    List RecordedEvent × CatchUpProgress :=
  let batch := boundedLimit batch
  let rows := fetched d tenant position batch
  let events := rows.take batch
  if events.isEmpty then ([], ⟨0, position, false⟩)
  else (events, ⟨events.length, lastSeq position events, decide (batch < rows.length)⟩)

/-- How far `rebuild_projection` goes. -/
def rebuildTarget (d : Database) (tenant : TenantId) : Nat :=
  ((d.rows.filter (eligible d tenant)).map Mvcc.Row.position).max?.getD 0

/-- What one turn of the loop of `rebuild_projection` reads. -/
def rebuildRows (d : Database) (tenant : TenantId) (position target : Nat) : List RecordedEvent :=
  (select d (fun r => r.value.tenant = tenant && position < r.position && r.position ≤ target)
    MAX_READ_LIMIT).map readEvent

/-! ## Followers -/

/-- Whoever follows the feed of a tenant: where it is, and what it was given so far. -/
structure Follower where
  tenant : TenantId
  position : Nat
  received : List RecordedEvent

/-- A follower that was given more, and is to go on from `next`. -/
def Follower.advance (f : Follower) (events : List RecordedEvent) (next : Nat) : Follower :=
  { f with position := next, received := f.received ++ events }

/-- A reading transaction: which one, for whom, what the follower will be once it commits, and
    the target of a rebuild whose loop has not ended. -/
structure Reading where
  tx : Nat
  follower : Nat
  draft : Follower
  target : Option Nat

structure System where
  db : Database
  followers : List Follower
  reading : Option Reading

/-- Steps of the owner's and of foreign transactions, and the queries of readers. -/
inductive Action where
  | Db (action : Mvcc.Action RecordedEvent)
  | ReadFeed (tx follower limit : Nat)
  | RunCatchUp (tx follower batch : Nat)
  | Rebuild (tx follower : Nat)
  | Fetch (tx : Nat)

namespace System

/-- Followers of these tenants on an empty store. -/
def start (nextXid : Nat) (tenants : List TenantId) : System :=
  ⟨.new nextXid, tenants.map fun tenant => ⟨tenant, 0, []⟩, none⟩

/-- Whether a transaction holds the publication gate as readers do. -/
def gated (s : System) (tx : Nat) : Bool :=
  (s.db.running tx).any fun t => t.lock = some .Exclusive

/-- What a reading transaction does when it ends. -/
def settle (s : System) : Mvcc.Action RecordedEvent → Option System
  | .Commit i =>
      match s.reading with
      | some r =>
          if r.tx = i then
            if r.target.isSome then none
            else some { s with followers := s.followers.set r.follower r.draft, reading := none }
          else some s
      | none => some s
  | .Rollback i =>
      match s.reading with
      | some r => if r.tx = i then some { s with reading := none } else some s
      | none => some s
  | _ => some s

/-- A query of a reader that holds the gate and has not asked yet. -/
def read (s : System) (tx follower : Nat) (f : Follower → Reading) : Option System := do
  let reader ← s.followers[follower]?
  if s.gated tx ∧ s.reading.isNone then some { s with reading := some (f reader) } else none

/-- One step; `none` if it cannot be taken now. -/
def step (s : System) : Action → Option System
  | .Db a => do
      let db ← s.db.step a
      settle { s with db } a
  | .ReadFeed tx i limit => s.read tx i fun f =>
      let page := readFeed s.db f.tenant f.position limit
      ⟨tx, i, f.advance page.events page.nextPosition, none⟩
  | .RunCatchUp tx i batch => s.read tx i fun f =>
      let (events, progress) := runCatchUp s.db f.tenant f.position batch
      ⟨tx, i, f.advance events progress.position, none⟩
  | .Rebuild tx i => s.read tx i fun f =>
      ⟨tx, i, ⟨f.tenant, 0, []⟩, some (rebuildTarget s.db f.tenant)⟩
  | .Fetch tx => do
      let r ← s.reading
      let target ← r.target
      if r.tx = tx ∧ s.gated tx then
        let rows := rebuildRows s.db r.draft.tenant r.draft.position target
        if rows.isEmpty then some { s with reading := some { r with target := none } }
        else some { s with reading := some { r with
          draft := r.draft.advance rows (lastSeq r.draft.position rows) } }
      else none

/-- A run. -/
def run (s : System) (actions : List Action) : Option System :=
  actions.foldlM step s

end System

/-! ## What a query returns -/

section Select

variable {d : Database} {q : EventRow → Bool} {limit : Nat}

theorem mem_orderBySeq {rows : List EventRow} {r : EventRow} : r ∈ orderBySeq rows ↔ r ∈ rows :=
  List.mem_insertionSort _

instance : Std.Total fun a b : EventRow => a.position ≤ b.position :=
  ⟨fun a b => Nat.le_total a.position b.position⟩

instance : IsTrans EventRow fun a b => a.position ≤ b.position :=
  ⟨fun _ _ _ hab hbc => Nat.le_trans hab hbc⟩

/-- Rows have positions of their own, so they come in strictly increasing order. -/
theorem pairwise_orderBySeq (hd : d.Sound) (q : EventRow → Bool) :
    (orderBySeq (d.rows.filter q)).Pairwise fun a b => a.position < b.position := by
  have hle : (orderBySeq (d.rows.filter q)).Pairwise fun a b => a.position ≤ b.position :=
    List.pairwise_insertionSort _ _
  have hnodup : ((orderBySeq (d.rows.filter q)).map Mvcc.Row.position).Nodup := by
    have hrows : (d.rows.map Mvcc.Row.position).Nodup := by
      rw [List.nodup_iff_count_le_one]
      intro p
      have := hd.once p
      unfold Mvcc.Db.uses at this
      omega
    exact ((List.perm_insertionSort _ _).map _).nodup_iff.mpr
      (hrows.sublist (List.filter_sublist.map _))
  exact (hle.and (List.pairwise_map.mp hnodup)).imp fun h => Nat.lt_of_le_of_ne h.1 h.2

theorem mem_of_mem_select {r : EventRow} (h : r ∈ select d q limit) : r ∈ d.rows ∧ q r := by
  simpa using mem_orderBySeq.mp (List.mem_of_mem_take h)

theorem pairwise_select (hd : d.Sound) :
    (select d q limit).Pairwise fun a b => a.position < b.position :=
  (pairwise_orderBySeq hd q).take

/-- What a limit leaves out comes later than what is returned. -/
theorem mem_select_of_le (hd : d.Sound) {r last : EventRow} (hr : r ∈ d.rows) (hq : q r)
    (hlast : last ∈ select d q limit) (hle : r.position ≤ last.position) : r ∈ select d q limit := by
  have hmem : r ∈ orderBySeq (d.rows.filter q) := mem_orderBySeq.mpr (by simp [hr, hq])
  rw [← List.take_append_drop limit (orderBySeq (d.rows.filter q))] at hmem
  rcases List.mem_append.mp hmem with hin | hout
  · exact hin
  · have hsorted := pairwise_orderBySeq hd q
    rw [← List.take_append_drop limit (orderBySeq (d.rows.filter q)), List.pairwise_append] at hsorted
    have := hsorted.2.2 last hlast r hout
    omega

end Select

/-! ## Following -/

/-- A follower has been given every event of its tenant up to where it is, each once and in
    order, and nothing will appear there any more. -/
structure Caught (d : Database) (f : Follower) : Prop where
  ordered : f.received.Pairwise fun a b => a.globalSeq < b.globalSeq
  received : ∀ e, e ∈ f.received ↔
    ∃ r ∈ d.rows, r.value.tenant = f.tenant ∧ r.position ≤ f.position ∧ e = readEvent r
  beyond : d.Beyond f.position

section Follow

variable {d d' : Database} {f : Follower}

/-- What others do leaves a follower where it is. -/
theorem Caught.step {a : Mvcc.Action RecordedEvent} (hf : Caught d f) (h : d.Steps a d') :
    Caught d' f := by
  obtain ⟨hbeyond, more, hrows, hmore⟩ := hf.beyond.step h
  refine ⟨hf.ordered, fun e => ?_, hbeyond⟩
  rw [hf.received, hrows]
  constructor
  · rintro ⟨r, hr, h⟩
    exact ⟨r, List.mem_append_left _ hr, h⟩
  · rintro ⟨r, hr, htenant, hle, heq⟩
    rcases List.mem_append.mp hr with hr | hr
    · exact ⟨r, hr, htenant, hle, heq⟩
    · have := hmore r hr
      omega

/-- Nobody has been given anything at the start. -/
theorem Caught.zero (hd : d.Sound) (tenant : TenantId) : Caught d ⟨tenant, 0, []⟩ := by
  refine ⟨.nil, fun e => ⟨fun h => (nomatch h), ?_⟩, Nat.zero_le _, fun tx htx p hp => ?_⟩
  · rintro ⟨r, hr, -, hle, -⟩
    have := (hd.issued _ (Mvcc.Db.uses_of_row hr)).1
    dsimp only at hle
    omega
  · exact (hd.issued p (Mvcc.Db.uses_of_pending htx hp)).1

theorem lastSeq_concat (position : Nat) (rows : List EventRow) (last : EventRow) :
    lastSeq position ((rows ++ [last]).map readEvent) = last.position := by
  simp [lastSeq, readEvent]

/-- A follower is given the next rows of its tenant. -/
theorem Caught.advance (hf : Caught d f) {rows : List EventRow}
    (hsorted : rows.Pairwise fun a b => a.position < b.position)
    (hmem : ∀ r ∈ rows, r ∈ d.rows ∧ r.value.tenant = f.tenant ∧ f.position < r.position)
    (hall : ∀ last ∈ rows, ∀ r ∈ d.rows, r.value.tenant = f.tenant → f.position < r.position →
      r.position ≤ last.position → r ∈ rows)
    (hbeyond : ∀ r ∈ rows, d.Beyond r.position) :
    Caught d (f.advance (rows.map readEvent) (lastSeq f.position (rows.map readEvent))) := by
  rcases List.eq_nil_or_concat rows with rfl | ⟨init, last, rfl⟩
  · simpa [Follower.advance, lastSeq] using hf
  · have hlast : lastSeq f.position ((init.concat last).map readEvent) = last.position := by
      rw [List.concat_eq_append, lastSeq_concat]
    rw [hlast]
    have hlastmem : last ∈ init.concat last := by simp
    have hle : ∀ r ∈ init.concat last, r.position ≤ last.position := by
      rw [List.concat_eq_append, List.pairwise_append] at hsorted
      intro r hr
      rcases List.mem_append.mp (List.concat_eq_append ▸ hr) with hr | hr
      · exact Nat.le_of_lt (hsorted.2.2 r hr last (by simp))
      · rw [List.mem_singleton.mp hr]
    refine ⟨?_, fun e => ?_, hbeyond last hlastmem⟩
    · refine List.pairwise_append.mpr ⟨hf.ordered, List.pairwise_map.mpr hsorted, ?_⟩
      intro a ha b hb
      obtain ⟨r, -, -, hr, rfl⟩ := (hf.received a).mp ha
      obtain ⟨r', hr', rfl⟩ := List.mem_map.mp hb
      exact Nat.lt_of_le_of_lt hr (hmem r' hr').2.2
    · change e ∈ f.received ++ (init.concat last).map readEvent ↔ _
      rw [List.mem_append, hf.received, List.mem_map]
      constructor
      · rintro (⟨r, hr, htenant, hpos, rfl⟩ | ⟨r, hr, rfl⟩)
        · have := (hmem last hlastmem).2.2
          exact ⟨r, hr, htenant, Nat.le_of_lt (Nat.lt_of_le_of_lt hpos this), rfl⟩
        · exact ⟨r, (hmem r hr).1, (hmem r hr).2.1, hle r hr, rfl⟩
      · rintro ⟨r, hr, htenant, hpos, rfl⟩
        by_cases hold : r.position ≤ f.position
        · exact .inl ⟨r, hr, htenant, hold, rfl⟩
        · exact .inr ⟨r, hall last hlastmem r hr htenant (Nat.lt_of_not_le hold) hpos, rfl⟩

/-- What is fetched beyond the limit is not part of the page. -/
theorem take_fetched (d : Database) (tenant : TenantId) (after limit : Nat) :
    (fetched d tenant after limit).take limit =
      (select d (fun r => eligible d tenant r && after < r.position) limit).map readEvent := by
  unfold fetched select
  rw [← List.map_take, List.take_take, Nat.min_eq_left (Nat.le_succ limit)]

/-- A row of the tenant at or before one that may be handed out may be handed out. -/
theorem eligible_of_le {tenant : TenantId} {r last : EventRow} (hr : r ∈ d.rows)
    (htenant : r.value.tenant = tenant) (hlast : eligible d tenant last)
    (hle : r.position ≤ last.position) : eligible d tenant r := by
  simp only [eligible, Bool.and_eq_true, decide_eq_true_eq] at hlast ⊢
  refine ⟨⟨htenant, ?_⟩, ?_⟩
  · -- an unsettled row would be the first one or come after it
    by_contra hunsettled
    cases hfirst : firstUnsettled d with
    | none =>
        have := List.min?_eq_none_iff.mp hfirst
        simp only [List.map_eq_nil_iff, List.filter_eq_nil_iff] at this
        exact this r hr (by simpa using hunsettled)
    | some first =>
        rw [hfirst] at hlast
        have hmin := (List.min?_eq_some_iff.mp hfirst).2 r.position
          (List.mem_map_of_mem (List.mem_filter.mpr ⟨hr, by simpa using hunsettled⟩))
        have := of_decide_eq_true hlast.2
        omega
  · cases hfirst : firstUnsettled d with
    | none => rfl
    | some first =>
        rw [hfirst] at hlast
        have := of_decide_eq_true hlast.2
        simp only [decide_eq_true_eq]
        omega

/-- A page of the feed takes its follower further. -/
theorem Caught.page (hd : d.Sound) (hf : Caught d f) {tx : Mvcc.Tx RecordedEvent} {i : Nat}
    (htx : d.txs[i]? = some tx) (hlock : tx.lock = some .Exclusive) (limit : Nat) :
    let events := (fetched d f.tenant f.position limit).take limit
    Caught d (f.advance events (lastSeq f.position events)) := by
  intro events
  have hevents : events = (select d (fun r => eligible d f.tenant r && f.position < r.position)
      limit).map readEvent := take_fetched d f.tenant f.position limit
  rw [hevents]
  have hmem : ∀ r ∈ select d (fun r => eligible d f.tenant r && f.position < r.position) limit,
      r ∈ d.rows ∧ eligible d f.tenant r ∧ f.position < r.position := by
    intro r hr
    simpa using mem_of_mem_select hr
  refine hf.advance (pairwise_select hd) (fun r hr => ?_) (fun last hlast r hr htenant hpos hle => ?_)
    fun r hr => ?_
  · obtain ⟨hrow, heligible, hpos⟩ := hmem r hr
    simp only [eligible, Bool.and_eq_true, decide_eq_true_eq] at heligible
    exact ⟨hrow, heligible.1.1, hpos⟩
  · have heligible := eligible_of_le hr htenant (hmem last hlast).2.1 hle
    exact mem_select_of_le hd hr (by simp [heligible, hpos]) hlast hle
  · exact hd.beyond_of_exclusive htx hlock (hd.issued _ (Mvcc.Db.uses_of_row (hmem r hr).1)).2

theorem rebuildTarget_le (hd : d.Sound) (tenant : TenantId) : rebuildTarget d tenant ≤ d.issued := by
  unfold rebuildTarget
  cases hmax : ((d.rows.filter (eligible d tenant)).map Mvcc.Row.position).max? with
  | none => exact Nat.zero_le _
  | some target =>
      obtain ⟨hmem, -⟩ := List.max?_eq_some_iff.mp hmax
      obtain ⟨r, hr, rfl⟩ := List.mem_map.mp hmem
      exact (hd.issued _ (Mvcc.Db.uses_of_row (List.mem_filter.mp hr).1)).2

/-- A turn of the rebuilding loop takes its follower further. -/
theorem Caught.rebuild (hd : d.Sound) (hf : Caught d f) {target : Nat} (htarget : d.Beyond target) :
    let events := rebuildRows d f.tenant f.position target
    Caught d (f.advance events (lastSeq f.position events)) := by
  intro events
  have hmem : ∀ r ∈ select d (fun r => r.value.tenant = f.tenant && f.position < r.position &&
      r.position ≤ target) MAX_READ_LIMIT,
      r ∈ d.rows ∧ (r.value.tenant = f.tenant ∧ f.position < r.position) ∧ r.position ≤ target := by
    intro r hr
    simpa using mem_of_mem_select hr
  refine hf.advance (pairwise_select hd) (fun r hr => ?_) (fun last hlast r hr htenant hpos hle => ?_)
    fun r hr => ?_
  · obtain ⟨hrow, ⟨htenant, hpos⟩, -⟩ := hmem r hr
    exact ⟨hrow, htenant, hpos⟩
  · have hlast' := (hmem last hlast).2.2
    exact mem_select_of_le hd hr (by simp [htenant, hpos]; omega) hlast hle
  · obtain ⟨-, -, hle⟩ := hmem r hr
    exact ⟨Nat.le_trans hle htarget.1, fun tx htx p hp =>
      Nat.lt_of_le_of_lt hle (htarget.2 tx htx p hp)⟩

end Follow

/-! ## Runs -/

/-- What holds in every state a run reaches. -/
structure System.Sound (s : System) : Prop where
  db : s.db.Sound
  followers : ∀ f ∈ s.followers, Caught s.db f
  reading : ∀ r ∈ s.reading, Caught s.db r.draft ∧ ∀ target ∈ r.target, s.db.Beyond target

section Runs

variable {s s' : System}

theorem System.sound_start (nextXid : Nat) (tenants : List TenantId) :
    (System.start nextXid tenants).Sound := by
  have hdb : (Mvcc.Db.new nextXid : Database).Sound := Mvcc.Db.sound_new nextXid
  refine ⟨hdb, fun f hf => ?_, fun r hr => nomatch hr⟩
  obtain ⟨tenant, -, rfl⟩ := List.mem_map.mp hf
  exact Caught.zero hdb tenant

/-- A reader that may ask holds the gate alone. -/
theorem System.gated_iff {tx : Nat} : s.gated tx = true ↔
    ∃ t, s.db.txs[tx]? = some t ∧ t.phase = .Running ∧ t.lock = some .Exclusive := by
  unfold System.gated
  rw [Option.any_eq_true]
  simp only [Mvcc.Db.running_eq_some_iff, decide_eq_true_eq, and_assoc]

theorem System.read_sound (hs : s.Sound) {tx i : Nat} {g : Follower → Reading}
    (hg : s.gated tx = true → ∀ f ∈ s.followers,
      Caught s.db (g f).draft ∧ ∀ target ∈ (g f).target, s.db.Beyond target)
    (h : s.read tx i g = some s') : s'.Sound := by
  simp only [System.read, Option.bind_eq_bind, Option.bind_eq_some_iff,
    Option.ite_none_right_eq_some, Option.some.injEq] at h
  obtain ⟨f, hf, ⟨hgated, -⟩, rfl⟩ := h
  refine ⟨hs.db, hs.followers, ?_⟩
  rintro _ ⟨⟩
  exact hg hgated f (List.mem_of_getElem? hf)

theorem System.settle_sound (hs : s.Sound) {a : Mvcc.Action RecordedEvent}
    (h : s.settle a = some s') : s'.Sound := by
  unfold System.settle at h
  split at h
  · split at h
    · next r hr =>
        split at h
        · split at h
          · exact nomatch h
          · obtain rfl := Option.some.inj h
            refine ⟨hs.db, fun f hf => ?_, fun _ h => nomatch h⟩
            rcases List.mem_or_eq_of_mem_set hf with hf | rfl
            · exact hs.followers f hf
            · exact (hs.reading r hr).1
        · exact Option.some.inj h ▸ hs
    · exact Option.some.inj h ▸ hs
  · split at h
    · split at h
      · obtain rfl := Option.some.inj h
        exact ⟨hs.db, hs.followers, fun _ h => nomatch h⟩
      · exact Option.some.inj h ▸ hs
    · exact Option.some.inj h ▸ hs
  · exact Option.some.inj h ▸ hs

theorem System.step_sound (hs : s.Sound) {a : Action} (h : s.step a = some s') : s'.Sound := by
  cases a with
  | Db a =>
      obtain ⟨db, hdb, h⟩ := Option.bind_eq_some_iff.mp h
      have hsteps := Mvcc.Db.step_eq_some_iff.mp hdb
      have hmoved : System.Sound ⟨db, s.followers, s.reading⟩ := by
        refine ⟨hs.db.step hsteps, fun f hf => (hs.followers f hf).step hsteps, fun r hr => ?_⟩
        obtain ⟨hdraft, htarget⟩ := hs.reading r hr
        exact ⟨hdraft.step hsteps, fun target ht => ((htarget target ht).step hsteps).1⟩
      exact settle_sound hmoved h
  | ReadFeed tx i limit =>
      refine read_sound hs (fun hgated f hf => ?_) h
      obtain ⟨t, ht, -, hlock⟩ := gated_iff.mp hgated
      exact ⟨(hs.followers f hf).page hs.db ht hlock (boundedLimit limit), fun _ h => by cases h⟩
  | RunCatchUp tx i batch =>
      refine read_sound hs (fun hgated f hf => ?_) h
      obtain ⟨t, ht, -, hlock⟩ := gated_iff.mp hgated
      refine ⟨?_, fun _ h => by cases h⟩
      have hpage := (hs.followers f hf).page hs.db ht hlock (boundedLimit batch)
      unfold runCatchUp
      dsimp only
      split
      · next hempty =>
          rw [List.isEmpty_iff] at hempty
          rw [hempty] at hpage
          exact hpage
      · exact hpage
  | Rebuild tx i =>
      refine read_sound hs (fun hgated f hf => ?_) h
      obtain ⟨t, ht, -, hlock⟩ := gated_iff.mp hgated
      refine ⟨Caught.zero hs.db f.tenant, ?_⟩
      rintro _ ⟨⟩
      exact hs.db.beyond_of_exclusive ht hlock (rebuildTarget_le hs.db f.tenant)
  | Fetch tx =>
      simp only [System.step, Option.bind_eq_bind, Option.bind_eq_some_iff,
        Option.ite_none_right_eq_some] at h
      obtain ⟨r, hr, target, htarget, -, h⟩ := h
      obtain ⟨hdraft, hbeyond⟩ := hs.reading r hr
      split at h
      · obtain rfl := Option.some.inj h
        refine ⟨hs.db, hs.followers, ?_⟩
        rintro _ ⟨⟩
        exact ⟨hdraft, fun _ h => by cases h⟩
      · obtain rfl := Option.some.inj h
        refine ⟨hs.db, hs.followers, ?_⟩
        rintro _ ⟨⟩
        exact ⟨hdraft.rebuild hs.db (hbeyond target htarget), hbeyond⟩

theorem System.run_sound (hs : s.Sound) {actions : List Action} (h : s.run actions = some s') :
    s'.Sound := by
  induction actions generalizing s with
  | nil => exact Option.some.inj h ▸ hs
  | cons a rest ih =>
      obtain ⟨s₁, hstep, hrest⟩ := Option.bind_eq_some_iff.mp h
      exact ih (step_sound hs hstep) hrest

/-! ## Getting everything -/

/-- Nobody holds the gate, and every row is older than every transaction still running. -/
structure System.Quiet (s : System) : Prop where
  unlocked : ∀ tx ∈ s.db.txs, tx.lock = none
  settled : ∀ r ∈ s.db.rows, r.xid < s.db.xmin
  idle : s.reading = none

/-- How a follower asks. -/
inductive Poll where
  | Feed (limit : Nat)
  | CatchUp (batch : Nat)

def Poll.action (p : Poll) (tx follower : Nat) : Action :=
  match p with
  | .Feed limit => .ReadFeed tx follower limit
  | .CatchUp batch => .RunCatchUp tx follower batch

/-- One poll, in a transaction of its own. -/
def Poll.actions (p : Poll) (tx follower : Nat) : List Action :=
  [.Db .Begin, .Db (.Lock tx .Exclusive), p.action tx follower, .Db (.Commit tx), .Db (.Release tx)]

/-- One poll after another. -/
def polls (tx follower : Nat) : List Poll → List Action
  | [] => []
  | p :: rest => p.actions tx follower ++ polls (tx + 1) follower rest

/-- How many rows a follower has not been given. -/
def remaining (d : Database) (f : Follower) : Nat :=
  (d.rows.filter fun r => r.value.tenant = f.tenant && f.position < r.position).length

/-- A follower that got further has fewer rows before it. -/
theorem remaining_lt {d : Database} {f f' : Follower} {r : EventRow} (hr : r ∈ d.rows)
    (htenant : r.value.tenant = f.tenant) (hpos : f.position < r.position)
    (htenant' : f'.tenant = f.tenant) (hpos' : r.position ≤ f'.position) :
    remaining d f' < remaining d f := by
  have hsplit : (d.rows.filter fun r => r.value.tenant = f'.tenant && f'.position < r.position) =
      (d.rows.filter fun r => r.value.tenant = f.tenant && f.position < r.position).filter
        fun r => f'.position < r.position := by
    rw [List.filter_filter]
    refine List.filter_congr fun x _ => ?_
    rw [htenant', Bool.eq_iff_iff]
    simp only [Bool.and_eq_true, decide_eq_true_eq]
    constructor
    · rintro ⟨h₁, h₂⟩
      exact ⟨h₂, h₁, by omega⟩
    · rintro ⟨h₁, h₂, -⟩
      exact ⟨h₂, h₁⟩
  unfold remaining
  rw [hsplit, List.length_filter_lt_length_iff_exists]
  exact ⟨r, List.mem_filter.mpr ⟨hr, by simp [htenant, hpos]⟩, by simpa using hpos'⟩

/-- What a page of a quiet store does for its follower. -/
theorem page_progress {d : Database} (hd : d.Sound) (hsettled : ∀ r ∈ d.rows, r.xid < d.xmin)
    (f : Follower) {limit : Nat} (hlimit : 0 < limit) :
    let events := (fetched d f.tenant f.position limit).take limit
    remaining d f = 0 ∧ events = [] ∨
      remaining d (f.advance events (lastSeq f.position events)) < remaining d f := by
  intro events
  have hfirst : firstUnsettled d = none := by
    unfold firstUnsettled
    rw [List.min?_eq_none_iff, List.map_eq_nil_iff, List.filter_eq_nil_iff]
    intro r hr
    simp [watermark, hsettled r hr]
  have heligible : ∀ r ∈ d.rows, eligible d f.tenant r = decide (r.value.tenant = f.tenant) := by
    intro r hr
    simp [eligible, hfirst, watermark, hsettled r hr]
  have hrows : (d.rows.filter fun r => eligible d f.tenant r && f.position < r.position) =
      d.rows.filter fun r => r.value.tenant = f.tenant && f.position < r.position :=
    List.filter_congr fun r hr => by rw [heligible r hr]
  have hevents : events = ((orderBySeq (d.rows.filter fun r =>
      r.value.tenant = f.tenant && f.position < r.position)).take limit).map readEvent := by
    rw [← hrows]
    exact take_fetched d f.tenant f.position limit
  cases hordered : orderBySeq (d.rows.filter fun r =>
      r.value.tenant = f.tenant && f.position < r.position) with
  | nil =>
      refine .inl ⟨?_, by rw [hevents, hordered]; simp⟩
      have hperm := List.perm_insertionSort (fun a b : EventRow => a.position ≤ b.position)
        (d.rows.filter fun r => r.value.tenant = f.tenant && f.position < r.position)
      unfold remaining
      rw [← hperm.length_eq]
      exact congrArg List.length hordered
  | cons first rest =>
      obtain ⟨n, rfl⟩ : ∃ n, limit = n + 1 := ⟨limit - 1, by omega⟩
      have hfirstmem : first ∈ d.rows ∧ first.value.tenant = f.tenant ∧ f.position < first.position := by
        have : first ∈ orderBySeq (d.rows.filter fun r =>
            r.value.tenant = f.tenant && f.position < r.position) := by simp [hordered]
        simpa using mem_orderBySeq.mp this
      have hsorted := pairwise_orderBySeq hd
        fun r => r.value.tenant = f.tenant && f.position < r.position
      rw [hordered] at hsorted
      rw [hordered, List.take_succ_cons] at hevents
      refine .inr (remaining_lt hfirstmem.1 hfirstmem.2.1 hfirstmem.2.2 rfl ?_)
      -- the last event of the page is the first row or one after it
      change first.position ≤ lastSeq f.position events
      rw [hevents]
      rcases List.eq_nil_or_concat (rest.take n) with hnil | ⟨init, last, hconcat⟩
      · simp [hnil, lastSeq, readEvent]
      · have hlast : last ∈ rest.take n := by
          rw [hconcat]
          simp
        have := (List.pairwise_cons.mp hsorted).1 last (List.mem_of_mem_take hlast)
        rw [hconcat, List.concat_eq_append, ← List.cons_append, lastSeq_concat]
        exact Nat.le_of_lt this

/-- The store while the poll of a new transaction asks. -/
def System.polling (s : System) : Database :=
  { s.db with txs := s.db.txs ++ [⟨.Running, some .Exclusive, none, [], []⟩] }

/-- The store once it is over. -/
def System.polled (s : System) : Database :=
  { s.db with txs := s.db.txs ++ [⟨.Ended, none, none, [], []⟩] }

theorem xmin_append {d : Database} {tx : Mvcc.Tx RecordedEvent} (h : tx.xid = none) :
    Mvcc.Db.xmin { d with txs := d.txs ++ [tx] } = d.xmin := by
  unfold Mvcc.Db.xmin
  rw [List.filter_append, List.filterMap_append]
  have : ([tx].filter fun tx => tx.phase = .Running).filterMap Mvcc.Tx.xid = [] := by
    rw [List.filterMap_eq_nil_iff]
    intro t ht
    rw [List.mem_singleton.mp (List.mem_of_mem_filter ht), h]
  rw [this, List.append_nil]

/-- What a poll gives its follower. -/
def Poll.delivers (p : Poll) (d : Database) (f : Follower) : Follower :=
  match p with
  | .Feed limit =>
      let page := readFeed d f.tenant f.position limit
      f.advance page.events page.nextPosition
  | .CatchUp batch =>
      let (events, progress) := runCatchUp d f.tenant f.position batch
      f.advance events progress.position

theorem System.step_db {a : Mvcc.Action RecordedEvent} {db : Database} (h : s.db.Steps a db)
    (hsettle : System.settle { s with db } a = some s') : s.step (.Db a) = some s' := by
  simp only [System.step, Mvcc.Db.step_eq_some_iff.mpr h, Option.bind_eq_bind, Option.bind_some]
  exact hsettle

theorem System.read_of_gated {tx i : Nat} {f : Follower} (hf : s.followers[i]? = some f)
    (hgated : s.gated tx = true) (hidle : s.reading = none) (g : Follower → Reading) :
    s.read tx i g = some { s with reading := some (g f) } := by
  unfold System.read
  rw [hf]
  exact if_pos ⟨hgated, by rw [hidle]; rfl⟩

/-- The transaction of a poll replaced by another. -/
theorem put_last (d : Database) (tx tx' : Mvcc.Tx RecordedEvent) :
    Mvcc.Db.put { d with txs := d.txs ++ [tx] } d.txs.length tx' = { d with txs := d.txs ++ [tx'] } := by
  simp [Mvcc.Db.put]

theorem getElem?_last (d : Database) (tx : Mvcc.Tx RecordedEvent) :
    (d.txs ++ [tx])[d.txs.length]? = some tx := by
  simp

/-- A new transaction gets the gate of a quiet store. -/
theorem System.Quiet.locks (hq : s.Quiet) :
    Mvcc.Db.Steps { s.db with txs := s.db.txs ++ [.fresh] } (.Lock s.db.txs.length .Exclusive)
      s.polling := by
  have hfree : Mvcc.Db.grants { s.db with txs := s.db.txs ++ [.fresh] } .Exclusive = true := by
    refine List.all_eq_true.mpr fun tx htx => decide_eq_true ?_
    rcases List.mem_append.mp htx with htx | htx
    · exact hq.unlocked tx htx
    · rw [List.mem_singleton.mp htx]
      rfl
  have hlocks := Mvcc.Db.Steps.Lock (getElem?_last s.db .fresh) rfl rfl hfree
  rwa [put_last] at hlocks

/-- A poll of a quiet store runs to its end. -/
theorem System.run_poll (hq : s.Quiet) {i : Nat} {f : Follower} (hf : s.followers[i]? = some f)
    (p : Poll) : s.run (p.actions s.db.txs.length i) =
      some ⟨s.polled, s.followers.set i (p.delivers s.polling f), none⟩ := by
  have hbegin : s.step (.Db .Begin) =
      some { s with db := { s.db with txs := s.db.txs ++ [.fresh] } } := rfl
  have hlock : System.step { s with db := { s.db with txs := s.db.txs ++ [.fresh] } }
      (.Db (.Lock s.db.txs.length .Exclusive)) = some { s with db := s.polling } := by
    exact step_db hq.locks rfl
  have hgated : System.gated { s with db := s.polling } s.db.txs.length = true :=
    gated_iff.mpr ⟨_, getElem?_last s.db _, rfl, rfl⟩
  have hread : System.step { s with db := s.polling } (p.action s.db.txs.length i) =
      some ⟨s.polling, s.followers, some ⟨s.db.txs.length, i, p.delivers s.polling f, none⟩⟩ := by
    cases p <;> exact read_of_gated (s := { s with db := s.polling }) hf hgated hq.idle _
  have hcommit : System.step ⟨s.polling, s.followers,
      some ⟨s.db.txs.length, i, p.delivers s.polling f, none⟩⟩ (.Db (.Commit s.db.txs.length)) =
      some ⟨{ s.db with txs := s.db.txs ++ [⟨.Ended, some .Exclusive, none, [], []⟩] },
        s.followers.set i (p.delivers s.polling f), none⟩ := by
    refine step_db (.Commit (getElem?_last s.db _) rfl) ?_
    simp [System.settle, System.polling, put_last, Mvcc.Db.ended]
  have hrelease : System.step
      ⟨{ s.db with txs := s.db.txs ++ [⟨.Ended, some .Exclusive, none, [], []⟩] },
        s.followers.set i (p.delivers s.polling f), none⟩ (.Db (.Release s.db.txs.length)) =
      some ⟨s.polled, s.followers.set i (p.delivers s.polling f), none⟩ := by
    refine step_db (.Release (getElem?_last s.db _) rfl) ?_
    simp [System.settle, System.polled, put_last]
  simp only [System.run, Poll.actions, List.foldlM_cons, List.foldlM_nil, hbegin, hlock, hread, hcommit,
    hrelease, Option.bind_eq_bind, Option.bind_some, Option.pure_def]

theorem System.polling_sound (hs : s.Sound) (hq : s.Quiet) : Mvcc.Db.Sound s.polling :=
  (hs.db.step .Begin).step hq.locks

/-- What a poll of a quiet store leaves before its follower. -/
theorem System.remaining_delivers (hs : s.Sound) (hq : s.Quiet) (p : Poll) (f : Follower) :
    (p.delivers s.polling f).tenant = f.tenant ∧
      remaining s.polling (p.delivers s.polling f) ≤ remaining s.polling f - 1 := by
  have hsettled : ∀ r ∈ s.polling.rows, r.xid < s.polling.xmin :=
    fun r hr => lt_of_lt_of_eq (hq.settled r hr) (xmin_append rfl).symm
  have hpage : ∀ limit, 0 < limit →
      let events := (fetched s.polling f.tenant f.position limit).take limit
      remaining s.polling (f.advance events (lastSeq f.position events)) ≤ remaining s.polling f - 1 := by
    intro limit hlimit events
    rcases page_progress (System.polling_sound hs hq) hsettled f hlimit with ⟨hzero, hempty⟩ | hless
    · rw [show events = [] from hempty]
      exact Nat.le_of_eq (by rw [hzero]; exact hzero)
    · exact Nat.le_sub_one_of_lt hless
  cases p with
  | Feed limit => exact ⟨rfl, hpage _ (boundedLimit_pos limit)⟩
  | CatchUp batch =>
      refine ⟨rfl, ?_⟩
      have := hpage _ (boundedLimit_pos batch)
      unfold Poll.delivers runCatchUp
      dsimp only
      split
      · next hempty =>
          rw [List.isEmpty_iff] at hempty
          rw [hempty] at this
          exact this
      · exact this

/-- A poll of a quiet store leaves it quiet and gets its follower further, if there is further to
    go. -/
theorem System.poll_progress (hs : s.Sound) (hq : s.Quiet) {i : Nat} {f : Follower}
    (hf : s.followers[i]? = some f) (p : Poll) :
    ∃ s', s.run (p.actions s.db.txs.length i) = some s' ∧ s'.Quiet ∧ s'.db.rows = s.db.rows ∧
      s'.db.txs.length = s.db.txs.length + 1 ∧
      ∃ f', s'.followers[i]? = some f' ∧ f'.tenant = f.tenant ∧
        remaining s'.db f' ≤ remaining s.db f - 1 := by
  obtain ⟨htenant, hremaining⟩ := System.remaining_delivers hs hq p f
  refine ⟨_, System.run_poll hq hf p, ⟨?_, ?_, rfl⟩, rfl, by simp [polled],
    p.delivers s.polling f, ?_, htenant, hremaining⟩
  · intro tx htx
    rcases List.mem_append.mp htx with htx | htx
    · exact hq.unlocked tx htx
    · rw [List.mem_singleton.mp htx]
  · intro r hr
    exact lt_of_lt_of_eq (hq.settled r hr) (xmin_append rfl).symm
  · have := (List.getElem?_eq_some_iff.mp hf).1
    simp [this]

/-- Enough polls of a quiet store give a follower everything there is. -/
theorem System.polls_complete (hs : s.Sound) (hq : s.Quiet) {i : Nat} {f : Follower}
    (hf : s.followers[i]? = some f) {ps : List Poll} (henough : remaining s.db f ≤ ps.length) :
    ∃ s', s.run (polls s.db.txs.length i ps) = some s' ∧ s'.db.rows = s.db.rows ∧
      ∃ f', s'.followers[i]? = some f' ∧
        ∀ r ∈ s.db.rows, r.value.tenant = f.tenant → readEvent r ∈ f'.received := by
  induction ps generalizing s f with
  | nil =>
      refine ⟨s, rfl, rfl, f, hf, fun r hr htenant => ?_⟩
      refine ((hs.followers f (List.mem_of_getElem? hf)).received _).mpr ⟨r, hr, htenant, ?_, rfl⟩
      have hnone := List.length_eq_zero_iff.mp (Nat.le_zero.mp henough)
      rw [List.filter_eq_nil_iff] at hnone
      simpa [htenant] using hnone r hr
  | cons p rest ih =>
      obtain ⟨s₁, hrun, hq₁, hrows, hlength, f₁, hf₁, htenant, hremaining⟩ :=
        System.poll_progress hs hq hf p
      have hless : remaining s₁.db f₁ ≤ rest.length := by
        simp only [List.length_cons] at henough
        omega
      obtain ⟨s', hrest, hrows', f', hf', hall⟩ := ih (System.run_sound hs hrun) hq₁ hf₁ hless
      refine ⟨s', ?_, hrows'.trans hrows, f', hf', fun r hr h => ?_⟩
      · unfold System.run at hrun hrest ⊢
        rw [polls, List.foldlM_append, hrun, ← hlength]
        exact hrest
      · exact hall r (hrows ▸ hr) (h.trans htenant.symm)

/-- **The feed skips nothing**: in every state a run reaches, a follower has been given exactly
    the committed events of its tenant up to where it is, each once and in increasing order; and
    from a state in which no writer or older transaction is left, it gets all of them with any
    limits. -/
theorem feed_skips_nothing {nextXid : Nat} {tenants : List TenantId} {actions : List Action}
    (h : (System.start nextXid tenants).run actions = some s) :
    (∀ f ∈ s.followers, (f.received.Pairwise fun a b => a.globalSeq < b.globalSeq) ∧
      ∀ e, e ∈ f.received ↔
        ∃ r ∈ s.db.rows, r.value.tenant = f.tenant ∧ r.position ≤ f.position ∧ e = readEvent r) ∧
    (s.Quiet → ∀ (i : Nat) (f : Follower), s.followers[i]? = some f →
      ∀ ps : List Poll, s.db.rows.length ≤ ps.length →
        ∃ s', s.run (polls s.db.txs.length i ps) = some s' ∧ s'.db.rows = s.db.rows ∧
          ∃ f', s'.followers[i]? = some f' ∧
            ∀ r ∈ s.db.rows, r.value.tenant = f.tenant → readEvent r ∈ f'.received) := by
  have hs := System.run_sound (System.sound_start nextXid tenants) h
  refine ⟨fun f hf => ⟨(hs.followers f hf).ordered, (hs.followers f hf).received⟩, ?_⟩
  intro hq i f hf ps henough
  exact System.polls_complete hs hq hf (Nat.le_trans (List.length_filter_le _ _) henough)

/-- Two writers whose identifiers are the other way round than their positions, beside a foreign
    transaction that stays open. -/
theorem feed_skips_nothing_of_crossed :
    let event : RecordedEvent := ⟨0, sampleTenant, "account", "a", 1, "e", "e", 1, sampleTime, sampleTime,
      "s", "a", "r", "t", none, 0, none, .obj [], none, []⟩
    let crossed : List Action := [.Db .Begin, .Db (.Lock 0 .Shared), .Db .Begin, .Db (.Lock 1 .Shared),
      .Db (.Take 0), .Db (.AssignXid 1), .Db (.Take 1), .Db (.Insert 1 2 event), .Db (.AssignXid 0),
      .Db (.Insert 0 1 event), .Db .Begin, .Db (.AssignXid 2), .Db (.Commit 1), .Db (.Release 1),
      .Db (.Commit 0), .Db (.Release 0)]
    ∃ s, (System.start 1 [sampleTenant]).run (crossed ++ (Poll.Feed 10).actions 3 0) = some s ∧
      s.followers.map (fun f => f.received.map RecordedEvent.globalSeq) = [[1, 2]] ∧
      ∀ f ∈ s.followers, f.received.Pairwise fun a b => a.globalSeq < b.globalSeq := by
  intro event crossed
  let reached := (System.start 1 [sampleTenant]).run (crossed ++ (Poll.Feed 10).actions 3 0)
  have hgiven : reached.map (fun s => s.followers.map
      (fun f => f.received.map RecordedEvent.globalSeq)) = some [[1, 2]] := by decide +kernel
  obtain ⟨s, hs, hreceived⟩ := Option.map_eq_some_iff.mp hgiven
  exact ⟨s, hs, hreceived, fun f hf => ((feed_skips_nothing hs).1 f hf).1⟩

end Runs

end Eventlog.Postgres
