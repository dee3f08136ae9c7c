import Eventlog.Contract.Forgetting
import Eventlog.Durable.Paging

/-!
# Eventlog.Contract.Gapless

The numbers of a File history, and the reads that follow them.

The store keeps its events by position and, for each stream, the position of every version.  The
model filters one list instead; `Events` is what the source keeps, and its inserts amount to that
list regrouped (`Events.of_spec`).  Reading on from page to page then gives each event once
(`Paging.readOn_iff`), whatever the limit.
-/

namespace Eventlog.File

open Durable Paging

/-! ## The stream index -/

/-- `BTreeMap::insert`, where a value has its key in it. -/
def put (key : α → Nat) (x : α) (xs : List α) : List α :=
  xs.filter (fun y => decide (key y < key x)) ++ x :: xs.filter fun y => decide (key x < key y)

theorem put_of_lt {key : α → Nat} {x : α} {xs : List α} (h : ∀ y ∈ xs, key y < key x) :
    put key x xs = xs ++ [x] := by
  have hnone : xs.filter (fun y => decide (key x < key y)) = [] := by
    simpa using fun y hy => (h y hy).le
  rw [put, hnone, List.filter_eq_self.mpr (by simpa using h)]

/-- The events by position, and for each stream the position of every version. -/
structure Events where
  byPosition : List RecordedEvent
  byStream : StreamId → List (Nat × Nat)

namespace Events

/-- `Events::insert`. -/
def insert (es : Events) (e : RecordedEvent) : Events where
  byPosition := put RecordedEvent.globalSeq e es.byPosition
  byStream stream :=
    if RecordedEvent.isOn e stream then
      put Prod.fst (e.version, e.globalSeq) (es.byStream stream)
    else es.byStream stream

/-- What the inserts of a replay make. -/
def of (events : List RecordedEvent) : Events := events.foldl insert ⟨[], fun _ => []⟩

/-- `Events::of_stream`, past a version. -/
def ofStream (es : Events) (stream : StreamId) (after : Nat) : List RecordedEvent :=
  (past Prod.fst (es.byStream stream) after).filterMap fun entry =>
    es.byPosition.find? fun e => e.globalSeq == entry.2

variable {events : List RecordedEvent}

/-- **The index is the events regrouped**, as long as positions and versions grow. -/
theorem of_spec (hpositions : events.Pairwise fun a b => a.globalSeq < b.globalSeq)
    (hversions : ∀ stream, (events.filter (RecordedEvent.isOn · stream)).Pairwise
      fun a b => a.version < b.version) :
    (of events).byPosition = events ∧ ∀ stream, (of events).byStream stream =
      (events.filter (RecordedEvent.isOn · stream)).map fun e => (e.version, e.globalSeq) := by
  induction events using List.reverseRecOn with
  | nil => exact ⟨rfl, fun stream => rfl⟩
  | append_singleton xs e ih =>
      have hlow := (List.pairwise_append.mp hpositions).2.2
      obtain ⟨hby, hindex⟩ := ih (hpositions.sublist (List.sublist_append_left xs [e]))
        fun stream => (hversions stream).sublist ((List.sublist_append_left xs [e]).filter _)
      rw [of, List.foldl_append, List.foldl_cons, List.foldl_nil, ← of]
      refine ⟨?_, fun stream => ?_⟩
      · rw [insert, hby]
        exact put_of_lt fun y hy => hlow y hy e (by simp)
      · simp only [insert, hindex]
        split_ifs with hon
        · have hhigh := hversions stream
          rw [List.filter_append, List.filter_singleton, hon, cond_true] at hhigh ⊢
          rw [put_of_lt, List.map_append, List.map_singleton]
          intro entry hentry
          obtain ⟨y, hy, rfl⟩ := List.mem_map.mp hentry
          exact (List.pairwise_append.mp hhigh).2.2 y hy e (by simp)
        · simp [List.filter_append, hon]

theorem find?_position (hpositions : events.Pairwise fun a b => a.globalSeq < b.globalSeq)
    {e : RecordedEvent} (he : e ∈ events) :
    events.find? (fun e' => e'.globalSeq == e.globalSeq) = some e := by
  obtain ⟨before, after, rfl⟩ := List.append_of_mem he
  have hbefore := (List.pairwise_append.mp hpositions).2.2
  rw [List.find?_append, List.find?_eq_none.mpr, Option.none_or, List.find?_cons_of_pos (by simp)]
  intro y hy
  have hlt := hbefore y hy e (by simp)
  simp [hlt.ne]

/-- A stream is read through the index as it is from the events. -/
theorem ofStream_of (hpositions : events.Pairwise fun a b => a.globalSeq < b.globalSeq)
    (hversions : ∀ stream, (events.filter (RecordedEvent.isOn · stream)).Pairwise
      fun a b => a.version < b.version) (stream : StreamId) (after : Nat) :
    (of events).ofStream stream after =
      past RecordedEvent.version (events.filter (RecordedEvent.isOn · stream)) after := by
  obtain ⟨hby, hindex⟩ := of_spec hpositions hversions
  rw [ofStream, hby, hindex, past, List.filter_map, List.filterMap_map]
  refine (List.filterMap_congr fun e he => ?_).trans List.filterMap_some
  exact find?_position hpositions (List.mem_filter.mp (List.mem_filter.mp he).1).1

end Events

/-! ## Reading on -/

/-- A page of `read_stream`, by the version it starts after. -/
def State.sliceFrom (s : State) (stream : StreamId) (limit after : Nat) :
    List RecordedEvent × Nat × Bool :=
  let slice := s.slice stream after limit
  (slice.events, slice.nextVersion, !slice.endOfStream)

/-- A page of `read_feed`, by the position it starts after. -/
def State.feedFrom (s : State) (tenant : TenantId) (limit after : Nat) :
    List RecordedEvent × Nat × Bool :=
  let page := s.feed tenant after limit
  (page.events, page.nextPosition, page.hasMore)

theorem State.sliceFrom_eq (s : State) (stream : StreamId) (limit : Nat) :
    s.sliceFrom stream limit =
      pageFrom RecordedEvent.version (s.ofStream stream) (boundedLimit limit) := by
  funext after
  have hmore (n limit : Nat) : (!decide (n ≤ limit)) = decide (limit < n) := by
    rw [← decide_not, decide_eq_decide, Nat.not_le]
  simp only [sliceFrom, slice, pageFrom, hmore]
  rfl

theorem State.feedFrom_eq (s : State) (tenant : TenantId) (limit : Nat) :
    s.feedFrom tenant limit = pageFrom RecordedEvent.globalSeq
      (s.events.filter fun e => e.tenant == tenant) (boundedLimit limit) := by
  funext after
  simp [feedFrom, feed, pageFrom, past, lastKey, List.filter_filter, Bool.and_comm]

/-! ## The contract -/

/-- The numbers of a state and the reads that follow them. -/
structure Gapless (s : State) : Prop where
  /-- Positions grow, and are among those handed out. -/
  positions : s.events.Pairwise fun a b => a.globalSeq < b.globalSeq
  issued : ∀ e ∈ s.events, e.globalSeq ≤ s.nextPosition
  versions : ∀ stream, (s.ofStream stream).map RecordedEvent.version =
    List.range' 1 (s.head stream)
  /-- The stream index is the events regrouped, and gives a stream's events. -/
  index : ∀ stream, (Events.of s.events).byStream stream =
    (s.ofStream stream).map fun e => (e.version, e.globalSeq)
  indexed : ∀ stream after, (Events.of s.events).ofStream stream after =
    past RecordedEvent.version (s.ofStream stream) after
  /-- Following the pages gives each event past the start once, in order. -/
  slices : ∀ stream limit after out, ReadOn (s.sliceFrom stream limit) after out ↔
    out = past RecordedEvent.version (s.ofStream stream) after
  feeds : ∀ tenant limit after out, ReadOn (s.feedFrom tenant limit) after out ↔
    out = past RecordedEvent.globalSeq (s.events.filter fun e => e.tenant == tenant) after

theorem State.Numbered.gapless {s : State} (h : s.Numbered) : Gapless s := by
  have hpositions : s.events.Pairwise fun a b => a.globalSeq < b.globalSeq :=
    List.pairwise_map.mp h.positions
  have hversions (stream : StreamId) :
      (s.ofStream stream).Pairwise fun a b => a.version < b.version := by
    have hrange := List.pairwise_lt_range' (s := 1) (n := (s.ofStream stream).length)
    rw [← h.versions] at hrange
    exact List.pairwise_map.mp hrange
  exact
    { positions := hpositions
      issued := h.issued
      versions := fun stream => by rw [h.head_eq, h.versions]
      index := (Events.of_spec hpositions hversions).2
      indexed := Events.ofStream_of hpositions hversions
      slices := fun stream limit after out => by
        rw [s.sliceFrom_eq]
        exact readOn_iff (hversions stream) (boundedLimit_pos limit)
      feeds := fun tenant limit after out => by
        rw [s.feedFrom_eq]
        exact readOn_iff (hpositions.sublist List.filter_sublist) (boundedLimit_pos limit) }

end Eventlog.File
