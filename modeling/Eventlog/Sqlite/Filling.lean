import Eventlog.Sqlite.Receipts

/-!
# Eventlog.Sqlite.Filling

What the writing calls of a handle do to its events and to the queue of restored identities.

A `Shelf` is the part of a handle that an append extends: the events with their origins, and the
queue.  A call that commits something new puts events on it one after another, each at the next
version of its stream and with the identity at the head of the queue while there is one
(`Shelf.Fills`).  Whatever holds of one event put holds of every such call by induction.
-/

namespace Eventlog.Sqlite

open Durable Session
open File (Table StreamId.key RecordedEvent.isOn)

variable {P : Platform} {D : Draws}

/-! ## Putting events -/

/-- Events, their origins, and the identities that wait for events. -/
structure Shelf where
  events : List RecordedEvent
  position : Nat
  origins : Table EventOrigin
  restored : List RestoredEvent

def Tx.shelf (tx : Tx) : Shelf := ⟨tx.db.events, tx.db.position, tx.db.origins, tx.restored⟩

def Engine.shelf (e : Engine) : Shelf := e.start.shelf

namespace Shelf

def ofStream (s : Shelf) (stream : StreamId) : List RecordedEvent :=
  s.events.filter fun e => RecordedEvent.isOn e stream

def head (s : Shelf) (stream : StreamId) : Nat :=
  ((s.ofStream stream).map RecordedEvent.version).foldr max 0

/-- An event at the next place of its stream. -/
def next (s : Shelf) (stream : StreamId) (command : CommandMeta) (e : NewEvent)
    (identity : RestoredEvent) : RecordedEvent :=
  recordedAs stream command (s.head stream + 1) (s.position + 1) e identity

def put (s : Shelf) (stream : StreamId) (command : CommandMeta) (e : NewEvent)
    (identity : RestoredEvent) : Shelf where
  events := s.events ++ [s.next stream command e identity]
  position := s.position + 1
  origins := match identity.origin with
    | some origin => s.origins.insert (StreamId.key stream ++ [toString (s.head stream + 1)]) origin
    | none => s.origins
  restored := s.restored.tail

/-- The identity an event takes: the first of the queue, or a new one if there is none. -/
structure Takes (D : Draws) (queue : List RestoredEvent) (identity : RestoredEvent) : Prop where
  restored : ∀ r, queue[0]? = some r → identity = r
  minted : queue = [] → ∃ k now, identity = ⟨D.id k, now, none⟩

/-- Events of valid commands are put one after another. -/
inductive Fills (D : Draws) : Shelf → List RecordedEvent → Shelf → Prop
  | nil (s : Shelf) : Fills D s [] s
  | cons {s s' : Shelf} {stream : StreamId} {command : CommandMeta} {e : NewEvent}
      {identity : RestoredEvent} {written : List RecordedEvent} (event : e.validate = .ok ())
      (valid : command.validate = .ok ()) (taken : Takes D s.restored identity)
      (rest : Fills D (s.put stream command e identity) written s') :
      Fills D s (s.next stream command e identity :: written) s'

variable {s s' s₁ s₂ : Shelf} {written ws : List RecordedEvent}

theorem Fills.append (h : Fills D s written s₁) (h' : Fills D s₁ ws s₂) :
    Fills D s (written ++ ws) s₂ := by
  induction h with
  | nil => exact h'
  | cons event valid taken _ ih => exact .cons event valid taken (ih h')

end Shelf

theorem Ledger.head_insertEvent (l : Ledger) (stream : StreamId) (command : CommandMeta)
    (e : NewEvent) (identity : RestoredEvent) :
    (l.insertEvent stream command (l.head stream + 1) e identity).head stream =
      l.head stream + 1 := by
  have hon : RecordedEvent.isOn (recordedAs stream command (l.head stream + 1) (l.position + 1) e
      identity) stream = true := by simp [recordedAs_isOn]
  have hversion : (recordedAs stream command (l.head stream + 1) (l.position + 1) e
      identity).version = l.head stream + 1 := rfl
  have hlist : (l.insertEvent stream command (l.head stream + 1) e identity).ofStream stream =
      l.ofStream stream ++ [recordedAs stream command (l.head stream + 1) (l.position + 1) e
        identity] := by
    simp only [insertEvent, ofStream, List.filter_append, List.filter_singleton, hon, cond_true]
  rw [head, hlist, List.map_append, List.map_singleton, hversion, foldr_max_concat]
  change max (l.head stream) _ = _
  omega

/-- The events of one append. -/
theorem fills_inserted {stream : StreamId} {command : CommandMeta} (minted : OffsetDateTime)
    (hcommand : command.validate = .ok ()) {events : List NewEvent}
    (hevents : ∀ e ∈ events, e.validate = .ok ()) (l : Ledger) (restored : List RestoredEvent)
    (drawn : Nat) :
    let ps := events.zip (identities D minted restored drawn events.length)
    let l' := l.inserted stream command (l.head stream + 1) ps
    Shelf.Fills D ⟨l.events, l.position, l.origins, restored⟩
      (recordedFrom stream command (l.head stream + 1) (l.position + 1) ps)
      ⟨l'.events, l'.position, l'.origins, restored.drop events.length⟩ := by
  induction events generalizing l restored drawn with
  | nil => exact .nil _
  | cons e rest ih =>
      have hrest := fun e' he' => hevents e' (List.mem_cons_of_mem e he')
      have he := hevents e List.mem_cons_self
      cases restored with
      | nil =>
          have h := ih hrest (l.insertEvent stream command (l.head stream + 1) e
            ⟨D.id drawn, minted, none⟩) [] (drawn + 1)
          rw [Ledger.head_insertEvent] at h
          simp only [List.drop_nil] at h ⊢
          exact .cons he hcommand ⟨by simp, fun _ => ⟨drawn, minted, rfl⟩⟩ h
      | cons identity others =>
          have h := ih hrest (l.insertEvent stream command (l.head stream + 1) e identity) others drawn
          rw [Ledger.head_insertEvent] at h
          exact .cons he hcommand ⟨by simp, by simp⟩ h

variable {command : CommandMeta} {tx tx' : Tx}

theorem Tx.Wrote.fills {stream : StreamId} {expected : Expected} {events : List NewEvent}
    {recordCommand : Bool} {result : AppendResult}
    (h : tx.Wrote P D stream expected events command recordCommand result tx')
    (hvalid : validateAppend events command = .ok ()) :
    Shelf.Fills D tx.shelf result.events tx'.shelf := by
  obtain ⟨hcommand, hevents⟩ := of_validateAppend hvalid
  have hshelf : tx'.shelf =
      (tx.inserted stream command (tx.db.head stream + 1) events (tx.identities D events.length)).shelf := by
    have hl := h.ledger
    unfold Tx.shelf
    rw [h.restored, show tx'.db.events = _ from congrArg Ledger.events hl,
      show tx'.db.position = _ from congrArg Ledger.position hl,
      show tx'.db.origins = _ from congrArg Ledger.origins hl]
    unfold Ledger.appended
    cases command.claim <;> cases recordCommand <;> rfl
  rw [hshelf, h.result]
  exact fills_inserted (D.now tx.reads) hcommand hevents tx.db.toLedger tx.restored tx.drawn

theorem Tx.Entered.fills {entries : List StreamAppend} {results : List AppendResult}
    (h : Tx.Entered P D command tx entries results tx')
    (hvalid : ∀ a ∈ entries, validateAppend a.events command = .ok ()) :
    Shelf.Fills D tx.shelf (results.flatMap AppendResult.events) tx'.shelf := by
  induction h with
  | nil => exact .nil _
  | cons hentry _ ih =>
      exact (hentry.fills (hvalid _ List.mem_cons_self)).append
        (ih fun a ha => hvalid a (List.mem_cons_of_mem _ ha))

/-! ## What filling adds up to -/

namespace Shelf

variable {s s' : Shelf} {written : List RecordedEvent}

theorem Fills.events_eq (h : Fills D s written s') : s'.events = s.events ++ written := by
  induction h with
  | nil => simp
  | cons _ _ _ _ ih => simp [ih, put]

/-- Identities are taken from the head of the queue, one for each event. -/
theorem Fills.restored_eq (h : Fills D s written s') :
    s'.restored = s.restored.drop written.length := by
  induction h with
  | nil => simp
  | cons _ _ _ _ ih => simp [ih, put]

/-- The versions of every stream are 1, 2, and so on. -/
def Numbered (s : Shelf) : Prop :=
  ∀ stream, (s.ofStream stream).map RecordedEvent.version =
    List.range' 1 (s.ofStream stream).length

theorem Numbered.head_eq (h : s.Numbered) (stream : StreamId) :
    s.head stream = (s.ofStream stream).length := by
  rw [head, h stream, foldr_max_range']

theorem ofStream_put (s : Shelf) (stream stream' : StreamId) (command : CommandMeta)
    (e : NewEvent) (identity : RestoredEvent) :
    (s.put stream command e identity).ofStream stream' =
      s.ofStream stream' ++ if stream = stream' then [s.next stream command e identity] else [] := by
  have hon : RecordedEvent.isOn (s.next stream command e identity) stream' =
      decide (stream = stream') := recordedAs_isOn
  rw [put, ofStream, List.filter_append, List.filter_singleton, hon]
  by_cases heq : stream = stream' <;> simp [ofStream, heq]

theorem Numbered.put (h : s.Numbered) (stream : StreamId) (command : CommandMeta) (e : NewEvent)
    (identity : RestoredEvent) : (s.put stream command e identity).Numbered := by
  intro stream'
  rw [ofStream_put]
  split_ifs with heq
  · subst heq
    have hversion : (s.next stream command e identity).version = s.head stream + 1 := rfl
    rw [List.map_append, h stream, List.map_singleton, hversion, h.head_eq, List.length_append,
      List.length_singleton, List.range'_1_concat, Nat.add_comm 1]
  · simpa using h stream'

/-! ## Whose identity an event has -/

/-- Where the origin of an event is kept. -/
def originKey (e : RecordedEvent) : List String :=
  [e.tenant.value, e.streamType, e.streamId, toString e.version]

/-- An origin that is kept is of an event that is there. -/
def Attributed (s : Shelf) : Prop :=
  ∀ k, (s.origins[k]?).isSome → ∃ e ∈ s.events, originKey e = k

/-- An event has the identity that waited for it, if one did. -/
def Given (identity : Option RestoredEvent) (e : RecordedEvent) : Prop :=
  ∀ r, identity = some r → e.eventId = r.eventId ∧ e.recordedAt = r.recordedAt

theorem Fills.given (h : Fills D s written s') {i : Nat} {e : RecordedEvent}
    (he : written[i]? = some e) : Given s.restored[i]? e := by
  induction h generalizing i with
  | nil => simp at he
  | @cons s s' stream command _ identity written event valid taken _ ih =>
      cases i with
      | zero =>
          obtain rfl := Option.some.inj he
          intro r hr
          obtain rfl := taken.restored r hr
          exact ⟨rfl, rfl⟩
      | succ i =>
          have hgiven := ih (i := i) (by simpa using he)
          rwa [put, List.getElem?_tail] at hgiven

theorem originKey_next (s : Shelf) (stream : StreamId) (command : CommandMeta) (e : NewEvent)
    (identity : RestoredEvent) :
    originKey (s.next stream command e identity) =
      StreamId.key stream ++ [toString (s.head stream + 1)] := rfl

/-- An event is put where no event was. -/
theorem Numbered.originKey_ne (h : s.Numbered) {stream : StreamId} {command : CommandMeta}
    {e : NewEvent} {identity : RestoredEvent} {o : RecordedEvent} (ho : o ∈ s.events) :
    originKey o ≠ originKey (s.next stream command e identity) := by
  intro heq
  simp only [originKey, List.cons.injEq, and_true] at heq
  obtain ⟨htenant, htype, hid, hversion⟩ := heq
  have hon : o ∈ s.ofStream stream := by
    refine List.mem_filter.mpr ⟨ho, ?_⟩
    simp [RecordedEvent.isOn, TenantId.ext_iff, htenant, htype, hid, next, recordedAs,
      File.NewEvent.recorded]
  have hmem := List.mem_map_of_mem (f := RecordedEvent.version) hon
  rw [h stream, List.mem_range'_1] at hmem
  have hnat : o.version = s.head stream + 1 := Nat.repr_injective hversion
  rw [h.head_eq] at hnat
  omega

theorem getElem?_origins_put (s : Shelf) (stream : StreamId) (command : CommandMeta)
    (e : NewEvent) (identity : RestoredEvent) (k : List String) :
    (s.put stream command e identity).origins[k]? =
      if originKey (s.next stream command e identity) = k then
        identity.origin.or s.origins[k]? else s.origins[k]? := by
  rw [originKey_next, put]
  cases identity.origin with
  | none => simp
  | some origin =>
      simp [Std.ExtTreeMap.getElem?_insert, Std.LawfulEqCmp.compare_eq_iff_eq]

theorem Attributed.put (h : s.Attributed) (stream : StreamId) (command : CommandMeta)
    (e : NewEvent) (identity : RestoredEvent) : (s.put stream command e identity).Attributed := by
  intro k hk
  rw [getElem?_origins_put] at hk
  split_ifs at hk with heq
  · exact ⟨_, List.mem_append_right _ (List.mem_singleton_self _), heq⟩
  · obtain ⟨o, ho, hok⟩ := h k hk
    exact ⟨o, List.mem_append_left _ ho, hok⟩

/-- What filling does to origins: an event that was there keeps its own, and one that is put has
    the origin of the identity that waited for it. -/
structure Origins (s : Shelf) (written : List RecordedEvent) (s' : Shelf) : Prop where
  kept : ∀ e ∈ s.events, s'.origins[originKey e]? = s.origins[originKey e]?
  put : ∀ (i : Nat) e, written[i]? = some e →
    s'.origins[originKey e]? = s.restored[i]?.bind RestoredEvent.origin

theorem Fills.origins (h : Fills D s written s') (hn : s.Numbered) (ha : s.Attributed) :
    Origins s written s' ∧ s'.Attributed := by
  induction h with
  | nil => exact ⟨⟨fun _ _ => rfl, by simp⟩, ha⟩
  | @cons s s' stream command new identity written event valid taken _ ih =>
      obtain ⟨⟨hkept, hput⟩, hattributed⟩ := ih (hn.put _ _ _ _) (ha.put _ _ _ _)
      have hfresh : s.origins[originKey (s.next stream command new identity)]? = none := by
        by_contra hsome
        obtain ⟨o, ho, heq⟩ := ha _ (Option.ne_none_iff_isSome.mp hsome)
        exact hn.originKey_ne ho heq
      refine ⟨⟨fun e he => ?_, fun i e he => ?_⟩, hattributed⟩
      · rw [hkept e (List.mem_append_left _ he), getElem?_origins_put,
          if_neg (hn.originKey_ne he).symm]
      · cases i with
        | zero =>
            obtain rfl := Option.some.inj he
            rw [hkept _ (List.mem_append_right _ (List.mem_singleton_self _)),
              getElem?_origins_put, if_pos rfl, hfresh, Option.or_none]
            cases hqueue : s.restored[0]? with
            | some r => rw [taken.restored r hqueue]; rfl
            | none =>
                obtain ⟨k, now, rfl⟩ := taken.minted (by simpa using hqueue)
                rfl
        | succ i =>
            have hrest := hput i e (by simpa using he)
            rwa [Shelf.put, List.getElem?_tail] at hrest

end Shelf

end Eventlog.Sqlite
