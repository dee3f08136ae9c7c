import Eventlog.Sqlite.Calls

/-!
# Eventlog.Contract.RestoredIdentities

Restored identities reach their own events.

`restore_events` queues identities, and the events of later appends take them.  Over a run of
such calls on one handle, `handed` pairs every event that was committed with the identity that
was at its place in the queue when its call began.  Each identity that was queued is handed to
one event or still waits, in the order it was queued (`restored_identities`).
-/

namespace Eventlog.Sqlite

open Durable

variable {P : Platform}

/-- A call of `restore_events`, or one that appends. -/
inductive Restoring where
  | restore (events : List RestoredEvent)
  | write (D : Draws) (w : Write)

namespace Engine

/-- The handle after a call. -/
def restoring (P : Platform) (e : Engine) : Restoring → Engine
  | .restore events => e.serve P (.restoreEvents events)
  | .write D w => e.serve P (.write D w)

/-- The identities a call queues. -/
def queued (e : Engine) : Restoring → List RestoredEvent
  | .restore events => if e.restored.isEmpty then events else []
  | .write _ _ => []

/-- The events a call commits. -/
def committing (P : Platform) (e : Engine) : Restoring → List RecordedEvent
  | .restore _ => []
  | .write D w =>
      match (e.write P D w).1 with
      | .ok (false, events) => events
      | _ => []

/-- The events a call commits, each with the identity at its place in the queue. -/
def handing (P : Platform) (e : Engine) (c : Restoring) :
    List (RecordedEvent × Option RestoredEvent) :=
  (e.committing P c).mapIdx fun i event => (event, e.restored[i]?)

def restoringAll (P : Platform) (e : Engine) (calls : List Restoring) : Engine :=
  calls.foldl (restoring P) e

/-- All identities queued by a run, in order. -/
def queuedAll (P : Platform) (e : Engine) : List Restoring → List RestoredEvent
  | [] => []
  | c :: rest => e.queued c ++ (e.restoring P c).queuedAll P rest

/-- All events committed by a run, in order, with what each was handed. -/
def handed (P : Platform) (e : Engine) : List Restoring → List (RecordedEvent × Option RestoredEvent)
  | [] => []
  | c :: rest => e.handing P c ++ (e.restoring P c).handed P rest

/-! ## One call -/

/-- What a call does: it queues on an empty queue, fills the shelf with what it commits, or does
    nothing. -/
inductive Step (P : Platform) (e : Engine) (c : Restoring) : Prop
  | queues (empty : e.restored = []) (nothing : e.committing P c = [])
      (shelf : (e.restoring P c).shelf = { e.shelf with restored := e.queued c })
  | fills {D : Draws} (none : e.queued c = [])
      (filled : Shelf.Fills D e.shelf (e.committing P c) (e.restoring P c).shelf)
  | stays (none : e.queued c = []) (nothing : e.committing P c = [])
      (shelf : (e.restoring P c).shelf = e.shelf)

theorem step (e : Engine) (c : Restoring) : Step P e c := by
  cases c with
  | restore events =>
      by_cases hempty : e.restored = []
      · refine .queues hempty rfl ?_
        simp [restoring, serve, restoreEvents, queued, hempty, shelf, start, Tx.shelf]
      · refine .stays (by simp [queued, hempty]) rfl ?_
        simp [restoring, serve, restoreEvents, hempty]
  | write D w =>
      have hwrote := write_wrote (P := P) e D w
      have hcommitting : e.committing P (.write D w) =
          match (e.write P D w).1 with
          | .ok (false, events) => events
          | _ => [] := rfl
      change Wrote D e.shelf _ (e.restoring P (.write D w)).shelf at hwrote
      generalize (e.write P D w).1 = answer at hwrote hcommitting
      generalize hafter : (e.restoring P (.write D w)).shelf = after at hwrote
      cases hwrote with
      | refused error => exact .stays rfl hcommitting hafter
      | deduplicated events => exact .stays rfl hcommitting hafter
      | filled h => exact .fills (D := D) rfl (hcommitting ▸ hafter ▸ h)

variable {e : Engine} {c : Restoring}

theorem map_fst_handing (e : Engine) (c : Restoring) :
    (e.handing P c).map Prod.fst = e.committing P c := by
  refine List.ext_getElem? fun i => ?_
  rw [handing, List.getElem?_map, List.getElem?_mapIdx, Option.map_map]
  exact Option.map_id'

/-- The identities at the places of a list of events. -/
theorem filterMap_handing (events : List α) (queue : List β) :
    (events.mapIdx fun i event => (event, queue[i]?)).filterMap Prod.snd =
      queue.take events.length := by
  induction events generalizing queue with
  | nil => simp
  | cons event events ih => cases queue with
    | nil => simpa using ih []
    | cons r queue => simpa using ih queue

/-- One call hands out the head of the queue and adds to its end. -/
theorem step_queue (e : Engine) (c : Restoring) :
    (e.handing P c).filterMap Prod.snd ++ (e.restoring P c).restored = e.restored ++ e.queued c := by
  rw [handing, filterMap_handing]
  cases step (P := P) e c with
  | queues empty nothing shelf =>
      have hrestored : (e.restoring P c).restored = e.queued c := congrArg Shelf.restored shelf
      rw [hrestored, empty, List.take_nil]
  | fills none filled =>
      have hrestored : (e.restoring P c).restored = e.restored.drop (e.committing P c).length :=
        filled.restored_eq
      rw [hrestored, none, List.take_append_drop, List.append_nil]
  | stays none nothing shelf =>
      have hrestored : (e.restoring P c).restored = e.restored := congrArg Shelf.restored shelf
      rw [hrestored, none, nothing, List.length_nil, List.take_zero, List.append_nil,
        List.nil_append]

theorem step_events (e : Engine) (c : Restoring) :
    (e.restoring P c).db.events = e.db.events ++ (e.handing P c).map Prod.fst := by
  rw [map_fst_handing]
  cases step (P := P) e c with
  | queues _ nothing shelf =>
      rw [nothing, List.append_nil]
      exact congrArg Shelf.events shelf
  | fills _ filled => exact filled.events_eq
  | stays _ nothing shelf =>
      rw [nothing, List.append_nil]
      exact congrArg Shelf.events shelf

/-- Where the events of a call stand. -/
theorem of_mem_handing {p : RecordedEvent × Option RestoredEvent} (h : p ∈ e.handing P c) :
    ∃ i : Nat, (e.committing P c)[i]? = some p.1 ∧ p.2 = e.restored[i]? := by
  obtain ⟨i, hi⟩ := List.mem_iff_getElem?.mp h
  rw [handing, List.getElem?_mapIdx, Option.map_eq_some_iff] at hi
  obtain ⟨event, hevent, rfl⟩ := hi
  exact ⟨i, hevent, rfl⟩

theorem step_given (e : Engine) (c : Restoring) : ∀ p ∈ e.handing P c, Shelf.Given p.2 p.1 := by
  intro p hp
  obtain ⟨i, hevent, hp⟩ := of_mem_handing hp
  rw [hp]
  cases step (P := P) e c with
  | queues _ nothing _ => simp [nothing] at hevent
  | fills _ filled => exact filled.given hevent
  | stays _ nothing _ => simp [nothing] at hevent

/-- One call keeps the origins of the events that are there, and gives those it commits theirs. -/
theorem step_origins (hs : e.shelf.Sound) :
    (∀ o ∈ e.db.events, (e.restoring P c).db.origins[Shelf.originKey o]? =
      e.db.origins[Shelf.originKey o]?) ∧
    ∀ p ∈ e.handing P c, (e.restoring P c).db.origins[Shelf.originKey p.1]? =
      p.2.bind RestoredEvent.origin := by
  have hcommitted : ∀ p ∈ e.handing P c, e.committing P c ≠ [] := by
    intro p hp hnil
    obtain ⟨i, hevent, -⟩ := of_mem_handing hp
    simp [hnil] at hevent
  cases step (P := P) e c with
  | queues _ nothing shelf =>
      have horigins : (e.restoring P c).db.origins = e.db.origins := congrArg Shelf.origins shelf
      exact ⟨fun o _ => by rw [horigins], fun p hp => (hcommitted p hp nothing).elim⟩
  | fills _ filled =>
      have horigins := (filled.origins hs.numbered hs.attributed).1
      refine ⟨horigins.kept, fun p hp => ?_⟩
      obtain ⟨i, hevent, hp⟩ := of_mem_handing hp
      rw [hp]
      exact horigins.put i p.1 hevent
  | stays _ nothing shelf =>
      have horigins : (e.restoring P c).db.origins = e.db.origins := congrArg Shelf.origins shelf
      exact ⟨fun o _ => by rw [horigins], fun p hp => (hcommitted p hp nothing).elim⟩

theorem sound_restoring (hs : e.shelf.Sound) (c : Restoring) : (e.restoring P c).shelf.Sound := by
  cases c with
  | restore events => exact restoreEvents_turns.sound hs
  | write D w => exact (write_turns w).sound hs

/-! ## A run -/

theorem run_queue (e : Engine) (calls : List Restoring) :
    (e.handed P calls).filterMap Prod.snd ++ (e.restoringAll P calls).restored =
      e.restored ++ e.queuedAll P calls := by
  induction calls generalizing e with
  | nil => simp [handed, restoringAll, queuedAll]
  | cons c rest ih =>
      have htail := ih (e.restoring P c)
      rw [handed, queuedAll, List.filterMap_append, List.append_assoc, ← List.append_assoc e.restored,
        ← step_queue (P := P), List.append_assoc]
      exact congrArg _ htail

theorem run_events (e : Engine) (calls : List Restoring) :
    (e.restoringAll P calls).db.events = e.db.events ++ (e.handed P calls).map Prod.fst := by
  induction calls generalizing e with
  | nil => simp [handed, restoringAll]
  | cons c rest ih =>
      have htail := ih (e.restoring P c)
      rw [step_events, List.append_assoc, ← List.map_append] at htail
      exact htail

theorem run_given (e : Engine) (calls : List Restoring) : ∀ p ∈ e.handed P calls, Shelf.Given p.2 p.1 := by
  induction calls generalizing e with
  | nil => exact fun p hp => nomatch hp
  | cons c rest ih =>
      intro p hp
      rcases List.mem_append.mp hp with hp | hp
      · exact step_given e c p hp
      · exact ih (e.restoring P c) p hp

/-- The origins after a run: those of the events that were there, and those handed out. -/
theorem run_origins (hs : e.shelf.Sound) (calls : List Restoring) :
    (∀ o ∈ e.db.events, (e.restoringAll P calls).db.origins[Shelf.originKey o]? =
      e.db.origins[Shelf.originKey o]?) ∧
    ∀ p ∈ e.handed P calls, (e.restoringAll P calls).db.origins[Shelf.originKey p.1]? =
      p.2.bind RestoredEvent.origin := by
  induction calls generalizing e with
  | nil => exact ⟨fun o _ => rfl, fun p hp => nomatch hp⟩
  | cons c rest ih =>
      obtain ⟨hkept, hput⟩ := step_origins (P := P) (c := c) hs
      obtain ⟨hkeptRest, hputRest⟩ := ih (sound_restoring (P := P) hs c)
      have hthere := step_events (P := P) e c
      refine ⟨fun o ho => ?_, fun p hp => ?_⟩
      · exact (hkeptRest o (hthere ▸ List.mem_append_left _ ho)).trans (hkept o ho)
      · rcases List.mem_append.mp hp with hp | hp
        · have hmem : p.1 ∈ (e.restoring P c).db.events :=
            hthere ▸ List.mem_append_right _ (List.mem_map_of_mem hp)
          exact (hkeptRest p.1 hmem).trans (hput p hp)
        · exact hputRest p hp

/-- A new handle on the tables that earlier calls left. -/
def reopened (P : Platform) (tablePrefix : String) (earlier : List Call) (serving : Serving) :
    Engine :=
  (({ Engine.inMemory with tablePrefix }).serveAll P earlier).serve P (.reopen serving)

theorem sound_reopened (tablePrefix : String) (earlier : List Call) (serving : Serving) :
    (reopened P tablePrefix earlier serving).shelf.Sound := by
  have hsound : (({ Engine.inMemory with tablePrefix }).serveAll P earlier).shelf.Sound :=
    serveAll_sound earlier Shelf.sound_empty
  exact (Shelf.Turns.queued []).sound hsound

/-- What a run of calls does with the identities it queues. -/
structure Delivers (P : Platform) (e : Engine) (calls : List Restoring) : Prop where
  /-- Every identity goes to one event or still waits, in the order of the queue. -/
  inOrder : (e.handed P calls).filterMap Prod.snd ++ (e.restoringAll P calls).restored =
    e.queuedAll P calls
  /-- They go to the events of committed appends. -/
  committed : (e.restoringAll P calls).db.events = e.db.events ++ (e.handed P calls).map Prod.fst
  /-- The event has the identity it was handed, and its origin. -/
  given : ∀ p ∈ e.handed P calls, Shelf.Given p.2 p.1 ∧
    (e.restoringAll P calls).db.origins[Shelf.originKey p.1]? = p.2.bind RestoredEvent.origin
  /-- A refused or deduplicated append leaves the queue. -/
  left : ∀ before D w, (∀ events, ((e.restoringAll P before).write P D w).1 ≠ .ok (false, events)) →
    ((e.restoringAll P before).write P D w).2.restored = (e.restoringAll P before).restored

/-- **Restored identities reach their own events.** -/
theorem restored_identities (P : Platform) (tablePrefix : String) (earlier : List Call)
    (serving : Serving) (calls : List Restoring) :
    (reopened P tablePrefix earlier serving).Delivers P calls where
  inOrder := run_queue _ calls
  committed := run_events _ calls
  given := fun p hp => ⟨run_given _ calls p hp,
    (run_origins (sound_reopened tablePrefix earlier serving) calls).2 p hp⟩
  left := by
    intro before D w hnew
    have hwrote := write_wrote (P := P) ((reopened P tablePrefix earlier serving).restoringAll P before) D w
    generalize hanswer : (write P _ D w).1 = answer at hwrote
    generalize hafter : (write P _ D w).2.shelf = after at hwrote
    cases hwrote with
    | refused error => exact congrArg Shelf.restored hafter
    | deduplicated events => exact congrArg Shelf.restored hafter
    | filled h => exact (hnew _ hanswer).elim

/-- Two identities are queued; an append whose guard refuses leaves them, and the next ones take
    them in order. -/
def sampleRestoring : List Restoring :=
  let append (key : String) (result : Except EventLogError Unit) : Restoring :=
    .write (sampleDraws "e" validField_e) (.append sampleStream .Any
      [⟨"opened", 1, .obj []⟩] (sampleCommand key) (.done result))
  [.restore [⟨"first", sampleTime, none⟩, ⟨"second", sampleTime, none⟩],
    append "k1" (.error .NotFound), append "k2" (.ok ()), append "k2" (.ok ()),
    append "k3" (.ok ()), append "k4" (.ok ())]

theorem restored_identities_after_refusal :
    ((reopened samplePlatform "eventlog" [] ⟨[], [], 0⟩).handed samplePlatform
      sampleRestoring).map (fun p => (p.1.eventId, p.2.isSome)) =
      [("first", true), ("second", true), ("e", false)] ∧
    (reopened samplePlatform "eventlog" [] ⟨[], [], 0⟩).Delivers samplePlatform sampleRestoring :=
  ⟨by decide +kernel, restored_identities samplePlatform "eventlog" [] ⟨[], [], 0⟩ sampleRestoring⟩

end Engine

end Eventlog.Sqlite
