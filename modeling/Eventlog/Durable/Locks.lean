import Eventlog.Durable.Mvcc

/-!
# Durable.Locks

Sessions that take locks and keep them to their end.

A session asks for its locks one at a time, waits until it is granted each, and may end at any
moment, waiting or not.  It waits for whoever holds the lock in a mode that conflicts, and for
whoever asked for it before in one (`System.WaitsFor`).

* `System.acyclic` — where every session asks in the order of the locks, nobody waits for himself.
-/

namespace Locks

open Mvcc (Mode)

variable {L : Type} [DecidableEq L]

/-- A lock, and how it is wanted. -/
structure Request (L : Type) where
  lock : L
  mode : Mode
  deriving DecidableEq

/-- Two modes that exclude each other. -/
def conflicts : Mode → Mode → Bool
  | .Shared, .Shared => false
  | _, _ => true

/-- A session: the locks it holds, the one it waits for with the number it was given when it asked,
    and those it has yet to ask for. -/
structure Session (L : Type) where
  held : List (Request L)
  waiting : Option (Request L × Nat)
  rest : List (Request L)
  deriving DecidableEq

def Session.begun (requests : List (Request L)) : Session L := ⟨[], none, requests⟩

def Session.ended : Session L := ⟨[], none, []⟩

/-- All the locks of a session, in the order it asks for them. -/
def Session.script (t : Session L) : List (Request L) :=
  t.held ++ (t.waiting.map Prod.fst).toList ++ t.rest

/-- The sessions there ever were, and the next number to be given out. -/
structure System (L : Type) where
  sessions : List (Session L)
  next : Nat
  deriving DecidableEq

inductive Action (L : Type) where
  | Begin (requests : List (Request L))
  | Ask (i : Nat)
  | Grant (i : Nat)
  | End (i : Nat)

namespace System

def new : System L := ⟨[], 0⟩

def put (s : System L) (i : Nat) (t : Session L) : System L :=
  { s with sessions := s.sessions.set i t }

/-- Whether a session stands in the way of a request by what it holds. -/
def blocks (t : Session L) (r : Request L) : Bool :=
  t.held.any fun h => h.lock = r.lock && conflicts h.mode r.mode

/-- Whether a request can be granted to a session. -/
def grants (s : System L) (i : Nat) (r : Request L) : Bool :=
  s.sessions.zipIdx.all fun t => t.2 = i || !blocks t.1 r

/-- One step; what cannot happen now changes nothing.  Whom a lock is granted to next is up to the
    database. -/
def step (s : System L) : Action L → System L
  | .Begin requests => { s with sessions := s.sessions ++ [.begun requests] }
  | .Ask i =>
      match s.sessions[i]? with
      | some ⟨held, none, r :: rest⟩ =>
          { s.put i ⟨held, some (r, s.next), rest⟩ with next := s.next + 1 }
      | _ => s
  | .Grant i =>
      match s.sessions[i]? with
      | some ⟨held, some (r, _), rest⟩ =>
          if s.grants i r then s.put i ⟨held ++ [r], none, rest⟩ else s
      | _ => s
  | .End i => s.put i .ended

/-- Whom a waiting session waits for. -/
def WaitsFor (s : System L) (i j : Nat) : Prop :=
  ∃ t u r n, s.sessions[i]? = some t ∧ t.waiting = some (r, n) ∧ s.sessions[j]? = some u ∧ i ≠ j ∧
    (blocks u r = true ∨ ∃ r' n', u.waiting = some (r', n') ∧ n' < n ∧ r'.lock = r.lock ∧
      conflicts r'.mode r.mode = true)

end System

/-! ## Sessions that ask in order -/

section Order

variable {K : Type} [LinearOrder K] (rank : L → K)

/-- The locks are asked for in the order of their ranks. -/
def Ascending (requests : List (Request L)) : Prop :=
  requests.Pairwise fun a b => rank a.lock < rank b.lock

/-- Every session asks in order. -/
def System.Ordered (s : System L) : Prop := ∀ t ∈ s.sessions, Ascending rank t.script

variable {rank} {s : System L}

omit [DecidableEq L] in
theorem System.Ordered.put (h : s.Ordered rank) (i : Nat) {t : Session L}
    (ht : Ascending rank t.script) : (s.put i t).Ordered rank := by
  intro u hu
  rcases List.mem_or_eq_of_mem_set hu with hold | rfl
  · exact h u hold
  · exact ht

/-- **One step keeps the order**, if what begins asks in order. -/
theorem System.Ordered.step (h : s.Ordered rank) (a : Action L)
    (hbegin : ∀ requests, a = .Begin requests → Ascending rank requests) :
    (s.step a).Ordered rank := by
  cases a with
  | Begin requests =>
      intro t ht
      rcases List.mem_append.mp ht with hold | hnew
      · exact h t hold
      · rw [List.mem_singleton.mp hnew]
        exact hbegin requests rfl
  | Ask i =>
      simp only [System.step]
      split
      · rename_i held r rest hi
        have := h _ (List.mem_of_getElem? hi)
        refine h.put i ?_
        simpa [Session.script] using this
      · exact h
  | Grant i =>
      simp only [System.step]
      split
      · rename_i held r n rest hi
        have := h _ (List.mem_of_getElem? hi)
        split
        · refine h.put i ?_
          simpa [Session.script] using this
        · exact h
      · exact h
  | End i => exact h.put i List.Pairwise.nil

omit [DecidableEq L] in
/-- What a session holds ranks below what it waits for. -/
theorem held_lt_waiting {t : Session L} (h : Ascending rank t.script) {held r : Request L} {n : Nat}
    (hheld : held ∈ t.held) (hwaiting : t.waiting = some (r, n)) :
    rank held.lock < rank r.lock := by
  rw [Ascending, Session.script, hwaiting] at h
  have hboth := (List.pairwise_append.mp h).1
  exact (List.pairwise_append.mp hboth).2.2 held hheld r (by simp)

/-- The place of a waiting session: the rank of what it waits for, and how early it asked. -/
def place (rank : L → K) (waiting : Request L × Nat) : K ×ₗ ℕᵒᵈ :=
  toLex (rank waiting.1.lock, OrderDual.toDual waiting.2)

/-- Waiting goes up: whom a session waits for waits, if at all, further on. -/
theorem System.Ordered.place_lt (h : s.Ordered rank) {i j : Nat} (hij : s.WaitsFor i j)
    {t u : Session L} {w w' : Request L × Nat} (hi : s.sessions[i]? = some t)
    (hw : t.waiting = some w) (hj : s.sessions[j]? = some u) (hw' : u.waiting = some w') :
    place rank w < place rank w' := by
  obtain ⟨t', u', r, n, hi', hr, hj', -, hblocks⟩ := hij
  cases hi.symm.trans hi'
  cases hj.symm.trans hj'
  cases hw.symm.trans hr
  rcases hblocks with hheld | ⟨r', n', hr', hearlier, hlock, -⟩
  · obtain ⟨held, hmem, hsame⟩ := List.any_eq_true.mp hheld
    simp only [Bool.and_eq_true, decide_eq_true_eq] at hsame
    have hlt := held_lt_waiting (h u (List.mem_of_getElem? hj)) hmem hw'
    rw [hsame.1] at hlt
    exact Prod.Lex.toLex_lt_toLex.mpr (.inl hlt)
  · cases hw'.symm.trans hr'
    exact Prod.Lex.toLex_lt_toLex.mpr
      (.inr ⟨congrArg rank hlock.symm, OrderDual.toDual_lt_toDual.mpr hearlier⟩)

/-- **Where every session asks in order, the waits-for graph has no cycle.** -/
theorem System.Ordered.acyclic (h : s.Ordered rank) (i : Nat) :
    ¬ Relation.TransGen s.WaitsFor i i := by
  -- along a path every session but perhaps the last one waits
  have hpath : ∀ j, Relation.TransGen s.WaitsFor i j →
      ∃ t w, s.sessions[i]? = some t ∧ t.waiting = some w ∧
        ∀ u w', s.sessions[j]? = some u → u.waiting = some w' → place rank w < place rank w' := by
    intro j hj
    induction hj with
    | single hij =>
        obtain ⟨t, u, r, n, hi, hr, hj, hrest⟩ := id hij
        exact ⟨t, (r, n), hi, hr, fun u' w' hu hw' => h.place_lt hij hi hr hu hw'⟩
    | tail _ hjk ih =>
        obtain ⟨t, w, hi, hw, hlast⟩ := ih
        obtain ⟨u, v, r, n, hu, hr, -⟩ := id hjk
        refine ⟨t, w, hi, hw, fun v' w' hv' hw' => ?_⟩
        exact (hlast u (r, n) hu hr).trans (h.place_lt hjk hu hr hv' hw')
  intro hcycle
  obtain ⟨t, w, hi, hw, hlast⟩ := hpath i hcycle
  exact lt_irrefl _ (hlast t w hi hw)

end Order

end Locks
