import Eventlog.Durable.Tally

/-!
# Eventlog.Durable.Mvcc

Concurrent transactions over one table whose rows take their positions from a sequence.

A transaction gets its identifier and its positions in whatever order it asks for them, and its
rows appear when it commits.  One lock is shared by those that publish rows and taken
exclusively by those that want to see them settled; a lock outlasts the end of its transaction by
a moment.  A snapshot tells apart what committed before every transaction still running
(`Db.xmin`).

* `Db.Sound` — what holds in every state a run reaches: positions are used once, and nothing is
  pending while the lock is held exclusively.
* `Db.Beyond` — from then on nothing appears at or below a position.
-/

namespace Mvcc

/-- How the lock is held. -/
inductive Mode where
  | Shared
  | Exclusive
  deriving DecidableEq

/-- A transaction that is over still holds its lock until it is released. -/
inductive Phase where
  | Running
  | Ended
  deriving DecidableEq

/-- A row: its position, the transaction that wrote it, its columns. -/
structure Row (ρ : Type) where
  position : Nat
  xid : Nat
  value : ρ
  deriving DecidableEq

/-- A transaction: `taken` are positions it took from the sequence and has written nothing at. -/
structure Tx (ρ : Type) where
  phase : Phase
  lock : Option Mode
  xid : Option Nat
  taken : List Nat
  rows : List (Row ρ)

/-- The database: what the sequence gave out, the next identifier, the rows everybody sees, and
    every transaction there ever was. -/
structure Db (ρ : Type) where
  issued : Nat
  nextXid : Nat
  rows : List (Row ρ)
  txs : List (Tx ρ)

inductive Action (ρ : Type) where
  | Begin
  | Lock (tx : Nat) (mode : Mode)
  | AssignXid (tx : Nat)
  | Take (tx : Nat)
  | Insert (tx : Nat) (position : Nat) (value : ρ)
  | Commit (tx : Nat)
  | Rollback (tx : Nat)
  | Release (tx : Nat)

variable {ρ : Type}

/-- The positions a transaction has taken that nobody else sees used. -/
def Tx.pending (tx : Tx ρ) : List Nat := tx.taken ++ tx.rows.map Row.position

def Tx.fresh : Tx ρ := ⟨.Running, none, none, [], []⟩

namespace Db

/-- A database with no rows. -/
def new (nextXid : Nat) : Db ρ := ⟨0, nextXid, [], []⟩

/-- A transaction that is still running. -/
def running (d : Db ρ) (i : Nat) : Option (Tx ρ) :=
  (d.txs[i]?).filter fun tx => tx.phase = .Running

def put (d : Db ρ) (i : Nat) (tx : Tx ρ) : Db ρ := { d with txs := d.txs.set i tx }

/-- Whether the lock can be had. -/
def grants (d : Db ρ) : Mode → Bool
  | .Shared => d.txs.all fun tx => tx.lock ≠ some .Exclusive
  | .Exclusive => d.txs.all fun tx => tx.lock = none

/-- The oldest transaction still running, or the next one there will be. -/
def xmin (d : Db ρ) : Nat :=
  ((d.txs.filter fun tx => tx.phase = .Running).filterMap Tx.xid).foldr min d.nextXid

/-- A transaction that is over: what it did not commit is gone. -/
def ended (tx : Tx ρ) : Tx ρ := { tx with phase := .Ended, taken := [], rows := [] }

/-- One step; `none` if it cannot be taken now.  Positions are taken only by those that hold the
    lock. -/
def step (d : Db ρ) : Action ρ → Option (Db ρ)
  | .Begin => some { d with txs := d.txs ++ [Tx.fresh] }
  | .Lock i mode => do
      let tx ← d.running i
      if tx.lock = none ∧ d.grants mode then
        some (d.put i { tx with lock := some mode })
      else none
  | .AssignXid i => do
      let tx ← d.running i
      if tx.xid = none then
        some { d.put i { tx with xid := some d.nextXid } with nextXid := d.nextXid + 1 }
      else none
  | .Take i => do
      let tx ← d.running i
      if tx.lock = some .Shared then
        some { d.put i { tx with taken := tx.taken ++ [d.issued + 1] } with issued := d.issued + 1 }
      else none
  | .Insert i position value => do
      let tx ← d.running i
      let xid ← tx.xid
      if position ∈ tx.taken then
        some (d.put i { tx with
          taken := tx.taken.erase position
          rows := tx.rows ++ [⟨position, xid, value⟩] })
      else none
  | .Commit i => do
      let tx ← d.running i
      some { d.put i (ended tx) with rows := d.rows ++ tx.rows }
  | .Rollback i => do
      let tx ← d.running i
      some (d.put i (ended tx))
  | .Release i => do
      let tx ← d.txs[i]?
      if tx.phase = .Ended then some (d.put i { tx with lock := none }) else none

/-! ## What a step does -/

section Step

theorem running_eq_some_iff {d : Db ρ} {i : Nat} {tx : Tx ρ} :
    d.running i = some tx ↔ d.txs[i]? = some tx ∧ tx.phase = .Running := by
  simp [running, Option.filter_eq_some_iff]

/-- Everything a step can do. -/
inductive Steps (d : Db ρ) : Action ρ → Db ρ → Prop
  | Begin : Steps d .Begin { d with txs := d.txs ++ [Tx.fresh] }
  | Lock {i : Nat} {mode : Mode} {tx : Tx ρ} (htx : d.txs[i]? = some tx)
      (hrunning : tx.phase = .Running) (hfree : tx.lock = none) (hgrants : d.grants mode = true) :
      Steps d (.Lock i mode) (d.put i { tx with lock := some mode })
  | AssignXid {i : Nat} {tx : Tx ρ} (htx : d.txs[i]? = some tx) (hrunning : tx.phase = .Running)
      (hnone : tx.xid = none) : Steps d (.AssignXid i)
        { d.put i { tx with xid := some d.nextXid } with nextXid := d.nextXid + 1 }
  | Take {i : Nat} {tx : Tx ρ} (htx : d.txs[i]? = some tx) (hrunning : tx.phase = .Running)
      (hlock : tx.lock = some .Shared) : Steps d (.Take i)
        { d.put i { tx with taken := tx.taken ++ [d.issued + 1] } with issued := d.issued + 1 }
  | Insert {i position xid : Nat} {tx : Tx ρ} {value : ρ} (htx : d.txs[i]? = some tx)
      (hrunning : tx.phase = .Running) (hxid : tx.xid = some xid) (htaken : position ∈ tx.taken) :
      Steps d (.Insert i position value) (d.put i { tx with
        taken := tx.taken.erase position
        rows := tx.rows ++ [⟨position, xid, value⟩] })
  | Commit {i : Nat} {tx : Tx ρ} (htx : d.txs[i]? = some tx) (hrunning : tx.phase = .Running) :
      Steps d (.Commit i) { d.put i (ended tx) with rows := d.rows ++ tx.rows }
  | Rollback {i : Nat} {tx : Tx ρ} (htx : d.txs[i]? = some tx) (hrunning : tx.phase = .Running) :
      Steps d (.Rollback i) (d.put i (ended tx))
  | Release {i : Nat} {tx : Tx ρ} (htx : d.txs[i]? = some tx) (hended : tx.phase = .Ended) :
      Steps d (.Release i) (d.put i { tx with lock := none })

theorem step_eq_some_iff {d d' : Db ρ} {a : Action ρ} : d.step a = some d' ↔ d.Steps a d' := by
  constructor
  · intro h
    cases a <;> simp only [step, Option.bind_eq_bind, Option.bind_eq_some_iff,
      Option.ite_none_right_eq_some, running_eq_some_iff, Option.some.injEq] at h
    case Begin => exact h ▸ .Begin
    case Lock =>
      obtain ⟨tx, ⟨htx, hrunning⟩, ⟨hfree, hgrants⟩, rfl⟩ := h
      exact .Lock htx hrunning hfree hgrants
    case AssignXid =>
      obtain ⟨tx, ⟨htx, hrunning⟩, hnone, rfl⟩ := h
      exact .AssignXid htx hrunning hnone
    case Take =>
      obtain ⟨tx, ⟨htx, hrunning⟩, hlock, rfl⟩ := h
      exact .Take htx hrunning hlock
    case Insert =>
      obtain ⟨tx, ⟨htx, hrunning⟩, xid, hxid, htaken, rfl⟩ := h
      exact .Insert htx hrunning hxid htaken
    case Commit =>
      obtain ⟨tx, ⟨htx, hrunning⟩, rfl⟩ := h
      exact .Commit htx hrunning
    case Rollback =>
      obtain ⟨tx, ⟨htx, hrunning⟩, rfl⟩ := h
      exact .Rollback htx hrunning
    case Release =>
      obtain ⟨tx, htx, hended, rfl⟩ := h
      exact .Release htx hended
  · intro h
    cases h <;> simp_all [step, running_eq_some_iff, running, Option.filter]

end Step

/-! ## Positions are used once -/

/-- How often a position is used, by a row or by a transaction that may still write one. -/
def uses (d : Db ρ) (p : Nat) : Nat :=
  (d.rows.map Row.position).count p + (d.txs.map fun tx => tx.pending.count p).sum

/-- What holds in every state a run reaches. -/
structure Sound (d : Db ρ) : Prop where
  once : ∀ p, d.uses p ≤ 1
  issued : ∀ p, 0 < d.uses p → 0 < p ∧ p ≤ d.issued
  locked : ∀ tx ∈ d.txs, tx.pending ≠ [] → tx.lock = some .Shared ∧ tx.phase = .Running
  alone : ∀ (i j : Nat) (tx other : Tx ρ), d.txs[i]? = some tx → d.txs[j]? = some other →
    i ≠ j → tx.lock = some .Exclusive → other.lock = none
  written : ∀ r ∈ d.rows, r.xid < d.nextXid
  assigned : ∀ tx ∈ d.txs, ∀ x, (tx.xid = some x ∨ ∃ r ∈ tx.rows, r.xid = x) → x < d.nextXid

theorem sound_new (nextXid : Nat) : (new nextXid : Db ρ).Sound where
  once p := by simp [uses, new]
  issued p := by simp [uses, new]
  locked := by simp [new]
  alone := by simp [new]
  written := by simp [new]
  assigned := by simp [new]

section Sound

variable {d d' : Db ρ} {a : Action ρ} {i : Nat} {tx tx' : Tx ρ} {p : Nat}

/-- A transaction changes what it holds of a position. -/
theorem uses_put (p : Nat) (tx' : Tx ρ) (h : d.txs[i]? = some tx) :
    (d.put i tx').uses p + tx.pending.count p = d.uses p + tx'.pending.count p := by
  have := Tally.total_set (fun tx => tx.pending.count p) h tx'
  unfold Tally.total at this
  unfold uses put
  dsimp only
  omega

theorem uses_put_of_eq (h : d.txs[i]? = some tx) (heq : tx'.pending = tx.pending) :
    (d.put i tx').uses p = d.uses p := by
  have := uses_put p tx' h
  rw [heq] at this
  omega

theorem uses_of_row {r : Row ρ} (h : r ∈ d.rows) : 0 < d.uses r.position := by
  have : 0 < (d.rows.map Row.position).count r.position :=
    List.count_pos_iff.mpr (List.mem_map_of_mem h)
  unfold uses
  omega

theorem uses_of_pending (htx : tx ∈ d.txs) (hp : p ∈ tx.pending) : 0 < d.uses p := by
  have hcount : 0 < tx.pending.count p := List.count_pos_iff.mpr hp
  have hsum : tx.pending.count p ≤ (d.txs.map fun tx => tx.pending.count p).sum :=
    List.le_sum_of_mem (List.mem_map_of_mem htx)
  unfold uses
  omega

/-- Only the sequence puts a position to use. -/
theorem Steps.uses (h : d.Steps a d') :
    (d'.issued = d.issued ∧ d'.uses p ≤ d.uses p) ∨
      (d'.issued = d.issued + 1 ∧ d'.uses p = d.uses p + [d.issued + 1].count p) := by
  cases h with
  | Begin => simp [Db.uses, Tx.fresh, Tx.pending]
  | Lock htx => exact .inl ⟨rfl, Nat.le_of_eq (uses_put_of_eq htx rfl)⟩
  | AssignXid htx => exact .inl ⟨rfl, Nat.le_of_eq (uses_put_of_eq htx rfl)⟩
  | @Take i tx htx =>
      have := uses_put p { tx with taken := tx.taken ++ [d.issued + 1] } htx
      simp only [Tx.pending, List.count_append] at this
      refine .inr ⟨rfl, ?_⟩
      change (d.put i _).uses p = _
      omega
  | @Insert i position xid tx value htx _ _ htaken =>
      have := uses_put p { tx with
        taken := tx.taken.erase position
        rows := tx.rows ++ [⟨position, xid, value⟩] } htx
      have herase : tx.taken.count p = (tx.taken.erase position).count p + [position].count p := by
        rw [(List.perm_cons_erase htaken).count_eq, ← List.singleton_append, List.count_append]
        omega
      simp only [Tx.pending, List.count_append, List.map_append, List.map_cons, List.map_nil] at this
      refine .inl ⟨rfl, ?_⟩
      omega
  | @Commit i tx htx =>
      have := uses_put p (ended tx) htx
      refine .inl ⟨rfl, ?_⟩
      simp only [Db.uses, put, ended, Tx.pending, List.map_append, List.count_append, List.map_nil,
        List.append_nil, List.count_nil] at this ⊢
      omega
  | @Rollback i tx htx =>
      have := uses_put p (ended tx) htx
      refine .inl ⟨rfl, ?_⟩
      simp only [ended, Tx.pending, List.map_nil, List.append_nil, List.count_nil] at this ⊢
      omega
  | Release htx => exact .inl ⟨rfl, Nat.le_of_eq (uses_put_of_eq htx rfl)⟩

/-- A transaction of the database after one of them changed. -/
theorem mem_put (h : tx' ∈ (d.put i tx).txs) : tx' = tx ∨ tx' ∈ d.txs :=
  (List.mem_or_eq_of_mem_set h).symm

theorem getElem?_put {j : Nat} (h : (d.put i tx).txs[j]? = some tx') :
    (j = i ∧ tx' = tx) ∨ (j ≠ i ∧ d.txs[j]? = some tx') := by
  simp only [put, List.getElem?_set] at h
  split at h
  · next heq =>
      split at h
      · exact .inl ⟨heq.symm, (Option.some.inj h).symm⟩
      · exact nomatch h
  · next hne => exact .inr ⟨fun heq => hne heq.symm, h⟩

/-- The exclusive lock stays alone when a transaction lets go of its lock or keeps it. -/
theorem Sound.alone_put (hd : d.Sound) (htx : d.txs[i]? = some tx)
    (hlock : tx'.lock = tx.lock ∨ tx'.lock = none) (j k : Nat) (t other : Tx ρ)
    (ht : (d.put i tx').txs[j]? = some t) (hother : (d.put i tx').txs[k]? = some other)
    (hne : j ≠ k) (hexclusive : t.lock = some .Exclusive) : other.lock = none := by
  -- the lock of every transaction was held before, in the same mode
  have hbefore : ∀ {j : Nat} {t : Tx ρ}, (d.put i tx').txs[j]? = some t →
      ∃ t₀, d.txs[j]? = some t₀ ∧ (t.lock = t₀.lock ∨ t.lock = none) := by
    intro j t ht
    rcases getElem?_put ht with ⟨rfl, rfl⟩ | ⟨-, ht⟩
    · exact ⟨tx, htx, hlock⟩
    · exact ⟨t, ht, .inl rfl⟩
  obtain ⟨t₀, ht₀, hkept | hgone⟩ := hbefore ht
  · obtain ⟨other₀, hother₀, hkept' | hgone'⟩ := hbefore hother
    · rw [hkept']
      exact hd.alone j k t₀ other₀ ht₀ hother₀ hne (hkept ▸ hexclusive)
    · exact hgone'
  · rw [hgone] at hexclusive
    exact nomatch hexclusive

/-- Positions are pending only under the shared lock. -/
theorem Sound.locked_step (hd : d.Sound) (h : d.Steps a d') :
    ∀ tx ∈ d'.txs, tx.pending ≠ [] → tx.lock = some .Shared ∧ tx.phase = .Running := by
  intro t ht hpending
  cases h with
  | Begin =>
      rcases List.mem_append.mp ht with ht | ht
      · exact hd.locked t ht hpending
      · rw [List.mem_singleton.mp ht] at hpending
        exact absurd rfl hpending
  | @Lock i mode tx htx _ hfree =>
      rcases mem_put ht with rfl | ht
      · have := (hd.locked tx (List.mem_of_getElem? htx) hpending).1
        rw [hfree] at this
        exact nomatch this
      · exact hd.locked t ht hpending
  | @AssignXid i tx htx =>
      rcases mem_put ht with rfl | ht
      · exact hd.locked tx (List.mem_of_getElem? htx) hpending
      · exact hd.locked t ht hpending
  | Take htx hrunning hlock =>
      rcases mem_put ht with rfl | ht
      · exact ⟨hlock, hrunning⟩
      · exact hd.locked t ht hpending
  | @Insert i position xid tx value htx hrunning _ htaken =>
      rcases mem_put ht with rfl | ht
      · exact hd.locked tx (List.mem_of_getElem? htx)
          (List.ne_nil_of_mem (List.mem_append_left _ htaken))
      · exact hd.locked t ht hpending
  | Commit htx =>
      rcases mem_put ht with rfl | ht
      · exact absurd rfl hpending
      · exact hd.locked t ht hpending
  | Rollback htx =>
      rcases mem_put ht with rfl | ht
      · exact absurd rfl hpending
      · exact hd.locked t ht hpending
  | @Release i tx htx hended =>
      rcases mem_put ht with rfl | ht
      · have := (hd.locked tx (List.mem_of_getElem? htx) hpending).2
        rw [hended] at this
        exact nomatch this
      · exact hd.locked t ht hpending

/-- The exclusive lock is held by one transaction, and then no other holds it. -/
theorem Sound.alone_step (hd : d.Sound) (h : d.Steps a d') :
    ∀ (i j : Nat) (tx other : Tx ρ), d'.txs[i]? = some tx → d'.txs[j]? = some other →
      i ≠ j → tx.lock = some .Exclusive → other.lock = none := by
  cases h with
  | Begin =>
      intro i j tx other htx hother hne hexclusive
      have hold : ∀ {k : Nat} {t : Tx ρ}, (d.txs ++ [Tx.fresh])[k]? = some t →
          d.txs[k]? = some t ∨ t.lock = none := by
        intro k t ht
        rw [List.getElem?_append] at ht
        split at ht
        · exact .inl ht
        · exact .inr (by rw [List.mem_singleton.mp (List.mem_of_getElem? ht)]; rfl)
      rcases hold hother with hother | hnone
      · rcases hold htx with htx | hnone
        · exact hd.alone i j tx other htx hother hne hexclusive
        · rw [hnone] at hexclusive
          exact nomatch hexclusive
      · exact hnone
  | @Lock i mode tx htx _ hfree hgrants =>
      intro j k t other ht hother hne hexclusive
      rcases getElem?_put ht with ⟨rfl, rfl⟩ | ⟨-, hold⟩
      · obtain rfl := Option.some.inj hexclusive
        rcases getElem?_put hother with ⟨rfl, -⟩ | ⟨-, hother⟩
        · exact absurd rfl hne
        · simpa using List.all_eq_true.mp hgrants other (List.mem_of_getElem? hother)
      · rcases getElem?_put hother with ⟨rfl, rfl⟩ | ⟨-, hother⟩
        · -- the lock was granted while another held it exclusively
          have hmem := List.mem_of_getElem? hold
          cases mode with
          | Shared => exact absurd hexclusive (by simpa using List.all_eq_true.mp hgrants t hmem)
          | Exclusive =>
              have : t.lock = none := by simpa using List.all_eq_true.mp hgrants t hmem
              rw [this] at hexclusive
              exact nomatch hexclusive
        · exact hd.alone j k t other hold hother hne hexclusive
  | AssignXid htx => exact hd.alone_put htx (.inl rfl)
  | Take htx => exact hd.alone_put htx (.inl rfl)
  | Insert htx => exact hd.alone_put htx (.inl rfl)
  | Commit htx => exact hd.alone_put htx (.inl rfl)
  | Rollback htx => exact hd.alone_put htx (.inl rfl)
  | Release htx => exact hd.alone_put htx (.inr rfl)

/-- Every identifier was given out. -/
theorem Sound.xids_step (hd : d.Sound) (h : d.Steps a d') :
    (∀ r ∈ d'.rows, r.xid < d'.nextXid) ∧
      ∀ tx ∈ d'.txs, ∀ x, (tx.xid = some x ∨ ∃ r ∈ tx.rows, r.xid = x) → x < d'.nextXid := by
  have hassigned : ∀ {i : Nat} {tx : Tx ρ}, d.txs[i]? = some tx →
      ∀ x, (tx.xid = some x ∨ ∃ r ∈ tx.rows, r.xid = x) → x < d.nextXid :=
    fun htx => hd.assigned _ (List.mem_of_getElem? htx)
  cases h with
  | Begin =>
      refine ⟨hd.written, fun t ht => ?_⟩
      rcases List.mem_append.mp ht with ht | ht
      · exact hd.assigned t ht
      · rw [List.mem_singleton.mp ht]
        simp [Tx.fresh]
  | Lock htx =>
      refine ⟨hd.written, fun t ht => ?_⟩
      rcases mem_put ht with rfl | ht
      · exact fun x hx => hassigned htx x hx
      · exact hd.assigned t ht
  | AssignXid htx =>
      refine ⟨fun r hr => Nat.lt_succ_of_lt (hd.written r hr), fun t ht x hx => ?_⟩
      rcases mem_put ht with rfl | ht
      · rcases hx with hx | hx
        · exact Option.some.inj hx ▸ Nat.lt_succ_self _
        · exact Nat.lt_succ_of_lt (hassigned htx x (.inr hx))
      · exact Nat.lt_succ_of_lt (hd.assigned t ht x hx)
  | Take htx =>
      refine ⟨hd.written, fun t ht => ?_⟩
      rcases mem_put ht with rfl | ht
      · exact fun x hx => hassigned htx x hx
      · exact hd.assigned t ht
  | @Insert i position xid tx value htx _ hxid =>
      refine ⟨hd.written, fun t ht x hx => ?_⟩
      rcases mem_put ht with rfl | ht
      · rcases hx with hx | ⟨r, hr, rfl⟩
        · exact hassigned htx x (.inl hx)
        · rcases List.mem_append.mp hr with hr | hr
          · exact hassigned htx _ (.inr ⟨r, hr, rfl⟩)
          · rw [List.mem_singleton.mp hr]
            exact hassigned htx xid (.inl hxid)
      · exact hd.assigned t ht x hx
  | @Commit i tx htx =>
      refine ⟨fun r hr => ?_, fun t ht x hx => ?_⟩
      · rcases List.mem_append.mp hr with hr | hr
        · exact hd.written r hr
        · exact hassigned htx _ (.inr ⟨r, hr, rfl⟩)
      · rcases mem_put ht with rfl | ht
        · exact hassigned htx x (.inl (by simpa [ended] using hx))
        · exact hd.assigned t ht x hx
  | @Rollback i tx htx =>
      refine ⟨hd.written, fun t ht x hx => ?_⟩
      rcases mem_put ht with rfl | ht
      · exact hassigned htx x (.inl (by simpa [ended] using hx))
      · exact hd.assigned t ht x hx
  | Release htx =>
      refine ⟨hd.written, fun t ht => ?_⟩
      rcases mem_put ht with rfl | ht
      · exact fun x hx => hassigned htx x hx
      · exact hd.assigned t ht

theorem Sound.step (hd : d.Sound) (h : d.Steps a d') : d'.Sound := by
  have honce : ∀ p, d'.uses p ≤ 1 := by
    intro p
    have hbefore := hd.once p
    rcases h.uses (p := p) with ⟨-, hle⟩ | ⟨-, heq⟩
    · omega
    · by_cases hp : p = d.issued + 1
      · have hunused : d.uses p = 0 := by
          have := hd.issued p
          omega
        rw [heq, hunused, hp]
        simp
      · rw [heq, List.count_singleton, if_neg (by simpa using Ne.symm hp)]
        exact hbefore
  have hissued : ∀ p, 0 < d'.uses p → 0 < p ∧ p ≤ d'.issued := by
    intro p hp
    rcases h.uses (p := p) with ⟨hsame, hle⟩ | ⟨hnext, heq⟩
    · have := hd.issued p (by omega)
      omega
    · rw [heq, List.count_singleton] at hp
      split at hp
      · next hnew =>
          have := beq_iff_eq.mp hnew
          omega
      · have := hd.issued p (by omega)
        omega
  exact ⟨honce, hissued, hd.locked_step h, hd.alone_step h, (hd.xids_step h).1, (hd.xids_step h).2⟩

/-! ## What is settled -/

/-- Nothing will appear at or below a position. -/
def Beyond (d : Db ρ) (n : Nat) : Prop :=
  n ≤ d.issued ∧ ∀ tx ∈ d.txs, ∀ p ∈ tx.pending, n < p

/-- While the lock is held exclusively everything the sequence gave out is settled. -/
theorem Sound.beyond_of_exclusive (hd : d.Sound) (htx : d.txs[i]? = some tx)
    (hlock : tx.lock = some .Exclusive) {n : Nat} (hn : n ≤ d.issued) : d.Beyond n := by
  refine ⟨hn, fun t ht p hp => ?_⟩
  have hshared := (hd.locked t ht (List.ne_nil_of_mem hp)).1
  obtain ⟨j, hj⟩ := List.getElem?_of_mem ht
  by_cases hij : i = j
  · rw [← hij, htx] at hj
    rw [← Option.some.inj hj, hlock] at hshared
    exact nomatch hshared
  · rw [hd.alone i j tx t htx hj hij hlock] at hshared
    exact nomatch hshared

/-- A step keeps what is settled, and adds rows above it only. -/
theorem Beyond.step {n : Nat} (hn : d.Beyond n) (h : d.Steps a d') :
    d'.Beyond n ∧ ∃ more, d'.rows = d.rows ++ more ∧ ∀ r ∈ more, n < r.position := by
  have hpending : ∀ {i : Nat} {tx : Tx ρ}, d.txs[i]? = some tx → ∀ p ∈ tx.pending, n < p :=
    fun htx => hn.2 _ (List.mem_of_getElem? htx)
  have hunmoved : ∃ more, d.rows = d.rows ++ more ∧ ∀ r ∈ more, n < r.position :=
    ⟨[], by simp, by simp⟩
  have hput : ∀ {i : Nat} {tx' : Tx ρ}, (∀ p ∈ tx'.pending, n < p) →
      ∀ t ∈ (d.put i tx').txs, ∀ p ∈ t.pending, n < p := by
    intro i tx' htx' t ht
    rcases mem_put ht with rfl | ht
    · exact htx'
    · exact hn.2 t ht
  cases h with
  | Begin =>
      refine ⟨⟨hn.1, fun t ht => ?_⟩, hunmoved⟩
      rcases List.mem_append.mp ht with ht | ht
      · exact hn.2 t ht
      · rw [List.mem_singleton.mp ht]
        exact fun _ hp => nomatch hp
  | Lock htx => exact ⟨⟨hn.1, hput fun p hp => hpending htx p hp⟩, hunmoved⟩
  | AssignXid htx => exact ⟨⟨hn.1, hput fun p hp => hpending htx p hp⟩, hunmoved⟩
  | @Take i tx htx =>
      refine ⟨⟨Nat.le_succ_of_le hn.1, hput fun p hp => ?_⟩, hunmoved⟩
      simp only [Tx.pending, List.append_assoc, List.mem_append, List.mem_singleton] at hp
      rcases hp with hp | rfl | hp
      · exact hpending htx p (List.mem_append_left _ hp)
      · exact Nat.lt_succ_of_le hn.1
      · exact hpending htx p (List.mem_append_right _ hp)
  | @Insert i position xid tx value htx _ _ htaken =>
      refine ⟨⟨hn.1, hput fun p hp => ?_⟩, hunmoved⟩
      simp only [Tx.pending, List.map_append, List.map_cons, List.map_nil, List.mem_append,
        List.mem_singleton] at hp
      rcases hp with hp | hp | rfl
      · exact hpending htx p (List.mem_append_left _ (List.mem_of_mem_erase hp))
      · exact hpending htx p (List.mem_append_right _ hp)
      · exact hpending htx _ (List.mem_append_left _ htaken)
  | @Commit i tx htx =>
      refine ⟨⟨hn.1, hput fun p hp => nomatch hp⟩, tx.rows, rfl, fun r hr => ?_⟩
      exact hpending htx _ (List.mem_append_right _ (List.mem_map_of_mem hr))
  | Rollback htx => exact ⟨⟨hn.1, hput fun p hp => nomatch hp⟩, hunmoved⟩
  | Release htx => exact ⟨⟨hn.1, hput fun p hp => hpending htx p hp⟩, hunmoved⟩

end Sound

end Db

end Mvcc
