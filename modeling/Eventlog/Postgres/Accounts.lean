import Eventlog.Postgres.Pool

/-!
# Eventlog.Postgres.Accounts

The pool accounts for every connection, permit and waiter slot.

What a task holds is read off its phase (`Task.occupies`, `Task.queues`, `Task.permits`,
`Task.holds`).  `Accounted` says that the counters of the pool are the totals of that, and that a
connection is idle, held or retired exactly once; a step of a task keeps it if the counters change
by what the task gave up and took (`Accounted.replace`).
-/

namespace Eventlog.Postgres

open Tally

/-! ## What a task holds -/

namespace Phase

/-- The connection a task has in hand and has not retired. -/
def client : Phase → Option Connection
  | Looking client | Dropping client _ | Retiring client => client
  | Closing connection | Configuring connection | Checking connection | Held connection _
  | Recycling connection => some connection
  | _ => none

/-- Whether there is a lease, or what is left of one. -/
def leased : Phase → Bool
  | Queued | Leaving | Refused | Draining | Drained | Over => false
  | _ => true

/-- Whether a caller waits in the queue. -/
def queued : Phase → Bool
  | Queued | Leaving => true
  | _ => false

/-- Whether the task is at an await of `acquire`. -/
def awaits : Phase → Bool
  | Queued | Closing _ | Connecting | Configuring _ => true
  | _ => false

/-- Whether `shutdown` was called. -/
def shuts : Phase → Bool
  | Draining | Drained => true
  | _ => false

/-- Whether the task may hold a permit. -/
def entitled (phase : Phase) : Bool :=
  match phase with
  | Queued | Refused => true
  | _ => phase.leased

theorem queued_of_leased {phase : Phase} (h : phase.leased = true) : phase.queued = false := by
  cases phase <;> simp_all [Phase.leased, Phase.queued]

end Phase

namespace Task

def occupies (task : Task) : Nat := task.phase.leased.toNat

def queues (task : Task) : Nat := task.phase.queued.toNat

def permits (task : Task) : Nat := task.permit.toNat

def holds (connection : Connection) (task : Task) : Nat := task.phase.client.toList.count connection

/-- What is true of a task in a pool that is closed or not. -/
structure Sound (closed : Bool) (task : Task) : Prop where
  /-- Until the shutdown a lease has a permit. -/
  permitted : closed = false → task.phase.leased = true → task.permit = true
  entitled : task.permit = true → task.phase.entitled = true
  shuts : task.phase.shuts = true → closed = true

/-- A lease stays a lease. -/
theorem Sound.leased {closed : Bool} {phase phase' : Phase} {permit : Bool}
    (h : (⟨phase, permit⟩ : Task).Sound closed) (hold : phase.leased = true)
    (hnew : phase'.leased = true) : (⟨phase', permit⟩ : Task).Sound closed where
  permitted hopen _ := h.permitted hopen hold
  entitled _ := by cases phase' <;> simp_all [Phase.entitled, Phase.leased]
  shuts hshuts := by cases phase' <;> simp_all [Phase.shuts, Phase.leased]

theorem sound_unleased {closed permit : Bool} {phase : Phase} (hleased : phase.leased = false)
    (hshuts : phase.shuts = false) (hentitled : permit = true → phase.entitled = true) :
    (⟨phase, permit⟩ : Task).Sound closed where
  permitted _ h := by rw [hleased] at h; cases h
  entitled := hentitled
  shuts h := by rw [hshuts] at h; cases h

/-- A task that is over. -/
theorem sound_over (closed : Bool) : (⟨.Over, false⟩ : Task).Sound closed :=
  sound_unleased rfl rfl fun h => nomatch h

theorem Sound.close {closed : Bool} {task : Task} (h : task.Sound closed) : task.Sound true where
  permitted hopen := nomatch hopen
  entitled := h.entitled
  shuts _ := rfl

end Task

namespace Pool

/-- The connections that are idle or in somebody's hands. -/
def live (pool : Pool) : List Connection :=
  pool.state.idle ++ pool.tasks.flatMap fun task => task.phase.client.toList

/-- The books are right. -/
structure Accounted (pool : Pool) : Prop where
  active : pool.state.active = total Task.occupies pool.tasks
  waiting : pool.state.waiting = total Task.queues pool.tasks
  permits : pool.connections.permits + total Task.permits pool.tasks = pool.options.maxConnections
  slots : pool.waiters.permits + total Task.queues pool.tasks = pool.options.maxWaiters
  bounded : pool.state.active + pool.state.idle.length ≤ pool.options.maxConnections
  ledger : ∀ connection, total (Task.holds connection) pool.tasks + pool.state.idle.count connection +
    (pool.retired.map Prod.fst).count connection = (List.range pool.state.churn.opened).count connection
  causes : ∀ cause, pool.state.churn.retired cause = (pool.retired.map Prod.snd).count cause
  replaced : pool.state.churn.replacements ≤
    pool.state.churn.retiredUnsettledLease + pool.state.churn.retiredClosedClient
  sound : ∀ task ∈ pool.tasks, task.Sound pool.state.closed
  emptied : pool.state.closed = true → pool.state.idle = []
  drained : ∀ task ∈ pool.tasks, task.phase = .Drained → pool.state.active = 0

theorem accounted_new (options : PoolOptions) : (new options).Accounted where
  active := rfl
  waiting := rfl
  permits := rfl
  slots := rfl
  bounded := Nat.zero_le _
  ledger _ := rfl
  causes cause := by cases cause <;> rfl
  replaced := Nat.le_refl _
  sound _ h := nomatch h
  emptied h := nomatch h
  drained _ h := nomatch h

/-! ## One task moves on -/

/-- How the books change when a task goes from `old` to `new`. -/
structure Booked (pool : Pool) (old new : Task) (pool' : Pool) : Prop where
  options : pool'.options = pool.options
  active : pool'.state.active + old.occupies = pool.state.active + new.occupies
  waiting : pool'.state.waiting + old.queues = pool.state.waiting + new.queues
  permits : pool'.connections.permits + new.permits = pool.connections.permits + old.permits
  slots : pool'.waiters.permits + new.queues = pool.waiters.permits + old.queues
  bounded : pool'.state.active + pool'.state.idle.length ≤ pool.options.maxConnections
  ledger : ∀ connection, new.holds connection + pool'.state.idle.count connection +
      (pool'.retired.map Prod.fst).count connection +
      (List.range pool.state.churn.opened).count connection =
    old.holds connection + pool.state.idle.count connection +
      (pool.retired.map Prod.fst).count connection +
      (List.range pool'.state.churn.opened).count connection
  causes : ∀ cause, pool'.state.churn.retired cause = (pool'.retired.map Prod.snd).count cause
  replaced : pool'.state.churn.replacements ≤
    pool'.state.churn.retiredUnsettledLease + pool'.state.churn.retiredClosedClient
  closed : pool'.state.closed = pool.state.closed
  emptied : pool.state.closed = true → pool'.state.idle = []
  sound : new.Sound pool.state.closed
  drained : new.phase = .Drained → pool'.state.active = 0
  unopened : pool.state.closed = true → pool'.state.active ≤ pool.state.active

variable {pool pool' : Pool} {i : Nat} {old new : Task}

theorem Accounted.replace (h : pool.Accounted) (hi : pool.tasks[i]? = some old)
    (hbook : pool.Booked old new pool') (htasks : pool'.tasks = pool.tasks.set i new) :
    pool'.Accounted where
  active := by
    have := total_set Task.occupies hi new
    have := h.active
    have := hbook.active
    rw [htasks]
    omega
  waiting := by
    have := total_set Task.queues hi new
    have := h.waiting
    have := hbook.waiting
    rw [htasks]
    omega
  permits := by
    have := total_set Task.permits hi new
    have := h.permits
    have := hbook.permits
    rw [htasks, hbook.options]
    omega
  slots := by
    have := total_set Task.queues hi new
    have := h.slots
    have := hbook.slots
    rw [htasks, hbook.options]
    omega
  bounded := by
    rw [hbook.options]
    exact hbook.bounded
  ledger connection := by
    have := total_set (Task.holds connection) hi new
    have := h.ledger connection
    have := hbook.ledger connection
    rw [htasks]
    omega
  causes := hbook.causes
  replaced := hbook.replaced
  sound task htask := by
    rw [hbook.closed]
    rw [htasks] at htask
    rcases List.mem_or_eq_of_mem_set htask with hold | rfl
    · exact h.sound task hold
    · exact hbook.sound
  emptied hclosed := hbook.emptied (hbook.closed ▸ hclosed)
  drained task htask hphase := by
    rw [htasks] at htask
    rcases List.mem_or_eq_of_mem_set htask with hold | rfl
    · have hclosed := (h.sound task hold).shuts (by rw [hphase]; rfl)
      have := hbook.unopened hclosed
      have := h.drained task hold hphase
      omega
    · exact hbook.drained hphase

/-- A task moves on with the connection it has, if any, and only counters change. -/
theorem Accounted.recount (h : pool.Accounted) (hi : pool.tasks[i]? = some old) (new : Task)
    {connections waiters : Semaphore} {active waiting : Nat}
    (hclient : new.phase.client = old.phase.client)
    (hactive : active + old.occupies = pool.state.active + new.occupies)
    (hless : active ≤ pool.state.active)
    (hwaiting : waiting + old.queues = pool.state.waiting + new.queues)
    (hpermits : connections.permits + new.permits = pool.connections.permits + old.permits)
    (hslots : waiters.permits + new.queues = pool.waiters.permits + old.queues)
    (hsound : new.Sound pool.state.closed) (hdrained : new.phase = .Drained → active = 0) :
    { pool with
      connections, waiters
      state := { pool.state with active, waiting }
      tasks := pool.tasks.set i new }.Accounted := by
  refine h.replace hi ?_ rfl
  exact {
    options := rfl
    active := hactive
    waiting := hwaiting
    permits := hpermits
    slots := hslots
    bounded := Nat.le_trans (Nat.add_le_add_right hless _) h.bounded
    ledger := fun connection => by simp only [Task.holds, hclient]
    causes := h.causes
    replaced := h.replaced
    closed := rfl
    emptied := h.emptied
    sound := hsound
    drained := hdrained
    unopened := fun _ => hless }

/-- A lease goes from one phase to the next with the connection it has. -/
theorem Accounted.lease (h : pool.Accounted) {phase phase' : Phase} {permit : Bool}
    (hi : pool.tasks[i]? = some ⟨phase, permit⟩) (hold : phase.leased = true)
    (hnew : phase'.leased = true) (hclient : phase'.client = phase.client) :
    (pool.put i ⟨phase', permit⟩).Accounted := by
  have hqueue : phase'.queued = phase.queued := by
    rw [Phase.queued_of_leased hold, Phase.queued_of_leased hnew]
  refine h.recount hi _ hclient ?_ (Nat.le_refl _) ?_ rfl ?_
    ((h.sound _ (List.mem_of_getElem? hi)).leased hold hnew) ?_
  · simp only [Task.occupies, hold, hnew]
  · simp only [Task.queues, hqueue]
  · simp only [Task.queues, hqueue]
  · rintro rfl
    cases hnew

/-- While the pool is open there is a permit for every lease. -/
theorem Accounted.room (h : pool.Accounted) (hopen : pool.state.closed = false) :
    pool.state.active + pool.connections.permits ≤ pool.options.maxConnections := by
  have hle : total Task.occupies pool.tasks ≤ total Task.permits pool.tasks := by
    refine total_le fun task htask => ?_
    have := (h.sound task htask).permitted hopen
    cases hleased : task.phase.leased <;> simp_all [Task.occupies, Task.permits]
  have := h.active
  have := h.permits
  omega

/-- A lease is checked out with a permit from the semaphore. -/
theorem Accounted.checkout (h : pool.Accounted) (hopen : pool.state.closed = false)
    (hi : pool.tasks[i]? = some ⟨.Over, false⟩) (connections : Semaphore)
    (hpermits : connections.permits + 1 = pool.connections.permits) :
    { pool with
      connections
      state := pool.state.checkout.1
      tasks := pool.tasks.set i ⟨.Looking pool.state.checkout.2, true⟩ }.Accounted := by
  refine h.replace hi ?_ rfl
  have hroom := h.room hopen
  have hbounded := h.bounded
  have hlength := PoolState.length_pop { pool.state with active := pool.state.active + 1 }
  exact {
    options := rfl
    active := rfl
    waiting := rfl
    permits := hpermits
    slots := rfl
    bounded := by
      change pool.state.active + 1 + (PoolState.pop _).1.idle.length ≤ _
      rw [hlength]
      dsimp only
      omega
    ledger := fun connection => by
      have := PoolState.count_pop { pool.state with active := pool.state.active + 1 } connection
      change (PoolState.pop _).2.toList.count connection + (PoolState.pop _).1.idle.count connection +
        _ + _ = 0 + _ + _ + _
      rw [this]
      simp only [Nat.zero_add]
      rfl
    causes := h.causes
    replaced := h.replaced
    closed := rfl
    emptied := fun hclosed => by rw [hopen] at hclosed; cases hclosed
    sound := ⟨fun _ _ => rfl, fun _ => rfl, fun hshuts => nomatch hshuts⟩
    drained := fun hdrained => nomatch hdrained
    unopened := fun hclosed => by rw [hopen] at hclosed; cases hclosed }

/-- A lease takes an idle connection in place of none. -/
theorem Accounted.pop (h : pool.Accounted) {permit : Bool}
    (hi : pool.tasks[i]? = some ⟨.Looking none, permit⟩) :
    ({ pool with state := pool.state.pop.1 }.put i ⟨.Looking pool.state.pop.2, permit⟩).Accounted := by
  refine h.replace hi ?_ rfl
  have hbounded := h.bounded
  have hlength := pool.state.length_pop
  exact {
    options := rfl
    active := rfl
    waiting := rfl
    permits := rfl
    slots := rfl
    bounded := by
      change pool.state.active + pool.state.pop.1.idle.length ≤ _
      omega
    ledger := fun connection => by
      have := pool.state.count_pop connection
      change pool.state.pop.2.toList.count connection + pool.state.pop.1.idle.count connection +
        _ + _ = 0 + _ + _ + _
      rw [this, Nat.zero_add]
      rfl
    causes := h.causes
    replaced := h.replaced
    closed := rfl
    emptied := fun hclosed => by
      change pool.state.idle.dropLast = []
      rw [h.emptied hclosed]
      rfl
    sound := (h.sound _ (List.mem_of_getElem? hi)).leased rfl rfl
    drained := fun hdrained => nomatch hdrained
    unopened := fun _ => Nat.le_refl _ }

/-- The connection of a lease is retired, under a cause that is counted. -/
theorem Accounted.retire (h : pool.Accounted) {phase : Phase} (phase' : Phase) {permit : Bool}
    {connection : Connection} (clientClosed : Bool)
    (hi : pool.tasks[i]? = some ⟨phase, permit⟩) (hold : phase.leased = true)
    (hhas : phase.client = some connection) (hnew : phase'.leased = true)
    (hnone : phase'.client = none) :
    ((pool.retire connection clientClosed).put i ⟨phase', permit⟩).Accounted := by
  refine h.replace hi ?_ rfl
  exact {
    options := rfl
    active := by
      simp only [Task.occupies, hold, hnew]
      rfl
    waiting := by
      simp only [Task.queues, Phase.queued_of_leased hold, Phase.queued_of_leased hnew]
      rfl
    permits := rfl
    slots := by
      simp only [Task.queues, Phase.queued_of_leased hold, Phase.queued_of_leased hnew]
      rfl
    bounded := h.bounded
    ledger := fun other => by
      simp only [Task.holds, hhas, hnone, put, Pool.retire, PoolChurn.opened_retire, List.map_cons,
        List.count_cons, Option.toList_some, Option.toList_none, List.count_nil]
      omega
    causes := fun cause => by
      have := h.causes cause
      simp only [put, Pool.retire, PoolChurn.retired_retire, List.map_cons, List.count_cons,
        List.count_nil]
      omega
    replaced := PoolChurn.replacements_retire _ h.replaced
    closed := rfl
    emptied := h.emptied
    sound := (h.sound _ (List.mem_of_getElem? hi)).leased hold hnew
    drained := by
      rintro rfl
      cases hnew
    unopened := fun _ => Nat.le_refl _ }

/-- Whose driver has ended does not enter the books. -/
theorem Accounted.die (h : pool.Accounted) (connection : Connection) :
    { pool with dead := connection :: pool.dead }.Accounted :=
  { h with }

/-- A connection is opened. -/
theorem Accounted.open (h : pool.Accounted) {permit : Bool}
    (hi : pool.tasks[i]? = some ⟨.Connecting, permit⟩) :
    ({ pool with state := { pool.state with churn := pool.state.churn.open } }.put i
      ⟨.Configuring pool.state.churn.opened, permit⟩).Accounted := by
  refine h.replace hi ?_ rfl
  exact {
    options := rfl
    active := rfl
    waiting := rfl
    permits := rfl
    slots := rfl
    bounded := h.bounded
    ledger := fun connection => by
      simp only [Task.holds, Phase.client, put, PoolChurn.open, List.range_succ, List.count_append,
        Option.toList_some, Option.toList_none, List.count_nil]
      omega
    causes := fun cause => by
      have := h.causes cause
      cases cause <;> exact this
    replaced := PoolChurn.replacements_open h.replaced
    closed := rfl
    emptied := h.emptied
    sound := (h.sound _ (List.mem_of_getElem? hi)).leased rfl rfl
    drained := fun hdrained => nomatch hdrained
    unopened := fun _ => Nat.le_refl _ }

/-- A lease is counted. -/
theorem Accounted.active_pos (h : pool.Accounted) (hi : pool.tasks[i]? = some old)
    (hleased : old.phase.leased = true) : 1 ≤ pool.state.active := by
  have := le_total Task.occupies (List.mem_of_getElem? hi)
  rw [h.active]
  simpa [Task.occupies, hleased] using this

/-- A connection goes back to the idle ones, and its lease is over. -/
theorem Accounted.recycle (h : pool.Accounted) (hopen : pool.state.closed = false)
    {connection : Connection} {permit : Bool}
    (hi : pool.tasks[i]? = some ⟨.Recycling connection, permit⟩) :
    (({ pool with state := { pool.state with idle := pool.state.idle ++ [connection] } }.vacate
      permit).put i ⟨.Over, false⟩).Accounted := by
  refine h.replace hi ?_ rfl
  have hpos := h.active_pos hi rfl
  have hbounded := h.bounded
  exact {
    options := rfl
    active := Nat.sub_add_cancel hpos
    waiting := rfl
    permits := rfl
    slots := rfl
    bounded := by
      simp only [put, vacate, List.length_append, List.length_singleton]
      omega
    ledger := fun other => by
      simp only [Task.holds, Phase.client, put, vacate, List.count_append, Option.toList_some,
        Option.toList_none, List.count_nil]
      omega
    causes := h.causes
    replaced := h.replaced
    closed := rfl
    emptied := fun hclosed => by rw [hopen] at hclosed; cases hclosed
    sound := Task.sound_over _
    drained := fun hdrained => nomatch hdrained
    unopened := fun _ => Nat.sub_le _ _ }

/-- Somebody comes who has nothing yet. -/
theorem Accounted.join (h : pool.Accounted) :
    ({ pool with tasks := pool.tasks ++ [⟨.Over, false⟩] } : Pool).Accounted where
  active := by simpa [Task.occupies, Phase.leased] using h.active
  waiting := by simpa [Task.queues, Phase.queued] using h.waiting
  permits := by simpa [Task.permits] using h.permits
  slots := by simpa [Task.queues, Phase.queued] using h.slots
  bounded := h.bounded
  ledger connection := by simpa [Task.holds, Phase.client] using h.ledger connection
  causes := h.causes
  replaced := h.replaced
  sound task htask := by
    rcases List.mem_append.mp htask with hold | hnew
    · exact h.sound task hold
    · rw [List.mem_singleton.mp hnew]
      exact Task.sound_over _
  emptied := h.emptied
  drained task htask hphase := by
    rcases List.mem_append.mp htask with hold | hnew
    · exact h.drained task hold hphase
    · rw [List.mem_singleton.mp hnew] at hphase
      cases hphase

theorem Accounted.acquire (h : pool.Accounted) : pool.acquire.Accounted := by
  have hlast : (pool.tasks ++ [(⟨.Over, false⟩ : Task)])[pool.tasks.length]? = some ⟨.Over, false⟩ := by
    simp
  unfold Pool.acquire
  split
  · exact h
  rename_i hopen
  split
  · rename_i connections hacquired
    have := h.join.checkout (by simpa using hopen) hlast connections
      (Semaphore.tryAcquire_eq_ok hacquired)
    simpa using this
  · exact h
  · split
    · exact h
    · rename_i waiters hacquired
      have := Semaphore.tryAcquire_eq_ok hacquired
      have := h.join.recount hlast ⟨.Queued, false⟩ rfl rfl (Nat.le_refl _) rfl rfl this
        (Task.sound_unleased rfl rfl fun _ => rfl) (fun hdrained => nomatch hdrained)
      simpa using this

/-- A caller that waits is counted. -/
theorem Accounted.waiting_pos (h : pool.Accounted) (hi : pool.tasks[i]? = some old)
    (hqueued : old.phase.queued = true) : 1 ≤ pool.state.waiting := by
  have := le_total Task.queues (List.mem_of_getElem? hi)
  rw [h.waiting]
  simpa [Task.queues, hqueued] using this

/-- A queued call gets its permit from an open pool. -/
theorem Accounted.resume (h : pool.Accounted) (hopen : pool.state.closed = false)
    (hi : pool.tasks[i]? = some ⟨.Queued, true⟩) :
    ({ pool.finish with state := pool.finish.state.checkout.1 }.put i
      ⟨.Looking pool.finish.state.checkout.2, true⟩).Accounted := by
  have hpos := h.waiting_pos hi rfl
  -- as if it left with its permit given back and took it again
  have hleft : ({ pool.finish with
      connections := pool.connections.release true } : Pool).put i ⟨.Over, false⟩ |>.Accounted :=
    h.recount hi ⟨.Over, false⟩ rfl rfl (Nat.le_refl _) (Nat.sub_add_cancel hpos) rfl rfl
      (Task.sound_over _) (fun hdrained => nomatch hdrained)
  have hover : (pool.tasks.set i ⟨.Over, false⟩)[i]? = some ⟨.Over, false⟩ := by
    rw [List.getElem?_set_self (List.getElem?_eq_some_iff.mp hi).1]
  have := hleft.checkout hopen hover pool.connections rfl
  unfold put at this
  rw [List.set_set] at this
  exact this

theorem Accounted.advance (h : pool.Accounted) (i : Nat) : (pool.advance i).Accounted := by
  unfold Pool.advance
  split
  · rename_i hi
    split
    · exact h.recount hi ⟨.Refused, true⟩ rfl rfl (Nat.le_refl _)
        (Nat.sub_add_cancel (h.waiting_pos hi rfl)) rfl rfl
        (Task.sound_unleased rfl rfl fun _ => rfl) (fun hdrained => nomatch hdrained)
    · rename_i hopen
      exact h.resume (by simpa using hopen) hi
  · rename_i permit hi
    have hnone := (h.sound _ (List.mem_of_getElem? hi)).entitled
    exact h.recount hi ⟨.Over, permit⟩ rfl rfl (Nat.le_refl _)
      (Nat.sub_add_cancel (h.waiting_pos hi rfl)) rfl rfl
      (Task.sound_unleased rfl rfl fun hpermit => nomatch hnone hpermit)
      (fun hdrained => nomatch hdrained)
  · rename_i permit hi
    exact h.recount hi ⟨.Over, false⟩ rfl rfl (Nat.le_refl _) rfl rfl rfl (Task.sound_over _)
      (fun hdrained => nomatch hdrained)
  · rename_i connection permit hi
    split <;> exact h.lease hi rfl rfl rfl
  · rename_i permit hi
    split <;> exact h.lease hi rfl rfl rfl
  · rename_i connection permit hi
    -- retired first, then replaced by an idle one
    have hretired := h.retire (.Looking none) true hi rfl rfl rfl rfl
    have hlooking : (pool.tasks.set i ⟨.Looking none, permit⟩)[i]? = some ⟨.Looking none, permit⟩ := by
      rw [List.getElem?_set_self (List.getElem?_eq_some_iff.mp hi).1]
    have := hretired.pop hlooking
    simpa only [put, List.set_set] using this
  · rename_i permit hi
    exact h.open hi
  · rename_i connection permit hi
    exact h.lease hi rfl rfl rfl
  · rename_i connection permit hi
    split <;> exact h.lease hi rfl rfl rfl
  · rename_i client reusable permit hi
    split <;> exact h.lease hi rfl rfl rfl
  · rename_i connection permit hi
    split
    · rename_i hopen
      exact h.recycle (by simp_all) hi
    · exact h.lease hi rfl rfl rfl
  · rename_i connection permit hi
    exact (h.retire .Quarantined (pool.isClosed connection) hi rfl rfl rfl rfl).die connection
  · rename_i permit hi
    exact h.lease hi rfl rfl rfl
  · rename_i permit hi
    exact h.recount hi ⟨.Over, false⟩ rfl (Nat.sub_add_cancel (h.active_pos hi rfl))
      (Nat.sub_le _ _) rfl rfl rfl (Task.sound_over _) (fun hdrained => nomatch hdrained)
  · rename_i permit hi
    have hsound := h.sound _ (List.mem_of_getElem? hi)
    split
    · rename_i hzero
      exact h.recount hi ⟨.Drained, permit⟩ rfl rfl (Nat.le_refl _) rfl rfl rfl
        ⟨fun _ hleased => (nomatch hleased), fun hpermit => (nomatch hsound.entitled hpermit),
          fun _ => hsound.shuts rfl⟩ (fun _ => hzero)
    · exact h
  · exact h

theorem Accounted.fail (h : pool.Accounted) (i : Nat) : (pool.fail i).Accounted := by
  unfold Pool.fail
  split
  · rename_i permit hi
    exact h.recount hi ⟨.Leaving, false⟩ rfl rfl (Nat.le_refl _) rfl rfl rfl
      (Task.sound_unleased rfl rfl fun hpermit => nomatch hpermit)
      (fun hdrained => nomatch hdrained)
  · rename_i connection permit hi
    exact h.lease hi rfl rfl rfl
  · rename_i permit hi
    exact h.lease hi rfl rfl rfl
  · rename_i connection permit hi
    exact h.lease hi rfl rfl rfl
  · rename_i permit hi
    have hnone := (h.sound _ (List.mem_of_getElem? hi)).entitled
    exact h.recount hi ⟨.Over, permit⟩ rfl rfl (Nat.le_refl _) rfl rfl rfl
      (Task.sound_unleased rfl rfl fun hpermit => nomatch hnone hpermit)
      (fun hdrained => nomatch hdrained)
  · exact h

/-! ## Shutdown -/

/-- What the leases of the idle connections hold. -/
theorem total_idle (f : Task → Nat) (idle : List Connection) :
    total f (idle.map fun connection => ⟨.Dropping (some connection) true, false⟩) =
      total (fun connection => f ⟨.Dropping (some connection) true, false⟩) idle := by
  simp only [total, List.map_map]
  rfl

theorem total_count (connection : Connection) (idle : List Connection) :
    total (fun other => [other].count connection) idle = idle.count connection := by
  induction idle with
  | nil => rfl
  | cons other idle ih =>
      rw [total_cons, ih, ← List.count_append]
      rfl

/-- The idle connections become leases without a permit, about to be dropped. -/
theorem Accounted.shutdown (h : pool.Accounted) : pool.shutdown.Accounted where
  active := by
    have hidle : total Task.occupies (pool.state.idle.map fun connection =>
        ⟨.Dropping (some connection) true, false⟩) = pool.state.idle.length := by
      rw [total_idle]
      simp [total, Task.occupies, Phase.leased]
    have := h.active
    simp only [Pool.shutdown, total_append, hidle, total_cons, total_nil]
    simp only [Task.occupies, Phase.leased, Bool.toNat_false]
    omega
  waiting := by
    have := h.waiting
    simp only [Pool.shutdown, total_append, total_idle]
    simpa [total, Task.queues, Phase.queued] using this
  permits := by
    have := h.permits
    simp only [Pool.shutdown, total_append, total_idle]
    simpa [total, Task.permits, Semaphore.close] using this
  slots := by
    have := h.slots
    simp only [Pool.shutdown, total_append, total_idle]
    simpa [total, Task.queues, Phase.queued, Semaphore.close] using this
  bounded := h.bounded
  ledger connection := by
    have := h.ledger connection
    simp only [Pool.shutdown, total_append, total_idle, Task.holds, Phase.client,
      Option.toList_some, total_count, total_cons, total_nil, Option.toList_none, List.count_nil]
      at this ⊢
    omega
  causes := h.causes
  replaced := h.replaced
  sound task htask := by
    rcases List.mem_append.mp htask with hold | hnew
    · exact (h.sound task hold).close
    · rcases List.mem_append.mp hnew with hidle | hdrain
      · obtain ⟨connection, -, rfl⟩ := List.mem_map.mp hidle
        exact ⟨fun hopen => (by cases hopen), fun hpermit => (by cases hpermit), fun _ => rfl⟩
      · rw [List.mem_singleton.mp hdrain]
        exact ⟨fun hopen => (by cases hopen), fun hpermit => (by cases hpermit), fun _ => rfl⟩
  emptied _ := rfl
  drained task htask hphase := by
    rcases List.mem_append.mp htask with hold | hnew
    · -- a shutdown that has returned left nothing idle
      have hclosed := (h.sound task hold).shuts (by rw [hphase]; rfl)
      simp only [Pool.shutdown, h.drained task hold hphase, h.emptied hclosed, List.length_nil]
    · rcases List.mem_append.mp hnew with hidle | hdrain
      · obtain ⟨connection, -, rfl⟩ := List.mem_map.mp hidle
        cases hphase
      · rw [List.mem_singleton.mp hdrain] at hphase
        cases hphase

/-! ## Whole runs -/

/-- **One step keeps the books right.** -/
theorem Accounted.step (h : pool.Accounted) (action : Action) : (pool.step action).Accounted := by
  cases action with
  | Acquire => exact h.acquire
  | Assign i =>
      simp only [Pool.step]
      split
      · rename_i connections hi hacquired
        exact h.recount hi ⟨.Queued, true⟩ rfl rfl (Nat.le_refl _) rfl
          (Semaphore.tryAcquire_eq_ok hacquired) rfl (Task.sound_unleased rfl rfl fun _ => rfl)
          (fun hdrained => nomatch hdrained)
      · exact h
  | Advance i => exact h.advance i
  | Fail i => exact h.fail i
  | Settle i reusable =>
      simp only [Pool.step]
      split
      · rename_i hi
        exact h.lease hi rfl rfl rfl
      · exact h
  | Drop i =>
      simp only [Pool.step]
      split
      · rename_i hi
        exact h.lease hi rfl rfl rfl
      · exact h
  | Die connection => exact h.die connection
  | Shutdown => exact h.shutdown

theorem options_step (pool : Pool) (action : Action) : (pool.step action).options = pool.options := by
  cases action <;> simp only [step, acquire, advance, fail, shutdown] <;> repeat' (first | rfl | split)

theorem Accounted.run (h : pool.Accounted) (actions : List Action) :
    (actions.foldl Pool.step pool).Accounted ∧
      (actions.foldl Pool.step pool).options = pool.options := by
  induction actions generalizing pool with
  | nil => exact ⟨h, rfl⟩
  | cons action actions ih =>
      have := ih (h.step action)
      exact ⟨this.1, this.2.trans (options_step pool action)⟩

/-- The connections that are live or retired are those that were opened. -/
theorem Accounted.perm (h : pool.Accounted) :
    (pool.live ++ pool.retired.map Prod.fst).Perm (List.range pool.state.churn.opened) := by
  refine List.perm_iff_count.mpr fun connection => ?_
  have hledger := h.ledger connection
  have hhands : (pool.tasks.flatMap fun task => task.phase.client.toList).count connection =
      total (Task.holds connection) pool.tasks := List.count_flatMap
  rw [live, List.count_append, List.count_append, hhands]
  omega

/-- Every retirement is counted under one of the causes. -/
theorem count_causes (causes : List Retirement) :
    causes.count .UnsettledLease + causes.count .ClosedClient + causes.count .Shutdown =
      causes.length := by
  induction causes with
  | nil => rfl
  | cons cause causes ih =>
      cases cause <;> simp only [List.count_cons, List.length_cons] <;> simp <;> omega

/-- A connection that is live, or retired and not yet closed, takes a place. -/
theorem Accounted.live_le (h : pool.Accounted) :
    pool.live.length + pool.tasks.countP (·.phase = .Quarantined) ≤
      pool.state.active + pool.state.idle.length := by
  have hhands : (pool.tasks.flatMap fun task => task.phase.client.toList).length =
      total (fun task => task.phase.client.toList.length) pool.tasks := List.length_flatMap
  have hle : total (fun task => task.phase.client.toList.length +
      (decide (task.phase = .Quarantined)).toNat) pool.tasks ≤ total Task.occupies pool.tasks := by
    refine total_le fun task _ => ?_
    rcases task with ⟨phase, permit⟩
    cases phase with
    | Looking client | Dropping client _ | Retiring client =>
        cases client <;> simp [Phase.client, Task.occupies, Phase.leased]
    | _ => simp [Phase.client, Task.occupies, Phase.leased]
  rw [total_add, total_toNat] at hle
  have := h.active
  rw [live, List.length_append, hhands]
  omega

theorem getElem?_put (pool : Pool) (hi : pool.tasks[i]? = some old) (new : Task) :
    (pool.put i new).tasks[i]? = some new :=
  List.getElem?_set_self (List.getElem?_eq_some_iff.mp hi).1

/-- A lease that was not settled and is dropped is over after three steps. -/
theorem dropped (pool : Pool) {i : Nat} {client : Option Connection} {permit : Bool}
    (hi : pool.tasks[i]? = some ⟨.Dropping client false, permit⟩) :
    (((pool.advance i).advance i).advance i).tasks[i]? = some ⟨.Over, false⟩ := by
  have hretiring : (pool.advance i).tasks[i]? = some ⟨.Retiring client, permit⟩ := by
    simp only [advance, hi, Bool.false_and]
    exact getElem?_put pool hi _
  generalize pool.advance i = pool at hretiring
  have hquarantined : (pool.advance i).tasks[i]? = some ⟨.Quarantined, permit⟩ := by
    cases client with
    | some connection =>
        simp only [advance, hretiring]
        exact getElem?_put pool hretiring _
    | none =>
        simp only [advance, hretiring]
        exact getElem?_put pool hretiring _
  generalize pool.advance i = pool at hquarantined
  simp only [advance, hquarantined]
  exact getElem?_put pool hquarantined _

/-- A call whose await ends without success is over after three more steps, and has nothing. -/
theorem gives_back (pool : Pool) {i : Nat} {task : Task} (hi : pool.tasks[i]? = some task)
    (hawaits : task.phase.awaits = true) :
    ([Action.Fail i, .Advance i, .Advance i, .Advance i].foldl step pool).tasks[i]? =
      some ⟨.Over, false⟩ := by
  rcases task with ⟨phase, permit⟩
  simp only [List.foldl_cons, List.foldl_nil, step]
  cases phase with
  | Queued =>
      have hleaving : (pool.fail i).tasks[i]? = some ⟨.Leaving, false⟩ := by
        simp only [fail, hi]
        exact getElem?_put pool hi _
      generalize pool.fail i = pool at hleaving
      have hover : (pool.advance i).tasks[i]? = some ⟨.Over, false⟩ := by
        simp only [advance, hleaving]
        exact getElem?_put pool hleaving _
      have hstays {pool : Pool} (hover : pool.tasks[i]? = some ⟨.Over, false⟩) :
          pool.advance i = pool := by
        simp only [advance, hover]
      rw [hstays hover, hstays hover]
      exact hover
  | Closing connection | Configuring connection =>
      have hdropping :
          (pool.fail i).tasks[i]? = some ⟨.Dropping (some connection) false, permit⟩ := by
        simp only [fail, hi]
        exact getElem?_put pool hi _
      exact dropped _ hdropping
  | Connecting =>
      have hdropping : (pool.fail i).tasks[i]? = some ⟨.Dropping none false, permit⟩ := by
        simp only [fail, hi]
        exact getElem?_put pool hi _
      exact dropped _ hdropping
  | _ => cases hawaits

end Pool

/-- **The pool accounts for every connection**, whatever the calls, the drivers and the shutdown do
    in whatever order. -/
theorem pool_accounts (options : PoolOptions) (actions : List Pool.Action) :
    let pool := Pool.run options actions
    let churn := pool.state.churn
    -- the bounds, on what is counted and on what there is
    (pool.state.active + pool.state.idle.length ≤ options.maxConnections ∧
      pool.live.length + pool.tasks.countP (·.phase = .Quarantined) ≤
        pool.state.active + pool.state.idle.length ∧
      pool.state.waiting ≤ options.maxWaiters) ∧
    -- what was opened is live or was retired, once and under one cause
    ((pool.live ++ pool.retired.map Prod.fst).Perm (List.range churn.opened) ∧
      (∀ cause, churn.retired cause = (pool.retired.map Prod.snd).count cause) ∧
      churn.opened = pool.live.length +
        (churn.retiredUnsettledLease + churn.retiredClosedClient + churn.retiredShutdown)) ∧
    churn.replacements ≤ churn.retiredUnsettledLease + churn.retiredClosedClient ∧
    -- what is missing in a semaphore is held by a task that has not given up, and a call that is
    -- cancelled gives up what it has
    (pool.connections.permits + pool.tasks.countP (·.permit) = options.maxConnections ∧
      pool.waiters.permits + pool.tasks.countP (·.phase.queued) = options.maxWaiters ∧
      (∀ task ∈ pool.tasks, task.phase = .Over → task.permit = false) ∧
      ∀ i task, pool.tasks[i]? = some task → task.phase.awaits = true →
        ([Pool.Action.Fail i, .Advance i, .Advance i, .Advance i].foldl Pool.step pool).tasks[i]? =
          some ⟨.Over, false⟩) ∧
    -- a shutdown that has returned found no lease, and none came after
    (∀ task ∈ pool.tasks, task.phase = .Drained →
      pool.state.active = 0 ∧ ∀ other ∈ pool.tasks, other.phase.leased = false) := by
  obtain ⟨h, hoptions⟩ := (Pool.accounted_new options).run actions
  intro pool churn
  change pool.Accounted at h
  change pool.options = options at hoptions
  have hwaiting := h.waiting
  have hslots := h.slots
  have hpermits := h.permits
  rw [hoptions] at hslots hpermits
  refine ⟨⟨hoptions ▸ h.bounded, h.live_le, ?_⟩, ⟨h.perm, h.causes, ?_⟩, h.replaced,
    ⟨?_, ?_, ?_, fun i task hi => pool.gives_back hi⟩, ?_⟩
  · omega
  · have hopened := h.perm.length_eq
    have hcauses := Pool.count_causes (pool.retired.map Prod.snd)
    rw [← h.causes, ← h.causes, ← h.causes] at hcauses
    simp only [List.length_append, List.length_map, List.length_range] at hopened hcauses
    change churn.retiredUnsettledLease + churn.retiredClosedClient + churn.retiredShutdown = _
      at hcauses
    change _ = churn.opened at hopened
    omega
  · rw [← hpermits, ← total_toNat]
    rfl
  · rw [← hslots, ← total_toNat]
    rfl
  · intro task htask hover
    by_contra hpermit
    have := (h.sound task htask).entitled (by simpa using hpermit)
    rw [hover] at this
    cases this
  · intro task htask hdrained
    have hzero := h.drained task htask hdrained
    refine ⟨hzero, fun other hother => ?_⟩
    have := le_total Task.occupies hother
    rw [← h.active, hzero, Nat.le_zero] at this
    simpa [Task.occupies] using this

-- a lease that is settled and returned, and a shutdown that waits for the idle connection to close
example : (Pool.run {} ([.Acquire] ++ List.replicate 4 (.Advance 0) ++ [.Settle 0 true, .Drop 0] ++
    List.replicate 2 (.Advance 0) ++ [.Shutdown, .Advance 2] ++
    List.replicate 3 (.Advance 1) ++ [.Advance 2])).tasks.map Task.phase =
      [.Over, .Over, .Drained] := by
  decide

end Eventlog.Postgres
