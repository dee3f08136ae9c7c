import Eventlog.Durable.Tally

/-!
# Eventlog.Postgres.Pool

The bounded connection pool of a PostgreSQL store.

A call of `acquire`, the lease it returns and the task that closes a retired connection are one
`Task` here, in one `Phase` after another; so are a call of `shutdown` and the leases it drops.  A
step of a task is what it does under the lock of the pool, or between two locks.  Tasks interleave
at every step, and an action that cannot happen now changes nothing.

A connection is named by how many were opened before it.  `Pool.retired` records which connection
was retired under which cause; the code only counts them.
-/

namespace Eventlog.Postgres

/-- The limits of `PoolOptions`; its deadlines may pass at any moment. -/
structure PoolOptions where
  maxConnections : Nat := 4
  maxWaiters : Nat := 32

/-! ## Churn -/

inductive Retirement where
  | UnsettledLease
  | ClosedClient
  | Shutdown
  deriving DecidableEq

def Retirement.of (poolClosed clientClosed : Bool) : Retirement :=
  if poolClosed then .Shutdown else if clientClosed then .ClosedClient else .UnsettledLease

structure PoolChurn where
  opened : Nat := 0
  replacements : Nat := 0
  retiredUnsettledLease : Nat := 0
  retiredClosedClient : Nat := 0
  retiredShutdown : Nat := 0
  deriving DecidableEq

def PoolChurn.retire (churn : PoolChurn) : Retirement → PoolChurn
  | .UnsettledLease => { churn with retiredUnsettledLease := churn.retiredUnsettledLease + 1 }
  | .ClosedClient => { churn with retiredClosedClient := churn.retiredClosedClient + 1 }
  | .Shutdown => { churn with retiredShutdown := churn.retiredShutdown + 1 }

def PoolChurn.open (churn : PoolChurn) : PoolChurn :=
  { churn with
    opened := churn.opened + 1
    replacements :=
      if churn.retiredUnsettledLease + churn.retiredClosedClient > churn.replacements then
        churn.replacements + 1
      else churn.replacements }

/-- What was counted under a cause. -/
def PoolChurn.retired (churn : PoolChurn) : Retirement → Nat
  | .UnsettledLease => churn.retiredUnsettledLease
  | .ClosedClient => churn.retiredClosedClient
  | .Shutdown => churn.retiredShutdown

@[simp] theorem PoolChurn.opened_retire (churn : PoolChurn) (cause : Retirement) :
    (churn.retire cause).opened = churn.opened := by
  cases cause <;> rfl

theorem PoolChurn.retired_retire (churn : PoolChurn) (cause cause' : Retirement) :
    (churn.retire cause).retired cause' = churn.retired cause' + [cause].count cause' := by
  cases cause <;> cases cause' <;> rfl

/-- The retirements that call for a replacement do not become fewer. -/
theorem PoolChurn.replacements_retire {churn : PoolChurn} (cause : Retirement)
    (h : churn.replacements ≤ churn.retiredUnsettledLease + churn.retiredClosedClient) :
    (churn.retire cause).replacements ≤
      (churn.retire cause).retiredUnsettledLease + (churn.retire cause).retiredClosedClient := by
  cases cause <;> simp only [retire] <;> omega

theorem PoolChurn.replacements_open {churn : PoolChurn}
    (h : churn.replacements ≤ churn.retiredUnsettledLease + churn.retiredClosedClient) :
    churn.open.replacements ≤ churn.open.retiredUnsettledLease + churn.open.retiredClosedClient := by
  simp only [PoolChurn.open]
  split <;> omega

/-! ## The state of a pool -/

inductive TryAcquireError where
  | Closed
  | NoPermits

/-- A counting semaphore.  It serves its queue in order; here a free permit goes to anyone. -/
structure Semaphore where
  permits : Nat
  closed : Bool := false

namespace Semaphore

def tryAcquire (s : Semaphore) : Except TryAcquireError Semaphore :=
  if s.closed then .error .Closed
  else match s.permits with
    | 0 => .error .NoPermits
    | permits + 1 => .ok { s with permits }

/-- A permit is dropped, if there is one. -/
def release (s : Semaphore) (permit : Bool) : Semaphore :=
  { s with permits := s.permits + permit.toNat }

def close (s : Semaphore) : Semaphore := { s with closed := true }

theorem tryAcquire_eq_ok {s s' : Semaphore} (h : s.tryAcquire = .ok s') :
    s'.permits + 1 = s.permits := by
  unfold tryAcquire at h
  split at h
  · cases h
  · split at h
    · cases h
    · rename_i permits hpermits
      obtain rfl := Except.ok.inj h
      exact hpermits.symm

end Semaphore

/-- A connection, named by how many the pool opened before it. -/
abbrev Connection := Nat

structure PoolState where
  active : Nat := 0
  waiting : Nat := 0
  idle : List Connection := []
  closed : Bool := false
  churn : PoolChurn := {}

namespace PoolState

/-- `idle.pop()`: the connection that was returned last. -/
def pop (state : PoolState) : PoolState × Option Connection :=
  ({ state with idle := state.idle.dropLast }, state.idle.getLast?)

/-- The part of `checkout` under the lock; the lease gets the connection. -/
def checkout (state : PoolState) : PoolState × Option Connection :=
  { state with active := state.active + 1 }.pop

theorem count_pop (state : PoolState) (connection : Connection) :
    state.pop.2.toList.count connection + state.pop.1.idle.count connection =
      state.idle.count connection := by
  unfold pop
  rcases List.eq_nil_or_concat state.idle with hnil | ⟨rest, last, hlast⟩
  · simp [hnil]
  · simp [hlast, Nat.add_comm]

theorem length_pop (state : PoolState) :
    state.pop.1.idle.length = state.idle.length - 1 := by
  simp [pop]

end PoolState

/-- Where a task stands. -/
inductive Phase where
  /-- `acquire` awaits a permit in the queue, with a `Waiting` guard. -/
  | Queued
  /-- The await is over without a permit; the `Waiting` guard is still to be dropped. -/
  | Leaving
  /-- The pool was closed when the permit came; the permit is still to be dropped. -/
  | Refused
  /-- At the head of the loop of `acquire`. -/
  | Looking (client : Option Connection)
  /-- Awaits `connection.close()`. -/
  | Closing (connection : Connection)
  /-- Awaits `connect()`. -/
  | Connecting
  /-- Awaits the session configuration. -/
  | Configuring (connection : Connection)
  /-- Out of the loop, before the last look at `closed`. -/
  | Checking (connection : Connection)
  /-- The caller has the lease. -/
  | Held (connection : Connection) (reusable : Bool)
  /-- `Lease::drop` begins. -/
  | Dropping (client : Option Connection) (reusable : Bool)
  /-- `Lease::drop` found the pool open and will look again. -/
  | Recycling (connection : Connection)
  /-- `Lease::drop` will retire what the lease has. -/
  | Retiring (client : Option Connection)
  /-- The spawned task holds the `RetiredOccupancy`. -/
  | Quarantined
  /-- `shutdown` awaits the return of all leases. -/
  | Draining
  /-- `shutdown` has returned `Ok`. -/
  | Drained
  | Over
  deriving DecidableEq

/-- A task, and whether it holds a permit for a connection. -/
structure Task where
  phase : Phase
  permit : Bool
  deriving DecidableEq

structure Pool where
  options : PoolOptions
  connections : Semaphore
  waiters : Semaphore
  state : PoolState
  tasks : List Task
  /-- The connections whose driver has ended or was severed. -/
  dead : List Connection
  retired : List (Connection × Retirement)

namespace Pool

def new (options : PoolOptions) : Pool where
  options
  connections := { permits := options.maxConnections }
  waiters := { permits := options.maxWaiters }
  state := {}
  tasks := []
  dead := []
  retired := []

def put (pool : Pool) (i : Nat) (task : Task) : Pool :=
  { pool with tasks := pool.tasks.set i task }

/-- `client.is_closed()`. -/
def isClosed (pool : Pool) (connection : Connection) : Bool := pool.dead.contains connection

/-! ## The steps -/

/-- The first lock of `acquire`.  A call that is refused leaves no task. -/
def acquire (pool : Pool) : Pool :=
  if pool.state.closed then pool -- `Closed`
  else
    match pool.connections.tryAcquire with
    | .ok connections =>
        { pool with
          connections
          state := pool.state.checkout.1
          tasks := pool.tasks ++ [⟨.Looking pool.state.checkout.2, true⟩] }
    | .error .Closed => pool -- `Closed`
    | .error .NoPermits =>
        match pool.waiters.tryAcquire with
        | .error _ => pool -- `Overloaded`
        | .ok waiters =>
            { pool with
              waiters
              state := { pool.state with waiting := pool.state.waiting + 1 }
              tasks := pool.tasks ++ [⟨.Queued, false⟩] }

/-- `Waiting::finish`. -/
def finish (pool : Pool) : Pool :=
  { pool with
    waiters := pool.waiters.release true
    state := { pool.state with waiting := pool.state.waiting - 1 } }

/-- A retirement is counted. -/
def retire (pool : Pool) (connection : Connection) (clientClosed : Bool) : Pool :=
  let cause := Retirement.of pool.state.closed clientClosed
  { pool with
    state := { pool.state with churn := pool.state.churn.retire cause }
    retired := (connection, cause) :: pool.retired }

/-- The occupancy of a lease ends, and its permit is dropped. -/
def vacate (pool : Pool) (permit : Bool) : Pool :=
  { pool with
    connections := pool.connections.release permit
    state := { pool.state with active := pool.state.active - 1 } }

/-- A task takes its next step, its await having succeeded if it stands at one. -/
def advance (pool : Pool) (i : Nat) : Pool :=
  match pool.tasks[i]? with
  | some ⟨.Queued, true⟩ =>
      if pool.state.closed then pool.finish.put i ⟨.Refused, true⟩
      else
        { pool.finish with state := pool.finish.state.checkout.1 }.put i
          ⟨.Looking pool.finish.state.checkout.2, true⟩
  | some ⟨.Leaving, permit⟩ => pool.finish.put i ⟨.Over, permit⟩
  | some ⟨.Refused, permit⟩ =>
      { pool with connections := pool.connections.release permit }.put i ⟨.Over, false⟩
  | some ⟨.Looking (some connection), permit⟩ =>
      if pool.isClosed connection then pool.put i ⟨.Closing connection, permit⟩
      else pool.put i ⟨.Checking connection, permit⟩
  | some ⟨.Looking none, permit⟩ =>
      if pool.state.closed then pool.put i ⟨.Dropping none false, permit⟩ -- `Closed`
      else pool.put i ⟨.Connecting, permit⟩
  | some ⟨.Closing connection, permit⟩ =>
      let counted := pool.retire connection true
      { counted with state := counted.state.pop.1 }.put i ⟨.Looking counted.state.pop.2, permit⟩
  | some ⟨.Connecting, permit⟩ =>
      { pool with state := { pool.state with churn := pool.state.churn.open } }.put i
        ⟨.Configuring pool.state.churn.opened, permit⟩
  | some ⟨.Configuring connection, permit⟩ => pool.put i ⟨.Checking connection, permit⟩
  | some ⟨.Checking connection, permit⟩ =>
      if pool.state.closed then pool.put i ⟨.Dropping (some connection) false, permit⟩ -- `Closed`
      else pool.put i ⟨.Held connection false, permit⟩
  | some ⟨.Dropping client reusable, permit⟩ =>
      match reusable && !pool.state.closed, client with
      | true, some connection => pool.put i ⟨.Recycling connection, permit⟩
      | _, _ => pool.put i ⟨.Retiring client, permit⟩
  | some ⟨.Recycling connection, permit⟩ =>
      if !pool.isClosed connection && !pool.state.closed then
        { pool with state := { pool.state with idle := pool.state.idle ++ [connection] } }.vacate
          permit |>.put i ⟨.Over, false⟩
      else pool.put i ⟨.Retiring (some connection), permit⟩
  | some ⟨.Retiring (some connection), permit⟩ =>
      let counted := pool.retire connection (pool.isClosed connection)
      { counted with dead := connection :: counted.dead }.put i ⟨.Quarantined, permit⟩
  | some ⟨.Retiring none, permit⟩ => pool.put i ⟨.Quarantined, permit⟩
  | some ⟨.Quarantined, permit⟩ => (pool.vacate permit).put i ⟨.Over, false⟩
  | some ⟨.Draining, permit⟩ => if pool.state.active = 0 then pool.put i ⟨.Drained, permit⟩ else pool
  | _ => pool

/-- The await of a task ends without success: its future is dropped, its deadline passes, the
    semaphore is closed, the connection attempt or the session configuration fails. -/
def fail (pool : Pool) (i : Nat) : Pool :=
  match pool.tasks[i]? with
  | some ⟨.Queued, permit⟩ =>
      -- a permit that was assigned and never taken goes back with the future
      { pool with connections := pool.connections.release permit }.put i ⟨.Leaving, false⟩
  | some ⟨.Closing connection, permit⟩ => pool.put i ⟨.Dropping (some connection) false, permit⟩
  | some ⟨.Connecting, permit⟩ => pool.put i ⟨.Dropping none false, permit⟩
  | some ⟨.Configuring connection, permit⟩ =>
      pool.put i ⟨.Dropping (some connection) false, permit⟩
  | some ⟨.Draining, permit⟩ => pool.put i ⟨.Over, permit⟩
  | _ => pool

/-- The lock of `shutdown`, and the leases it drops then. -/
def shutdown (pool : Pool) : Pool :=
  { pool with
    connections := pool.connections.close
    waiters := pool.waiters.close
    state := { pool.state with
      closed := true, idle := [], active := pool.state.active + pool.state.idle.length }
    tasks := pool.tasks ++
      (pool.state.idle.map (fun connection => ⟨.Dropping (some connection) true, false⟩) ++
        [⟨.Draining, false⟩]) }

inductive Action where
  | Acquire
  /-- The semaphore gives a permit to a queued call. -/
  | Assign (i : Nat)
  | Advance (i : Nat)
  | Fail (i : Nat)
  /-- `Lease::settled` or `Lease::quarantine`. -/
  | Settle (i : Nat) (reusable : Bool)
  /-- The caller drops a lease. -/
  | Drop (i : Nat)
  /-- The driver of a connection ends. -/
  | Die (connection : Connection)
  | Shutdown

def step (pool : Pool) : Action → Pool
  | .Acquire => pool.acquire
  | .Assign i =>
      match pool.tasks[i]?, pool.connections.tryAcquire with
      | some ⟨.Queued, false⟩, .ok connections => { pool with connections }.put i ⟨.Queued, true⟩
      | _, _ => pool
  | .Advance i => pool.advance i
  | .Fail i => pool.fail i
  | .Settle i reusable =>
      match pool.tasks[i]? with
      | some ⟨.Held connection _, permit⟩ => pool.put i ⟨.Held connection reusable, permit⟩
      | _ => pool
  | .Drop i =>
      match pool.tasks[i]? with
      | some ⟨.Held connection reusable, permit⟩ =>
          pool.put i ⟨.Dropping (some connection) reusable, permit⟩
      | _ => pool
  | .Die connection => { pool with dead := connection :: pool.dead }
  | .Shutdown => pool.shutdown

/-- A pool after a run of actions. -/
def run (options : PoolOptions) (actions : List Action) : Pool := actions.foldl step (new options)

end Pool

end Eventlog.Postgres
