import Eventlog.Core.Platform
import Eventlog.Durable.Locks
import Eventlog.File.State

/-!
# Eventlog.Postgres.Locking

The advisory locks of a PostgreSQL store.

Every transaction takes the publication gate first, shared if it writes and exclusively if it reads
the feed or erases.  An append then takes its claim and its stream; a group takes its own key and
then the streams of its members, each once and in order.  All of them are held to the end of the
transaction.

A coordinate stands for the number its text is hashed to; different ones have different numbers.
-/

namespace Eventlog.Postgres

open Locks (Request)
open Mvcc (Mode)
open File (StreamId.key)

/-- What an advisory lock is taken on, for one owner's tables. -/
inductive Coordinate where
  /-- `publication_identity`. -/
  | Publication (owner : String)
  /-- `lock_identity` of a claim. -/
  | Claim (owner : String) (tenant : TenantId) (scope key : String)
  /-- `lock_identity` of a group. -/
  | AppendGroup (owner : String) (tenant : TenantId) (key : String)
  /-- `lock_identity` of a stream. -/
  | Stream (owner : String) (stream : StreamId)
  deriving DecidableEq

/-- The transactions of a store without guards, inline projectors or blobs. -/
inductive Transaction where
  | Append (stream : StreamId) (command : CommandMeta)
  | AppendGroup (group : AppendGroup)
  | Redact (stream : StreamId)
  | ForgetTenant (tenant : TenantId)
  | ReadFeed (tenant : TenantId)

/-- `publication_gate`. -/
def publicationGate (owner : String) (exclusive : Bool) : Request Coordinate :=
  ⟨.Publication owner, if exclusive then .Exclusive else .Shared⟩

/-- `lock_identity`. -/
def lockIdentity (coordinate : Coordinate) : Request Coordinate := ⟨coordinate, .Exclusive⟩

/-- The streams of a group in the order of a `BTreeSet`, each once. -/
def orderedStreams (group : AppendGroup) : List StreamId :=
  (group.appends.map StreamAppend.stream).dedup.insertionSort
    (Order.Preimage StreamId.key (· ≤ ·))

/-- The locks of a transaction, in the order it takes them.  It may end after any of them: what it
    was asked may be recorded already, a check may fail, its caller may give up. -/
def Transaction.locks (owner : String) : Transaction → List (Request Coordinate)
  | .Append stream command =>
      [publicationGate owner false] ++
        (command.claim.toList.map fun claim =>
          lockIdentity (.Claim owner stream.tenant claim.scope claim.key)) ++
        [lockIdentity (.Stream owner stream)]
  | .AppendGroup group =>
      [publicationGate owner false,
        lockIdentity (.AppendGroup owner group.tenant group.command.idempotencyKey)] ++
        (orderedStreams group).map fun stream => lockIdentity (.Stream owner stream)
  | .Redact _ => [publicationGate owner false]
  | .ForgetTenant _ => [publicationGate owner true]
  | .ReadFeed _ => [publicationGate owner true]

/-- The order in which everybody takes them. -/
def Coordinate.rank : Coordinate → ℕ ×ₗ List String
  | .Publication _ => toLex (0, [])
  | .Claim _ _ _ _ => toLex (1, [])
  | .AppendGroup _ _ _ => toLex (2, [])
  | .Stream _ stream => toLex (3, StreamId.key stream)

theorem sorted_orderedStreams (group : AppendGroup) :
    (orderedStreams group).Pairwise fun a b => StreamId.key a < StreamId.key b := by
  have hnodup : (orderedStreams group).Nodup :=
    (List.perm_insertionSort _ _).nodup_iff.mpr (List.nodup_dedup _)
  have hsorted := List.pairwise_insertionSort (Order.Preimage StreamId.key (· ≤ ·))
    (group.appends.map StreamAppend.stream).dedup
  refine (hsorted.and hnodup).imp fun {a b} hab => ?_
  exact lt_of_le_of_ne hab.1 fun hkey => hab.2 (File.StreamId.key_injective hkey)

/-- **Everybody takes their locks in one order.** -/
theorem Transaction.ascending (owner : String) (tx : Transaction) :
    Locks.Ascending Coordinate.rank (tx.locks owner) := by
  cases tx with
  | Append stream command =>
      cases hclaim : command.claim <;>
        simp [Transaction.locks, Locks.Ascending, hclaim, publicationGate, lockIdentity,
          Coordinate.rank, Prod.Lex.toLex_lt_toLex]
  | AppendGroup group =>
      have hstreams : ((orderedStreams group).map fun stream =>
          lockIdentity (.Stream owner stream)).Pairwise fun a b =>
            Coordinate.rank a.lock < Coordinate.rank b.lock := by
        refine List.pairwise_map.mpr ((sorted_orderedStreams group).imp fun hlt => ?_)
        exact Prod.Lex.toLex_lt_toLex.mpr (.inr ⟨rfl, hlt⟩)
      refine List.pairwise_append.mpr ⟨?_, hstreams, fun a ha b hb => ?_⟩
      · simp [publicationGate, lockIdentity, Coordinate.rank, Prod.Lex.toLex_lt_toLex]
      · obtain ⟨stream, -, rfl⟩ := List.mem_map.mp hb
        simp only [List.mem_cons, List.not_mem_nil, or_false] at ha
        rcases ha with rfl | rfl <;>
          simp [publicationGate, lockIdentity, Coordinate.rank, Prod.Lex.toLex_lt_toLex]
  | Redact stream => exact List.pairwise_singleton _ _
  | ForgetTenant tenant => exact List.pairwise_singleton _ _
  | ReadFeed tenant => exact List.pairwise_singleton _ _

/-! ## Runs -/

/-- What may happen next: a transaction of some owner begins, asks for its next lock, is granted
    it, or ends, be it waiting or not. -/
inductive Event where
  | Begin (owner : String) (tx : Transaction)
  | Ask (i : Nat)
  | Grant (i : Nat)
  | End (i : Nat)

def Event.action : Event → Locks.Action Coordinate
  | .Begin owner tx => .Begin (tx.locks owner)
  | .Ask i => .Ask i
  | .Grant i => .Grant i
  | .End i => .End i

/-- Where any interleaving leads. -/
def locking (events : List Event) : Locks.System Coordinate :=
  events.foldl (fun s e => s.step e.action) .new

theorem locking_ordered (events : List Event) : (locking events).Ordered Coordinate.rank := by
  induction events using List.reverseRecOn with
  | nil => exact fun _ ht => nomatch ht
  | append_singleton events e ih =>
      rw [locking, List.foldl_concat]
      refine ih.step e.action fun requests hbegin => ?_
      cases e with
      | Begin owner tx =>
          cases hbegin
          exact tx.ascending owner
      | _ => exact nomatch hbegin

/-- **Concurrent transactions never deadlock** on the advisory locks, however they interleave. -/
theorem locking_acyclic (events : List Event) (i : Nat) :
    ¬ Relation.TransGen (locking events).WaitsFor i i :=
  (locking_ordered events).acyclic i

-- a feed reader does wait for a redaction under way
example : (locking [.Begin "e" (.Redact sampleStream), .Ask 0, .Grant 0,
    .Begin "e" (.ReadFeed sampleTenant), .Ask 1]).WaitsFor 1 0 :=
  ⟨_, _, _, _, rfl, rfl, rfl, by decide, .inl rfl⟩

end Eventlog.Postgres
