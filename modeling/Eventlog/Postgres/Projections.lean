import Eventlog.Durable.Paging
import Eventlog.Sqlite.Projections

/-!
# Eventlog.Postgres.Projections

Listing a projection of a PostgreSQL store.

`row_key` is a `text` column without a collation of its own: `row_key > $2` and
`ORDER BY row_key` compare as the database does.  The order is a parameter here, any strict total
order of strings.
-/

namespace Eventlog.Postgres

open Durable Durable.Paging
open Sqlite (ProjectionPage)
open Sqlite.Engine (pageRows)

/-- A row of a projection table. -/
structure ProjectionRow where
  tenant : TenantId
  key : String
  body : Json
  deriving DecidableEq

/-- A projection table, with its primary key. -/
structure ProjectionTable where
  rows : List ProjectionRow
  primary : (rows.map fun row => (row.tenant, row.key)).Nodup

/-- The rows of a tenant. -/
def ProjectionTable.ofTenant (t : ProjectionTable) (tenant : TenantId) : List (String × Json) :=
  (t.rows.filter fun row => row.tenant = tenant).map fun row => (row.key, row.body)

section Collation

variable (lt : String → String → Prop) [DecidableRel lt]

/-- Not behind, in the collation. -/
def notAfter (a b : String × Json) : Prop := ¬ lt b.1 a.1

instance : DecidableRel (notAfter lt) := fun a b => inferInstanceAs (Decidable (¬ lt b.1 a.1))

/-- `ORDER BY row_key`. -/
def orderByKey (rows : List (String × Json)) : List (String × Json) :=
  rows.insertionSort (notAfter lt)

/-- `projection_list`. -/
def projectionList (t : ProjectionTable) (spec : ProjectionSpec) (tenant : TenantId)
    (after : Option String) (limit : Nat) : Except EventLogError (List (String × Json)) := do
  spec.validate
  let found := (t.ofTenant tenant).filter fun row => decide (lt (after.getD "") row.1)
  return (orderByKey lt found).take (boundedLimit limit)

/-- `projection_page`: the store takes the trait's own. -/
def projectionPage (t : ProjectionTable) (spec : ProjectionSpec) (tenant : TenantId)
    (pre cursor : Option String) (limit : Nat) : Except EventLogError ProjectionPage := do
  let after := cursor.getD (pre.getD "")
  let fetched ← projectionList lt t spec tenant (some after) (boundedLimit limit + 1)
  return pageRows (pre.getD "") (boundedLimit limit) fetched

variable {lt} [IsStrictTotalOrder String lt]

instance : Std.Total (notAfter lt) where
  total a b := by
    by_cases h : lt b.1 a.1
    · exact .inr (asymm h)
    · exact .inl h

instance : IsTrans (String × Json) (notAfter lt) where
  trans a b c hab hbc hca := by
    rcases trichotomous_of lt b.1 c.1 with h | h | h
    · exact hab (Trans.trans h hca)
    · exact hab (h ▸ hca)
    · exact hbc h

/-- Rows with different keys, ordered by key, go up. -/
theorem sorted_orderByKey (lt : String → String → Prop) [DecidableRel lt]
    [IsStrictTotalOrder String lt] {rows : List (String × Json)} (h : (rows.map Prod.fst).Nodup) :
    (orderByKey lt rows).Pairwise fun a b => lt a.1 b.1 := by
  have hperm : (orderByKey lt rows).Perm rows := List.perm_insertionSort _ _
  have hnodup : ((orderByKey lt rows).map Prod.fst).Nodup := (hperm.map _).nodup_iff.mpr h
  have hkeys := List.pairwise_map.mp hnodup
  refine ((List.pairwise_insertionSort (notAfter lt) rows).and hkeys).imp fun {a b} hab => ?_
  rcases trichotomous_of lt a.1 b.1 with hlt | heq | hgt
  · exact hlt
  · exact absurd heq hab.2
  · exact absurd hgt hab.1

/-- It is all the same whether rows are selected by key before they are ordered or after. -/
theorem orderByKey_filter {rows : List (String × Json)} (h : (rows.map Prod.fst).Nodup)
    (c : String) :
    orderByKey lt (rows.filter fun row => decide (lt c row.1)) =
      behind lt (orderByKey lt rows) c := by
  have hsub : ((rows.filter fun row => decide (lt c row.1)).map Prod.fst).Nodup :=
    h.sublist (List.filter_sublist.map _)
  refine List.Perm.eq_of_pairwise (fun a b _ _ hab hba => absurd hba (asymm hab))
    (sorted_orderByKey lt hsub) ((sorted_orderByKey lt h).sublist List.filter_sublist) ?_
  exact (List.perm_insertionSort _ _).trans ((List.perm_insertionSort _ rows).filter _).symm

theorem ProjectionTable.ofTenant_nodup (t : ProjectionTable) (tenant : TenantId) :
    ((t.ofTenant tenant).map Prod.fst).Nodup := by
  have hprimary := List.pairwise_map.mp t.primary
  rw [ofTenant, List.map_map]
  refine List.pairwise_map.mpr ((hprimary.sublist List.filter_sublist).imp_of_mem ?_)
  intro a b ha hb hne hkey
  have htenant : a.tenant = b.tenant := by
    rw [of_decide_eq_true (List.mem_filter.mp ha).2, of_decide_eq_true (List.mem_filter.mp hb).2]
  exact hne (Prod.ext htenant hkey)

end Collation

end Eventlog.Postgres
