import Eventlog.Durable.Paging
import Eventlog.File.Replay
import Eventlog.Sqlite.Projections

/-!
# Eventlog.Contract.Paging

Following the cursors of `projection_page`.

`projection_page` asks `projection_list` for one row more than a page may have, to learn whether
there is a next page.  `projection_list` clamps what it is asked for once more: of a page of
`MAX_READ_LIMIT` rows the one more never arrives, and the page is taken for the last
(`pageOf_full`).  Below that limit the pages are complete (`pagesAll_of_lt`).
-/

namespace Eventlog

open Durable Durable.Paging
open Sqlite (ProjectionPage)
open Sqlite.Engine (pageRows)

/-- `key` starts with `pre` and is longer. -/
def extending (pre key : String) : Bool :=
  pre.toList.isPrefixOf key.toList && decide (key ≠ pre)

/-- Following the cursors, from one on: the page read at moment `i`, and the `n` after it. -/
inductive Follows (read : Nat → Option String → Except EventLogError ProjectionPage) :
    Nat → Option String → Nat → List (String × Json) → Prop
  | last {i : Nat} {c : Option String} {rows : List (String × Json)}
      (h : read i c = .ok ⟨rows, none⟩) : Follows read i c 0 rows
  | next {i n : Nat} {c : Option String} {c' : String} {rows more : List (String × Json)}
      (h : read i c = .ok ⟨rows, some c'⟩) (rest : Follows read (i + 1) (some c') n more) :
      Follows read i c (n + 1) (rows ++ more)

/-- The law of paging, for a table of which `rowsAt` are the rows at each moment. -/
structure PagesAll (rowsAt : Nat → List (String × Json))
    (read : Nat → Option String → Except EventLogError ProjectionPage) (pre : String) : Prop where
  /-- The pages of a table that stays as it is come to an end, and are what extends the prefix. -/
  whole : (∀ i, rowsAt i = rowsAt 0) →
    ∃ n, Follows read 0 none n ((rowsAt 0).filter fun row => extending pre row.1)
  /-- Whatever is written between two pages, a row behind the cursor is not skipped. -/
  kept : ∀ i c n out, Follows read i c n out → (∀ key, c = some key → extending pre key) →
    ∀ row, (∀ j, i ≤ j → j ≤ i + n → row ∈ rowsAt j) → extending pre row.1 →
      c.getD pre < row.1 → row ∈ out
  /-- No key is handed out twice, and the keys go up. -/
  once : ∀ i c n out, Follows read i c n out → out.Pairwise fun a b => a.1 < b.1

/-- The page a store hands out of the rows it lists, in the order it lists them. -/
def pageOf (lt : String → String → Prop) [DecidableRel lt] (pre : String) (limit : Nat) (rows : List (String × Json)) (cursor : Option String) :
    ProjectionPage :=
  pageRows pre (boundedLimit limit)
    ((behind lt rows (cursor.getD pre)).take (boundedLimit (boundedLimit limit + 1)))

section Law

variable {lt : String → String → Prop} [DecidableRel lt] {pre : String} {limit : Nat} {rowsAt : Nat → List (String × Json)}
  {rows : List (String × Json)}

/-- Where the loop of `projection_page` stops. -/
def scopeOf (pre key : String) : Bool := pre.toList.isPrefixOf key.toList

theorem pageRows_eq (pre : String) (limit : Nat) (fetched : List (String × Json)) :
    pageRows pre limit fetched =
      ⟨(page (scopeOf pre) limit fetched).1, (page (scopeOf pre) limit fetched).2⟩ := by
  unfold pageRows page scopeOf
  dsimp only
  split <;> rfl

theorem lt_of_extending {key : String} (h : extending pre key) : pre < key := by
  simp only [extending, Bool.and_eq_true, decide_eq_true_eq] at h
  exact String.lt_iff_toList_lt.mpr (lt_extension (List.isPrefixOf_iff_prefix.mp h.1)
    fun heq => h.2 (String.toList_inj.mp heq))

theorem scopeOf_of_between {key key' : String} (h : extending pre key') (hlow : pre < key)
    (hhigh : key < key') : scopeOf pre key := by
  simp only [extending, Bool.and_eq_true] at h
  exact List.isPrefixOf_iff_prefix.mpr (prefix_of_between (List.isPrefixOf_iff_prefix.mp h.1)
    (String.lt_iff_toList_lt.mp hlow) (String.lt_iff_toList_lt.mp hhigh))

theorem extending_of_scopeOf {key : String} (h : scopeOf pre key) (hlt : pre < key) :
    extending pre key := by
  simp only [extending, Bool.and_eq_true, decide_eq_true_eq]
  exact ⟨h, ne_of_gt hlt⟩

/-- Behind the prefix itself lies what extends it, before anything else. -/
theorem stretch_pre (hsorted : rows.Pairwise fun a b => a.1 < b.1) :
    stretch (· < ·) (scopeOf pre) rows pre = rows.filter fun row => extending pre row.1 := by
  have hcloses : (behind (· < ·) rows pre).Pairwise fun a b =>
      scopeOf pre b.1 → scopeOf pre a.1 := by
    refine (hsorted.sublist List.filter_sublist).imp_of_mem fun ha hb hlt hscope => ?_
    have hpa := of_decide_eq_true (List.mem_filter.mp ha).2
    have hpb := of_decide_eq_true (List.mem_filter.mp hb).2
    exact scopeOf_of_between (extending_of_scopeOf hscope hpb) hpa hlt
  rw [stretch, takeWhile_eq_filter hcloses, behind, List.filter_filter]
  refine List.filter_congr fun row _ => ?_
  rw [Bool.eq_iff_iff, Bool.and_eq_true, decide_eq_true_eq]
  refine ⟨fun h => extending_of_scopeOf h.1 h.2, fun h => ⟨?_, lt_of_extending h⟩⟩
  exact (Bool.and_eq_true _ _ ▸ h : _ ∧ _).1

/-- A read is the page that `pageOf` hands out. -/
def Reads (lt : String → String → Prop) [DecidableRel lt]
    (rowsAt : Nat → List (String × Json)) (pre : String) (limit : Nat)
    (read : Nat → Option String → Except EventLogError ProjectionPage) : Prop :=
  ∀ i c, read i c = .ok (pageOf lt pre limit (rowsAt i) c)

variable {read : Nat → Option String → Except EventLogError ProjectionPage}

theorem Reads.pages (hread : Reads lt rowsAt pre limit read) {i n : Nat} {c : Option String}
    {out : List (String × Json)} (h : Follows read i c n out) :
    Pages (fun i c => page (scopeOf pre) (boundedLimit limit) ((behind lt (rowsAt i) c).take
      (boundedLimit (boundedLimit limit + 1)))) i (c.getD pre) n out := by
  induction h with
  | @last i c rows h =>
      have hpage := Except.ok.inj ((hread i c).symm.trans h)
      rw [pageOf, pageRows_eq] at hpage
      obtain ⟨hrows, hnext⟩ := ProjectionPage.mk.inj hpage
      exact .last (Prod.ext hrows hnext)
  | @next i n c c' rows more h _ ih =>
      have hpage := Except.ok.inj ((hread i c).symm.trans h)
      rw [pageOf, pageRows_eq] at hpage
      obtain ⟨hrows, hnext⟩ := ProjectionPage.mk.inj hpage
      exact .next (Prod.ext hrows hnext) ih

theorem Reads.follows (hread : Reads lt rowsAt pre limit read) {i n : Nat} {key : String}
    {c : Option String} {out : List (String × Json)}
    (h : Pages (fun i c => page (scopeOf pre) (boundedLimit limit)
      ((behind lt (rowsAt i) c).take (boundedLimit (boundedLimit limit + 1)))) i key n out)
    (hkey : c.getD pre = key) : Follows read i c n out := by
  induction h generalizing c with
  | @last i key rows h =>
      subst hkey
      refine .last ((hread i c).trans ?_)
      rw [pageOf, pageRows_eq, h]
  | @next i n key key' rows more h _ ih =>
      subst hkey
      refine .next ((hread i c).trans ?_) (ih rfl)
      rw [pageOf, pageRows_eq, h]

theorem boundedLimit_le (limit : Nat) : boundedLimit limit ≤ MAX_READ_LIMIT := by
  unfold boundedLimit
  omega

/-- Below the greatest limit the one row more is listed. -/
theorem lt_boundedLimit_succ (h : boundedLimit limit < MAX_READ_LIMIT) :
    boundedLimit limit < boundedLimit (boundedLimit limit + 1) := by
  have hmin : boundedLimit (boundedLimit limit + 1) =
      min (max (boundedLimit limit + 1) 1) MAX_READ_LIMIT := rfl
  omega

/-- At the greatest limit it is not, and every page is taken for the last. -/
theorem pageOf_full (h : boundedLimit limit = MAX_READ_LIMIT) (rows : List (String × Json))
    (c : Option String) :
    pageOf (· < ·) pre limit rows c =
      ⟨(stretch (· < ·) (scopeOf pre) rows (c.getD pre)).take MAX_READ_LIMIT, none⟩ := by
  have hsucc : boundedLimit (MAX_READ_LIMIT + 1) = MAX_READ_LIMIT := rfl
  rw [pageOf, pageRows_eq, h, hsucc, page_behind, if_neg]
  rw [List.length_take]
  omega

theorem le_cursor {c : Option String} (h : ∀ key, c = some key → extending pre key) :
    pre ≤ c.getD pre := by
  cases c with
  | none => exact le_refl _
  | some key => exact le_of_lt (lt_of_extending (h key rfl))

/-- From the cursor up to a row that extends the prefix, everything is in scope. -/
theorem scopeOf_up_to {c : Option String} (hc : ∀ key, c = some key → extending pre key)
    {row r : String × Json} (hrow : extending pre row.1) (hr : c.getD pre < r.1)
    (h : r = row ∨ r.1 < row.1) : scopeOf pre r.1 := by
  rcases h with rfl | hlt
  · exact (Bool.and_eq_true _ _ ▸ hrow : _ ∧ _).1
  · exact scopeOf_of_between hrow (lt_of_le_of_lt (le_cursor hc) hr) hlt

theorem Reads.pagesAll_of_lt (hread : Reads (· < ·) rowsAt pre limit read)
    (hsorted : ∀ i, (rowsAt i).Pairwise fun a b => a.1 < b.1)
    (hlimit : boundedLimit limit < MAX_READ_LIMIT) : PagesAll rowsAt read pre where
  whole hsame := by
    obtain ⟨n, hpages⟩ := takes_all (scopeOf pre) (hsorted 0) (boundedLimit_pos limit)
      (lt_boundedLimit_succ hlimit) 0 pre
    rw [stretch_pre (hsorted 0)] at hpages
    have hrows : rowsAt = fun _ => rowsAt 0 := funext hsame
    refine ⟨n, hread.follows ?_ rfl⟩
    rw [hrows]
    exact hpages
  kept i c n out hfollows hc row hrow hextends hlt :=
    (hread.pages hfollows).mem hsorted (boundedLimit_pos limit) (lt_boundedLimit_succ hlimit)
      hrow hlt fun _ _ _ hr h => scopeOf_up_to hc hextends hr h
  once i c n out hfollows :=
    ((hread.pages hfollows).sorted hsorted (boundedLimit_pos limit)
      (lt_boundedLimit_succ hlimit)).2

/-- Behind a cursor there is at most what extends the prefix. -/
theorem stretch_length_le (rows : List (String × Json)) {c : String} (hc : pre ≤ c) :
    (stretch (· < ·) (scopeOf pre) rows c).length ≤
      (rows.filter fun row => extending pre row.1).length := by
  have hall : ∀ row ∈ stretch (· < ·) (scopeOf pre) rows c, extending pre row.1 := by
    intro row hrow
    obtain ⟨-, hlt, hscope⟩ := mem_stretch hrow
    exact extending_of_scopeOf hscope (lt_of_le_of_lt hc hlt)
  have hsub : (stretch (· < ·) (scopeOf pre) rows c).Sublist rows :=
    (List.takeWhile_sublist _).trans List.filter_sublist
  have hfilter := hsub.filter fun row => extending pre row.1
  rw [List.filter_eq_self.mpr hall] at hfilter
  exact hfilter.length_le

/-- One page holds all that lies behind a cursor, if no more extends the prefix. -/
theorem pageOf_full_of_le (hfull : boundedLimit limit = MAX_READ_LIMIT)
    (hfew : (rows.filter fun row => extending pre row.1).length ≤ MAX_READ_LIMIT)
    {c : Option String} (hc : ∀ key, c = some key → extending pre key) :
    pageOf (· < ·) pre limit rows c = ⟨stretch (· < ·) (scopeOf pre) rows (c.getD pre), none⟩ := by
  rw [pageOf_full hfull, List.take_of_length_le]
  exact (stretch_length_le rows (le_cursor hc)).trans hfew

theorem Reads.pagesAll_of_le (hread : Reads (· < ·) rowsAt pre limit read)
    (hsorted : ∀ i, (rowsAt i).Pairwise fun a b => a.1 < b.1)
    (hfull : boundedLimit limit = MAX_READ_LIMIT)
    (hfew : ∀ i, ((rowsAt i).filter fun row => extending pre row.1).length ≤ MAX_READ_LIMIT) :
    PagesAll rowsAt read pre where
  whole _ := by
    refine ⟨0, .last ((hread 0 none).trans ?_)⟩
    rw [pageOf_full_of_le hfull (hfew 0) (c := none) (by simp)]
    exact congrArg (fun rows => Except.ok (ProjectionPage.mk rows none)) (stretch_pre (hsorted 0))
  kept i c n out hfollows hc row hrow hextends hlt := by
    cases hfollows with
    | last h =>
        rw [hread, pageOf_full_of_le hfull (hfew i) hc] at h
        obtain ⟨rfl, -⟩ := ProjectionPage.mk.inj (Except.ok.inj h)
        exact mem_stretch_of (hsorted i) (hrow i (by omega) (by omega)) hlt
          fun r _ hr h => scopeOf_up_to hc hextends hr h
    | next h _ =>
        rw [hread, pageOf_full_of_le hfull (hfew i) hc] at h
        exact nomatch (ProjectionPage.mk.inj (Except.ok.inj h)).2
  once i c n out hfollows := by
    cases hfollows with
    | last h =>
        rw [hread, pageOf_full hfull] at h
        obtain ⟨rfl, -⟩ := ProjectionPage.mk.inj (Except.ok.inj h)
        exact (sorted_stretch (hsorted i) _ _).sublist (List.take_sublist _ _)
    | next h _ =>
        rw [hread, pageOf_full hfull] at h
        exact nomatch (ProjectionPage.mk.inj (Except.ok.inj h)).2

/-- A page of the greatest limit drops the rows it has no room for. -/
theorem Reads.not_pagesAll (hread : Reads (· < ·) rowsAt pre limit read)
    (hsorted : ∀ i, (rowsAt i).Pairwise fun a b => a.1 < b.1)
    (hfull : boundedLimit limit = MAX_READ_LIMIT) {i : Nat}
    (hmany : MAX_READ_LIMIT < ((rowsAt i).filter fun row => extending pre row.1).length) :
    ¬ PagesAll rowsAt read pre := by
  intro h
  have hpage := hread i none
  rw [pageOf_full hfull, Option.getD_none, stretch_pre (hsorted i)] at hpage
  have hordered := (hsorted i).sublist (List.filter_sublist (p := fun row => extending pre row.1))
  generalize hF : ((rowsAt i).filter fun row => extending pre row.1) = F at *
  rw [← List.take_append_drop MAX_READ_LIMIT F] at hordered
  obtain ⟨row, hrow⟩ := List.exists_mem_of_length_pos
    (l := F.drop MAX_READ_LIMIT) (by rw [List.length_drop]; omega)
  have hmem := List.mem_of_mem_drop hrow
  rw [← hF] at hmem
  obtain ⟨hin, hextends⟩ := List.mem_filter.mp hmem
  have htaken := h.kept i none 0 _ (.last hpage) (fun _ h => nomatch h) row
    (fun j h₁ h₂ => by rwa [show j = i by omega]) hextends (lt_of_extending hextends)
  exact lt_irrefl _ ((List.pairwise_append.mp hordered).2.2 row htaken row hrow)

/-- **The law of paging holds** below the greatest limit, and at it as long as no more rows extend
    the prefix than one page holds. -/
theorem Reads.pagesAll_iff (hread : Reads (· < ·) rowsAt pre limit read)
    (hsorted : ∀ i, (rowsAt i).Pairwise fun a b => a.1 < b.1) :
    PagesAll rowsAt read pre ↔ boundedLimit limit < MAX_READ_LIMIT ∨
      ∀ i, ((rowsAt i).filter fun row => extending pre row.1).length ≤ MAX_READ_LIMIT := by
  rcases Nat.lt_or_eq_of_le (boundedLimit_le limit) with hlt | hfull
  · exact iff_of_true (hread.pagesAll_of_lt hsorted hlt) (.inl hlt)
  · refine ⟨fun h => .inr fun i => ?_, fun h => ?_⟩
    · by_contra hmany
      exact hread.not_pagesAll hsorted hfull (i := i) (by omega) h
    · exact hread.pagesAll_of_le hsorted hfull (h.resolve_left (by omega))

end Law

/-! ## The stores -/

/-- Rows are keyed by three columns. -/
def RowsKeyed {V : Type} (rows : File.Table V) : Prop :=
  ∀ k, k ∈ rows → k.length = 3

theorem RowsKeyed.insert {V : Type} {rows : File.Table V} (h : RowsKeyed rows) {k : List String}
    (hk : k.length = 3) (v : V) : RowsKeyed (rows.insert k v) := by
  intro k' hmem
  rcases Std.ExtTreeMap.mem_insert.mp hmem with heq | hold
  · rw [← Std.LawfulEqCmp.eq_of_compare heq, hk]
  · exact h k' hold

/-- The rows under two columns, by the third. -/
def rowsUnder {V : Type} (rows : File.Table V) (columns : List String) : List (String × V) :=
  (rows.toList.filter fun row => row.1.take 2 == columns).map
    fun row => ((row.1.drop 2).headD "", row.2)

theorem lt_of_compare {a b x y : String} (h : compare [a, b, x] [a, b, y] = .lt) : x < y := by
  simp only [List.compare_cons_cons, Std.compare_self, Ordering.then_eq, Ordering.eq_then] at h
  exact compareOfLessAndEq_eq_lt.mp h

theorem sorted_rowsUnder {V : Type} {rows : File.Table V} (h : RowsKeyed rows) (a b : String) :
    (rowsUnder rows [a, b]).Pairwise fun x y => x.1 < y.1 := by
  rw [rowsUnder, List.pairwise_map]
  have hordered := (Std.ExtTreeMap.ordered_keys_toList (t := rows)).sublist
    (List.filter_sublist (p := fun row => row.1.take 2 == [a, b]))
  refine hordered.imp_of_mem fun {x y} hx hy hlt => ?_
  have hshape : ∀ row ∈ rows.toList.filter (fun row => row.1.take 2 == [a, b]),
      row.1 = [a, b, (row.1.drop 2).headD ""] := by
    intro row hrow
    obtain ⟨hmem, htake⟩ := List.mem_filter.mp hrow
    have hlength := h row.1 (Std.ExtTreeMap.mem_iff_isSome_getElem?.mpr
      (by rw [Std.ExtTreeMap.mem_toList_iff_getElem?_eq_some.mp hmem]; rfl))
    match hk : row.1, hlength with
    | [c, d, key], _ => simpa [hk] using htake
  rw [hshape x hx, hshape y hy] at hlt
  exact lt_of_compare hlt

namespace File

/-- `projection_page`: the store takes the trait's own. -/
def State.page (s : State) (spec : ProjectionSpec) (tenant : TenantId) (pre cursor : Option String)
    (limit : Nat) : Except EventLogError ProjectionPage := do
  let after := cursor.getD (pre.getD "")
  let fetched ← s.list spec tenant (some after) (boundedLimit limit + 1)
  return pageRows (pre.getD "") (boundedLimit limit) fetched

theorem State.list_eq {s : State} {spec : ProjectionSpec} {tenant : TenantId}
    (hvalid : (projectorView tenant).validate s spec tenant = .ok ()) (after : String)
    (limit : Nat) :
    s.list spec tenant (some after) limit =
      .ok ((behind (· < ·) (rowsUnder s.rows [tenant.value, spec.name]) after).take
        (boundedLimit limit)) := by
  have hfilter : (s.rows.toList.filter fun row => row.1.take 2 == [tenant.value, spec.name] &&
      decide (after < (row.1.drop 2).headD "")) =
      (s.rows.toList.filter fun row => row.1.take 2 == [tenant.value, spec.name]).filter
        fun row => decide (after < (row.1.drop 2).headD "") := by
    rw [List.filter_filter]
    simp only [Bool.and_comm]
  rw [State.list, hvalid, behind, rowsUnder, List.filter_map, ← List.map_take]
  exact congrArg (fun rows => Except.ok ((rows.take (boundedLimit limit)).map
    fun row : List String × Json => ((row.1.drop 2).headD "", row.2))) hfilter

theorem State.reads {states : Nat → State} {spec : ProjectionSpec} {tenant : TenantId}
    (hvalid : ∀ i, (projectorView tenant).validate (states i) spec tenant = .ok ())
    (pre : Option String) (limit : Nat) :
    Eventlog.Reads (· < ·) (fun i => rowsUnder (states i).rows [tenant.value, spec.name]) (pre.getD "") limit
      fun i c => (states i).page spec tenant pre c limit := by
  intro i c
  change (states i).page spec tenant pre c limit = _
  rw [State.page, State.list_eq (hvalid i)]
  rfl

end File

namespace Sqlite

variable {P : Platform}

/-- The rows of a projection as they are read back. -/
def Db.rowsRead (P : Platform) (db : Db) (spec : ProjectionSpec) (tenant : TenantId) :
    Except EventLogError (List (String × Json)) :=
  (db.tenantRows spec tenant).mapM fun row => do return (row.1, ← row.2.read P)

/-- Reading a row keeps its key. -/
theorem key_of_read {row : String × Row} {r : String × Json}
    (h : (do return (row.1, ← row.2.read P)) = Except.ok r) : r.1 = row.1 := by
  obtain ⟨body, -, hr⟩ := Checks.bind_eq_ok_iff.mp h
  rw [← Except.ok.inj hr]

theorem keys_of_mapM {stored : List (String × Row)} {rows : List (String × Json)}
    (h : (stored.mapM fun row => do return (row.1, ← row.2.read P)) = .ok rows) :
    rows.map Prod.fst = stored.map Prod.fst := by
  have hall := Checks.mapM_eq_ok_iff.mp h
  clear h
  induction hall with
  | nil => rfl
  | cons hr _ ih => rw [List.map_cons, List.map_cons, key_of_read hr, ih]

/-- What is selected by key may be selected before the rows are read or after. -/
theorem mapM_filter (q : String → Bool) {stored : List (String × Row)}
    {rows : List (String × Json)}
    (h : (stored.mapM fun row => do return (row.1, ← row.2.read P)) = .ok rows) :
    List.Forall₂ (fun (row : String × Row) r => (do return (row.1, ← row.2.read P)) = Except.ok r)
      (stored.filter fun row => q row.1) (rows.filter fun row => q row.1) := by
  have hall := Checks.mapM_eq_ok_iff.mp h
  clear h
  induction hall with
  | nil => exact .nil
  | @cons row r stored rows hr hrest ih =>
      rw [List.filter_cons, List.filter_cons, key_of_read hr]
      split
      · exact .cons hr ih
      · exact ih

theorem Db.listRows_eq {db : Db} {spec : ProjectionSpec} {tenant : TenantId}
    {rows : List (String × Json)} (hspec : spec.validate = .ok ())
    (htable : db.table spec 0 = .ok ()) (hrows : db.rowsRead P spec tenant = .ok rows)
    (after : String) (limit : Nat) :
    db.listRows P spec tenant (some after) limit =
      .ok ((behind (· < ·) rows after).take (boundedLimit limit)) := by
  have hread := List.forall₂_take (boundedLimit limit)
    (mapM_filter (fun key => decide (after < key)) hrows)
  rw [Db.listRows, hspec, htable]
  exact Checks.mapM_eq_ok_iff.mpr hread

/-- The engine's pages. -/
theorem Engine.reads {engines : Nat → Engine} {spec : ProjectionSpec} {tenant : TenantId}
    {rowsAt : Nat → List (String × Json)} (hspec : spec.validate = .ok ())
    (htable : ∀ i, (engines i).db.table spec 0 = .ok ())
    (hrows : ∀ i, (engines i).db.rowsRead P spec tenant = .ok (rowsAt i)) (pre : Option String)
    (limit : Nat) :
    Reads (· < ·) rowsAt (pre.getD "") limit
      fun i c => (engines i).projectionPage P spec tenant pre c limit := by
  intro i c
  change (engines i).projectionPage P spec tenant pre c limit = _
  rw [Engine.projectionPage, Db.listRows_eq hspec (htable i) (hrows i)]
  rfl

theorem Db.sorted_rowsRead {db : Db} {spec : ProjectionSpec} {tenant : TenantId}
    {rows : List (String × Json)} (hkeyed : RowsKeyed db.rows)
    (hrows : db.rowsRead P spec tenant = .ok rows) : rows.Pairwise fun a b => a.1 < b.1 := by
  have hsorted := List.pairwise_map.mpr (sorted_rowsUnder hkeyed spec.name tenant.value)
  exact List.pairwise_map.mp (keys_of_mapM hrows ▸ hsorted)

end Sqlite

/-- **Paging through a projection**, in a File store and in SQLite: the law holds exactly for limits
    below `MAX_READ_LIMIT`, or while no more than `MAX_READ_LIMIT` rows extend the prefix. -/
theorem projectionPage_pagesAll_iff (P : Platform) (spec : ProjectionSpec) (tenant : TenantId)
    (pre : Option String) (limit : Nat) :
    (∀ states : Nat → File.State, (∀ i, RowsKeyed (states i).rows) →
      (∀ i, (File.projectorView tenant).validate (states i) spec tenant = .ok ()) →
      (PagesAll (fun i => rowsUnder (states i).rows [tenant.value, spec.name])
          (fun i c => (states i).page spec tenant pre c limit) (pre.getD "") ↔
        boundedLimit limit < MAX_READ_LIMIT ∨
          ∀ i, ((rowsUnder (states i).rows [tenant.value, spec.name]).filter
            fun row => extending (pre.getD "") row.1).length ≤ MAX_READ_LIMIT)) ∧
    (∀ (engines : Nat → Sqlite.Engine) (rowsAt : Nat → List (String × Json)),
      spec.validate = .ok () → (∀ i, RowsKeyed (engines i).db.rows) →
      (∀ i, (engines i).db.table spec 0 = .ok ()) →
      (∀ i, (engines i).db.rowsRead P spec tenant = .ok (rowsAt i)) →
      (PagesAll rowsAt (fun i c => (engines i).projectionPage P spec tenant pre c limit)
          (pre.getD "") ↔
        boundedLimit limit < MAX_READ_LIMIT ∨
          ∀ i, ((rowsAt i).filter fun row => extending (pre.getD "") row.1).length ≤
            MAX_READ_LIMIT)) :=
  ⟨fun _ hkeyed hvalid => (File.State.reads hvalid pre limit).pagesAll_iff
      fun i => sorted_rowsUnder (hkeyed i) _ _,
    fun _ _ hspec hkeyed htable hrows =>
      (Sqlite.Engine.reads hspec htable hrows pre limit).pagesAll_iff
        fun i => Sqlite.Db.sorted_rowsRead (hkeyed i) (hrows i)⟩

/-- A projection without indexed fields. -/
def sampleProjection : ProjectionSpec := ⟨"names", []⟩

/-- A File state that admitted the projection, with these rows. -/
def listed (rows : File.Table Json) : File.State :=
  { File.State.empty with projections := {(["names"], [])}, rows := rows }

/-- An engine that admitted it. -/
def listedEngine : Sqlite.Engine :=
  { Sqlite.Engine.inMemory with
    db := { Sqlite.Db.empty with registry := {(["names"], [])} } }

theorem listed_validate (rows : File.Table Json) :
    (File.projectorView sampleTenant).validate (listed rows) sampleProjection sampleTenant = .ok () := by
  rfl

def nameOf (n : Nat) : String := String.ofList (List.replicate (n + 1) 'a')

/-- Rows under `n` different names. -/
def crowd : Nat → File.Table Json
  | 0 => ∅
  | n + 1 => (crowd n).insert ["t", "names", nameOf n] (.bool true)

theorem nameOf_injective : Function.Injective nameOf := by
  intro m n h
  have hlength := congrArg (fun name => name.toList.length) h
  simpa [nameOf] using hlength

theorem crowd_rowsKeyed (n : Nat) : RowsKeyed (crowd n) := by
  induction n with
  | zero => exact fun k hk => absurd hk Std.ExtTreeMap.not_mem_empty
  | succ n ih => exact ih.insert rfl _

theorem getElem?_crowd {i n : Nat} (h : i < n) :
    (crowd n)[["t", "names", nameOf i]]? = some (.bool true) := by
  induction n with
  | zero => omega
  | succ n ih =>
      rw [crowd, Std.ExtTreeMap.getElem?_insert]
      split
      · rfl
      · rename_i hne
        refine ih (by_contra fun hlast => hne ?_)
        rw [show i = n by omega]
        exact Std.ReflCmp.compare_self

/-- All of them extend the empty prefix. -/
theorem le_crowd_length (n : Nat) :
    n ≤ ((rowsUnder (crowd n) ["t", "names"]).filter fun row => extending "" row.1).length := by
  have hnodup : ((List.range n).map nameOf).Nodup := List.nodup_range.map nameOf_injective
  have hsub : (List.range n).map nameOf ⊆
      ((rowsUnder (crowd n) ["t", "names"]).filter fun row => extending "" row.1).map Prod.fst := by
    intro name hname
    obtain ⟨i, hi, rfl⟩ := List.mem_map.mp hname
    have hrow := Std.ExtTreeMap.mem_toList_iff_getElem?_eq_some.mpr
      (getElem?_crowd (List.mem_range.mp hi))
    refine List.mem_map.mpr ⟨(nameOf i, .bool true), List.mem_filter.mpr ⟨List.mem_map.mpr
      ⟨_, List.mem_filter.mpr ⟨hrow, by rfl⟩, rfl⟩, ?_⟩, rfl⟩
    simp [extending, nameOf, ← String.toList_inj]
  have hle := (List.subperm_of_subset hnodup hsub).length_le
  simpa using hle

/-- Three rows in a File store and none in SQLite, in pages of two. -/
theorem projectionPage_pagesAll_three :
    PagesAll (fun _ => rowsUnder (listed (crowd 3)).rows ["t", "names"])
      (fun _ c => (listed (crowd 3)).page sampleProjection sampleTenant none c 2) "" ∧
    PagesAll (fun _ => [])
      (fun _ c => listedEngine.projectionPage samplePlatform sampleProjection sampleTenant none c 2)
      "" := by
  have h := projectionPage_pagesAll_iff samplePlatform sampleProjection sampleTenant none 2
  exact ⟨(h.1 (fun _ => listed (crowd 3)) (fun _ => crowd_rowsKeyed 3)
      fun _ => listed_validate (crowd 3)).mpr (.inl (by decide)),
    (h.2 (fun _ => listedEngine) (fun _ => []) rfl
      (fun _ _ hk => absurd hk Std.ExtTreeMap.not_mem_empty) (fun _ => rfl)
      fun _ => rfl).mpr (.inl (by decide))⟩

/-- 1001 rows, read in pages of 1000: the last is lost. -/
theorem projectionPage_loses_row :
    ¬ PagesAll (fun _ => rowsUnder (listed (crowd 1001)).rows ["t", "names"])
      (fun _ c => (listed (crowd 1001)).page sampleProjection sampleTenant none c 1000) "" := by
  refine (File.State.reads (fun _ => listed_validate (crowd 1001)) none 1000).not_pagesAll
    (fun _ => sorted_rowsUnder (crowd_rowsKeyed 1001) _ _) (by decide) (i := 0) ?_
  exact le_crowd_length 1001

end Eventlog
