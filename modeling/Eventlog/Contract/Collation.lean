import Eventlog.Contract.Paging
import Eventlog.Postgres.Projections

/-!
# Eventlog.Contract.Collation

Paging through a projection of a PostgreSQL store, whatever the collation.

`projection_page` passes the prefix as an exclusive lower bound and stops at the first key that
does not start with it.  The pages are complete exactly when the collation places the keys that
extend the prefix above it, and no other key of the table before one of them (`Together`).
Comparing bytes does; a collation for people, which looks past punctuation, does not.
-/

namespace Eventlog.Postgres

open Durable.Paging

variable {lt : String → String → Prop} [DecidableRel lt]

/-- The rows of a tenant whose key properly extends a prefix. -/
def ProjectionTable.extendingRows (t : ProjectionTable) (tenant : TenantId) (pre : String) :
    List (String × Json) :=
  (t.ofTenant tenant).filter fun row => extending pre row.1

/-- The collation keeps the extensions of a prefix together, right above it. -/
def Together (lt : String → String → Prop) (rows : List (String × Json)) (pre : String) : Prop :=
  ∀ row ∈ rows, extending pre row.1 →
    lt pre row.1 ∧ ∀ r ∈ rows, lt pre r.1 → lt r.1 row.1 → extending pre r.1

section Order

variable [IsStrictTotalOrder String lt]

theorem projectionPage_reads (lt : String → String → Prop) [DecidableRel lt]
    [IsStrictTotalOrder String lt] {spec : ProjectionSpec} (hspec : spec.validate = .ok ())
    (t : ProjectionTable) (tenant : TenantId) (pre : Option String) (limit : Nat) :
    Reads lt (fun _ => orderByKey lt (t.ofTenant tenant)) (pre.getD "") limit
      fun _ c => projectionPage lt t spec tenant pre c limit := by
  intro i c
  change projectionPage lt t spec tenant pre c limit = _
  rw [projectionPage, projectionList, hspec]
  dsimp only [pageOf]
  rw [← orderByKey_filter (t.ofTenant_nodup tenant)]
  rfl

/-- What the scope begins with, behind the prefix, is all that extends it just when the collation
    keeps that together. -/
theorem stretch_perm_iff {rows : List (String × Json)} (h : (rows.map Prod.fst).Nodup)
    (pre : String) :
    (stretch lt (scopeOf pre) (orderByKey lt rows) pre).Perm
        (rows.filter fun row => extending pre row.1) ↔ Together lt rows pre := by
  have hsorted := sorted_orderByKey lt h
  have hmem : ∀ row, row ∈ orderByKey lt rows ↔ row ∈ rows := fun row =>
    (List.perm_insertionSort (notAfter lt) rows).mem_iff
  have hextending : ∀ key, lt pre key → (extending pre key ↔ scopeOf pre key) := by
    intro key hlt
    have hne : key ≠ pre := fun heq => irrefl pre (heq ▸ hlt)
    simp [extending, scopeOf, hne]
  have hstretch : (stretch lt (scopeOf pre) (orderByKey lt rows) pre).Nodup := by
    refine (sorted_stretch hsorted _ _).imp fun {a b} hlt => ?_
    rintro rfl
    exact irrefl a.1 hlt
  have hfilter : (rows.filter fun row => extending pre row.1).Nodup :=
    (List.Nodup.of_map _ h).filter _
  rw [List.perm_ext_iff_of_nodup hstretch hfilter]
  constructor
  · intro hsame row hrow hext
    have hin := (hsame row).mpr (List.mem_filter.mpr ⟨hrow, hext⟩)
    refine ⟨(mem_stretch hin).2.1, fun r hr hlow hhigh => (hextending r.1 hlow).mpr ?_⟩
    exact scope_of_mem_stretch hsorted hin ((hmem r).mpr hr) hlow hhigh
  · intro htogether row
    constructor
    · intro hin
      obtain ⟨hrow, hlt, hscope⟩ := mem_stretch hin
      exact List.mem_filter.mpr ⟨(hmem row).mp hrow, (hextending _ hlt).mpr hscope⟩
    · intro hin
      obtain ⟨hrow, hext⟩ := List.mem_filter.mp hin
      obtain ⟨hlt, hbetween⟩ := htogether row hrow hext
      refine mem_stretch_of hsorted ((hmem row).mpr hrow) hlt fun r hr hlow hup => ?_
      rcases hup with rfl | hhigh
      · exact (hextending _ hlow).mp hext
      · exact (hextending _ hlow).mp (hbetween r ((hmem r).mp hr) hlow hhigh)

/-- **Paging under any collation** returns exactly the rows that extend the prefix, each once, if
    and only if the collation keeps them together. -/
theorem projectionPage_exact_iff (t : ProjectionTable) {spec : ProjectionSpec}
    (hspec : spec.validate = .ok ()) (tenant : TenantId) (pre : Option String) {limit : Nat}
    (hlimit : limit < MAX_READ_LIMIT) :
    (∃ n out, Follows (fun _ c => projectionPage lt t spec tenant pre c limit) 0 none n out ∧
        out.Perm (t.extendingRows tenant (pre.getD ""))) ↔
      Together lt (t.ofTenant tenant) (pre.getD "") := by
  have hread := projectionPage_reads lt hspec t tenant pre limit
  have hbounded : boundedLimit limit < MAX_READ_LIMIT := by
    unfold boundedLimit MAX_READ_LIMIT at *
    omega
  have hnodup := t.ofTenant_nodup tenant
  obtain ⟨n, hpages⟩ := takes_all (scopeOf (pre.getD "")) (sorted_orderByKey lt hnodup)
    (boundedLimit_pos limit) (lt_boundedLimit_succ hbounded) 0 (pre.getD "")
  rw [← stretch_perm_iff hnodup]
  constructor
  · rintro ⟨n', out, hfollows, hperm⟩
    rwa [(hread.pages hfollows).eq hpages] at hperm
  · intro hperm
    exact ⟨n, _, hread.follows hpages rfl, hperm⟩

end Order

/-! ## A collation that looks past punctuation -/

/-- What a string reads as without its punctuation. -/
def letters (s : String) : List Char := s.toList.filter Char.isAlphanum

/-- By letters first, and by bytes where those agree. -/
def NaturalLt (a b : String) : Prop := letters a < letters b ∨ letters a = letters b ∧ a < b

instance : DecidableRel NaturalLt := fun a b =>
  inferInstanceAs (Decidable (letters a < letters b ∨ letters a = letters b ∧ a < b))

instance : IsStrictTotalOrder String NaturalLt where
  irrefl a h := by
    rcases h with h | h
    · exact lt_irrefl _ h
    · exact lt_irrefl _ h.2
  trans a b c hab hbc := by
    rcases hab with hab | ⟨hab, hab'⟩ <;> rcases hbc with hbc | ⟨hbc, hbc'⟩
    · exact .inl (hab.trans hbc)
    · exact .inl (hbc ▸ hab)
    · exact .inl (hab ▸ hbc)
    · exact .inr ⟨hab.trans hbc, hab'.trans hbc'⟩
  trichotomous a b hab hba := by
    unfold NaturalLt at hab hba
    push Not at hab hba
    have hletters : letters a = letters b := le_antisymm hba.1 hab.1
    exact le_antisymm (hba.2 hletters.symm) (hab.2 hletters)

/-- A project's two items beside a project whose name goes on. -/
def projectTable : ProjectionTable where
  rows := [⟨sampleTenant, "a/x", .null⟩, ⟨sampleTenant, "a/y", .null⟩,
    ⟨sampleTenant, "ab", .null⟩]
  primary := by decide +kernel

/-- Compared by bytes, the items are together, and both are found in pages of one. -/
theorem projectionPage_exact_bytes :
    ∃ n out, Follows (fun _ c =>
        projectionPage (· < ·) projectTable sampleProjection sampleTenant (some "a/") c 1) 0 none n
        out ∧ out.Perm (projectTable.extendingRows sampleTenant "a/") :=
  (projectionPage_exact_iff projectTable rfl sampleTenant (some "a/") (by decide)).mpr
    (by unfold Together; decide +kernel)

/-- Compared past the slash, the other project comes first and the page stops there. -/
theorem projectionPage_stops_short :
    ¬ ∃ n out, Follows (fun _ c =>
        projectionPage NaturalLt projectTable sampleProjection sampleTenant (some "a/") c 1) 0 none n
        out ∧ out.Perm (projectTable.extendingRows sampleTenant "a/") := by
  have hpage : projectionPage NaturalLt projectTable sampleProjection sampleTenant (some "a/") none 1 =
      .ok ⟨[], none⟩ := by decide +kernel
  have hlength : (projectTable.extendingRows sampleTenant "a/").length = 2 := by decide +kernel
  rintro ⟨n, out, hfollows, hperm⟩
  cases hfollows with
  | last h =>
      obtain ⟨rfl, -⟩ := Sqlite.ProjectionPage.mk.inj (Except.ok.inj (hpage.symm.trans h))
      have := hperm.length_eq
      simp [hlength] at this
  | next h _ => exact nomatch (Sqlite.ProjectionPage.mk.inj (Except.ok.inj (hpage.symm.trans h))).2

end Eventlog.Postgres
