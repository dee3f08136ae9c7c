import Eventlog.Core.Platform
import Eventlog.Core.Usage
import Eventlog.File.State

/-!
# Eventlog.Sqlite.TrackedCapture

Continuing a capture from an earlier one: what changed since, and what the later one holds.

A journal keeps one change for each row, with the first value it had and the last.
`advanced_usage` takes the usage of the earlier capture to that of the later one by the changes
alone: replaced rows are subtracted before anything is added, so that what is held on the way is
never more than what is held at the end (`advancedUsage_exact`).
-/

namespace Eventlog.Sqlite

open Durable
open File (Table)

/-! ## Changes -/

/-- The original and final value of one changed row. -/
structure RowChange (V : Type) where
  key : String
  before : Option V
  after : Option V
  deriving DecidableEq

/-- Complete additions and projection changes since an earlier capture. -/
structure TenantCaptureDelta where
  events : List RecordedEvent
  blobs : List (String × Bytes)
  projections : List (ProjectionSpec × List (RowChange Json))

/-- The changes of all requested projections. -/
def TenantCaptureDelta.rows (delta : TenantCaptureDelta) : List (RowChange Json) :=
  delta.projections.flatMap Prod.snd

/-! ## The usage of the later capture -/

variable (F : Json.FloatText)

/-- `u64::checked_sub`. -/
def checkedSub (a b : Nat) : Option Nat := if b ≤ a then some (a - b) else none

/-- A counter lowered, or a stored usage that cannot be one. -/
def lowered (u : CaptureUsage) (resource : CaptureResource) (amount : Nat) :
    Except CaptureError CaptureUsage :=
  match checkedSub (u.held resource) amount with
  | some value => .ok (u.put value resource)
  | none => .error (.Corrupt .Projection)

/-- The closure `add` of `advanced_usage`: only what overflows is refused. -/
def raised (limits : CaptureLimits) (u : CaptureUsage) (charge : CaptureResource × Nat) :
    Except CaptureError CaptureUsage :=
  match checkedAdd (u.held charge.1) charge.2 with
  | some value => .ok (u.put value charge.1)
  | none => .error (.LimitExceeded charge.1 (limits.cap charge.1))

/-- The first loop of `advanced_usage`. -/
def withoutReplaced (u : CaptureUsage) (change : RowChange Json) :
    Except CaptureError CaptureUsage :=
  match change.before with
  | none => .ok u
  | some before => do
      let u ← lowered u .ProjectionRows 1
      lowered u .PayloadBytes (compactLen F before)

/-- Its loop over the events. -/
def withEvent (limits : CaptureLimits) (u : CaptureUsage) (event : RecordedEvent) :
    Except CaptureError CaptureUsage := do
  let u ← raised limits u (.Events, 1)
  raised limits u (.PayloadBytes, compactLen F event.data)

/-- Its loop over the blobs. -/
def withBlob (limits : CaptureLimits) (u : CaptureUsage) (blob : String × Bytes) :
    Except CaptureError CaptureUsage := do
  let u ← raised limits u (.Blobs, 1)
  raised limits u (.PayloadBytes, blob.2.length)

/-- Its loop over the rows that are there afterwards. -/
def withRow (limits : CaptureLimits) (u : CaptureUsage) (change : RowChange Json) :
    Except CaptureError CaptureUsage :=
  match change.after with
  | none => .ok u
  | some after => do
      let u ← raised limits u (.ProjectionRows, 1)
      raised limits u (.PayloadBytes, compactLen F after)

/-- The end of `advanced_usage`: only the resulting capture is capped. -/
def provenUsage (limits : CaptureLimits) (u : CaptureUsage) : Except CaptureError CaptureUsage := do
  let budget := CaptureBudget.new limits
  budget.proven .Events u.events
  budget.proven .Blobs u.blobs
  budget.proven .ProjectionRows u.projectionRows
  budget.proven .PayloadBytes u.payloadBytes
  return u

/-- `advanced_usage`. -/
def advancedUsage (usage : CaptureUsage) (delta : TenantCaptureDelta) (limits : CaptureLimits) :
    Except CaptureError CaptureUsage := do
  let u ← delta.rows.foldlM (withoutReplaced F) usage
  let u ← delta.events.foldlM (withEvent F limits) u
  let u ← delta.blobs.foldlM (withBlob limits) u
  let u ← delta.rows.foldlM (withRow F limits) u
  provenUsage limits u

/-! ## From one capture to another -/

/-- The rows of one projection before and after its changes. -/
structure RowsTurn (changes : List (RowChange Json)) (earlier later : List (String × Json)) :
    Prop where
  once : (changes.map RowChange.key).Nodup
  earlierKeys : (earlier.map Prod.fst).Nodup
  laterKeys : (later.map Prod.fst).Nodup
  changed : ∀ c ∈ changes, earlier.lookup c.key = c.before ∧ later.lookup c.key = c.after
  kept : ∀ key ∉ changes.map RowChange.key, later.lookup key = earlier.lookup key

/-- The requested projections, one by one. -/
inductive ProjectionsTurn : List (ProjectionSpec × List (RowChange Json)) →
    List (ProjectionSpec × List (String × Json)) →
    List (ProjectionSpec × List (String × Json)) → Prop
  | nil : ProjectionsTurn [] [] []
  | cons {spec : ProjectionSpec} {changes : List (RowChange Json)}
      {before after : List (String × Json)}
      {delta : List (ProjectionSpec × List (RowChange Json))}
      {earlier later : List (ProjectionSpec × List (String × Json))}
      (rows : RowsTurn changes before after) (rest : ProjectionsTurn delta earlier later) :
      ProjectionsTurn ((spec, changes) :: delta) ((spec, before) :: earlier)
        ((spec, after) :: later)

/-- A delta that says truly what became of an earlier capture. -/
structure Turns (delta : TenantCaptureDelta) (earlier later : TenantCapture) : Prop where
  events : later.events = earlier.events ++ delta.events
  blobs : later.blobs.Perm (earlier.blobs ++ delta.blobs)
  projections : ProjectionsTurn delta.projections earlier.projections later.projections

variable {F}

/-- With distinct keys, a row is what its key is looked up to be. -/
theorem mem_iff_lookup {rows : List (String × Json)} (h : (rows.map Prod.fst).Nodup)
    (row : String × Json) : row ∈ rows ↔ rows.lookup row.1 = some row.2 := by
  induction rows with
  | nil => simp
  | cons first rows ih =>
      obtain ⟨hfirst, hrest⟩ := List.nodup_cons.mp h
      rw [List.mem_cons, ih hrest, List.lookup_cons]
      by_cases hkey : row.1 = first.1
      · have hno : rows.lookup row.1 ≠ some row.2 := fun hsome =>
          hfirst (hkey ▸ List.mem_map_of_mem ((ih hrest).mpr hsome))
        simp only [hkey, BEq.rfl]
        rw [← hkey]
        simp only [hno, or_false, Option.some.injEq]
        exact ⟨fun heq => by rw [heq], fun heq => (Prod.ext hkey heq.symm)⟩
      · have hne : row ≠ first := fun heq => hkey (by rw [heq])
        have hbeq : (row.1 == first.1) = false := by simpa using hkey
        simp [hbeq, hne]

/-- The rows that changes name, with the value `value` picks. -/
def named (value : RowChange Json → Option Json) (changes : List (RowChange Json)) :
    List (String × Json) :=
  changes.filterMap fun c => (value c).map fun body => (c.key, body)

theorem mem_named {value : RowChange Json → Option Json} {changes : List (RowChange Json)}
    {row : String × Json} :
    row ∈ named value changes ↔ ∃ c ∈ changes, c.key = row.1 ∧ value c = some row.2 := by
  simp only [named, List.mem_filterMap, Option.map_eq_some_iff]
  constructor
  · rintro ⟨c, hc, body, hbody, rfl⟩
    exact ⟨c, hc, rfl, hbody⟩
  · rintro ⟨c, hc, hkey, hvalue⟩
    exact ⟨c, hc, row.2, hvalue, Prod.ext hkey rfl⟩

theorem nodup_named {changes : List (RowChange Json)} (h : (changes.map RowChange.key).Nodup)
    (value : RowChange Json → Option Json) : ((named value changes).map Prod.fst).Nodup := by
  have hsub : ((named value changes).map Prod.fst).Sublist (changes.map RowChange.key) := by
    rw [named, List.map_filterMap]
    clear h
    induction changes with
    | nil => exact .refl _
    | cons c changes ih =>
        rw [List.filterMap_cons, List.map_cons]
        cases value c with
        | none => exact ih.cons _
        | some body => exact ih.cons_cons _
  exact h.sublist hsub

/-- Rows split into those the changes name and those they leave. -/
theorem perm_split {changes : List (RowChange Json)} {rows : List (String × Json)}
    (value : RowChange Json → Option Json) (honce : (changes.map RowChange.key).Nodup)
    (hkeys : (rows.map Prod.fst).Nodup) (hvalue : ∀ c ∈ changes, rows.lookup c.key = value c) :
    rows.Perm (rows.filter (fun row => decide (row.1 ∉ changes.map RowChange.key)) ++
      named value changes) := by
  have hnodup : ((rows.filter fun row => decide (row.1 ∉ changes.map RowChange.key)) ++
      named value changes).Nodup := by
    refine List.nodup_append.mpr ⟨(List.Nodup.of_map _ hkeys).filter _,
      List.Nodup.of_map _ (nodup_named honce value), fun a ha b hb heq => ?_⟩
    subst heq
    obtain ⟨c, hc, hkey, -⟩ := mem_named.mp hb
    exact of_decide_eq_true (List.mem_filter.mp ha).2 (hkey ▸ List.mem_map_of_mem hc)
  refine (List.perm_ext_iff_of_nodup (List.Nodup.of_map _ hkeys) hnodup).mpr fun row => ?_
  rw [List.mem_append, List.mem_filter, mem_named, decide_eq_true_eq]
  constructor
  · intro hrow
    by_cases hchanged : row.1 ∈ changes.map RowChange.key
    · obtain ⟨c, hc, hkey⟩ := List.mem_map.mp hchanged
      refine .inr ⟨c, hc, hkey, ?_⟩
      rw [← hvalue c hc, hkey]
      exact (mem_iff_lookup hkeys row).mp hrow
    · exact .inl ⟨hrow, hchanged⟩
  · rintro (⟨hrow, -⟩ | ⟨c, hc, hkey, hsome⟩)
    · exact hrow
    · rw [mem_iff_lookup hkeys, ← hkey, hvalue c hc, hsome]

/-! ## What the captures are charged -/

/-- What rows are charged. -/
def rowsCharged (F : Json.FloatText) (rows : List (String × Json)) :
    List (CaptureResource × Nat) :=
  rows.flatMap fun row => rowCharges F row.2

theorem rowsCharged_append (rows more : List (String × Json)) :
    rowsCharged F (rows ++ more) = rowsCharged F rows ++ rowsCharged F more :=
  List.flatMap_append

theorem total_rowsCharged_perm {rows more : List (String × Json)} (h : rows.Perm more)
    (r : CaptureResource) : total (rowsCharged F rows) r = total (rowsCharged F more) r :=
  total_perm (h.flatMap_right _) r

/-- Two lists of rows have a part in common, and beside it what the changes name. -/
def Differ (F : Json.FloatText) (changes : List (RowChange Json))
    (earlier later : List (String × Json)) : Prop :=
  ∃ common, ∀ r,
    total (rowsCharged F earlier) r = total common r +
      total (rowsCharged F (named RowChange.before changes)) r ∧
    total (rowsCharged F later) r = total common r +
      total (rowsCharged F (named RowChange.after changes)) r

theorem RowsTurn.differ {changes : List (RowChange Json)} {earlier later : List (String × Json)}
    (h : RowsTurn changes earlier later) : Differ F changes earlier later := by
  have hearlier := perm_split RowChange.before h.once h.earlierKeys fun c hc => (h.changed c hc).1
  have hlater := perm_split RowChange.after h.once h.laterKeys fun c hc => (h.changed c hc).2
  have hcommon : (later.filter fun row => decide (row.1 ∉ changes.map RowChange.key)).Perm
      (earlier.filter fun row => decide (row.1 ∉ changes.map RowChange.key)) := by
    refine (List.perm_ext_iff_of_nodup ((List.Nodup.of_map _ h.laterKeys).filter _)
      ((List.Nodup.of_map _ h.earlierKeys).filter _)).mpr fun row => ?_
    rw [List.mem_filter, List.mem_filter, mem_iff_lookup h.laterKeys,
      mem_iff_lookup h.earlierKeys]
    refine and_congr_left fun hkept => ?_
    rw [h.kept row.1 (of_decide_eq_true hkept)]
  refine ⟨rowsCharged F (earlier.filter fun row => decide (row.1 ∉ changes.map RowChange.key)),
    fun r => ⟨?_, ?_⟩⟩
  · rw [total_rowsCharged_perm hearlier, rowsCharged_append, total_append]
  · rw [total_rowsCharged_perm hlater, rowsCharged_append, total_append,
      total_rowsCharged_perm hcommon]

theorem ProjectionsTurn.differ {delta : List (ProjectionSpec × List (RowChange Json))}
    {earlier later : List (ProjectionSpec × List (String × Json))}
    (h : ProjectionsTurn delta earlier later) :
    Differ F (delta.flatMap Prod.snd) (earlier.flatMap Prod.snd) (later.flatMap Prod.snd) := by
  induction h with
  | nil => exact ⟨[], fun r => ⟨rfl, rfl⟩⟩
  | cons rows _ ih =>
      obtain ⟨common, hrows⟩ := rows.differ (F := F)
      obtain ⟨more, hrest⟩ := ih
      refine ⟨common ++ more, fun r => ?_⟩
      simp only [List.flatMap_cons, named, List.filterMap_append, rowsCharged_append, total_append]
      obtain ⟨hearlier, hlater⟩ := hrows r
      obtain ⟨hearlier', hlater'⟩ := hrest r
      rw [named] at hearlier hlater hearlier' hlater'
      omega

/-- What a delta adds. -/
def TenantCaptureDelta.added (F : Json.FloatText) (delta : TenantCaptureDelta) :
    List (CaptureResource × Nat) :=
  delta.events.flatMap (eventCharges F) ++
    delta.blobs.flatMap (fun blob => blobCharges blob.2.length) ++
    delta.rows.flatMap fun c => c.after.toList.flatMap (rowCharges F)

/-- What it replaces. -/
def TenantCaptureDelta.replaced (F : Json.FloatText) (delta : TenantCaptureDelta) :
    List (CaptureResource × Nat) :=
  delta.rows.flatMap fun c => c.before.toList.flatMap (rowCharges F)

theorem rowsCharged_named (value : RowChange Json → Option Json) (changes : List (RowChange Json)) :
    rowsCharged F (named value changes) =
      changes.flatMap fun c => (value c).toList.flatMap (rowCharges F) := by
  induction changes with
  | nil => rfl
  | cons c changes ih =>
      rw [List.flatMap_cons, ← ih, named, List.filterMap_cons]
      cases value c <;> simp [rowsCharged, named]

/-- **The later capture's charges** are the earlier one's, less what is replaced and with what is
    added. -/
theorem Turns.totals {delta : TenantCaptureDelta} {earlier later : TenantCapture}
    (h : Turns delta earlier later) (r : CaptureResource) :
    total (delta.replaced F) r ≤ total (earlier.charges F) r ∧
      total (later.charges F) r + total (delta.replaced F) r =
        total (earlier.charges F) r + total (delta.added F) r := by
  obtain ⟨common, hcommon⟩ := h.projections.differ (F := F)
  obtain ⟨hearlier, hlater⟩ := hcommon r
  rw [rowsCharged_named] at hearlier hlater
  have hblobs : total (later.blobs.flatMap fun blob => blobCharges blob.2.length) r =
      total (earlier.blobs.flatMap fun blob => blobCharges blob.2.length) r +
        total (delta.blobs.flatMap fun blob => blobCharges blob.2.length) r := by
    rw [total_perm (h.blobs.flatMap_right _), List.flatMap_append, total_append]
  simp only [TenantCapture.charges, TenantCapture.rows, TenantCaptureDelta.added,
    TenantCaptureDelta.replaced, TenantCaptureDelta.rows, total_append, h.events,
    List.flatMap_append, hblobs]
  rw [rowsCharged] at hearlier hlater
  omega

/-! ## The loops -/

/-- A change takes away what its row was charged. -/
theorem withoutReplaced_spec {u : CaptureUsage} {c : RowChange Json}
    (h : ∀ r, total (c.before.toList.flatMap (rowCharges F)) r ≤ u.held r) :
    ∃ u', withoutReplaced F u c = .ok u' ∧
      ∀ r, u'.held r + total (c.before.toList.flatMap (rowCharges F)) r = u.held r := by
  unfold withoutReplaced
  cases hbefore : c.before with
  | none => exact ⟨u, rfl, fun r => rfl⟩
  | some before =>
      rw [hbefore] at h
      have hrows : 1 ≤ u.projectionRows := h .ProjectionRows
      have hbytes : compactLen F before ≤ u.payloadBytes := h .PayloadBytes
      refine ⟨{ u with
        projectionRows := u.projectionRows - 1
        payloadBytes := u.payloadBytes - compactLen F before }, ?_, fun r => ?_⟩
      · have hfirst : lowered u .ProjectionRows 1 =
            .ok { u with projectionRows := u.projectionRows - 1 } := by
          simp [lowered, checkedSub, CaptureUsage.held, CaptureUsage.put, hrows]
        have hsecond : lowered { u with projectionRows := u.projectionRows - 1 } .PayloadBytes
            (compactLen F before) = .ok { u with
              projectionRows := u.projectionRows - 1
              payloadBytes := u.payloadBytes - compactLen F before } := by
          simp [lowered, checkedSub, CaptureUsage.held, CaptureUsage.put, hbytes]
        exact Checks.bind_eq_ok_iff.mpr ⟨_, hfirst, hsecond⟩
      · cases r <;> simp [rowCharges, CaptureUsage.held] <;> omega

/-- **The first loop**: what is replaced can be taken away, and is. -/
theorem foldlM_withoutReplaced {u : CaptureUsage} {changes : List (RowChange Json)}
    (h : ∀ r, total (changes.flatMap fun c => c.before.toList.flatMap (rowCharges F)) r ≤
      u.held r) :
    ∃ u', changes.foldlM (withoutReplaced F) u = .ok u' ∧
      ∀ r, u'.held r + total (changes.flatMap fun c => c.before.toList.flatMap (rowCharges F)) r =
        u.held r := by
  induction changes generalizing u with
  | nil => exact ⟨u, rfl, fun r => rfl⟩
  | cons c changes ih =>
      simp only [List.flatMap_cons, total_append] at h ⊢
      obtain ⟨u₁, hstep, hheld₁⟩ := withoutReplaced_spec (F := F) (u := u) (c := c) fun r =>
        (Nat.le_add_right _ _).trans (h r)
      obtain ⟨u', hrest, hheld'⟩ := ih (u := u₁) fun r => by
        have := h r
        have := hheld₁ r
        omega
      refine ⟨u', ?_, fun r => ?_⟩
      · rw [List.foldlM_cons, hstep]
        exact hrest
      · have := hheld₁ r
        have := hheld' r
        omega

/-- **The other loops** meter what is added against what a `u64` counts. -/
theorem foldlM_raised (limits : CaptureLimits) (u : CaptureUsage)
    (cs : List (CaptureResource × Nat)) :
    (∀ held, meter (fun _ => u64Limit - 1) u.held cs = .ok held →
      ∃ u' : CaptureUsage, u'.held = held ∧ cs.foldlM (raised limits) u = .ok u') ∧
    ∀ r, meter (fun _ => u64Limit - 1) u.held cs = .error r →
      cs.foldlM (raised limits) u = .error (.LimitExceeded r (limits.cap r)) := by
  have hpositive : 0 < u64Limit := by decide
  induction cs generalizing u with
  | nil => exact ⟨fun held h => ⟨u, Except.ok.inj h, rfl⟩, fun r h => (by cases h)⟩
  | cons c cs ih =>
      rw [meter, List.foldlM_cons]
      by_cases hfits : u.held c.1 + c.2 < u64Limit
      · have hraised : raised limits u c = .ok (u.put (u.held c.1 + c.2) c.1) := by
          simp [raised, checkedAdd, hfits]
        rw [if_pos (by omega), hraised, ← CaptureUsage.held_put_add]
        exact ih (u.put (u.held c.1 + c.2) c.1)
      · have hraised : raised limits u c = .error (.LimitExceeded c.1 (limits.cap c.1)) := by
          simp [raised, checkedAdd, hfits]
        rw [if_neg (by omega), hraised]
        refine ⟨fun held h => (by cases h), fun r h => ?_⟩
        obtain rfl := Except.error.inj h
        rfl

/-- The checks at the end: the usage is within every cap, or one that is crossed is named. -/
theorem provenUsage_cases (limits : CaptureLimits) (u : CaptureUsage) :
    (∀ r, u.held r ≤ limits.cap r) ∧ provenUsage limits u = .ok u ∨
      ∃ r, limits.cap r < u.held r ∧
        provenUsage limits u = .error (.LimitExceeded r (limits.cap r)) := by
  have hproven (r : CaptureResource) : (CaptureBudget.new limits).proven r (u.held r) =
      if limits.cap r < u.held r then .error (.LimitExceeded r (limits.cap r)) else .ok () := rfl
  have hevents := hproven .Events
  have hblobs := hproven .Blobs
  have hrows := hproven .ProjectionRows
  have hbytes := hproven .PayloadBytes
  simp only [CaptureUsage.held] at hevents hblobs hrows hbytes
  simp only [provenUsage, hevents, hblobs, hrows, hbytes]
  by_cases h₁ : limits.cap .Events < u.events
  · exact .inr ⟨.Events, h₁, by simp [h₁, bind, Except.bind]⟩
  by_cases h₂ : limits.cap .Blobs < u.blobs
  · exact .inr ⟨.Blobs, h₂, by simp [h₁, h₂, bind, Except.bind]⟩
  by_cases h₃ : limits.cap .ProjectionRows < u.projectionRows
  · exact .inr ⟨.ProjectionRows, h₃, by simp [h₁, h₂, h₃, bind, Except.bind]⟩
  by_cases h₄ : limits.cap .PayloadBytes < u.payloadBytes
  · exact .inr ⟨.PayloadBytes, h₄, by simp [h₁, h₂, h₃, h₄, bind, Except.bind]⟩
  · refine .inl ⟨fun r => ?_, by simp [h₁, h₂, h₃, h₄, bind, Except.bind, pure, Except.pure]⟩
    cases r <;> exact Nat.not_lt.mp ‹_›

theorem foldlM_raised_pair (limits : CaptureLimits) (u : CaptureUsage)
    (c d : CaptureResource × Nat) :
    [c, d].foldlM (raised limits) u = raised limits u c >>= fun u => raised limits u d := by
  simp

/-- The three loops that add are one, over all that is added. -/
theorem advancedUsage_eq (u : CaptureUsage) (delta : TenantCaptureDelta)
    (limits : CaptureLimits) :
    advancedUsage F u delta limits =
      delta.rows.foldlM (withoutReplaced F) u >>= fun u =>
        (delta.added F).foldlM (raised limits) u >>= provenUsage limits := by
  have hevents (u : CaptureUsage) : delta.events.foldlM (withEvent F limits) u =
      (delta.events.flatMap (eventCharges F)).foldlM (raised limits) u :=
    Checks.foldlM_flatMap (fun u e => (foldlM_raised_pair limits u (.Events, 1)
      (.PayloadBytes, compactLen F e.data)).symm) delta.events u
  have hblobs (u : CaptureUsage) : delta.blobs.foldlM (withBlob limits) u =
      (delta.blobs.flatMap fun blob => blobCharges blob.2.length).foldlM (raised limits) u :=
    Checks.foldlM_flatMap (fun u blob => (foldlM_raised_pair limits u (.Blobs, 1)
      (.PayloadBytes, blob.2.length)).symm) delta.blobs u
  have hrows (u : CaptureUsage) : delta.rows.foldlM (withRow F limits) u =
      (delta.rows.flatMap fun c => c.after.toList.flatMap (rowCharges F)).foldlM
        (raised limits) u := by
    refine Checks.foldlM_flatMap (fun u c => ?_) delta.rows u
    unfold withRow
    cases c.after with
    | none => rfl
    | some after =>
        exact (foldlM_raised_pair limits u (.ProjectionRows, 1)
          (.PayloadBytes, compactLen F after)).symm
  simp only [advancedUsage, hevents, hblobs, hrows, TenantCaptureDelta.added, List.foldlM_append,
    bind_assoc]

/-- **Advanced usage is exact**: it is the usage of the later capture if that is within every cap,
    and names a cap the later capture crosses otherwise. -/
theorem advancedUsage_exact (limits : CaptureLimits) {earlier later : TenantCapture}
    {delta : TenantCaptureDelta} {u : CaptureUsage} (hturns : Turns delta earlier later)
    (hu : earlier.account F limits = .ok u) :
    (later.Within F limits → ∃ u', later.Exact F u' ∧ later.account F limits = .ok u' ∧
      advancedUsage F u delta limits = .ok u') ∧
    (¬ later.Within F limits → ∃ r, limits.cap r < total (later.charges F) r ∧
      advancedUsage F u delta limits = .error (.LimitExceeded r (limits.cap r))) := by
  obtain ⟨-, hexact⟩ := TenantCapture.account_eq_ok_iff.mp hu
  have htotals := hturns.totals (F := F)
  have hreplaced (r : CaptureResource) : total (delta.replaced F) r ≤ u.held r := by
    rw [hexact]
    exact (htotals r).1
  obtain ⟨u₁, hlowered, hheld₁⟩ := foldlM_withoutReplaced hreplaced
  -- what is left of the earlier capture, with all that is added, is the later one
  have hlater (r : CaptureResource) :
      u₁.held r + total (delta.added F) r = total (later.charges F) r := by
    have hsum := (htotals r).2
    have hleft := hheld₁ r
    rw [hexact] at hleft
    rw [TenantCaptureDelta.replaced] at hsum
    omega
  rw [advancedUsage_eq, hlowered]
  change (_ → ∃ u', _ ∧ _ ∧ ((delta.added F).foldlM (raised limits) u₁ >>= provenUsage limits) = _) ∧
    (_ → ∃ r, _ ∧ ((delta.added F).foldlM (raised limits) u₁ >>= provenUsage limits) = _)
  obtain ⟨hok, herror⟩ := foldlM_raised limits u₁ (delta.added F)
  cases hmeter : meter (fun _ => u64Limit - 1) u₁.held (delta.added F) with
  | error r =>
      have hover := lt_of_meter_eq_error hmeter
      rw [hlater] at hover
      have hcap := limits.cap_lt r
      rw [herror r hmeter]
      refine ⟨fun hwithin => ?_, fun _ => ⟨r, by omega, rfl⟩⟩
      have := hwithin r
      omega
  | ok held =>
      obtain ⟨u', hu', hraised⟩ := hok held hmeter
      have hfinal : later.Exact F u' := by
        rw [TenantCapture.Exact, hu', held_of_meter_eq_ok hmeter]
        exact funext hlater
      rw [hraised]
      rcases provenUsage_cases limits u' with ⟨hcaps, hproven⟩ | ⟨r, hr, hproven⟩
      · have hwithin : later.Within F limits := fun r => hfinal ▸ hcaps r
        exact ⟨fun _ => ⟨u', hfinal, TenantCapture.account_eq_ok_iff.mpr ⟨hwithin, hfinal⟩, hproven⟩,
          fun hnot => absurd hwithin hnot⟩
      · have hcrossed : limits.cap r < total (later.charges F) r := hfinal ▸ hr
        exact ⟨fun hwithin => absurd (hwithin r) (Nat.not_le.mpr hcrossed),
          fun _ => ⟨r, hcrossed, hproven⟩⟩

/-- A capture of one row. -/
def sampleCapture (body : Json) : TenantCapture :=
  ⟨sampleTenant, "i", [], [], [(⟨"names", []⟩, [("a", body)])]⟩

/-- Caps that one row of four bytes fills. -/
def sampleLimits : CaptureLimits := ⟨0, 0, 1, 4, by decide⟩

/-- The row is replaced: with both values it would be over two caps. -/
def sampleDelta : TenantCaptureDelta :=
  ⟨[], [], [(⟨"names", []⟩, [⟨"a", some (.bool true), some .null⟩])]⟩

theorem sampleDelta_turns : Turns sampleDelta (sampleCapture (.bool true)) (sampleCapture .null) where
  events := rfl
  blobs := .refl _
  projections := by
    refine .cons ⟨by decide, by decide, by decide, fun c hc => ?_, fun key hkey => ?_⟩ .nil
    · obtain rfl := List.mem_singleton.mp hc
      exact ⟨rfl, rfl⟩
    · have hne : (key == "a") = false := by simpa using hkey
      simp [List.lookup_cons, hne]

theorem advancedUsage_exact_replaced :
    advancedUsage Json.sampleFloats ⟨0, 0, 1, 4⟩ sampleDelta sampleLimits = .ok ⟨0, 0, 1, 4⟩ := by
  have hlater : (sampleCapture .null).account Json.sampleFloats sampleLimits =
      .ok ⟨0, 0, 1, 4⟩ := by decide +kernel
  have hearlier : (sampleCapture (.bool true)).account Json.sampleFloats sampleLimits =
      .ok ⟨0, 0, 1, 4⟩ := by decide +kernel
  obtain ⟨hwithin, -⟩ := TenantCapture.account_eq_ok_iff.mp hlater
  obtain ⟨u, -, hu, hadvanced⟩ :=
    (advancedUsage_exact sampleLimits sampleDelta_turns hearlier).1 hwithin
  rw [hadvanced, ← hu, hlater]

end Eventlog.Sqlite
