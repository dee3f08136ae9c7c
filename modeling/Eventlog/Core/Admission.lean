import Eventlog.Core.Projection
import Eventlog.Durable.Bookkeeping

/-!
# Eventlog.Core.Admission

What reservations mean, apart from any store.

The counters of a store are a book over scopes: `books` reads it off what the store holds under
each coordinate, which is sound because no two scopes share one
(`AdmissionScope.eq_of_coordinate`).  `Granted` is a reservation request that went through: every
delta is booked, once, and every counter of the request is within its bounds.
-/

namespace Eventlog

open Durable

/-! ## Coordinates -/

/-- A length-prefixed text and what follows it. -/
theorem lengthPrefixed_append_inj {a b x y : String}
    (h : lengthPrefixed a ++ x = lengthPrefixed b ++ y) : a = b ∧ x = y := by
  obtain rfl := eq_of_lengthPrefixed h
  exact ⟨rfl, (String.append_right_inj _).mp h⟩

theorem lengthPrefixed_inj {a b : String} (h : lengthPrefixed a = lengthPrefixed b) : a = b :=
  eq_of_lengthPrefixed (x := "") (y := "") (by rw [h])

namespace AdmissionScope

theorem coordinate_tenant_iff {tenant : TenantId} {key c : String} :
    (AdmissionScope.Tenant tenant key).coordinate = .ok c ↔
      validateField "admission key" key = .ok () ∧
        c = "t" ++ lengthPrefixed tenant.value ++ lengthPrefixed key := by
  simp only [coordinate, Checks.bind_eq_ok_iff, Checks.pure_eq_ok_iff]
  constructor
  · rintro ⟨_, hkey, hc⟩
    exact ⟨hkey, hc.symm⟩
  · rintro ⟨hkey, hc⟩
    exact ⟨(), hkey, hc.symm⟩

theorem coordinate_deployment_iff {key c : String} :
    (AdmissionScope.Deployment key).coordinate = .ok c ↔
      validateField "admission key" key = .ok () ∧ c = "d" ++ lengthPrefixed key := by
  simp only [coordinate, Checks.bind_eq_ok_iff, Checks.pure_eq_ok_iff]
  constructor
  · rintro ⟨_, hkey, hc⟩
    exact ⟨hkey, hc.symm⟩
  · rintro ⟨hkey, hc⟩
    exact ⟨(), hkey, hc.symm⟩

/-- **Distinct scopes have distinct coordinates.** -/
theorem eq_of_coordinate {s t : AdmissionScope} {c : String} (hs : s.coordinate = .ok c)
    (ht : t.coordinate = .ok c) : s = t := by
  have howner := tenant?_of_coordinate hs ht
  cases s with
  | Tenant tenant key =>
      cases t with
      | Deployment key' => simp [tenant?] at howner
      | Tenant tenant' key' =>
          obtain rfl : tenant = tenant' := Option.some.inj howner
          obtain ⟨-, rfl⟩ := coordinate_tenant_iff.mp hs
          obtain ⟨-, h⟩ := coordinate_tenant_iff.mp ht
          rw [lengthPrefixed_inj ((String.append_right_inj _).mp h)]
  | Deployment key =>
      cases t with
      | Tenant tenant' key' => simp [tenant?] at howner
      | Deployment key' =>
          obtain ⟨-, rfl⟩ := coordinate_deployment_iff.mp hs
          obtain ⟨-, h⟩ := coordinate_deployment_iff.mp ht
          rw [lengthPrefixed_inj ((String.append_right_inj _).mp h)]

/-- **A coordinate starts with the erasure prefix of its own tenant, and of no other.** -/
theorem prefix_iff {s : AdmissionScope} {c : String} (hs : s.coordinate = .ok c)
    (tenant : TenantId) :
    ("t" ++ lengthPrefixed tenant.value).toList <+: c.toList ↔ s.tenant? = some tenant := by
  have hlist (rest : List Char) (h : ("t" ++ lengthPrefixed tenant.value).toList ++ rest = c.toList) :
      c = "t" ++ (lengthPrefixed tenant.value ++ String.ofList rest) := by
    rw [← String.toList_inj, ← h]
    simp [String.toList_append]
  cases s with
  | Tenant owner key =>
      obtain ⟨-, hc⟩ := coordinate_tenant_iff.mp hs
      constructor
      · rintro ⟨rest, hrest⟩
        have h := (hlist rest hrest).symm.trans hc
        rw [String.append_assoc] at h
        obtain ⟨howner, -⟩ := lengthPrefixed_append_inj ((String.append_right_inj _).mp h)
        rw [tenant?, TenantId.ext howner]
      · intro howner
        obtain rfl : owner = tenant := Option.some.inj howner
        rw [hc, String.toList_append (t := lengthPrefixed key)]
        exact List.prefix_append _ _
  | Deployment key =>
      obtain ⟨-, hc⟩ := coordinate_deployment_iff.mp hs
      constructor
      · rintro ⟨rest, hrest⟩
        have h := congrArg (fun text => text.toList.head?) ((hlist rest hrest).symm.trans hc)
        simp [String.toList_append] at h
      · simp [tenant?]

end AdmissionScope

/-! ## Books -/

/-- The counters as a book over scopes: what is held under each one's coordinate. -/
def books (held : String → Int) (scope : AdmissionScope) : Int :=
  match scope.coordinate with
  | .ok c => held c
  | .error _ => 0

theorem books_of_coordinate {held : String → Int} {scope : AdmissionScope} {c : String}
    (h : scope.coordinate = .ok c) : books held scope = held c := by
  rw [books, h]

/-- What reservations book. -/
def amounts (rs : List Reservation) : List (AdmissionScope × Int) :=
  rs.map fun r => (r.scope, r.delta)

/-! ## Requests -/

theorem Reservation.located_eq_ok_iff {tenant : TenantId} {r : Reservation}
    {located : String × Reservation} :
    r.located tenant = .ok located ↔ r.scope.belongsTo tenant = true ∧ 0 ≤ r.ceiling ∧
      r.scope.coordinate = .ok located.1 ∧ located.2 = r := by
  obtain ⟨c, r'⟩ := located
  unfold Reservation.located
  by_cases hrefused : (!r.scope.belongsTo tenant || decide (r.ceiling < 0)) = true
  · rw [if_pos hrefused]
    simp only [Bool.or_eq_true, Bool.not_eq_true', decide_eq_true_eq] at hrefused
    constructor
    · intro h
      cases h
    · rintro ⟨hbelongs, hceiling, -⟩
      rcases hrefused with h | h
      · simp [h] at hbelongs
      · omega
  · rw [if_neg hrefused]
    simp only [Bool.or_eq_true, Bool.not_eq_true', decide_eq_true_eq, not_or, Bool.not_eq_false,
      not_lt] at hrefused
    simp only [Checks.bind_eq_ok_iff, Checks.pure_eq_ok_iff, Prod.mk.injEq]
    exact ⟨fun ⟨_, hc, heq, hr⟩ => ⟨hrefused.1, hrefused.2, heq ▸ hc, hr.symm⟩,
      fun ⟨_, _, hc, hr⟩ => ⟨c, hc, rfl, hr.symm⟩⟩

/-- A request in the order it is worked through. -/
structure Ordered (tenant : TenantId) (rs : List Reservation) (ordered : List (String × Reservation)) :
    Prop where
  perm : (ordered.map Prod.snd).Perm rs
  distinct : (ordered.map Prod.fst).Nodup
  sorted : ordered.Pairwise fun a b => a.1 ≤ b.1
  located : ∀ l ∈ ordered, l.2.scope.coordinate = .ok l.1 ∧ l.2.scope.belongsTo tenant = true ∧
    0 ≤ l.2.ceiling
  size : 0 < rs.length ∧ rs.length ≤ 64

/-- `ordered_reservations`, from what it accepts. -/
theorem ordered_of_orderedReservations {tenant : TenantId} {rs : List Reservation}
    {ordered : List (String × Reservation)} (h : orderedReservations tenant rs = .ok ordered) :
    Ordered tenant rs ordered := by
  unfold orderedReservations at h
  by_cases hsize : (rs.isEmpty || decide (rs.length > 64)) = true
  · rw [if_pos hsize] at h
    cases h
  rw [if_neg hsize] at h
  dsimp only at h
  rw [Checks.bind_eq_ok_iff] at h
  obtain ⟨located, hlocated, h⟩ := h
  by_cases hnodup : (located.map Prod.fst).Nodup
  · rw [if_pos hnodup] at h
    obtain rfl := Checks.pure_eq_ok_iff.mp h
    have hperm := List.perm_insertionSort (fun a b : String × Reservation => a.1 ≤ b.1) located
    have hforall := Checks.mapM_eq_ok_iff.mp hlocated
    have hsnd : located.map Prod.snd = rs := by
      clear hnodup hperm h hlocated hsize
      induction hforall with
      | nil => rfl
      | cons hr _ ih => rw [List.map_cons, ih, (Reservation.located_eq_ok_iff.mp hr).2.2.2]
    refine ⟨hsnd ▸ hperm.map _, (hperm.map _).nodup_iff.mpr hnodup, List.pairwise_insertionSort _ _,
      fun l hl => ?_, ?_⟩
    · obtain ⟨r, -, hr⟩ := Checks.exists_of_mem_mapM hlocated (hperm.mem_iff.mp hl)
      obtain ⟨hbelongs, hceiling, hc, rfl⟩ := Reservation.located_eq_ok_iff.mp hr
      exact ⟨hc, hbelongs, hceiling⟩
    · simp only [Bool.or_eq_true, decide_eq_true_eq, not_or, List.isEmpty_iff] at hsize
      exact ⟨List.length_pos_iff.mpr hsize.1, by omega⟩
  · rw [if_neg hnodup] at h
    cases h

/-- What `ordered_reservations` accepts. -/
theorem Ordered.orderedReservations {tenant : TenantId} {rs : List Reservation}
    {ordered : List (String × Reservation)} (h : Ordered tenant rs ordered) :
    orderedReservations tenant rs = .ok ordered := by
  let locate (r : Reservation) : String × Reservation := (r.scope.coordinate.toOption.getD "", r)
  have hself : ∀ l ∈ ordered, locate l.2 = l := fun l hl => by
    simp [locate, (h.located l hl).1, Except.toOption]
  have hlocated : rs.mapM (Reservation.located tenant) = .ok (rs.map locate) := by
    rw [Checks.mapM_eq_ok_iff, List.forall₂_map_right_iff, List.forall₂_same]
    intro r hr
    obtain ⟨l, hl, rfl⟩ := List.mem_map.mp (h.perm.mem_iff.mpr hr)
    obtain ⟨hc, hbelongs, hceiling⟩ := h.located l hl
    exact Reservation.located_eq_ok_iff.mpr ⟨hbelongs, hceiling, by rw [hself l hl, hc], rfl⟩
  have hperm : (rs.map locate).Perm ordered := by
    have hmapped := h.perm.symm.map locate
    rwa [List.map_map, List.map_congr_left (f := locate ∘ Prod.snd) (g := id) hself, List.map_id] at hmapped
  have hdistinct : ((rs.map locate).map Prod.fst).Nodup := (hperm.map _).nodup_iff.mpr h.distinct
  have hsize : (rs.isEmpty || decide (rs.length > 64)) = false := by
    simpa [← List.length_pos_iff] using h.size
  unfold Eventlog.orderedReservations
  rw [hsize, hlocated]
  simp only [Bool.false_eq_true, if_false, Checks.ok_bind, if_pos hdistinct]
  refine congrArg Except.ok (List.Perm.eq_of_pairwise (fun a b ha hb hab hba => ?_)
    (List.pairwise_insertionSort _ _) h.sorted ((List.perm_insertionSort _ _).trans hperm))
  -- two of the same coordinate are the same
  have ha' := hperm.mem_iff.mp ((List.perm_insertionSort _ _).mem_iff.mp ha)
  exact List.inj_on_of_nodup_map h.distinct ha' hb (String.le_antisymm hab hba)

/-- **The order of a request does not matter.** -/
theorem orderedReservations_perm {tenant : TenantId} {rs rs' : List Reservation} (h : rs.Perm rs')
    {ordered : List (String × Reservation)} :
    orderedReservations tenant rs = .ok ordered ↔ orderedReservations tenant rs' = .ok ordered := by
  constructor
  · intro ho
    have := ordered_of_orderedReservations ho
    exact Ordered.orderedReservations
      ⟨this.perm.trans h, this.distinct, this.sorted, this.located, h.length_eq ▸ this.size⟩
  · intro ho
    have := ordered_of_orderedReservations ho
    exact Ordered.orderedReservations
      ⟨this.perm.trans h.symm, this.distinct, this.sorted, this.located, h.length_eq ▸ this.size⟩

/-! ## Requests that go through -/

/-- **A request that went through**: all its deltas are booked and nothing else, its answer is what
    its counters now hold, and each of them is within its bounds. -/
structure Granted (tenant : TenantId) (rs : List Reservation) (held held' : String → Int)
    (values : List Int) : Prop where
  answered : ∃ ordered, orderedReservations tenant rs = .ok ordered ∧
    values = ordered.map fun l => held' l.1
  booked : ∀ scope, books held' scope = books held scope + posted (amounts rs) scope
  bounded : ∀ r ∈ rs, 0 ≤ books held' r.scope ∧ books held' r.scope ≤ r.ceiling ∧
    books held' r.scope < 2 ^ 63

/-- A reservation that keeps its counter within its bounds. -/
def Fits (held : String → Int) (located : String × Reservation) : Prop :=
  0 ≤ held located.1 + located.2.delta ∧ held located.1 + located.2.delta ≤ located.2.ceiling ∧
    held located.1 + located.2.delta < 2 ^ 63

theorem eq_of_checkedAddInt {a d v : Int} (h : checkedAddInt a d = some v) : v = a + d := by
  unfold checkedAddInt at h
  split at h
  · exact (Option.some.inj h).symm
  · cases h

theorem fits_iff_of_checkedAddInt {held : String → Int} {located : String × Reservation} {v : Int}
    (h : checkedAddInt (held located.1) located.2.delta = some v) :
    Fits held located ↔ ¬ (held located.1 + located.2.delta < 0 ∨
      held located.1 + located.2.delta > located.2.ceiling) := by
  unfold checkedAddInt at h
  split at h
  · unfold Fits
    omega
  · cases h

theorem not_fits_of_checkedAddInt {held : String → Int} {located : String × Reservation}
    (h : checkedAddInt (held located.1) located.2.delta = none) : ¬ Fits held located := by
  unfold checkedAddInt at h
  split at h
  · cases h
  · unfold Fits
    omega

theorem Ordered.mem_iff {tenant : TenantId} {rs : List Reservation}
    {ordered : List (String × Reservation)} (h : Ordered tenant rs ordered) {r : Reservation} :
    r ∈ rs ↔ ∃ c, (c, r) ∈ ordered := by
  rw [← h.perm.mem_iff, List.mem_map]
  exact ⟨fun ⟨l, hl, hr⟩ => ⟨l.1, hr ▸ hl⟩, fun ⟨c, hc⟩ => ⟨(c, r), hc, rfl⟩⟩

/-- Under a coordinate, a request books the delta of the reservation it is worked through for. -/
theorem Ordered.posted_eq {tenant : TenantId} {rs : List Reservation}
    {ordered : List (String × Reservation)} (h : Ordered tenant rs ordered)
    {l : String × Reservation} (hl : l ∈ ordered) :
    posted (amounts rs) l.2.scope = l.2.delta := by
  have hperm : (amounts rs).Perm (ordered.map fun l => (l.2.scope, l.2.delta)) := by
    have hmapped := h.perm.symm.map fun r : Reservation => (r.scope, r.delta)
    rwa [List.map_map] at hmapped
  have hscopes : ((ordered.map fun l => (l.2.scope, l.2.delta)).map Prod.fst).Nodup := by
    rw [List.map_map]
    refine (List.nodup_map_iff_inj_on (List.Nodup.of_map _ h.distinct)).mpr fun a ha b hb hab => ?_
    have hsame : (.ok a.1 : Except EventLogError String) = .ok b.1 := by
      rw [← (h.located a ha).1, ← (h.located b hb).1]
      exact congrArg AdmissionScope.coordinate hab
    exact List.inj_on_of_nodup_map h.distinct ha hb (Except.ok.inj hsame)
  rw [posted_perm hperm]
  exact posted_of_mem hscopes (List.mem_map_of_mem hl (f := fun l => (l.2.scope, l.2.delta)))

/-- A scope that a request does not name is not booked under. -/
theorem Ordered.posted_eq_zero {tenant : TenantId} {rs : List Reservation}
    {ordered : List (String × Reservation)} (h : Ordered tenant rs ordered) {scope : AdmissionScope}
    (hscope : ∀ c ∈ ordered.map Prod.fst, scope.coordinate ≠ .ok c) :
    posted (amounts rs) scope = 0 := by
  refine posted_of_not_mem fun hmem => ?_
  simp only [amounts, List.map_map, List.mem_map, Function.comp_apply] at hmem
  obtain ⟨r, hr, rfl⟩ := hmem
  obtain ⟨c, hc⟩ := h.mem_iff.mp hr
  exact hscope c (List.mem_map_of_mem hc) (h.located _ hc).1

/-- **What a store does for a request that fits grants it.** -/
theorem Ordered.granted {tenant : TenantId} {rs : List Reservation}
    {ordered : List (String × Reservation)} (h : Ordered tenant rs ordered)
    {held held' : String → Int} (hfits : ∀ l ∈ ordered, Fits held l)
    (hnew : ∀ l ∈ ordered, held' l.1 = held l.1 + l.2.delta)
    (hold : ∀ c, c ∉ ordered.map Prod.fst → held' c = held c) :
    Granted tenant rs held held' (ordered.map fun l => held l.1 + l.2.delta) where
  answered := ⟨ordered, h.orderedReservations, List.map_congr_left fun l hl => (hnew l hl).symm⟩
  booked scope := by
    cases hc : scope.coordinate with
    | error e =>
        have hnone : posted (amounts rs) scope = 0 :=
          h.posted_eq_zero fun c _ hok => by rw [hc] at hok; cases hok
        simp only [books, hc, hnone, add_zero]
    | ok c =>
        simp only [books, hc]
        by_cases hmem : c ∈ ordered.map Prod.fst
        · obtain ⟨l, hl, rfl⟩ := List.mem_map.mp hmem
          obtain rfl := AdmissionScope.eq_of_coordinate hc (h.located l hl).1
          rw [hnew l hl, h.posted_eq hl]
        · have hnone : posted (amounts rs) scope = 0 := h.posted_eq_zero fun c' hc' hok => by
            rw [hc] at hok
            exact hmem (Except.ok.inj hok ▸ hc')
          rw [hold c hmem, hnone, add_zero]
  bounded r hr := by
    obtain ⟨c, hc⟩ := h.mem_iff.mp hr
    rw [books_of_coordinate (h.located _ hc).1, hnew _ hc]
    exact hfits _ hc

end Eventlog
