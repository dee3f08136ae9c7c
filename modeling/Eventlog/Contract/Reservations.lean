import Eventlog.Sqlite.Admission

/-!
# Eventlog.Contract.Reservations

Reservations never overshoot, and are all or nothing.

The counters of a store are kept under encoded coordinates, and a request is worked through in their
order.  No two scopes share a coordinate and a tenant's erasure prefix starts the coordinates of that
tenant only, so the counters are a book over scopes; `AllOrNothing` says what one request does to it,
and `reservations_account` that over any sequence of appends and erasures every counter is the sum
of what freshly committed appends booked since its tenant was last forgotten.
-/

namespace Eventlog

open Durable
open File (Table held Counters World Action Handle Journal State)

/-! ## Requests in any order -/

theorem Sqlite.View.planReserve_perm (v : Sqlite.View) (permit : Nat) {rs rs' : List Reservation}
    (h : rs.Perm rs') (db : Sqlite.Db) {writes : List (String × Int)} :
    v.planReserve permit rs db = .ok writes ↔ v.planReserve permit rs' db = .ok writes := by
  unfold Sqlite.View.planReserve
  cases v.admission with
  | none => rfl
  | some authority =>
      dsimp only
      split
      · rfl
      · simp only [Checks.bind_eq_ok_iff, orderedReservations_perm h]

theorem File.ProjectionView.planReserve_perm (v : File.ProjectionView) (tx : File.Tx) (permit : Nat)
    {rs rs' : List Reservation} (h : rs.Perm rs') {writes : List (File.Op × Int)} :
    v.planReserve tx permit rs = .ok writes ↔ v.planReserve tx permit rs' = .ok writes := by
  unfold File.ProjectionView.planReserve
  split
  · rfl
  · simp only [Checks.bind_eq_ok_iff, orderedReservations_perm h]

/-! ## One request -/

/-- What a reservation owes, given where the counters are. -/
structure AllOrNothing (counters : σ → Table Int) (tenant : TenantId)
    (reserve : List Reservation → σ → Except EventLogError (List Int) × σ) : Prop where
  /-- It is refused and changes nothing, or all of it is booked and every counter of it is within
      its bounds. -/
  atomic : ∀ rs s, (∃ e, reserve rs s = (.error e, s)) ∨ ∃ values s', reserve rs s = (.ok values, s') ∧
    Granted tenant rs (held (counters s)) (held (counters s')) values ∧
    (Counters (counters s) → Counters (counters s'))
  /-- In whatever order the request is given. -/
  unordered : ∀ rs rs', rs.Perm rs' → ∀ s values s',
    reserve rs s = (.ok values, s') ↔ reserve rs' s = (.ok values, s')

theorem Sqlite.View.allOrNothing (v : Sqlite.View) (permit : Nat) :
    AllOrNothing Sqlite.Db.counters v.tenant (v.reserve permit) where
  atomic rs db := (v.reserve_cases permit rs db).imp_right
    fun ⟨values, counters, hrun, hgranted, hcounts⟩ => ⟨values, _, hrun, hgranted, hcounts.counters⟩
  unordered rs rs' hperm db values db' := by
    have hrun (rs : List Reservation) : v.reserve permit rs db = (.ok values, db') ↔
        ∃ writes, v.planReserve permit rs db = .ok writes ∧ writes.map Prod.snd = values ∧
          { db with counters := File.overwritten db.counters writes } = db' := by
      unfold Sqlite.View.reserve
      cases v.planReserve permit rs db with
      | error e => simp
      | ok writes => simp [File.overwritten]
    simp only [hrun, v.planReserve_perm permit hperm]

theorem File.ProjectionView.allOrNothing (v : File.ProjectionView) (permit : Nat) :
    AllOrNothing (fun tx : File.Tx => tx.state.counters) v.tenant (v.reserve permit) where
  atomic rs tx := (File.reserve_cases v permit rs tx).imp_right
    fun ⟨values, tx', hrun, hgranted, hcounts⟩ => ⟨values, tx', hrun, hgranted, hcounts.counters⟩
  unordered rs rs' hperm tx values tx' := by
    unfold File.ProjectionView.reserve
    simp only [Session.bind_eq_ok_iff, Session.ask_eq_ok_iff, v.planReserve_perm _ permit hperm]

/-! ## Runs -/

/-- Counters that are the balance of entries in the books. -/
structure Balances (entries : List (Entry AdmissionScope)) (counters : Table Int) : Prop where
  /-- Each is that of a scope, and neither negative nor beyond 64 bits. -/
  bounded : Counters counters
  balance : ∀ scope, books (held counters) scope = balance entries scope

theorem balances_of_accounts {entries : List (Entry AdmissionScope)} {counters : Table Int}
    (h : File.Accounts entries ∅ counters) : Balances entries counters := by
  refine ⟨h.counters File.counters_empty, fun scope => ?_⟩
  have hempty : books (held ∅) = fun _ => 0 := by
    funext scope
    simp only [books, held]
    split <;> simp
  rw [h.books, hempty]
  rfl

/-- What is left of counters once a tenant is forgotten. -/
def Forgets (tenant : TenantId) (counters counters' : Table Int) : Prop :=
  ∀ (scope : AdmissionScope) (c : String), scope.coordinate = .ok c →
    counters'[[c]]? = if scope.tenant? = some tenant then none else counters[[c]]?

theorem Sqlite.forgottenDb_forgets (tenant : TenantId) (db : Sqlite.Db) :
    Forgets tenant db.counters (Sqlite.Engine.forgottenDb tenant db).counters := by
  intro scope c hc
  have hlookup : (Sqlite.Engine.forgottenDb tenant db).counters[[c]]? =
      db.counters[[c]]?.filter fun _ => !Sqlite.Engine.ownsCounter tenant c :=
    Std.ExtTreeMap.getElem?_filter'
  rw [hlookup, Sqlite.Engine.ownsCounter_coordinate hc]
  split
  · next howner => simp [howner]
  · next howner =>
      simp only [howner, decide_false, Bool.not_false]
      cases db.counters[[c]]? <;> rfl

theorem File.Without.forgets {s s' : State} {tenant : TenantId} (h : File.Without tenant s s') :
    Forgets tenant s.counters s'.counters := by
  intro scope c hc
  obtain ⟨hlost, hkept⟩ := h.counters [c]
  split
  · next howner => exact hlost ⟨c, rfl, scope, hc, howner⟩
  · next howner => exact hkept (File.not_countedFor ⟨scope, hc, rfl⟩ howner)

/-- Whoever enters finds the counters the world stands at. -/
theorem File.World.Stands.counters_of_enters {P : Primitives} (hsha : Function.Injective P.sha256)
    {B : File.Bodies} {w : World} {h : Handle} {j : Journal} {s s₀ : State}
    (hw : w.Stands P B s₀) (hin : w.Enters P h j s) : s.counters = s₀.counters := by
  obtain ⟨-, -, -, -, -, hstrip, -⟩ := hw.entered hsha hin
  rw [← hstrip]
  rfl

/-- An erasure that was answered leaves exactly the counters of others. -/
theorem File.forgets_of_forgetTenant {P : Primitives} (hsha : Function.Injective P.sha256)
    {actions : List Action} {i : Nat} {tenant : TenantId} {a : File.Response}
    {h h' : Handle} {j j' : Journal} {s s' : State}
    (hanswer : ((World.run P .empty actions).act P (.Call i (.forgetTenant tenant))).1 =
      .called (.ok a))
    (hin : (World.run P .empty actions).Enters P h j s)
    (hin' : (World.run P .empty (actions ++ [.Call i (.forgetTenant tenant)])).Enters P h' j' s') :
    Forgets tenant s.counters s'.counters := by
  rw [World.run_append] at hin'
  rcases File.run_any hsha World.empty_stands actions with ⟨s₀, hstands, -⟩ | hwedged
  · obtain ⟨hlive, -⟩ := hstands.entered hsha hin
    generalize World.run P .empty actions = w at hanswer hin hin' hstands hlive
    cases hi : w.handles[i]? with
    | none => simp [World.act, World.serve, hi] at hanswer
    | some hᵢ =>
        simp only [World.act, World.serve, hi, File.Answer.called.injEq] at hanswer
        have hdisk : (w.act P (.Call i (.forgetTenant tenant))).2.disk =
            (hᵢ.call P (.forgetTenant tenant) w.disk).disk := by
          simp only [World.act, World.serve, hi]
        rcases File.call_forgot hlive.stored (hlive.handles hᵢ (List.mem_of_getElem? hi)) hsha
          (fun _ => trivial) tenant with ⟨e, he, -⟩ | ⟨_, s₁, _, hwithout, _, _, hstored⟩
        · rw [he] at hanswer
          cases hanswer
        · rw [← hdisk] at hstored
          rcases hlive.act hsha (fun _ => trivial) (File.carries_any (.Call i (.forgetTenant tenant)))
            with ⟨m', ts', s₂, _, hlive', _⟩ | hwedged
          · obtain ⟨-, -, rfl⟩ := hstored.unique hsha hlive'.stored
            rw [hstands.counters_of_enters hsha hin,
              File.World.Stands.counters_of_enters hsha (.inr ⟨m', ts', hlive'⟩) hin']
            exact hwithout.forgets
          · exact absurd hin' hwedged.not_enters
  · exact absurd hin hwedged.not_enters

/-- **Reservations never overshoot and are all or nothing**, for both stores. -/
theorem reservations_account {P : Platform} (hsha : Function.Injective P.sha256) :
    -- the coordinates of distinct scopes are distinct
    (∀ (s t : AdmissionScope) (c : String), s.coordinate = .ok c → t.coordinate = .ok c → s = t) ∧
    -- and start with the erasure prefix of their own tenant only
    (∀ (s : AdmissionScope) (c : String) (tenant : TenantId), s.coordinate = .ok c →
      (Sqlite.Engine.ownsCounter tenant c = true ↔ s.tenant? = some tenant)) ∧
    -- one request, in either store
    (∀ (v : Sqlite.View) (permit : Nat),
      AllOrNothing Sqlite.Db.counters v.tenant (v.reserve permit)) ∧
    (∀ (v : File.ProjectionView) (permit : Nat),
      AllOrNothing (fun tx : File.Tx => tx.state.counters) v.tenant (v.reserve permit)) ∧
    -- any sequence of appends and erasures, in either store
    (∀ (e : Sqlite.Engine) (calls : List Sqlite.AdmissionCall), e.db.counters = ∅ →
      Balances (e.entries P calls) (e.afterAll P calls).db.counters) ∧
    (∀ (actions : List Action), (∀ a ∈ actions, a.Admits) → ∀ (h : Handle) (j : Journal) (s : State),
      (World.run P.toPrimitives .empty actions).Enters P.toPrimitives h j s →
        Balances (World.entries P.toPrimitives .empty actions) s.counters) ∧
    -- erasure, in either store
    (∀ (tenant : TenantId) (db : Sqlite.Db),
      Forgets tenant db.counters (Sqlite.Engine.forgottenDb tenant db).counters) ∧
    (∀ (actions : List Action) (i : Nat) (tenant : TenantId) (a : File.Response)
      (h h' : Handle) (j j' : Journal) (s s' : State),
      ((World.run P.toPrimitives .empty actions).act P.toPrimitives
        (.Call i (.forgetTenant tenant))).1 = .called (.ok a) →
      (World.run P.toPrimitives .empty actions).Enters P.toPrimitives h j s →
      (World.run P.toPrimitives .empty (actions ++ [.Call i (.forgetTenant tenant)])).Enters
        P.toPrimitives h' j' s' →
      Forgets tenant s.counters s'.counters) := by
  refine ⟨fun s t c => AdmissionScope.eq_of_coordinate, fun s c tenant hs => ?_,
    Sqlite.View.allOrNothing, File.ProjectionView.allOrNothing, fun e calls hempty => ?_,
    fun actions hactions h j s hin => ?_, Sqlite.forgottenDb_forgets,
    fun actions i tenant a h h' j j' s s' => File.forgets_of_forgetTenant hsha⟩
  · rw [Sqlite.Engine.ownsCounter_coordinate hs, decide_eq_true_eq]
  · refine balances_of_accounts ?_
    rw [← hempty]
    exact e.afterAll_accounts calls
  · rcases World.empty_stands.accounts hsha actions hactions with hwedged | ⟨s₀, hstands, hacc⟩
    · exact absurd hin hwedged.not_enters
    · rw [hstands.counters_of_enters hsha hin]
      exact balances_of_accounts hacc

/-- Three appends of one tenant in SQLite, each reserving three of at most five: the second is
    refused, and the third is the first one again. -/
def sampleReservations : List Sqlite.AdmissionCall :=
  ["a", "b", "a"].map fun key =>
    .append (sampleDraws "e" validField_e) sampleStream .Any [⟨"opened", 1, .obj []⟩]
      (sampleCommand key) (.reserve 0 [⟨.Tenant sampleTenant "seats", 3, 5⟩] fun r =>
        .done (r.map fun _ => ()))

theorem reservations_account_seats :
    let e := Sqlite.Engine.inMemory.afterAll samplePlatform sampleReservations
    books (held e.db.counters) (.Tenant sampleTenant "seats") = 3 := by
  have hbalances := (reservations_account (P := samplePlatform) sampleDigest_injective).2.2.2.2.1
    Sqlite.Engine.inMemory sampleReservations rfl
  exact (hbalances.balance _).trans (by decide +kernel)

end Eventlog
