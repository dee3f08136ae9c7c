import Eventlog.File.Admission
import Eventlog.Sqlite.Effects

/-!
# Eventlog.Sqlite.Admission

The counters of an SQLite store, through the callbacks that reserve.

* `View.booked` — what the successful reservations of a callback book.
* `View.call_counts` — a callback changes the counters by what it booked, and by nothing else.
* `Engine.accounts` — over any sequence of appends and erasures the counters are the balance of
  what the appends booked.
-/

namespace Eventlog.Sqlite

open Durable Session
open File (Table held Counters Counts Accounts)

variable {P : Platform}

/-! ## Reservations -/

theorem Db.reserved_eq_ok_iff {db : Db} {located : String × Reservation} {w : String × Int} :
    db.reserved located = .ok w ↔ Fits (held db.counters) located ∧
      w = (located.1, held db.counters located.1 + located.2.delta) := by
  unfold Db.reserved
  rw [← held]
  cases hvalue : checkedAddInt (held db.counters located.1) located.2.delta with
  | none =>
      refine iff_of_false (fun h => by cases h) fun h => ?_
      exact absurd h.1 (not_fits_of_checkedAddInt hvalue)
  | some value =>
      obtain rfl := eq_of_checkedAddInt hvalue
      simp only [fits_iff_of_checkedAddInt hvalue]
      split
      · next hrefused => exact iff_of_false (fun h => by cases h) fun h => h.1 hrefused
      · next hfits => simp [hfits, eq_comm]

namespace View

theorem planReserve_eq_ok {v : View} {permit : Nat} {rs : List Reservation} {db : Db}
    {writes : List (String × Int)} (h : v.planReserve permit rs db = .ok writes) :
    ∃ ordered, Ordered v.tenant rs ordered ∧ (∀ l ∈ ordered, Fits (held db.counters) l) ∧
      writes = ordered.map fun l => (l.1, held db.counters l.1 + l.2.delta) := by
  unfold planReserve at h
  split at h
  · cases h
  · split at h
    · cases h
    · dsimp only at h
      rw [Checks.bind_eq_ok_iff] at h
      obtain ⟨ordered, hordered, h⟩ := h
      refine ⟨ordered, ordered_of_orderedReservations hordered, ?_⟩
      have hforall := Checks.mapM_eq_ok_iff.mp h
      clear h hordered
      induction hforall with
      | nil => simp
      | cons hl _ ih =>
          obtain ⟨hfits, rfl⟩ := Db.reserved_eq_ok_iff.mp hl
          obtain ⟨hrest, rfl⟩ := ih
          exact ⟨List.forall_mem_cons.mpr ⟨hfits, hrest⟩, rfl⟩

/-- **A reservation is refused and changes nothing, or is granted.** -/
theorem reserve_cases (v : View) (permit : Nat) (rs : List Reservation) (db : Db) :
    (∃ e, v.reserve permit rs db = (.error e, db)) ∨
      ∃ values counters, v.reserve permit rs db = (.ok values, { db with counters := counters }) ∧
        Granted v.tenant rs (held db.counters) (held counters) values ∧
        Counts db.counters counters (amounts rs) := by
  unfold reserve
  cases hplan : v.planReserve permit rs db with
  | error e => exact .inl ⟨e, rfl⟩
  | ok writes =>
      obtain ⟨ordered, hordered, hfits, rfl⟩ := planReserve_eq_ok hplan
      obtain ⟨hgranted, hcounts⟩ := File.counts_of_fits hordered hfits
      exact .inr ⟨_, _, rfl, hgranted, hcounts⟩

/-- What the successful reservations of a callback book. -/
def booked (P : Platform) (v : View) : Callback → Db → List (AdmissionScope × Int)
  | .done _, _ => []
  | .reserve permit rs next, db =>
      (match (v.reserve permit rs db).1 with
        | .ok _ => amounts rs
        | .error _ => []) ++
      v.booked P (next (v.reserve permit rs db).1) (v.reserve permit rs db).2
  | .getBlob digest next, db => v.booked P (next (v.getBlob digest db)) db
  | .upsert spec tenant key body next, db =>
      v.booked P (next (v.upsert P spec tenant key body db).1) (v.upsert P spec tenant key body db).2
  | .delete spec tenant key next, db =>
      v.booked P (next (v.delete spec tenant key db).1) (v.delete spec tenant key db).2
  | .get spec tenant key next, db => v.booked P (next (v.get P spec tenant key db)) db
  | .getForUpdate spec tenant key next, db =>
      v.booked P (next (v.getForUpdate P spec tenant key db)) db
  | .find spec tenant field value limit next, db =>
      v.booked P (next (v.find P spec tenant field value limit db)) db

theorem upsert_counters (v : View) (spec : ProjectionSpec) (tenant : TenantId) (key : String)
    (body : Json) (db : Db) : (v.upsert P spec tenant key body db).2.counters = db.counters := by
  unfold upsert
  split <;> rfl

theorem delete_counters (v : View) (spec : ProjectionSpec) (tenant : TenantId) (key : String)
    (db : Db) : (v.delete spec tenant key db).2.counters = db.counters := by
  unfold delete
  split <;> rfl

/-- **A callback changes the counters by what it booked.** -/
theorem call_counts (v : View) (c : Callback) (db : Db) :
    Counts db.counters (v.call P c db).2.counters (v.booked P c db) := by
  induction c generalizing db with
  | done result => exact .refl _
  | reserve permit rs next ih =>
      unfold call booked
      rcases v.reserve_cases permit rs db with ⟨e, hrun⟩ | ⟨values, counters, hrun, -, hcounts⟩
      · rw [hrun]
        exact ih _ db
      · rw [hrun]
        exact hcounts.trans (ih (.ok values) { db with counters := counters })
  | upsert spec tenant key body next ih =>
      have hrest := ih (v.upsert P spec tenant key body db).1 (v.upsert P spec tenant key body db).2
      rw [upsert_counters] at hrest
      exact hrest
  | delete spec tenant key next ih =>
      have hrest := ih (v.delete spec tenant key db).1 (v.delete spec tenant key db).2
      rw [delete_counters] at hrest
      exact hrest
  | getBlob digest next ih => exact ih _ db
  | get spec tenant key next ih => exact ih _ db
  | getForUpdate spec tenant key next ih => exact ih _ db
  | find spec tenant field value limit next ih => exact ih _ db

/-- A callback that is no guard books nothing. -/
theorem call_counters {v : View} (hv : v.admission = none) (c : Callback) (db : Db) :
    (v.call P c db).2.counters = db.counters := by
  induction c generalizing db with
  | done result => rfl
  | reserve permit rs next ih =>
      have hrun : ∃ e, v.reserve permit rs db = (.error e, db) := by
        unfold reserve planReserve
        rw [hv]
        exact ⟨_, rfl⟩
      obtain ⟨e, hrun⟩ := hrun
      unfold call
      rw [hrun]
      exact ih _ db
  | upsert spec tenant key body next ih => exact (ih _ _).trans (upsert_counters ..)
  | delete spec tenant key next ih => exact (ih _ _).trans (delete_counters ..)
  | getBlob digest next ih => exact ih _ db
  | get spec tenant key next ih => exact ih _ db
  | getForUpdate spec tenant key next ih => exact ih _ db
  | find spec tenant field value limit next ih => exact ih _ db

end View

/-! ## Appends -/

namespace Work

/-- No counter differs. -/
def Uncounted (tx : Tx) (_ : Bool) (tx' : Tx) : Prop :=
  tx'.db.counters = tx.db.counters

theorem uncounted_composes : Composes Uncounted where
  refl _ _ := rfl
  trans _ _ _ _ h h' := h'.trans h

theorem changeLedger_uncounted (f : Ledger → Ledger) : Obeys Uncounted (changeLedger f) := fun _ => rfl

theorem insertEvents_uncounted (D : Draws) (stream : StreamId) (command : CommandMeta)
    (minted : OffsetDateTime) (version : Nat) (events : List NewEvent) :
    Obeys Uncounted (insertEvents P D stream command minted version events) := by
  have hR := uncounted_composes
  have hidentity : Obeys Uncounted (identity D minted) := by
    intro tx
    unfold identity
    split <;> rfl
  induction events generalizing version with
  | nil => exact obeys_pure hR _
  | cons e rest ih =>
      refine Obeys.bind hR ?_ fun event => (ih _).bind hR fun _ => obeys_pure hR _
      refine hidentity.bind hR fun id => (obeys_ask hR _).bind hR fun _ =>
        (obeys_ask hR _).bind hR fun _ => ?_
      exact (changeLedger_uncounted _).bind hR fun _ => obeys_pure hR _

theorem project_uncounted (S : Serving) (tenant : TenantId) (written : List RecordedEvent) :
    Obeys Uncounted (project P S tenant written) :=
  obeys_forM uncounted_composes fun _ _ => obeys_forM uncounted_composes fun _ _ _ =>
    View.call_counters rfl _ _

theorem Uncounted.of_ok {w : Work α} (hw : Obeys Uncounted w) {tx tx' : Tx} {a : α}
    (h : w tx = (.ok a, tx')) : tx'.db.counters = tx.db.counters := by
  have hrun := hw tx
  rwa [h] at hrun

/-- What follows the guard of an append leaves the counters alone. -/
theorem appendNew_counts {S : Serving} {D : Draws} {stream : StreamId} {expected : Expected}
    {events : List NewEvent} {command : CommandMeta} {guard : Callback} {recordCommand : Bool}
    {tx tx' : Tx} {result : AppendResult}
    (h : appendNew P S D stream expected events command guard recordCommand tx = (.ok result, tx')) :
    Counts tx.db.counters tx'.db.counters ((guardView S stream.tenant).booked P guard tx.db) := by
  have hR := uncounted_composes
  unfold appendNew at h
  rw [bind_eq_ok_iff] at h
  obtain ⟨head, _, hhead, h⟩ := h
  obtain ⟨-, rfl⟩ := ask_eq_ok_iff.mp hhead
  rw [bind_eq_ok_iff] at h
  obtain ⟨_, _, hexpected, h⟩ := h
  obtain ⟨-, rfl⟩ := ask_eq_ok_iff.mp hexpected
  rw [bind_eq_ok_iff] at h
  obtain ⟨_, tx₁, hguard, h⟩ := h
  have hbooked := (guardView S stream.tenant).call_counts (P := P) guard tx.db
  have hrest : tx'.db.counters = tx₁.db.counters := by
    refine Uncounted.of_ok ?_ h
    refine Obeys.bind hR (fun _ => rfl) fun minted => (obeys_ask hR _).bind hR fun _ => ?_
    refine (insertEvents_uncounted D stream command minted _ events).bind hR fun written => ?_
    refine (obeys_ask hR _).bind hR fun _ => ?_
    -- the command is recorded or not, and then the claim
    have hprojected := project_uncounted (P := P) S stream.tenant written
    cases recordCommand <;> cases command.claim
    · exact hprojected.bind hR fun _ => obeys_pure hR _
    · exact hprojected.bind hR fun _ => (changeLedger_uncounted _).bind hR fun _ => obeys_pure hR _
    · exact (changeLedger_uncounted _).bind hR fun _ => hprojected.bind hR fun _ => obeys_pure hR _
    · exact (changeLedger_uncounted _).bind hR fun _ => hprojected.bind hR fun _ =>
        (changeLedger_uncounted _).bind hR fun _ => obeys_pure hR _
  obtain rfl : { tx with db := ((guardView S stream.tenant).call P guard tx.db).2 } = tx₁ :=
    congrArg Prod.snd hguard
  rw [hrest]
  exact hbooked

theorem deduplicated_of_recordedAppend {l : Ledger} {stream : StreamId} {command : CommandMeta}
    {result : AppendResult} (h : recordedAppend P l stream command = .ok (some result)) :
    result.deduplicated = true := by
  have hrecorded {range : GroupRange} {r : AppendResult} (h : l.recorded P range = .ok r) :
      r.deduplicated = true := by
    unfold Ledger.recorded at h
    rw [Checks.bind_eq_ok_iff] at h
    obtain ⟨events, -, h⟩ := h
    obtain rfl := Checks.pure_eq_ok_iff.mp h
    rfl
  have hcommand {hash : String} (h : l.recordedCommand P stream command.idempotencyKey hash =
      .ok (some result)) : result.deduplicated = true := by
    unfold Ledger.recordedCommand at h
    split at h
    · cases h
    · split_ifs at h
      obtain ⟨r, hr, hsome⟩ := Checks.map_eq_ok_iff.mp h
      obtain rfl := Option.some.inj hsome
      exact hrecorded hr
  unfold recordedAppend at h
  dsimp only at h
  split at h
  · rw [Checks.bind_eq_ok_iff] at h
    obtain ⟨claimed, -, h⟩ := h
    cases claimed with
    | none => exact hcommand h
    | some range =>
        simp only [Checks.bind_eq_ok_iff, Checks.pure_eq_ok_iff] at h
        obtain ⟨r, hr, hsome⟩ := h
        obtain rfl := Option.some.inj hsome
        exact hrecorded hr
  · exact hcommand h

/-- **An append** answers from a receipt and changes nothing, or changes the counters by what its
    guard booked. -/
theorem appendInTransaction_counts {S : Serving} {D : Draws} {stream : StreamId}
    {expected : Expected} {events : List NewEvent} {command : CommandMeta} {guard : Callback}
    {tx tx' : Tx} {result : AppendResult}
    (h : appendInTransaction P S D stream expected events command guard true tx =
      (.ok result, tx')) :
    result.deduplicated = true ∧ tx' = tx ∨ result.deduplicated = false ∧
      Counts tx.db.counters tx'.db.counters ((guardView S stream.tenant).booked P guard tx.db) := by
  rw [appendInTransaction, bind_eq_ok_iff] at h
  obtain ⟨found, _, hask, h⟩ := h
  obtain ⟨hfound, rfl⟩ := ask_eq_ok_iff.mp hask
  cases found with
  | none => exact .inr ⟨by rw [(appendNew_wrote P h).result], appendNew_counts h⟩
  | some r =>
      obtain ⟨rfl, rfl⟩ := pure_eq_ok_iff.mp h
      exact .inl ⟨deduplicated_of_recordedAppend hfound, rfl⟩

end Work

/-! ## Erasure -/

/-- The erasure prefix of a tenant tells its counters. -/
theorem Engine.ownsCounter_coordinate {scope : AdmissionScope} {c : String}
    (hc : scope.coordinate = .ok c) (tenant : TenantId) :
    ownsCounter tenant c = decide (scope.tenant? = some tenant) := by
  rw [Bool.eq_iff_iff, ownsCounter, List.isPrefixOf_iff_prefix, decide_eq_true_eq]
  exact AdmissionScope.prefix_iff hc tenant

/-- Erasure strikes exactly the counters of the tenant. -/
theorem Engine.forgottenDb_accounts (tenant : TenantId) (db : Db) :
    Accounts [.struck fun scope => decide (scope.tenant? = some tenant)] db.counters
      (forgottenDb tenant db).counters := by
  have hlookup (k : List String) : (forgottenDb tenant db).counters[k]? =
      db.counters[k]?.filter fun _ => !ownsCounter tenant (k.headD "") :=
    Std.ExtTreeMap.getElem?_filter'
  refine ⟨fun scope => ?_, fun hcounters k v hv => ?_⟩
  · cases hc : scope.coordinate with
    | error e => simp [books, hc, Entry.enter]
    | ok c =>
        simp only [books, hc, List.foldl_cons, List.foldl_nil, Entry.enter, held, hlookup,
          List.headD_cons, ownsCounter_coordinate hc]
        by_cases howner : scope.tenant? = some tenant
        · simp [howner]
        · simp only [howner, decide_false, Bool.not_false, Bool.false_eq_true, if_false]
          cases db.counters[[c]]? <;> rfl
  · rw [hlookup, Option.filter_eq_some_iff] at hv
    exact hcounters k v hv.1

/-! ## Sequences of calls -/

/-- A call that may change the counters. -/
inductive AdmissionCall where
  | append (D : Draws) (stream : StreamId) (expected : Expected) (events : List NewEvent)
      (command : CommandMeta) (guard : Callback)
  | forget (tenant : TenantId)

namespace Engine

/-- The handle after a call. -/
def after (P : Platform) (e : Engine) : AdmissionCall → Engine
  | .append D stream expected events command guard =>
      (e.appendGuarded P D stream expected events command guard).2
  | .forget tenant => (e.forgetTenant tenant).2

/-- What a call enters in the books: the bookings of an append that was freshly committed, or the
    counters of a tenant struck. -/
def entry (P : Platform) (e : Engine) : AdmissionCall → List (Entry AdmissionScope)
  | .append D stream expected events command guard =>
      match (e.appendGuarded P D stream expected events command guard).1 with
      | .ok result =>
          if result.deduplicated then []
          else [.booked ((Work.guardView e.serving stream.tenant).booked P guard e.db)]
      | .error _ => []
  | .forget tenant => [.struck fun scope => decide (scope.tenant? = some tenant)]

/-- The handle after calls, one after another. -/
def afterAll (P : Platform) (e : Engine) (calls : List AdmissionCall) : Engine :=
  calls.foldl (Engine.after P) e

/-- What calls enter. -/
def entries (P : Platform) (e : Engine) : List AdmissionCall → List (Entry AdmissionScope)
  | [] => []
  | c :: calls => e.entry P c ++ Engine.entries P (e.after P c) calls

/-- **One call.** -/
theorem after_accounts (e : Engine) (c : AdmissionCall) :
    Accounts (e.entry P c) e.db.counters (e.after P c).db.counters := by
  cases c with
  | forget tenant => exact forgottenDb_accounts tenant e.db
  | append D stream expected events command guard =>
      simp only [entry, after, appendGuarded]
      cases validateAppend events command with
      | error error => exact .refl _
      | ok u =>
          simp only [transact]
          rcases hrun : Work.appendInTransaction P e.serving D stream expected events command guard
            true ⟨e.freeze.db, e.freeze.restored, 0, 0⟩ with ⟨r, tx⟩
          cases r with
          | error error => exact .refl _
          | ok result =>
              rcases Work.appendInTransaction_counts hrun with ⟨hdedup, rfl⟩ | ⟨hfresh, hcounts⟩
              · simp only [hdedup, if_true]
                exact .refl _
              · simp only [hfresh, Bool.false_eq_true, if_false]
                exact .of_counts hcounts

/-- **A sequence of calls.** -/
theorem afterAll_accounts (e : Engine) (calls : List AdmissionCall) :
    Accounts (e.entries P calls) e.db.counters (e.afterAll P calls).db.counters := by
  induction calls generalizing e with
  | nil => exact .refl _
  | cons c calls ih => exact (e.after_accounts c).trans (ih _)

end Engine

end Eventlog.Sqlite
