import Eventlog.Core.Admission
import Eventlog.File.Answering

/-!
# Eventlog.File.Admission

The counters of a file store, through the callbacks that reserve.

* `Counts` — how counters change while amounts are booked: the book over scopes grows by what was
  booked, and the table stays one of counters within their bounds.
* `ProjectionView.booked` — what the successful reservations of a callback book.
* `call_counts` — a callback changes the counters by what it booked, and by nothing else.
-/

namespace Eventlog.File

open Durable Session

variable {P : Primitives}

/-! ## Tables of counters -/

/-- What is held under a coordinate. -/
def held (counters : Table Int) (c : String) : Int :=
  counters[[c]]?.getD 0

/-- Every counter is that of a scope, and neither negative nor beyond 64 bits. -/
def Counters (counters : Table Int) : Prop :=
  ∀ k v, counters[k]? = some v →
    (∃ scope : AdmissionScope, ∃ c, scope.coordinate = .ok c ∧ k = [c]) ∧ 0 ≤ v ∧ v < 2 ^ 63

theorem counters_empty : Counters ∅ := fun k v h => by simp at h

/-- How counters change while amounts are booked. -/
structure Counts (counters counters' : Table Int) (booked : List (AdmissionScope × Int)) : Prop where
  booked : ∀ scope, books (held counters') scope = books (held counters) scope + posted booked scope
  counters : Counters counters → Counters counters'

theorem Counts.refl (counters : Table Int) : Counts counters counters [] :=
  ⟨fun _ => by simp, id⟩

theorem Counts.trans {c₁ c₂ c₃ : Table Int} {as bs : List (AdmissionScope × Int)}
    (h : Counts c₁ c₂ as) (h' : Counts c₂ c₃ bs) : Counts c₁ c₃ (as ++ bs) :=
  ⟨fun scope => by rw [h'.booked, h.booked, posted_append, add_assoc], h'.counters ∘ h.counters⟩

/-- Counters written one after another. -/
def overwritten (counters : Table Int) (writes : List (String × Int)) : Table Int :=
  writes.foldl (fun t w => t.insert [w.1] w.2) counters

theorem getElem?_insert_counter (counters : Table Int) (c c' : String) (v : Int) :
    (counters.insert [c] v)[[c']]? = if c = c' then some v else counters[[c']]? := by
  simp [Std.ExtTreeMap.getElem?_insert, Std.LawfulEqCmp.compare_eq_iff_eq]

theorem held_overwritten_of_not_mem {counters : Table Int} {writes : List (String × Int)} {c : String}
    (h : c ∉ writes.map Prod.fst) : held (overwritten counters writes) c = held counters c := by
  induction writes generalizing counters with
  | nil => rfl
  | cons w writes ih =>
      simp only [List.map_cons, List.mem_cons, not_or] at h
      have hrest : held (overwritten (counters.insert [w.1] w.2) writes) c = _ := ih h.2
      refine hrest.trans ?_
      rw [held, getElem?_insert_counter, if_neg (Ne.symm h.1), held]

theorem held_overwritten_of_mem {counters : Table Int} {writes : List (String × Int)}
    (hnodup : (writes.map Prod.fst).Nodup) {w : String × Int} (h : w ∈ writes) :
    held (overwritten counters writes) w.1 = w.2 := by
  induction writes generalizing counters with
  | nil => contradiction
  | cons x writes ih =>
      obtain ⟨hx, hrest⟩ := List.nodup_cons.mp hnodup
      rcases List.mem_cons.mp h with rfl | hmem
      · have hlater : held (overwritten (counters.insert [w.1] w.2) writes) w.1 = _ :=
          held_overwritten_of_not_mem hx
        refine hlater.trans ?_
        rw [held, getElem?_insert_counter, if_pos rfl]
        rfl
      · exact ih hrest hmem

theorem Counters.overwritten {counters : Table Int} (h : Counters counters)
    {writes : List (String × Int)} (hwrites : ∀ w ∈ writes,
      (∃ scope : AdmissionScope, scope.coordinate = .ok w.1) ∧ 0 ≤ w.2 ∧ w.2 < 2 ^ 63) :
    Counters (overwritten counters writes) := by
  induction writes generalizing counters with
  | nil => exact h
  | cons w writes ih =>
      have hfirst : Counters (counters.insert [w.1] w.2) := by
        intro k v hv
        rw [Std.ExtTreeMap.getElem?_insert] at hv
        split at hv
        · next hk =>
            have hk := Std.LawfulEqCmp.compare_eq_iff_eq.mp hk
            obtain ⟨⟨scope, hscope⟩, hbounds⟩ := hwrites w (by simp)
            rw [← Option.some.inj hv]
            exact ⟨⟨scope, w.1, hscope, hk.symm⟩, hbounds⟩
        · exact h k v hv
      exact ih hfirst fun x hx => hwrites x (List.mem_cons_of_mem w hx)

/-- **Writing the counters of a request that fits grants it.** -/
theorem counts_of_fits {tenant : TenantId} {rs : List Reservation}
    {ordered : List (String × Reservation)} (h : Ordered tenant rs ordered) {counters : Table Int}
    (hfits : ∀ l ∈ ordered, Eventlog.Fits (held counters) l) :
    let writes := ordered.map fun l => (l.1, held counters l.1 + l.2.delta)
    Granted tenant rs (held counters) (held (overwritten counters writes)) (writes.map Prod.snd) ∧
      Counts counters (overwritten counters writes) (amounts rs) := by
  intro writes
  have hfst : writes.map Prod.fst = ordered.map Prod.fst := by simp [writes, Function.comp_def]
  have hgranted : Granted tenant rs (held counters) (held (overwritten counters writes))
      (writes.map Prod.snd) := by
    have hvalues : writes.map Prod.snd = ordered.map fun l => held counters l.1 + l.2.delta := by
      simp [writes, Function.comp_def]
    rw [hvalues]
    refine h.granted hfits (fun l hl => ?_) fun c hc => held_overwritten_of_not_mem (hfst ▸ hc)
    exact held_overwritten_of_mem (hfst ▸ h.distinct)
      (List.mem_map_of_mem hl (f := fun l => (l.1, held counters l.1 + l.2.delta)))
  refine ⟨hgranted, hgranted.booked, fun hcounters => hcounters.overwritten fun w hw => ?_⟩
  obtain ⟨l, hl, rfl⟩ := List.mem_map.mp hw
  exact ⟨⟨_, (h.located l hl).1⟩, (hfits l hl).1, (hfits l hl).2.2⟩

/-! ## Reservations -/

theorem State.reserved_eq_ok_iff {s : State} {located : String × Reservation} {w : Op × Int} :
    s.reserved located = .ok w ↔ Eventlog.Fits (held s.counters) located ∧
      w = (.Counter located.2.scope.tenant? located.1 (held s.counters located.1 + located.2.delta),
        held s.counters located.1 + located.2.delta) := by
  unfold State.reserved
  rw [← held]
  cases hvalue : checkedAddInt (held s.counters located.1) located.2.delta with
  | none =>
      refine iff_of_false (fun h => nomatch h) fun ⟨hfits, _⟩ => ?_
      exact absurd hfits (not_fits_of_checkedAddInt hvalue)
  | some value =>
      obtain rfl := eq_of_checkedAddInt hvalue
      simp only [fits_iff_of_checkedAddInt hvalue]
      split
      · next hrefused => exact iff_of_false (fun h => nomatch h) fun ⟨h, _⟩ => h hrefused
      · next hfits => simp [hfits, eq_comm]

theorem planReserve_eq_ok {v : ProjectionView} {tx : Tx} {permit : Nat} {rs : List Reservation}
    {writes : List (Op × Int)} (h : v.planReserve tx permit rs = .ok writes) :
    ∃ ordered, Ordered v.tenant rs ordered ∧ (∀ l ∈ ordered, Eventlog.Fits (held tx.state.counters) l) ∧
      writes = ordered.map fun l =>
        (.Counter l.2.scope.tenant? l.1 (held tx.state.counters l.1 + l.2.delta),
          held tx.state.counters l.1 + l.2.delta) := by
  unfold ProjectionView.planReserve at h
  split at h
  · cases h
  · dsimp only at h
    rw [Checks.bind_eq_ok_iff] at h
    obtain ⟨ordered, hordered, h⟩ := h
    refine ⟨ordered, ordered_of_orderedReservations hordered, ?_⟩
    have hforall := Checks.mapM_eq_ok_iff.mp h
    clear h hordered
    induction hforall with
    | nil => simp
    | cons hl _ ih =>
        obtain ⟨hfits, rfl⟩ := State.reserved_eq_ok_iff.mp hl
        obtain ⟨hrest, rfl⟩ := ih
        exact ⟨List.forall_mem_cons.mpr ⟨hfits, hrest⟩, rfl⟩

/-- Counters that are recorded are overwritten. -/
theorem recordAll_counters (xs : List α) (op : α → Op × Int) (write : α → String × Int)
    (h : ∀ x ∈ xs, ∃ tenant, (op x).1 = .Counter tenant (write x).1 (write x).2) (tx : Tx) :
    (((xs.map op).forM fun w => Work.record w.1) tx).2.state.counters =
      overwritten tx.state.counters (xs.map write) := by
  induction xs generalizing tx with
  | nil => rfl
  | cons x xs ih =>
      obtain ⟨tenant, hx⟩ := h x (by simp)
      have hrun : Work.record (op x).1 tx = (.ok (), { tx with
          pending := tx.pending ++ [(op x).1], state := tx.state.update (op x).1 }) := by
        rw [hx]
        rfl
      have hstep : (((x :: xs).map op).forM fun w => Work.record w.1) tx =
          ((xs.map op).forM fun w => Work.record w.1) { tx with
            pending := tx.pending ++ [(op x).1], state := tx.state.update (op x).1 } :=
        bind_of_ok hrun
      rw [hstep, ih (fun y hy => h y (List.mem_cons_of_mem x hy)), hx]
      rfl

/-- **A reservation is refused and changes nothing, or is granted.** -/
theorem reserve_cases (v : ProjectionView) (permit : Nat) (rs : List Reservation) (tx : Tx) :
    (∃ e, v.reserve permit rs tx = (.error e, tx)) ∨
      ∃ values tx', v.reserve permit rs tx = (.ok values, tx') ∧
        Granted v.tenant rs (held tx.state.counters) (held tx'.state.counters) values ∧
        Counts tx.state.counters tx'.state.counters (amounts rs) := by
  unfold ProjectionView.reserve
  cases hplan : v.planReserve tx permit rs with
  | error e => exact .inl ⟨e, bind_of_error (ask_eq hplan)⟩
  | ok ws =>
      right
      have hcounter := planReserve_counter hplan
      obtain ⟨ordered, hordered, hfits, rfl⟩ := planReserve_eq_ok hplan
      obtain ⟨hgranted, hcounts⟩ := counts_of_fits hordered hfits
      have hok := recordAll_ok (f := Prod.fst) _ (fun w hw => by
        obtain ⟨tenant, coordinate, hw', -⟩ := hcounter w hw
        rw [hw']; trivial) tx
      have hstate := recordAll_counters ordered (fun l =>
          (.Counter l.2.scope.tenant? l.1 (held tx.state.counters l.1 + l.2.delta),
            held tx.state.counters l.1 + l.2.delta))
        (fun l => (l.1, held tx.state.counters l.1 + l.2.delta)) (fun l _ => ⟨_, rfl⟩) tx
      have hask : Session.ask (fun tx => v.planReserve tx permit rs) tx = (.ok _, tx) := ask_eq hplan
      rw [bind_of_ok hask]
      rcases hrun : (List.forM _ fun w : Op × Int => Work.record w.1) tx with ⟨r, tx'⟩
      rw [hrun] at hok hstate
      subst hok
      rw [bind_of_ok hrun]
      refine ⟨_, tx', rfl, ?_, ?_⟩
      · rw [hstate]
        simpa [Function.comp_def] using hgranted
      · rw [hstate]
        exact hcounts

/-! ## Callbacks -/

/-- What the successful reservations of a callback book. -/
def ProjectionView.booked (P : Primitives) (v : ProjectionView) :
    Callback → Tx → List (AdmissionScope × Int)
  | .done _, _ => []
  | .reserve permit rs next, tx =>
      (match (v.reserve permit rs tx).1 with
        | .ok _ => amounts rs
        | .error _ => []) ++
      v.booked P (next (v.reserve permit rs tx).1) (v.reserve permit rs tx).2
  | .getBlob digest next, tx => v.booked P (next (tx.blob P v.tenant digest)) tx
  | .upsert spec tenant key body next, tx =>
      v.booked P (next (v.upsert spec tenant key body tx).1) (v.upsert spec tenant key body tx).2
  | .delete spec tenant key next, tx =>
      v.booked P (next (v.delete spec tenant key tx).1) (v.delete spec tenant key tx).2
  | .get spec tenant key next, tx => v.booked P (next (v.get tx.state spec tenant key)) tx
  | .getForUpdate spec tenant key next, tx =>
      v.booked P (next (v.getForUpdate tx spec tenant key)) tx
  | .find spec tenant field value limit next, tx =>
      v.booked P (next (v.find P tx.state spec tenant field value limit)) tx

/-- No counter differs. -/
def Uncounted (tx : Tx) (_ : Bool) (tx' : Tx) : Prop :=
  tx'.state.counters = tx.state.counters

theorem uncounted_composes : Composes Uncounted where
  refl _ _ := rfl
  trans _ _ _ _ h h' := h'.trans h

/-- Every operation but a counter leaves the counters alone. -/
theorem apply_counters {s s' : State} {op : Op} (h : s.apply op = .ok s')
    (hop : ∀ tenant c v, op ≠ .Counter tenant c v) : s'.counters = s.counters := by
  cases op with
  | Event event =>
      simp only [State.apply, State.applyEvent] at h
      split_ifs at h
      split at h
      · cases h
      · split_ifs at h
        cases h
        rfl
  | Projection name indexed =>
      simp only [State.apply, State.applyProjection] at h
      split at h
      · split_ifs at h
        cases h
        rfl
      · cases h
        rfl
  | Counter tenant c v => exact absurd rfl (hop tenant c v)
  | Row tenant name key body =>
      obtain rfl := Except.ok.inj h
      cases body <;> rfl
  | Blob tenant digest object =>
      obtain rfl := Except.ok.inj h
      cases object <;> rfl
  | _ =>
      obtain rfl := Except.ok.inj h
      rfl

theorem record_uncounted (op : Op) (hop : ∀ tenant c v, op ≠ .Counter tenant c v) :
    Obeys Uncounted (Work.record op) := by
  intro tx
  unfold Work.record
  cases h : tx.state.apply op with
  | error e => exact rfl
  | ok s => exact apply_counters h hop

theorem row_uncounted (v : ProjectionView) (spec : ProjectionSpec) (tenant : TenantId) (key : String)
    (body : Option Json) :
    Obeys Uncounted (Session.ask (fun tx => v.validate tx.state spec tenant) >>= fun _ =>
      Work.record (.Row tenant spec.name key body)) :=
  (obeys_ask uncounted_composes _).bind uncounted_composes fun _ =>
    record_uncounted _ fun _ _ _ h => nomatch h

/-- **A callback changes the counters by what it booked.** -/
theorem call_counts (v : ProjectionView) (c : Callback) (tx : Tx) :
    Counts tx.state.counters (v.call P c tx).2.state.counters (v.booked P c tx) := by
  induction c generalizing tx with
  | done result => exact .refl _
  | reserve permit rs next ih =>
      unfold ProjectionView.call ProjectionView.booked
      rcases reserve_cases v permit rs tx with ⟨e, hrun⟩ | ⟨values, tx', hrun, -, hcounts⟩
      · rw [hrun]
        exact ih _ tx
      · rw [hrun]
        exact hcounts.trans (ih _ tx')
  | upsert spec tenant key body next ih =>
      have hrow : Uncounted tx true (v.upsert spec tenant key body tx).2 :=
        row_uncounted v spec tenant key (some body) tx
      have hrest := ih (v.upsert spec tenant key body tx).1 (v.upsert spec tenant key body tx).2
      rw [Uncounted] at hrow
      rw [hrow] at hrest
      exact hrest
  | delete spec tenant key next ih =>
      have hrow : Uncounted tx true (v.delete spec tenant key tx).2 :=
        row_uncounted v spec tenant key none tx
      have hrest := ih (v.delete spec tenant key tx).1 (v.delete spec tenant key tx).2
      rw [Uncounted] at hrow
      rw [hrow] at hrest
      exact hrest
  | getBlob digest next ih => exact ih _ tx
  | get spec tenant key next ih => exact ih _ tx
  | getForUpdate spec tenant key next ih => exact ih _ tx
  | find spec tenant field value limit next ih => exact ih _ tx

/-- A callback that is no guard books nothing. -/
theorem call_uncounted {v : ProjectionView} (hv : v.admission = false) (c : Callback) :
    Obeys Uncounted (v.call P c) := by
  have hR := uncounted_composes
  induction c with
  | done result => exact obeys_ask hR _
  | reserve permit rs next ih =>
      intro tx
      have hplan : v.planReserve tx permit rs =
          .error (.Invalid "admission requires the trusted guard's permit") := by
        simp only [ProjectionView.planReserve, hv, Bool.not_false, Bool.true_or, if_true]
        rfl
      have hreserve : v.reserve permit rs tx = (.error _, tx) := bind_of_error (ask_eq hplan)
      unfold ProjectionView.call
      rw [hreserve]
      exact ih _ tx
  | upsert spec tenant key body next ih =>
      exact fun tx => hR.trans _ _ _ _ (row_uncounted v spec tenant key (some body) tx) (ih _ _)
  | delete spec tenant key next ih =>
      exact fun tx => hR.trans _ _ _ _ (row_uncounted v spec tenant key none tx) (ih _ _)
  | getBlob digest next ih => exact fun tx => ih _ tx
  | get spec tenant key next ih => exact fun tx => ih _ tx
  | getForUpdate spec tenant key next ih => exact fun tx => ih _ tx
  | find spec tenant field value limit next ih => exact fun tx => ih _ tx

/-! ## Appends -/

theorem run_uncounted (p : Io α) : Obeys Uncounted (Work.run p) := fun _ => rfl

theorem recordEvents_uncounted (stream : StreamId) (command : CommandMeta) (first : Nat)
    (written : List RecordedEvent) (events : List NewEvent) :
    Obeys Uncounted (Work.recordEvents P stream command first written events) := by
  have hR := uncounted_composes
  induction events generalizing written with
  | nil => exact obeys_pure hR _
  | cons e rest ih =>
      refine (obeys_ask hR _).bind hR fun version => (obeys_ask hR _).bind hR fun globalSeq => ?_
      refine Obeys.bind hR ?_ fun event => ih (written ++ [event])
      refine Obeys.bind hR (run_uncounted _) fun id => (obeys_ask hR _).bind hR fun now => ?_
      exact Obeys.bind hR (record_uncounted _ fun _ _ _ h => nomatch h) fun _ => obeys_pure hR _

theorem append_uncounted (stream : StreamId) (expected : Expected) (events : List NewEvent)
    (command : CommandMeta) : Obeys Uncounted (Work.append P stream expected events command) := by
  have hR := uncounted_composes
  refine (obeys_ask hR _).bind hR fun _ => (obeys_ask hR _).bind hR fun head =>
    (obeys_ask hR _).bind hR fun first => ?_
  refine (recordEvents_uncounted stream command first [] events).bind hR fun written => ?_
  refine (obeys_ask hR _).bind hR fun inline => ?_
  refine Obeys.bind hR (obeys_forM hR fun p _ => ?_) fun _ => obeys_pure hR _
  exact (obeys_forM hR fun _ _ => obeys_ask hR _).bind hR fun _ =>
    obeys_forM hR fun event _ => call_uncounted rfl _

theorem deduplicated_of_recordedAppend {s : State} {stream : StreamId} {command : CommandMeta}
    {result : AppendResult} (h : Work.recordedAppend s stream command = .ok (some result)) :
    result.deduplicated = true := by
  have hcommand {digest : String}
      (h : s.command stream command.idempotencyKey digest = .ok (some result)) :
      result.deduplicated = true := by
    unfold State.command at h
    split at h
    · cases h
    · split_ifs at h
      cases h
      rfl
  unfold Work.recordedAppend at h
  dsimp only at h
  split at h
  · rw [Checks.bind_eq_ok_iff] at h
    obtain ⟨claimed, -, h⟩ := h
    cases claimed with
    | none => exact hcommand h
    | some range =>
        cases h
        rfl
  · exact hcommand h

theorem fresh_of_append {stream : StreamId} {expected : Expected} {events : List NewEvent}
    {command : CommandMeta} {tx tx' : Tx} {result : AppendResult}
    (h : Work.append P stream expected events command tx = (.ok result, tx')) :
    result.deduplicated = false := by
  simp only [Work.append, bind_eq_ok_iff, pure_eq_ok_iff] at h
  obtain ⟨_, _, -, _, _, -, _, _, -, _, _, -, _, _, -, _, _, -, rfl, -⟩ := h
  rfl

/-- **An append** answers from a receipt and changes nothing, or changes the counters by what its
    guard booked. -/
theorem appendGuarded_counts {stream : StreamId} {expected : Expected} {events : List NewEvent}
    {command : CommandMeta} {guard : Callback} {tx tx' : Tx} {result : AppendResult}
    (h : Work.appendGuarded P stream expected events command guard tx = (.ok result, tx')) :
    result.deduplicated = true ∧ tx' = tx ∨ result.deduplicated = false ∧
      Counts tx.state.counters tx'.state.counters ((guardView stream.tenant).booked P guard tx) := by
  unfold Work.appendGuarded at h
  rw [bind_eq_ok_iff] at h
  obtain ⟨found, _, hask, h⟩ := h
  obtain ⟨hfound, rfl⟩ := ask_eq_ok_iff.mp hask
  cases found with
  | some r =>
      obtain ⟨rfl, rfl⟩ := pure_eq_ok_iff.mp h
      exact .inl ⟨deduplicated_of_recordedAppend hfound, rfl⟩
  | none =>
      right
      simp only [Work.appendNew, bind_eq_ok_iff, ask_eq_ok_iff] at h
      obtain ⟨_, _, ⟨-, rfl⟩, _, tx₁, hguard, written, tx₂, happend, _, tx₃, hcommand, h⟩ := h
      have hbooked := call_counts (P := P) (guardView stream.tenant) guard tx
      rw [hguard] at hbooked
      have happended : tx₂.state.counters = tx₁.state.counters := by
        have := append_uncounted (P := P) stream expected events command tx₁
        rwa [happend] at this
      have hreceipt : tx₃.state.counters = tx₂.state.counters := by
        have := record_uncounted (.Command stream command.idempotencyKey command.requestHash
          written.firstVersion written.lastVersion) (fun _ _ _ h => nomatch h) tx₂
        rwa [hcommand] at this
      have hstays : Counts tx.state.counters tx₃.state.counters
          ((guardView stream.tenant).booked P guard tx) := by
        rw [hreceipt, happended]
        exact hbooked
      cases hclaim : command.claim with
      | none =>
          rw [hclaim] at h
          obtain ⟨rfl, rfl⟩ := pure_eq_ok_iff.mp h
          exact ⟨fresh_of_append happend, hstays⟩
      | some claim =>
          simp only [hclaim, bind_eq_ok_iff, pure_eq_ok_iff] at h
          obtain ⟨_, tx₄, hrecord, rfl, rfl⟩ := h
          have hclaimed : tx₄.state.counters = tx₃.state.counters := by
            have := record_uncounted (.Claim stream.tenant claim.scope claim.key claim.digest
              ⟨stream, written.firstVersion, written.lastVersion⟩) (fun _ _ _ h => nomatch h) tx₃
            rwa [hrecord] at this
          exact ⟨fresh_of_append happend, by rw [hclaimed]; exact hstays⟩

/-! ## Runs -/

/-- What a call enters in the books: the bookings of an append that was freshly committed, or the
    counters of a tenant struck. -/
def Handle.entry (P : Primitives) (h : Handle) (r : Request) (d : Disk) :
    List (Entry AdmissionScope) :=
  match r, (h.call P r d).result with
  | .append stream _ _ _ guard, .ok (.appended result) =>
      if result.deduplicated then []
      else
        match h.given P r d with
        | none => []
        | some tx => [.booked ((guardView stream.tenant).booked P guard tx)]
  | .forgetTenant tenant, .ok _ => [.struck fun scope => decide (scope.tenant? = some tenant)]
  | _, _ => []

/-- What an action enters. -/
def World.entry (P : Primitives) (w : World) : Action → List (Entry AdmissionScope)
  | .Call i r =>
      match w.handles[i]? with
      | none => []
      | some h => h.entry P r w.disk
  | _ => []

/-- What a run enters. -/
def World.entries (P : Primitives) (w : World) : List Action → List (Entry AdmissionScope)
  | [] => []
  | a :: actions => w.entry P a ++ World.entries P (w.act P a).2 actions

/-- Appends and erasures, by any number of handles and with any inline projectors. -/
def Action.Admits : Action → Prop
  | .Call _ (.append ..) | .Call _ (.forgetTenant _) => True
  | .Open _ | .RegisterInline _ _ | .AttachInlineExisting _ _ | .Tick _ => True
  | _ => False

/-- How counters follow from others by entries in the books. -/
structure Accounts (entries : List (Entry AdmissionScope)) (counters counters' : Table Int) :
    Prop where
  books : ∀ scope, books (held counters') scope =
    entries.foldl Entry.enter (books (held counters)) scope
  counters : Counters counters → Counters counters'

theorem Accounts.refl (counters : Table Int) : Accounts [] counters counters :=
  ⟨fun _ => rfl, id⟩

theorem Accounts.of_counts {counters counters' : Table Int} {as : List (AdmissionScope × Int)}
    (h : Counts counters counters' as) : Accounts [.booked as] counters counters' :=
  ⟨h.booked, h.counters⟩

theorem Accounts.trans {es fs : List (Entry AdmissionScope)} {c₁ c₂ c₃ : Table Int}
    (h : Accounts es c₁ c₂) (h' : Accounts fs c₂ c₃) : Accounts (es ++ fs) c₁ c₃ := by
  refine ⟨fun scope => ?_, h'.counters ∘ h.counters⟩
  have hbooks : Eventlog.books (held c₂) = es.foldl Entry.enter _ := funext h.books
  rw [h'.books, hbooks, List.foldl_append]

/-- Erasure strikes exactly the counters of the tenant. -/
theorem Without.accounts {s s' : State} {tenant : TenantId} (h : Without tenant s s') :
    Accounts [.struck fun scope => decide (scope.tenant? = some tenant)] s.counters s'.counters := by
  refine ⟨fun scope => ?_, fun hcounters k v hv => ?_⟩
  · cases hc : scope.coordinate with
    | error e => simp [Eventlog.books, hc, Entry.enter]
    | ok c =>
        simp only [Eventlog.books, hc, List.foldl_cons, List.foldl_nil, Entry.enter,
          decide_eq_true_eq]
        obtain ⟨hlost, hkept⟩ := h.counters [c]
        split
        · next howner => rw [held, hlost ⟨c, rfl, scope, hc, howner⟩]; rfl
        · next howner => rw [held, hkept (not_countedFor ⟨scope, hc, rfl⟩ howner), held]
  · obtain ⟨hlost, hkept⟩ := h.counters k
    by_cases howner : CountedFor tenant k
    · rw [hlost howner] at hv
      cases hv
    · exact hcounters k v (hkept howner ▸ hv)

theorem registerSpecs_uncounted (names : List String) (specs : List ProjectionSpec) :
    Obeys Uncounted (Work.registerSpecs names specs) := by
  have hR := uncounted_composes
  induction specs generalizing names with
  | nil => exact obeys_pure hR _
  | cons spec rest ih =>
      refine (obeys_ask hR _).bind hR fun _ => ?_
      split
      · exact obeys_refuse hR _
      · refine (obeys_ask hR _).bind hR fun old => ?_
        cases old with
        | none => exact Obeys.bind hR (record_uncounted _ fun _ _ _ h => nomatch h) fun _ => ih _
        | some old =>
            simp only
            split
            · exact obeys_refuse hR _
            · exact ih _

section

variable {B : Bodies} {m : Manifest} {ts : List Json} {s s' : State} {h : Handle} {d : Disk}

/-- Changes that come from nothing, or from a registration, change no counter. -/
theorem Changes.uncounted {c : Cause} {n n' : Nat} (hchanges : Changes P B s n c s' n')
    (hc : c = .none ∨ ∃ p, c = .register p) : s'.counters = s.counters := by
  cases hchanges with
  | same drawn => rfl
  | @committed _ tx₀ tx _ strip rows fresh begun work ran ended =>
      rw [← strip]
      rcases hc with rfl | ⟨p, rfl⟩
      · cases work
        rfl
      · have := registerSpecs_uncounted [] p.projections tx₀
        have hwork : Work.registerSpecs [] p.projections tx₀ = (.ok (), tx) := work
        rw [hwork] at this
        exact this
  | forgot without position drawn => simp at hc
  | redacted found place replaces redacted begun ended => simp at hc

/-- An append, as it is entered. -/
theorem append_accounts (hsha : Function.Injective P.sha256) (hst : Stored P .any d m ts s)
    (hh : h.Sound P .any m ts) {stream : StreamId} {expected : Expected} {events : List NewEvent}
    {command : CommandMeta} {guard : Callback} :
    let r := Request.append stream expected events command guard
    ∃ m' ts' s', Stored P .any (h.call P r d).disk m' ts' s' ∧ Accounts (h.entry P r d) s.counters s'.counters := by
  intro r
  rcases call_answered (r := r) hst hh hsha rfl (carries_any (.Call 0 r)) with
    ⟨e, hresult, m', ts', hstored⟩ | ⟨a, tx₀, tx, hresult, hgiven, hstarts, hwork, -, m', ts', hstored⟩
  · refine ⟨m', ts', s, hstored, ?_⟩
    have hnone : h.entry P r d = [] := by simp only [Handle.entry, hresult, r]
    rw [hnone]
    exact .refl _
  · refine ⟨m', ts', tx.state.strip, hstored, ?_⟩
    have hcounters : tx₀.state.counters = s.counters := by rw [← hstarts.strip]; rfl
    obtain ⟨result, hrun, rfl⟩ : ∃ result,
        Work.appendGuarded P stream expected events command guard tx₀ = (.ok result, tx) ∧
          a = .appended result := by
      have hmap : (Work.appendGuarded P stream expected events command guard >>=
          pure ∘ Response.appended) tx₀ = (.ok a, tx) := hwork
      rw [bind_eq_ok_iff] at hmap
      obtain ⟨result, tx₁, hrun, hpure⟩ := hmap
      obtain ⟨rfl, rfl⟩ := pure_eq_ok_iff.mp hpure
      exact ⟨result, hrun, rfl⟩
    rcases appendGuarded_counts hrun with ⟨hdedup, rfl⟩ | ⟨hfresh, hcounts⟩
    · have hnone : h.entry P r d = [] := by simp only [Handle.entry, hresult, r, hdedup, if_true]
      rw [hnone, ← hcounters]
      exact .refl _
    · have hbooked : h.entry P r d = [.booked ((guardView stream.tenant).booked P guard tx₀)] := by
        simp only [Handle.entry, hresult, r, hfresh, Bool.false_eq_true, if_false]
        rw [show h.given P (.append stream expected events command guard) d = some tx₀ from hgiven]
      rw [hbooked]
      rw [hcounters] at hcounts
      exact .of_counts hcounts

/-- An erasure, as it is entered. -/
theorem forget_accounts (hsha : Function.Injective P.sha256) (hst : Stored P .any d m ts s)
    (hh : h.Sound P .any m ts) (tenant : TenantId) :
    let r := Request.forgetTenant tenant
    Wedged P (h.call P r d).disk ∨
      ∃ m' ts' s', Stored P .any (h.call P r d).disk m' ts' s' ∧ Accounts (h.entry P r d) s.counters s'.counters := by
  intro r
  rcases call_forgot hst hh hsha (fun _ => trivial) tenant with
    ⟨e, hresult, hwedged | ⟨m', ts', hstored⟩⟩ | ⟨a, s', hresult, hwithout, m', ts', hstored⟩
  · exact .inl hwedged
  · refine .inr ⟨m', ts', s, hstored, ?_⟩
    have hnone : h.entry P r d = [] := by simp only [Handle.entry, r, hresult]
    rw [hnone]
    exact .refl _
  · refine .inr ⟨m', ts', s', hstored, ?_⟩
    have hstruck : h.entry P r d = [.struck fun scope => decide (scope.tenant? = some tenant)] := by
      simp only [Handle.entry, r, hresult]
    rw [hstruck]
    exact hwithout.accounts

/-- **One action.** -/
theorem World.Live.accounts (hsha : Function.Injective P.sha256) {w : World} {a : Action}
    (hw : w.Live P .any m ts s) (ha : a.Admits) :
    Wedged P (w.act P a).2.disk ∨
      ∃ m' ts' s', (w.act P a).2.Live P .any m' ts' s' ∧ Accounts (w.entry P a) s.counters s'.counters := by
  rcases hw.act hsha (fun _ => trivial) (carries_any a) with
    ⟨m', ts', s', c, hlive, -, hcause, hchanges⟩ | hwedged
  · have hstill (hc : c = .none ∨ ∃ p, c = .register p) : Accounts [] s.counters s'.counters := by
      rw [hchanges.uncounted hc]
      exact .refl _
    cases a with
    | Open layout =>
        exact .inr ⟨m', ts', s', hlive, hstill (.inl (hcause.resolve_right id))⟩
    | AttachInlineExisting i p =>
        exact .inr ⟨m', ts', s', hlive, hstill (.inl (hcause.resolve_right id))⟩
    | Tick now =>
        exact .inr ⟨m', ts', s', hlive, hstill (.inl (hcause.resolve_right id))⟩
    | RegisterInline i p =>
        exact .inr ⟨m', ts', s', hlive, hstill (hcause.imp_right fun h => ⟨p, h⟩)⟩
    | RebuildInlineProjection i name tenant => exact ha.elim
    | Call i r =>
        cases hi : w.handles[i]? with
        | none =>
            have hact : (w.act P (.Call i r)).2 = w := by simp only [World.act, World.serve, hi]
            have hnone : w.entry P (.Call i r) = [] := by simp only [World.entry, hi]
            rw [hact, hnone]
            exact .inr ⟨m, ts, s, hw, .refl _⟩
        | some h =>
            have hdisk : (w.act P (.Call i r)).2.disk = (h.call P r w.disk).disk := by
              simp only [World.act, World.serve, hi]
            have hentry : w.entry P (.Call i r) = h.entry P r w.disk := by
              simp only [World.entry, hi]
            have hh := hw.handles h (List.mem_of_getElem? hi)
            -- the state the call leaves is the one the world stands at
            have hsame {m₁ : Manifest} {ts₁ : List Json} {s₁ : State}
                (hstored : Stored P .any (h.call P r w.disk).disk m₁ ts₁ s₁)
                (hacc : Accounts (h.entry P r w.disk) s.counters s₁.counters) :
                Accounts (w.entry P (.Call i r)) s.counters s'.counters := by
              rw [← hdisk] at hstored
              obtain ⟨-, -, rfl⟩ := hstored.unique hsha hlive.stored
              rw [hentry]
              exact hacc
            cases r with
            | append stream expected events command guard =>
                obtain ⟨m₁, ts₁, s₁, hstored, hacc⟩ := append_accounts hsha hw.stored hh
                exact .inr ⟨m', ts', s', hlive, hsame hstored hacc⟩
            | forgetTenant tenant =>
                rcases forget_accounts hsha hw.stored hh tenant with
                  hwedged | ⟨m₁, ts₁, s₁, hstored, hacc⟩
                · exact .inl (hdisk ▸ hwedged)
                · exact .inr ⟨m', ts', s', hlive, hsame hstored hacc⟩
            | _ => exact ha.elim
  · exact .inl hwedged

/-- **A run** of appends and erasures, from a root without a store. -/
theorem World.Stands.accounts (hsha : Function.Injective P.sha256) {w : World}
    (hw : w.Stands P .any s) (actions : List Action) (hactions : ∀ a ∈ actions, a.Admits) :
    Wedged P (w.run P actions).disk ∨
      ∃ s', (w.run P actions).Stands P .any s' ∧ Accounts (w.entries P actions) s.counters s'.counters := by
  induction actions generalizing w s with
  | nil => exact .inr ⟨s, hw, .refl _⟩
  | cons a actions ih =>
      have hrest := fun a' ha' => hactions a' (List.mem_cons_of_mem a ha')
      have hstep : Wedged P (w.act P a).2.disk ∨
          ∃ s', (w.act P a).2.Stands P .any s' ∧ Accounts (w.entry P a) s.counters s'.counters := by
        rcases hw with ⟨hfresh, hnone, rfl⟩ | ⟨m, ts, hlive⟩
        · obtain ⟨d, handles⟩ := w
          obtain rfl : handles = [] := hnone
          have hentry : World.entry P ⟨d, []⟩ a = [] := by cases a <;> rfl
          rw [hentry]
          rcases hfresh.act (B := .any) a with ⟨hfresh', hnone'⟩ | ⟨m, hlive⟩
          · exact .inr ⟨.empty, .inl ⟨hfresh', hnone', rfl⟩, .refl _⟩
          · exact .inr ⟨.empty, .inr ⟨m, [], hlive⟩, .refl _⟩
        · exact (hlive.accounts hsha (hactions a (by simp))).imp_right
            fun ⟨m', ts', s', hlive', hacc⟩ => ⟨s', .inr ⟨m', ts', hlive'⟩, hacc⟩
      rcases hstep with hwedged | ⟨s', hstands, hacc⟩
      · exact .inl (hwedged.run actions)
      · refine (ih hstands hrest).imp_right fun ⟨s'', hstands', hacc'⟩ => ⟨s'', hstands', ?_⟩
        exact hacc.trans hacc'

end

end Eventlog.File
