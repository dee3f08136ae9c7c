import Eventlog.Aggregate.Repository
import Eventlog.Sqlite.Effects

/-!
# Eventlog.Contract.SnapshotPolicy

How far a stream gets ahead of its newest snapshot.

`SnapshotPolicy::every` is documented as a number of events since the last snapshot; `finish` tests
whether the version it reached is a multiple of it.  A command that decides several events may step
over the multiple, and the stream goes on without a snapshot until a command happens to end on one.
The bound holds as long as every command ends on the multiples it reaches (`Lands`).
-/

namespace Eventlog

open Durable

/-- What is seen of a stream in the state of its store: its last version, the version of its newest
    snapshot, and the generation under which one may be saved. -/
structure StreamView (σ : Type) where
  Inv : σ → Prop
  head : σ → Nat
  newest : σ → Nat
  Current : σ → String → Prop

/-- What a call that does not write leaves as it is. -/
structure StreamView.Same {σ : Type} (V : StreamView σ) (s s' : σ) : Prop where
  inv : V.Inv s'
  head : V.head s' = V.head s
  newest : V.newest s' = V.newest s
  current : ∀ id, V.Current s id → V.Current s' id

theorem StreamView.Same.trans {σ : Type} {V : StreamView σ} {s₁ s₂ s₃ : σ} (h : V.Same s₁ s₂)
    (h' : V.Same s₂ s₃) : V.Same s₁ s₃ :=
  ⟨h'.inv, h'.head.trans h.head, h'.newest.trans h.newest,
    fun id hid => h'.current id (h.current id hid)⟩

/-- What an expectation admits. -/
def Expected.Admits (head : Nat) : Expected → Prop
  | .NoStream => head = 0
  | .Exact version => head = version
  | _ => True

/-- A store that keeps verified snapshots of a stream, and whose saves succeed.  Other calls may be
    refused; nothing is said of those that are. -/
structure Verified {σ : Type} (S : EventStore σ) (stream : StreamId) extends StreamView σ where
  recorded : ∀ {s s' key hash answer}, Inv s →
    S.recordedCommand stream key hash s = (.ok answer, s') → toStreamView.Same s s'
  generation : ∀ {s s' answer}, Inv s → S.snapshotGeneration stream s = (.ok answer, s') →
    toStreamView.Same s s' ∧ ∃ id, answer = some id ∧ Current s' id
  loads : ∀ {s s' answer}, Inv s → S.loadSnapshot stream s = (.ok answer, s') →
    toStreamView.Same s s' ∧ ∀ snapshot, answer = some snapshot → snapshot.version = newest s
  reads : ∀ {s s' after slice}, Inv s →
    S.readStream stream after MAX_READ_LIMIT s = (.ok slice, s') →
    toStreamView.Same s s' ∧
      slice.events.map RecordedEvent.version =
        List.range' (after + 1) (min MAX_READ_LIMIT (head s - after)) ∧
      (slice.endOfStream → head s ≤ after + MAX_READ_LIMIT)
  appends : ∀ {s s' expected events about guard result}, Inv s →
    S.appendGuarded stream expected events about guard s = (.ok result, s') →
    Inv s' ∧ newest s' = newest s ∧ (∀ id, Current s id → Current s' id) ∧
      (result.deduplicated = true ∧ head s' = head s ∨
        result.deduplicated = false ∧ expected.Admits (head s) ∧
          head s' = head s + events.length ∧
          result.events.map RecordedEvent.version = List.range' (head s + 1) events.length)
  conflicts : ∀ {s s' expected events about guard wanted actual}, Inv s →
    S.appendGuarded stream expected events about guard s = (.error (.Conflict wanted actual), s') →
    toStreamView.Same s s'
  saves : ∀ {s id}, Inv s → Current s id → ∀ snapshot,
    ∃ s', S.saveSnapshotChecked stream snapshot id s = (.ok true, s') ∧
      Inv s' ∧ head s' = head s ∧ newest s' = snapshot.version

section Folds

variable {A : Aggregate}

theorem getLastD_range' (a n : Nat) (h : 0 < n) : (List.range' (a + 1) n).getLastD a = a + n := by
  obtain ⟨m, rfl⟩ := Nat.exists_eq_add_one.mpr h
  rw [List.range'_concat]
  simp
  omega

theorem foldSlice_version {events : List RecordedEvent} {reached reached' : A.State × Nat}
    (h : events.foldlM A.foldSlice reached = .ok reached') :
    reached'.2 = (events.map RecordedEvent.version).getLastD reached.2 := by
  induction events generalizing reached with
  | nil => cases h; rfl
  | cons e events ih =>
      rw [List.foldlM_cons] at h
      obtain ⟨next, hnext, hrest⟩ := Checks.bind_eq_ok_iff.mp h
      obtain ⟨state, -, heq⟩ := Checks.bind_eq_ok_iff.mp hnext
      cases Except.ok.inj heq
      rw [ih hrest, List.map_cons, List.getLastD_cons]

theorem le_foldNew {events : List RecordedEvent} {reached reached' : A.State × Nat}
    (h : events.foldlM A.foldNew reached = .ok reached') : reached.2 ≤ reached'.2 := by
  induction events generalizing reached with
  | nil => cases h; exact le_refl _
  | cons e events ih =>
      rw [List.foldlM_cons] at h
      obtain ⟨next, hnext, hrest⟩ := Checks.bind_eq_ok_iff.mp h
      refine le_trans ?_ (ih hrest)
      unfold Aggregate.foldNew at hnext
      split at hnext
      · obtain ⟨state, -, heq⟩ := Checks.bind_eq_ok_iff.mp hnext
        cases Except.ok.inj heq
        exact le_of_lt ‹_›
      · cases Except.ok.inj hnext
        exact le_refl _

/-- Events that follow the version reached are all folded in. -/
theorem foldNew_version {events : List RecordedEvent} {reached reached' : A.State × Nat} {n : Nat}
    (h : events.foldlM A.foldNew reached = .ok reached')
    (hversions : events.map RecordedEvent.version = List.range' (reached.2 + 1) n) :
    reached'.2 = reached.2 + n := by
  induction events generalizing reached n with
  | nil =>
      cases h
      have := congrArg List.length hversions
      simp at this
      omega
  | cons e events ih =>
      rw [List.foldlM_cons] at h
      obtain ⟨next, hnext, hrest⟩ := Checks.bind_eq_ok_iff.mp h
      cases n with
      | zero => simp at hversions
      | succ n =>
          rw [List.map_cons, List.range'_succ] at hversions
          obtain ⟨hversion, hfollow⟩ := List.cons.inj hversions
          rw [Aggregate.foldNew, if_pos (by omega)] at hnext
          obtain ⟨state, -, heq⟩ := Checks.bind_eq_ok_iff.mp hnext
          cases Except.ok.inj heq
          rw [ih hrest (by rw [hfollow, hversion])]
          dsimp only
          omega

end Folds

/-! ## Handling one command -/

section Handling

variable {A : Aggregate} {σ : Type} {R : Repository A σ} {stream : StreamId}

theorem lift_eq_ok_iff {p : Session σ EventLogError α} {a : α} {s s' : σ} :
    (Repository.lift p : Session σ A.Error α) s = (.ok a, s') ↔ p s = (.ok a, s') := by
  unfold Repository.lift
  rcases p s with ⟨r, t⟩
  cases r <;> simp [Except.mapError]

/-- The loop reads to the end of the stream. -/
theorem readOn_spec (V : Verified R.store stream) {fuel : Nat} {state : A.State} {version : Nat}
    {seen : Bool} {s s' : σ} {loaded : Loaded A} (hs : V.Inv s)
    (hseen : seen = false → version = 0)
    (h : R.readOn stream fuel state version seen s = (.ok loaded, s')) :
    V.Same s s' ∧ loaded.version = max version (V.head s) ∧
      (loaded.isNew = true → loaded.version = 0) := by
  induction fuel generalizing state version seen s with
  | zero => exact nomatch h
  | succ fuel ih =>
      obtain ⟨slice, s₁, hread, h⟩ := Session.bind_eq_ok_iff.mp h
      obtain ⟨hsame, hversions, hend⟩ := V.reads hs hread
      have hlength := congrArg List.length hversions
      rw [List.length_map, List.length_range'] at hlength
      by_cases hempty : slice.events.isEmpty
      · rw [if_pos hempty] at h
        obtain ⟨rfl, rfl⟩ := Session.pure_eq_ok_iff.mp h
        rw [List.isEmpty_iff.mp hempty, List.length_nil, MAX_READ_LIMIT] at hlength
        refine ⟨hsame, by dsimp only; omega, fun hnew => hseen (by simpa using hnew)⟩
      · rw [if_neg hempty] at h
        obtain ⟨reached, s₂, hask, h⟩ := Session.bind_eq_ok_iff.mp h
        obtain ⟨hfold, rfl⟩ := Session.ask_eq_ok_iff.mp hask
        have hsome : 0 < slice.events.length :=
          List.length_pos_iff.mpr fun hnil => hempty (by rw [hnil]; rfl)
        have hreached : reached.2 = version + min MAX_READ_LIMIT (V.head s - version) := by
          rw [foldSlice_version hfold, hversions]
          exact getLastD_range' _ _ (by omega)
        split at h
        · obtain ⟨rfl, rfl⟩ := Session.pure_eq_ok_iff.mp h
          have := hend ‹_›
          exact ⟨hsame, by dsimp only; omega, fun hnew => nomatch hnew⟩
        · obtain ⟨hrest, hversion, hnew⟩ := ih hsame.inv
            (fun hfalse : true = false => nomatch hfalse) h
          rw [hsame.head] at hversion
          exact ⟨hsame.trans hrest, by omega, hnew⟩

/-- Loading reaches the head, or a snapshot beyond it. -/
theorem loadObserved_spec (V : Verified R.store stream) {fuel : Nat} {s s' : σ}
    {loaded : Loaded A} {generation : Option String} (hs : V.Inv s)
    (h : R.loadObserved stream fuel s = (.ok (loaded, generation), s')) :
    V.Same s s' ∧ (∃ id, generation = some id ∧ V.Current s' id) ∧ V.head s ≤ loaded.version ∧
      (loaded.isNew = true → loaded.version = 0) := by
  obtain ⟨answer, s₁, hgeneration, h⟩ := Session.bind_eq_ok_iff.mp h
  obtain ⟨hsame, id, rfl, hcurrent⟩ := V.generation hs hgeneration
  obtain ⟨snapshot, s₂, hload, h⟩ := Session.bind_eq_ok_iff.mp h
  obtain ⟨hloads, -⟩ := V.loads hsame.inv hload
  obtain ⟨loaded', s₃, hread, h⟩ := Session.bind_eq_ok_iff.mp h
  obtain ⟨heq, rfl⟩ := Session.pure_eq_ok_iff.mp h
  obtain ⟨rfl, rfl⟩ := Prod.mk.inj heq
  obtain ⟨hreads, hversion, hnew⟩ := readOn_spec V hloads.inv (fun hfalse => by
    simpa using hfalse) hread
  rw [hloads.head, hsame.head] at hversion
  exact ⟨(hsame.trans hloads).trans hreads, ⟨id, rfl, hreads.current id (hloads.current id hcurrent)⟩,
    by omega, hnew⟩

theorem due_version {state : A.State} {version : Nat} {now : OffsetDateTime} {snapshot : Snapshot}
    (h : R.due state version now = some snapshot) : snapshot.version = version := by
  unfold Repository.due at h
  split at h
  · obtain ⟨serialized, -, rfl⟩ := Option.map_eq_some_iff.mp h
    rfl
  · exact nomatch h

theorem due_isSome {state : A.State} {version : Nat} {now : OffsetDateTime} :
    (R.due state version now).isSome ↔
      0 < R.every ∧ version % R.every = 0 ∧ (A.serialized state).isSome := by
  unfold Repository.due
  split <;> simp_all

/-- What finishing leaves: the version the fold reached, and a snapshot there if one is due. -/
theorem finish_spec (V : Verified R.store stream) {loaded : Loaded A} {id : String}
    {result : AppendResult} {now : OffsetDateTime} {s s' : σ} {outcome : Outcome A} (hs : V.Inv s)
    (hcurrent : V.Current s id)
    (h : R.finish stream loaded (some id) result now s = (.ok outcome, s')) :
    result.events.foldlM A.foldNew (loaded.state, loaded.version) =
        .ok (outcome.state, outcome.version) ∧
      outcome.events = result.events ∧ outcome.deduplicated = result.deduplicated ∧
      V.Inv s' ∧ V.head s' = V.head s ∧
      V.newest s' = if (R.due outcome.state outcome.version now).isSome then outcome.version
        else V.newest s := by
  obtain ⟨⟨state, version⟩, s₁, hask, h⟩ := Session.bind_eq_ok_iff.mp h
  obtain ⟨hfold, rfl⟩ := Session.ask_eq_ok_iff.mp hask
  dsimp only at h
  cases hdue : R.due state version now with
  | none =>
      rw [hdue] at h
      obtain ⟨rfl, rfl⟩ := Session.pure_eq_ok_iff.mp h
      exact ⟨hfold, rfl, rfl, hs, rfl, by simp [hdue]⟩
  | some snapshot =>
      rw [hdue] at h
      obtain ⟨heq, rfl⟩ := Prod.mk.inj h
      cases Except.ok.inj heq
      obtain ⟨s₂, hsave, hinv, hhead, hnewest⟩ := V.saves hs hcurrent snapshot
      rw [hsave]
      refine ⟨hfold, rfl, rfl, hinv, hhead, ?_⟩
      rw [hnewest, hdue]
      exact due_version hdue

/-- What a handled command leaves of the stream. -/
inductive Handles (V : Verified R.store stream) (s : σ) (outcome : Outcome A) (s' : σ) : Prop
  /-- Nothing was decided, or it had been recorded before. -/
  | quiet (inv : V.Inv s') (head : V.head s' = V.head s)
      (newest : V.newest s' = V.newest s ∨ R.every ∣ V.newest s' ∧ V.head s ≤ V.newest s')
      (old : outcome.deduplicated = true ∨ outcome.events = [])
  /-- What was decided was appended. -/
  | fresh (inv : V.Inv s') (new : outcome.deduplicated = false)
      (head : V.head s' = V.head s + outcome.events.length)
      (version : outcome.version = V.head s')
      (newest : V.newest s' = if 0 < R.every ∧ outcome.version % R.every = 0 ∧
        (A.serialized outcome.state).isSome then outcome.version else V.newest s)

theorem Handles.of_same {V : Verified R.store stream} {s s₁ s' : σ} {outcome : Outcome A}
    (hsame : V.Same s s₁) (h : Handles V s₁ outcome s') : Handles V s outcome s' := by
  cases h with
  | quiet inv head newest old =>
      rw [hsame.head] at head newest
      rw [hsame.newest] at newest
      exact .quiet inv head newest old
  | fresh inv new head version newest =>
      rw [hsame.head] at head
      rw [hsame.newest] at newest
      exact .fresh inv new head version newest

/-- A fresh append that is finished. -/
theorem handles_of_appended (V : Verified R.store stream) {loaded : Loaded A} {id : String}
    {result : AppendResult} {now : OffsetDateTime} {s s₁ s' : σ} {outcome : Outcome A}
    {events : List NewEvent} (hinv : V.Inv s₁) (hnewest : V.newest s₁ = V.newest s)
    (hcurrent : V.Current s₁ id) (hreached : loaded.version = V.head s)
    (hnew : result.deduplicated = false) (hhead : V.head s₁ = V.head s + events.length)
    (hversions : result.events.map RecordedEvent.version =
      List.range' (V.head s + 1) events.length)
    (h : R.finish stream loaded (some id) result now s₁ = (.ok outcome, s')) :
    Handles V s outcome s' := by
  obtain ⟨hfold, hevents, hdedup, hinv', hhead', hnewest'⟩ := finish_spec V hinv hcurrent h
  have hlength : result.events.length = events.length := by
    simpa using congrArg List.length hversions
  have hversion : outcome.version = V.head s + events.length := by
    rw [← hreached] at hversions ⊢
    exact foldNew_version hfold hversions
  refine .fresh hinv' (hdedup.trans hnew) ?_ ?_ ?_
  · rw [hhead', hhead, hevents, hlength]
  · rw [hversion, hhead', hhead]
  · rw [hnewest', hnewest]
    exact if_congr due_isSome rfl rfl

/-- A recorded append that is finished, whatever range it was recorded for. -/
theorem handles_of_recorded (V : Verified R.store stream) {loaded : Loaded A} {id : String}
    {result : AppendResult} {now : OffsetDateTime} {s s₁ s' : σ} {outcome : Outcome A}
    (hinv : V.Inv s₁) (hnewest : V.newest s₁ = V.newest s) (hcurrent : V.Current s₁ id)
    (hreached : V.head s ≤ loaded.version) (hold : result.deduplicated = true)
    (hhead : V.head s₁ = V.head s)
    (h : R.finish stream loaded (some id) result now s₁ = (.ok outcome, s')) :
    Handles V s outcome s' := by
  obtain ⟨hfold, -, hdedup, hinv', hhead', hnewest'⟩ := finish_spec V hinv hcurrent h
  refine .quiet hinv' (hhead'.trans hhead) ?_ (.inl (hdedup.trans hold))
  split at hnewest'
  · obtain ⟨-, hmultiple, -⟩ := due_isSome.mp ‹_›
    rw [hnewest']
    exact .inr ⟨Nat.dvd_of_mod_eq_zero hmultiple, hreached.trans (le_foldNew hfold)⟩
  · exact .inl (hnewest'.trans hnewest)

theorem attempt_spec (V : Verified R.store stream) {fuel : Nat} {call : Call A}
    {conflicted : EventLogError → Session σ A.Error (Outcome A)} {s s' : σ} {outcome : Outcome A}
    (hs : V.Inv s)
    (hconflicted : ∀ e s₁, V.Inv s₁ → conflicted e s₁ = (.ok outcome, s') →
      Handles V s₁ outcome s')
    (h : R.attempt stream fuel call conflicted s = (.ok outcome, s')) : Handles V s outcome s' := by
  obtain ⟨⟨loaded, generation⟩, s₁, hload, h⟩ := Session.bind_eq_ok_iff.mp h
  obtain ⟨hsame, ⟨id, rfl, hcurrent⟩, hreached, hnew⟩ :=
    loadObserved_spec V hs (lift_eq_ok_iff.mp hload)
  refine Handles.of_same hsame ?_
  rw [← hsame.head] at hreached
  obtain ⟨decided, s₂, hask, h⟩ := Session.bind_eq_ok_iff.mp h
  obtain ⟨-, rfl⟩ := Session.ask_eq_ok_iff.mp hask
  split at h
  · obtain ⟨rfl, rfl⟩ := Session.pure_eq_ok_iff.mp h
    exact .quiet hsame.inv rfl (.inl rfl) (.inr rfl)
  · obtain ⟨events, s₃, hevents, h⟩ := Session.bind_eq_ok_iff.mp h
    obtain ⟨-, rfl⟩ := Session.ask_eq_ok_iff.mp (lift_eq_ok_iff.mp hevents)
    split at h
    · rename_i result s₄ happend
      obtain ⟨hinv, hnewest, hkept, hold | ⟨hfresh, hadmits, hhead, hversions⟩⟩ :=
        V.appends hsame.inv happend
      · exact handles_of_recorded V hinv hnewest (hkept id hcurrent) hreached hold.1 hold.2
          (lift_eq_ok_iff.mp h)
      · refine handles_of_appended V hinv hnewest (hkept id hcurrent) ?_ hfresh hhead hversions
          (lift_eq_ok_iff.mp h)
        split at hadmits
        · rw [hnew ‹_›] at hreached ⊢
          exact (Nat.le_zero.mp hreached).symm
        · exact hadmits.symm
    · rename_i happend
      have hunchanged := V.conflicts hsame.inv happend
      exact .of_same hunchanged (hconflicted _ _ hunchanged.inv h)
    · exact nomatch h

theorem handleStream_spec (V : Verified R.store stream) {fuel : Nat} {call : Call A} {s s' : σ}
    {outcome : Outcome A} (hs : V.Inv s)
    (h : R.handleStream stream fuel call s = (.ok outcome, s')) : Handles V s outcome s' := by
  obtain ⟨recorded, s₁, hrecorded, h⟩ := Session.bind_eq_ok_iff.mp h
  have hsame := V.recorded hs (lift_eq_ok_iff.mp hrecorded)
  refine .of_same hsame ?_
  cases recorded with
  | some recorded =>
      obtain ⟨⟨loaded, generation⟩, s₂, hload, h⟩ := Session.bind_eq_ok_iff.mp h
      obtain ⟨rfl, rfl⟩ := Session.pure_eq_ok_iff.mp h
      obtain ⟨hloaded, -⟩ := loadObserved_spec V hsame.inv (lift_eq_ok_iff.mp hload)
      exact .quiet hloaded.inv hloaded.head (.inl hloaded.newest) (.inl rfl)
  | none =>
      refine attempt_spec V hsame.inv (fun _ s₂ hinv h => ?_) h
      refine attempt_spec V hinv ?_ h
      intro e s₃ _ hrefused
      exact nomatch hrefused

end Handling

/-! ## Runs -/

section Runs

variable {A : Aggregate} {σ : Type} {R : Repository A σ} {tenant : TenantId} {id : String}
  {stream : StreamId}

/-- One handled command of a run. -/
structure HandledStep (R : Repository A σ) (tenant : TenantId) (id : String) where
  fuel : Nat
  call : Call A
  before : σ
  outcome : Outcome A
  after : σ
  handled : R.handleGuarded tenant id fuel call before = (.ok outcome, after)

/-- Handled commands, each from where the last one ended. -/
def Runs (s : σ) : List (HandledStep R tenant id) → Prop
  | [] => True
  | step :: steps => step.before = s ∧ Runs step.after steps

/-- A command does not step over a multiple of `every`: it stays between two of them, or ends on
    one in a state that can be written down. -/
def Lands (V : Verified R.store stream) (step : HandledStep R tenant id) : Prop :=
  let reached := V.head step.before + step.outcome.events.length
  V.head step.before / R.every = reached / R.every ∨
    R.every ∣ reached ∧ (A.serialized step.outcome.state).isSome

/-- Snapshots are at multiples, and the newest is less than `every` events behind. -/
structure KeptUp (V : Verified R.store stream) (s : σ) : Prop where
  inv : V.Inv s
  multiple : R.every ∣ V.newest s
  behind : V.head s < V.newest s + R.every

theorem lt_of_div_eq {k head reached newest : Nat} (hk : 0 < k) (hmultiple : k ∣ newest)
    (hbehind : head < newest + k) (hsame : head / k = reached / k) : reached < newest + k := by
  obtain ⟨m, rfl⟩ := hmultiple
  have hle : head / k < m + 1 := by
    rw [Nat.div_lt_iff_lt_mul hk]
    calc head < k * m + k := hbehind
      _ = (m + 1) * k := by ring
  have hreached : reached < (reached / k + 1) * k := Nat.lt_mul_of_div_lt (Nat.lt_succ_self _) hk
  calc reached < (reached / k + 1) * k := hreached
    _ ≤ (m + 1) * k := Nat.mul_le_mul_right k (by omega)
    _ = k * m + k := by ring

/-- **One handled command** keeps up, if it lands. -/
theorem KeptUp.step {V : Verified R.store stream} (hk : 0 < R.every)
    (hstream : StreamId.new tenant A.TYPE id = .ok stream) {step : HandledStep R tenant id}
    (h : KeptUp V step.before) (hlands : step.outcome.deduplicated = false → Lands V step) :
    KeptUp V step.after := by
  have hhandled := step.handled
  rw [Repository.handleGuarded, hstream] at hhandled
  cases handleStream_spec V h.inv hhandled with
  | quiet inv head newest old =>
      refine ⟨inv, ?_, ?_⟩
      · rcases newest with hsame | ⟨hmultiple, -⟩
        · exact hsame ▸ h.multiple
        · exact hmultiple
      · rcases newest with hsame | ⟨-, hbeyond⟩
        · rw [head, hsame]
          exact h.behind
        · omega
  | fresh inv new head version newest =>
      split at newest
      · rename_i hdue
        refine ⟨inv, newest ▸ Nat.dvd_of_mod_eq_zero hdue.2.1, ?_⟩
        omega
      · rename_i hnot
        refine ⟨inv, newest ▸ h.multiple, ?_⟩
        rcases hlands new with hsame | ⟨hmultiple, hserialized⟩
        · rw [newest, head]
          exact lt_of_div_eq hk h.multiple h.behind hsame
        · rw [← head, ← version] at hmultiple
          exact absurd ⟨hk, Nat.mod_eq_zero_of_dvd hmultiple, hserialized⟩ hnot

end Runs

/-! ## SQLite -/

namespace Sqlite

open File (StreamId.key)

variable (P : Platform) (supply : Nat → Draws)

/-- A SQLite handle as the store of a repository; each call that draws is given draws of its own. -/
def eventStore : EventStore (Engine × Nat) where
  recordedCommand stream key hash := fun s => (s.1.db.recordedCommand P stream key hash, s)
  snapshotGeneration stream := fun s =>
    let answer := s.1.snapshotGeneration (supply s.2) stream
    (answer.1.map some, answer.2, s.2 + 1)
  loadSnapshot stream := fun s => (.ok (s.1.db.loadSnapshot P stream), s)
  readStream stream after limit := fun s => (s.1.db.readStream P stream after limit, s)
  appendGuarded stream expected events about guard := fun s =>
    let answer := s.1.appendGuarded P (supply s.2) stream expected events about guard
    (answer.1, answer.2, s.2 + 1)
  saveSnapshotChecked stream snapshot generation := fun s =>
    let answer := s.1.saveSnapshotChecked P stream snapshot generation
    (answer.1, answer.2, s.2)

/-- What is seen of a stream in a SQLite handle that has nothing left to restore. -/
def streamView (stream : StreamId) : StreamView (Engine × Nat) where
  Inv s := s.1.db.Numbered ∧ s.1.restored = []
  head s := s.1.db.head stream
  newest s := (s.1.db.snapshots[StreamId.key stream]?.map Snapshot.version).getD 0
  Current s id := ∃ cached, s.1.db.generations[StreamId.key stream]? = some (id, cached)

variable {P} {supply} {stream : StreamId}

theorem loadSnapshot_version {db : Db} {snapshot : Snapshot}
    (h : db.loadSnapshot P stream = some snapshot) :
    snapshot.version = (db.snapshots[StreamId.key stream]?.map Snapshot.version).getD 0 := by
  unfold Db.loadSnapshot at h
  obtain ⟨⟨generation, cached⟩, -, h⟩ := Option.bind_eq_some_iff.mp h
  obtain ⟨kept, hkept, h⟩ := Option.bind_eq_some_iff.mp h
  obtain ⟨state, -, h⟩ := Option.bind_eq_some_iff.mp h
  split at h
  · cases h
    rw [hkept]
    rfl
  · exact nomatch h

theorem versions_of_mapM_readEvent {events read : List RecordedEvent}
    (h : events.mapM (readEvent P) = .ok read) :
    read.map RecordedEvent.version = events.map RecordedEvent.version := by
  have hall := Checks.mapM_eq_ok_iff.mp h
  clear h
  induction hall with
  | nil => rfl
  | @cons e r events read hr _ ih =>
      rw [List.map_cons, List.map_cons, ih]
      unfold readEvent at hr
      split at hr
      · cases Except.ok.inj hr
        rfl
      · cases hr

/-- The versions behind one. -/
theorem filter_lt_range' (after n : Nat) :
    (List.range' 1 n).filter (fun v => decide (v > after)) = List.range' (after + 1) (n - after) := by
  rcases Nat.le_total n after with hle | hle
  · rw [Nat.sub_eq_zero_of_le hle, List.range'_zero, List.filter_eq_nil_iff]
    intro v hv
    rw [List.mem_range'_1] at hv
    simp only [decide_eq_true_eq]
    omega
  · have hsplit : List.range' 1 n = List.range' 1 after ++ List.range' (after + 1) (n - after) := by
      rw [Nat.add_comm after 1, List.range'_append_1, Nat.add_sub_cancel' hle]
    have hlow : (List.range' 1 after).filter (fun v => decide (v > after)) = [] := by
      refine List.filter_eq_nil_iff.mpr fun v hv => ?_
      rw [List.mem_range'_1] at hv
      simp only [decide_eq_true_eq]
      omega
    rw [hsplit, List.filter_append, hlow, List.nil_append, List.filter_eq_self]
    intro v hv
    rw [List.mem_range'_1] at hv
    simp only [decide_eq_true_eq]
    omega

theorem take_range'_one (m a n : Nat) :
    (List.range' a n).take m = List.range' a (min m n) := by
  rcases Nat.le_total n m with hle | hle
  · rw [List.take_range'_of_length_le hle, Nat.min_eq_right hle]
  · rw [List.take_range'_of_length_ge hle, Nat.min_eq_left hle]

theorem readStream_spec {l : Ledger} (hl : l.Numbered) {after : Nat} {slice : File.StreamSlice}
    (h : l.readStream P stream after MAX_READ_LIMIT = .ok slice) :
    slice.events.map RecordedEvent.version =
        List.range' (after + 1) (min MAX_READ_LIMIT (l.head stream - after)) ∧
      (slice.endOfStream → l.head stream ≤ after + MAX_READ_LIMIT) := by
  obtain ⟨-, -, h⟩ := Checks.bind_eq_ok_iff.mp h
  obtain ⟨page, hpage, h⟩ := Checks.bind_eq_ok_iff.mp h
  cases Except.ok.inj h
  have hlimit : boundedLimit MAX_READ_LIMIT = MAX_READ_LIMIT := rfl
  have hwaiting : ((l.ofStream stream).filter fun e => decide (e.version > after)).map
      RecordedEvent.version = List.range' (after + 1) (l.head stream - after) := by
    rw [hl.head, ← filter_lt_range', ← hl stream, List.filter_map]
    rfl
  have hversions := versions_of_mapM_readEvent hpage
  rw [List.map_take, hwaiting, take_range'_one, hlimit] at hversions
  have hlength := congrArg List.length hversions
  rw [List.length_map, List.length_range'] at hlength
  dsimp only
  rw [hlimit, List.map_take, hversions, take_range'_one]
  refine ⟨by rw [show min MAX_READ_LIMIT (min (MAX_READ_LIMIT + 1) (l.head stream - after)) =
    min MAX_READ_LIMIT (l.head stream - after) by omega], fun hend => ?_⟩
  have := of_decide_eq_true hend
  omega

theorem deduplicated_of_recorded {l : Ledger} {range : GroupRange} {result : AppendResult}
    (h : l.recorded P range = .ok result) : result.deduplicated = true := by
  obtain ⟨events, -, h⟩ := Checks.bind_eq_ok_iff.mp h
  cases Except.ok.inj h
  rfl

theorem deduplicated_of_recordedCommand {l : Ledger} {key hash : String} {result : AppendResult}
    (h : l.recordedCommand P stream key hash = .ok (some result)) : result.deduplicated = true := by
  unfold Ledger.recordedCommand at h
  split at h
  · exact nomatch h
  · split at h
    · exact nomatch h
    · obtain ⟨found, hfound, hresult⟩ := Checks.map_eq_ok_iff.mp h
      cases hresult
      exact deduplicated_of_recorded hfound

theorem deduplicated_of_recordedAppend {l : Ledger} {command : CommandMeta} {result : AppendResult}
    (h : Work.recordedAppend P l stream command = .ok (some result)) :
    result.deduplicated = true := by
  unfold Work.recordedAppend at h
  dsimp only at h
  split at h
  · obtain ⟨claimed, -, h⟩ := Checks.bind_eq_ok_iff.mp h
    cases claimed with
    | some range =>
        obtain ⟨found, hfound, h⟩ := Checks.bind_eq_ok_iff.mp h
        cases Except.ok.inj h
        exact deduplicated_of_recorded hfound
    | none => exact deduplicated_of_recordedCommand h
  · exact deduplicated_of_recordedCommand h

theorem admits_of_checkExpected {expected : Expected} {head : Nat}
    (h : checkExpected expected head = .ok ()) : expected.Admits head := by
  cases expected with
  | Any => trivial
  | NoStream =>
      by_contra hne
      simp only [checkExpected, if_neg (show ¬ head = 0 from hne)] at h
      exact nomatch h
  | Exact version =>
      by_contra hne
      simp only [checkExpected, if_neg (show ¬ version = head from fun heq => hne heq.symm)] at h
      exact nomatch h
  | Merge heads => trivial

/-- What an append that succeeds does to the tables. -/
theorem appendGuarded_spec {e e' : Engine} {D : Draws} {expected : Expected}
    {events : List NewEvent} {about : CommandMeta} {guard : Callback} {result : AppendResult}
    (hnumbered : e.db.Numbered) (hrestored : e.restored = [])
    (h : e.appendGuarded P D stream expected events about guard = (.ok result, e')) :
    e'.restored = [] ∧ e'.db.snapshots = e.db.snapshots ∧ e'.db.generations = e.db.generations ∧
      (result.deduplicated = true ∧ e'.db.toLedger = e.db.toLedger ∨
        result.deduplicated = false ∧ expected.Admits (e.db.head stream) ∧ e'.db.Numbered ∧
          e'.db.head stream = e.db.head stream + events.length ∧
          result.events.map RecordedEvent.version =
            List.range' (e.db.head stream + 1) events.length) := by
  unfold Engine.appendGuarded at h
  split at h
  · cases h
  · unfold Engine.transact at h
    split at h
    · rename_i result' tx hwork
      obtain ⟨heq, rfl⟩ := Prod.mk.inj h
      cases Except.ok.inj heq
      obtain ⟨found, tx₁, hask, hwork⟩ := Session.bind_eq_ok_iff.mp hwork
      obtain ⟨hfound, rfl⟩ := Session.ask_eq_ok_iff.mp hask
      cases found with
      | some recorded =>
          obtain ⟨rfl, rfl⟩ := Session.pure_eq_ok_iff.mp hwork
          exact ⟨hrestored, rfl, rfl, .inl ⟨deduplicated_of_recordedAppend hfound, rfl⟩⟩
      | none =>
          have hwrote := Work.appendNew_wrote P hwork
          have hnumbered' : tx.db.Numbered := by
            unfold Ledger.Numbered at *
            rw [hwrote.ledger]
            exact Ledger.Numbered.appended hnumbered
          refine ⟨?_, hwrote.snapshots, hwrote.generations, .inr ⟨?_, ?_, hnumbered', ?_, ?_⟩⟩
          · change tx.restored = []
            rw [hwrote.restored]
            change e.restored.drop events.length = []
            rw [hrestored, List.drop_nil]
          · rw [hwrote.result]
          · exact admits_of_checkExpected (hwrote.expectation hrestored)
          · change tx.db.head stream = _
            rw [hnumbered'.head, hnumbered.head, hwrote.ledger, Ledger.ofStream_appended,
              if_pos rfl, List.length_append, length_recordedFrom, List.length_zip]
            simp [Tx.identities, Engine.freeze]
          · rw [hwrote.result, map_version_recordedFrom, List.length_zip]
            simp [Tx.identities, Engine.freeze]
    · cases h

theorem appendGuarded_of_error {e e' : Engine} {D : Draws} {expected : Expected}
    {events : List NewEvent} {about : CommandMeta} {guard : Callback} {error : EventLogError}
    (h : e.appendGuarded P D stream expected events about guard = (.error error, e')) :
    e'.db = e.db ∧ e'.restored = e.restored := by
  unfold Engine.appendGuarded at h
  split at h
  · cases h
    exact ⟨rfl, rfl⟩
  · unfold Engine.transact at h
    split at h
    · exact nomatch h
    · cases h
      exact ⟨rfl, rfl⟩

/-- **SQLite keeps verified snapshots**, on a machine whose moments have a text. -/
def verified (P : Platform) (supply : Nat → Draws) (hclock : ∀ t, (P.formatTime t).isSome)
    (stream : StreamId) :
    Verified (eventStore P supply) stream where
  toStreamView := streamView stream
  recorded := by
    intro s s' key hash answer hs h
    obtain ⟨-, rfl⟩ := Prod.mk.inj h
    exact ⟨hs, rfl, rfl, fun _ hid => hid⟩
  generation := by
    intro s s' answer hs h
    obtain ⟨hanswer, rfl⟩ := Prod.mk.inj h
    simp only [Engine.snapshotGeneration] at hanswer ⊢
    cases hkept : s.1.db.generations[StreamId.key stream]? with
    | some kept =>
        rw [hkept] at hanswer
        cases Except.ok.inj hanswer
        exact ⟨⟨hs, rfl, rfl, fun _ hid => hid⟩, kept.1, rfl, kept.2, hkept⟩
    | none =>
        rw [hkept] at hanswer
        cases Except.ok.inj hanswer
        refine ⟨⟨hs, rfl, rfl, fun id hid => ?_⟩, _, rfl, none, ?_⟩
        · obtain ⟨cached, hcached⟩ := hid
          exact nomatch hkept.symm.trans hcached
        · exact Std.ExtTreeMap.getElem?_insert_self
  loads hs h := by
    cases h
    exact ⟨⟨hs, rfl, rfl, fun _ hid => hid⟩, fun snapshot hsnapshot =>
      loadSnapshot_version hsnapshot⟩
  reads := by
    intro s s' after slice hs h
    obtain ⟨hslice, rfl⟩ := Prod.mk.inj h
    exact ⟨⟨hs, rfl, rfl, fun _ hid => hid⟩, readStream_spec hs.1 hslice⟩
  appends := by
    intro s s' expected events about guard result hs h
    obtain ⟨hanswer, rfl⟩ := Prod.mk.inj h
    obtain ⟨hrestored, hsnapshots, hgenerations, hledger⟩ :=
      appendGuarded_spec hs.1 hs.2 (Prod.ext hanswer rfl)
    have hnewest : (streamView stream).newest ((s.1.appendGuarded P (supply s.2) stream expected
        events about guard).2, s.2 + 1) = (streamView stream).newest s := by
      simp only [streamView, hsnapshots]
    have hcurrent : ∀ id, (streamView stream).Current s id → (streamView stream).Current
        ((s.1.appendGuarded P (supply s.2) stream expected events about guard).2, s.2 + 1) id := by
      intro id hid
      simpa only [streamView, hgenerations] using hid
    rcases hledger with ⟨hold, hledger⟩ | ⟨hnew, hadmits, hnumbered, hhead, hversions⟩
    · refine ⟨⟨?_, hrestored⟩, hnewest, hcurrent, .inl ⟨hold, ?_⟩⟩
      · unfold Ledger.Numbered
        dsimp only
        rw [hledger]
        exact hs.1
      · simp only [streamView, hledger]
    · exact ⟨⟨hnumbered, hrestored⟩, hnewest, hcurrent, .inr ⟨hnew, hadmits, hhead, hversions⟩⟩
  conflicts := by
    intro s s' expected events about guard wanted actual hs h
    obtain ⟨hanswer, rfl⟩ := Prod.mk.inj h
    obtain ⟨hdb, hrestored⟩ := appendGuarded_of_error (Prod.ext hanswer rfl)
    refine ⟨⟨?_, hrestored.trans hs.2⟩, ?_, ?_, fun id hid => ?_⟩
    · dsimp only
      rw [hdb]
      exact hs.1
    · simp only [streamView, hdb]
    · simp only [streamView, hdb]
    · simpa only [streamView, hdb] using hid
  saves := by
    intro s id hs hid snapshot
    obtain ⟨cached, hcached⟩ := hid
    have hsave : s.1.saveSnapshotChecked P stream snapshot id = (.ok true, s.1.update fun db =>
        { db with
          generations := db.generations.insert (StreamId.key stream) (id, some id)
          snapshots := db.snapshots.insert (StreamId.key stream) snapshot }) := by
      simp [Engine.saveSnapshotChecked, hcached, checkTime, hclock snapshot.recordedAt]
    refine ⟨((s.1.saveSnapshotChecked P stream snapshot id).2, s.2), ?_, ?_⟩
    · simp only [eventStore, hsave]
    · rw [hsave]
      refine ⟨hs, rfl, ?_⟩
      simp [streamView, Engine.update]

end Sqlite

/-! ## A counter -/

/-- An aggregate that counts; a command is how many to count. -/
def counter : Aggregate where
  State := Nat
  Command := Nat
  Event := Unit
  Error := EventLogError
  refused e := e
  TYPE := "account"
  STATE_SCHEMA_VERSION := 1
  name _ := "counted"
  schemaVersion _ := 1
  toData _ := .ok (.obj [])
  fromData _ _ _ := .ok ()
  empty _ := 0
  apply n _ := n + 1
  decides _ n := .ok (List.replicate n ())
  serialized n := some (toValue n)
  deserialized j := fromValue j

def sampleSupply (_ : Nat) : Draws := sampleDraws "e" validField_e

/-- Counters in SQLite, with a snapshot every two events. -/
def counters : Repository counter (Sqlite.Engine × Nat) where
  store := Sqlite.eventStore samplePlatform sampleSupply
  every := 2

def countCall (n : Nat) : Call counter := ⟨n, sampleCommand "k", noGuard, sampleTime⟩

/-- Counting from nothing. -/
def counted (n : Nat) : Except EventLogError (Outcome counter) × Sqlite.Engine × Nat :=
  counters.handleGuarded sampleTenant "a" 1 (countCall n) (Sqlite.Engine.inMemory, 0)

theorem ok_of_toOption {r : Except ε α} {a : α} (h : r.toOption = some a) : r = .ok a := by
  cases r with
  | error e => exact nomatch h
  | ok a' => exact congrArg _ (Option.some.inj h)

def countedStep {n : Nat} {outcome : Outcome counter} (h : (counted n).1 = .ok outcome) :
    HandledStep counters sampleTenant "a" :=
  ⟨1, countCall n, (Sqlite.Engine.inMemory, 0), outcome, (counted n).2, Prod.ext h rfl⟩

end Eventlog
