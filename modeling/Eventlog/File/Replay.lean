import Eventlog.File.Staging
import Eventlog.File.Store

/-!
# Eventlog.File.Replay

What holds of every state a history folds into.

A journaled transaction is the JSON of a list of operations whose bodies are good
(`Journaled`).  An invariant that each operation preserves holds of the replayed state
(`replayFrom_induction`); the state a handle applied its own operations to differs from it at
most by rows of `null` (`Folds`).
-/

namespace Eventlog.File

variable {B : Bodies} {ts : List Json} {s s' s₀ : State}

/-! ## Operations with good bodies -/

/-- The body an operation carries is good, and its counter is its owner's. -/
def Op.Bodied (B : Bodies) : Op → Prop
  | .Counter tenant coordinate _ => Counted tenant coordinate
  | .Event event => B.data event.data
  | .Row _ _ _ (some body) => B.row body
  | _ => True

theorem Op.Good.bodied {P : Primitives} {d : Disk} {op : Op} (h : op.Good P B d) :
    op.Bodied B := by
  cases op with
  | Row tenant name key body => cases body <;> exact h
  | Event event => exact h
  | Counter tenant coordinate value => exact h
  | _ => trivial

@[simp] theorem Op.stored_stored (op : Op) : op.stored.stored = op.stored := by
  cases op with
  | Row tenant name key body =>
      cases body with
      | none => rfl
      | some j => cases j <;> rfl
  | _ => rfl

theorem Op.Bodied.stored {op : Op} (h : op.Bodied B) : op.stored.Bodied B := by
  cases op with
  | Row tenant name key body =>
      cases body with
      | none => trivial
      | some j => cases j <;> first | exact h | trivial
  | _ => exact h

/-- Every transaction is the JSON of operations with good bodies. -/
def Journaled (B : Bodies) (ts : List Json) : Prop :=
  ∀ t ∈ ts, ∃ ops : List Op, t = toValue ops ∧ ∀ op ∈ ops, op.Bodied B

theorem journaled_nil : Journaled B [] := by
  simp [Journaled]

theorem Journaled.append {us : List Json} (h : Journaled B ts) (h' : Journaled B us) :
    Journaled B (ts ++ us) := fun t ht =>
  (List.mem_append.mp ht).elim (h t) (h' t)

theorem Journaled.drop (h : Journaled B ts) (n : Nat) : Journaled B (ts.drop n) :=
  fun t ht => h t (List.mem_of_mem_drop ht)

theorem journaled_singleton {ops : List Op} (h : ∀ op ∈ ops, op.Bodied B) :
    Journaled B [toValue ops] := by
  intro t ht
  exact ⟨ops, List.mem_singleton.mp ht, h⟩

/-- What a history is read back as has good bodies too. -/
theorem Journaled.bodied (h : Journaled B ts) {t : Json} (ht : t ∈ ts) {ops : List Op}
    (hread : fromValue t = some ops) : ∀ op ∈ ops, op.Bodied B := by
  obtain ⟨raw, rfl, hraw⟩ := h t ht
  rw [fromValue_toValue_ops] at hread
  cases hread
  intro op hop
  obtain ⟨op, hmem, rfl⟩ := List.mem_map.mp hop
  exact (hraw op hmem).stored

/-! ## What an operation can do -/

/-- **Everything an applied operation can have done.** -/
theorem State.apply_cases {op : Op} (h : s.apply op = .ok s') :
    (∃ event stream, op = .Event event ∧ event.stream = .ok stream ∧
      s.nextPosition < event.globalSeq ∧ event.version = s.head stream + 1 ∧
      s' = { s with nextPosition := event.globalSeq, events := s.events ++ [event] }) ∨
    (∃ name indexed, op = .Projection name indexed ∧
      (∀ old, s.projections[[name]]? = some old → old = indexed) ∧
      s' = { s with projections := s.projections.insert [name] indexed }) ∨
    (op.Plain ∧ s' = s.update op) := by
  cases op with
  | Event event =>
      simp only [State.apply, State.applyEvent] at h
      split_ifs at h with hpos
      cases hstream : event.stream with
      | error e => simp [hstream] at h
      | ok stream =>
          simp only [hstream] at h
          split_ifs at h with hversion
          cases h
          exact .inl ⟨event, stream, rfl, hstream, by omega, by simpa using hversion, rfl⟩
  | Projection name indexed =>
      simp only [State.apply, State.applyProjection] at h
      cases hold : s.projections[[name]]? with
      | none =>
          rw [hold] at h
          cases h
          exact .inr (.inl ⟨name, indexed, rfl, by simp [hold], rfl⟩)
      | some old =>
          simp only [hold] at h
          split_ifs at h with hsame
          cases h
          exact .inr (.inl ⟨name, indexed, rfl, by simp [hold]; simpa using hsame, rfl⟩)
  | _ => cases h; exact .inr (.inr ⟨trivial, rfl⟩)

/-! ## Invariants of replayed states -/

theorem fold_ops (s : State) (ops : List Op) :
    s.fold (toValue ops) =
      (s.applyAll (ops.map Op.stored)).map fun s' => (s', (ops.map Op.stored).filterMap Op.binds?) := by
  simp [State.fold, fromValue_toValue_ops]

theorem applyAll_cons (s : State) (op : Op) (ops : List Op) :
    s.applyAll (op :: ops) = s.apply op >>= fun s => s.applyAll ops := by
  simp [State.applyAll]

theorem applyAll_induction {I : State → Prop} {ops : List Op}
    (hstep : ∀ s op s', I s → op ∈ ops → s.apply op = .ok s' → I s') (hs : I s)
    (h : s.applyAll ops = .ok s') : I s' := by
  induction ops generalizing s with
  | nil => cases h; exact hs
  | cons op ops ih =>
      rw [applyAll_cons] at h
      cases happly : s.apply op with
      | error e => simp [happly, bind, Except.bind] at h
      | ok s₁ =>
          rw [happly] at h
          exact ih (fun s op' s' hI hop => hstep s op' s' hI (by simp [hop]))
            (hstep s op s₁ hs (by simp) happly) h

theorem replayFrom_cons (s : State) (t : Json) (ts : List Json) :
    s.replayFrom (t :: ts) = (s.fold t).map Prod.fst >>= fun s => s.replayFrom ts := by
  simp [State.replayFrom]

/-- **An invariant of operations is one of histories.** -/
theorem replayFrom_induction {I : State → Prop} (hts : Journaled B ts)
    (hstep : ∀ s op s', I s → op.Bodied B → op.stored = op → s.apply op = .ok s' → I s')
    (hs : I s) (h : s.replayFrom ts = .ok s') : I s' := by
  induction ts generalizing s with
  | nil => cases h; exact hs
  | cons t ts ih =>
      obtain ⟨ops, rfl, hops⟩ := hts t (by simp)
      rw [replayFrom_cons, fold_ops] at h
      cases happly : s.applyAll (ops.map Op.stored) with
      | error e => simp [happly, bind, Except.bind, Except.map] at h
      | ok s₁ =>
          simp only [happly, Except.map, bind, Except.bind] at h
          refine ih (fun t ht => hts t (by simp [ht])) (applyAll_induction ?_ hs happly) h
          intro s op s' hI hop happly
          obtain ⟨raw, hraw, rfl⟩ := List.mem_map.mp hop
          exact hstep s raw.stored s' hI (hops raw hraw).stored (Op.stored_stored raw) happly

/-! ## Events and bindings -/

theorem apply_events {op : Op} (h : s.apply op = .ok s') :
    s'.events = s.events ++ op.event?.toList := by
  rcases State.apply_cases h with ⟨event, _, rfl, -, -, -, rfl⟩ | ⟨_, _, rfl, -, rfl⟩ | ⟨hplain, rfl⟩
  · rfl
  · simp [Op.event?]
  · cases op with
    | Event => exact hplain.elim
    | Projection => exact hplain.elim
    | Row tenant name key body => cases body <;> simp [State.update, Op.event?]
    | Blob tenant digest object => cases object <;> simp [State.update, Op.event?]
    | _ => simp [State.update, Op.event?]

theorem applyAll_events {ops : List Op} (h : s.applyAll ops = .ok s') :
    s'.events = s.events ++ ops.filterMap Op.event? := by
  induction ops generalizing s with
  | nil => cases h; simp
  | cons op ops ih =>
      rw [applyAll_cons] at h
      cases happly : s.apply op with
      | error e => simp [happly, bind, Except.bind] at h
      | ok s₁ =>
          rw [happly] at h
          rw [ih h, apply_events happly]
          cases hevent : op.event? <;> simp [hevent]

theorem applyAll_eventIds {ops : List Op} (h : s.applyAll ops = .ok s') :
    s'.events.map RecordedEvent.eventId =
      s.events.map RecordedEvent.eventId ++ ops.filterMap Op.eventId? := by
  rw [applyAll_events h, List.map_append, List.map_filterMap]
  rfl

theorem apply_blobs {op : Op} (h : s.apply op = .ok s') (k : List String) (b : Blob)
    (hb : s'.blobs[k]? = some b) :
    s.blobs[k]? = some b ∨ ∃ tenant digest, op = .Blob tenant digest (some b) := by
  rcases State.apply_cases h with ⟨_, _, -, -, -, -, rfl⟩ | ⟨_, _, -, -, rfl⟩ | ⟨-, rfl⟩
  · exact .inl hb
  · exact .inl hb
  · cases op with
    | Blob tenant digest object =>
        cases object with
        | none =>
            simp only [State.update, Std.ExtTreeMap.getElem?_erase] at hb
            split_ifs at hb
            exact .inl hb
        | some object =>
            simp only [State.update, Std.ExtTreeMap.getElem?_insert] at hb
            split_ifs at hb
            · cases hb
              exact .inr ⟨tenant, digest, rfl⟩
            · exact .inl hb
    | Row tenant name key body => cases body <;> exact .inl hb
    | _ => exact .inl hb

/-- A binding is an old one, or one that was recorded. -/
theorem applyAll_blobs {ops : List Op} (h : s.applyAll ops = .ok s') (k : List String) (b : Blob)
    (hb : s'.blobs[k]? = some b) :
    s.blobs[k]? = some b ∨ ∃ tenant digest, .Blob tenant digest (some b) ∈ ops := by
  induction ops generalizing s with
  | nil => cases h; exact .inl hb
  | cons op ops ih =>
      rw [applyAll_cons] at h
      cases happly : s.apply op with
      | error e => simp [happly, bind, Except.bind] at h
      | ok s₁ =>
          rw [happly] at h
          rcases ih h with hold | ⟨tenant, digest, hmem⟩
          · rcases apply_blobs happly k b hold with hold | ⟨tenant, digest, rfl⟩
            · exact .inl hold
            · exact .inr ⟨tenant, digest, by simp⟩
          · exact .inr ⟨tenant, digest, by simp [hmem]⟩

/-! ## Rows -/

/-- Every row of a state is good. -/
def State.Rows (good : Json → Prop) (s : State) : Prop :=
  ∀ (k : List String) body, s.rows[k]? = some body → good body

theorem rows_empty (good : Json → Prop) : State.empty.Rows good := by
  intro k body h
  simp [State.empty] at h

/-- Only a row operation adds a row. -/
theorem State.Rows.apply {good : Json → Prop} {op : Op} (hs : s.Rows good)
    (hop : ∀ tenant name key body, op = .Row tenant name key (some body) → good body)
    (h : s.apply op = .ok s') : s'.Rows good := by
  rcases State.apply_cases h with ⟨_, _, -, -, -, -, rfl⟩ | ⟨_, _, -, -, rfl⟩ | ⟨-, rfl⟩
  · exact hs
  · exact hs
  · intro k body hget
    cases op with
    | Row tenant name key row =>
        cases row with
        | none =>
            simp only [State.update, Std.ExtTreeMap.getElem?_erase] at hget
            split_ifs at hget
            exact hs k body hget
        | some row =>
            simp only [State.update, Std.ExtTreeMap.getElem?_insert] at hget
            split_ifs at hget
            · cases hget
              exact hop _ _ _ _ rfl
            · exact hs k body hget
    | ClearRows tenant name =>
        simp only [State.update, Std.ExtTreeMap.getElem?_filter', Option.filter_eq_some_iff] at hget
        exact hs k body hget.1
    | Blob tenant digest object => cases object <;> exact hs k body hget
    | _ => exact hs k body hget

theorem applyAll_rows {ops : List Op} (hs : s.Rows B.row) (hops : ∀ op ∈ ops, op.Bodied B)
    (h : s.applyAll ops = .ok s') : s'.Rows B.row := by
  refine applyAll_induction (fun s op s' hI hop happly => hI.apply ?_ happly) hs h
  rintro tenant name key body rfl
  exact hops _ hop

theorem replayFrom_rows (hts : Journaled B ts) (hs : s.Rows B.row)
    (h : s.replayFrom ts = .ok s') : s'.Rows B.row := by
  refine replayFrom_induction hts (fun s op s' hI hop _ happly => hI.apply ?_ happly) hs h
  rintro tenant name key body rfl
  exact hop

/-- A state without rows of `null` is its own strip. -/
theorem strip_eq_self (h : s.Rows (· ≠ .null)) : s.strip = s := by
  have hrows : State.nonNull s.rows = s.rows := by
    refine Std.ExtTreeMap.ext_getElem? fun k => ?_
    rw [State.getElem?_nonNull]
    cases hget : s.rows[k]? with
    | none => rfl
    | some body => simp [h k body hget]
  rw [State.strip, hrows]

/-- What is replayed holds no row of `null`. -/
theorem replayFrom_strip (hts : Journaled B ts) (hs : s.Rows (· ≠ .null))
    (h : s.replayFrom ts = .ok s') : s'.Rows (· ≠ .null) := by
  refine replayFrom_induction hts (fun s op s' hI _ hstored happly => hI.apply ?_ happly) hs h
  rintro tenant name key body rfl rfl
  simp [Op.stored, storedBody] at hstored

/-! ## Live states -/

/-- `s` is what a handle makes of the history `ts`: the replayed state, and possibly rows of
    `null`. -/
def Folds (ts : List Json) (s : State) : Prop :=
  State.replay ts = .ok s.strip

theorem replay_folds (hts : Journaled B ts) (h : State.replay ts = .ok s) : Folds ts s := by
  rw [Folds, h, strip_eq_self (replayFrom_strip hts (rows_empty _) h)]

/-- **Committing what was applied** keeps the live state a fold of the history. -/
theorem Folds.append {ops : List Op} (h : Folds ts s) (hops : s.applyAll ops = .ok s') :
    Folds (ts ++ [toValue ops]) s' := by
  rw [Folds, State.replay, State.replayFrom_append]
  rw [Folds, State.replay] at h
  rw [h]
  change s.strip.replayFrom [toValue ops] = _
  rw [State.replayFrom_singleton, hops]
  rfl

/-- Folding what is stored onto a live state. -/
theorem applyAll_stored_strip (s : State) (ops : List Op) :
    s.strip.applyAll (ops.map Op.stored) = (s.applyAll (ops.map Op.stored)).map State.strip := by
  have h := State.applyAll_stored s (ops.map Op.stored)
  rwa [List.map_map, show Op.stored ∘ Op.stored = Op.stored from funext Op.stored_stored] at h

/-- **Folding fresh transactions** onto a live state. -/
theorem foldAll_strip (hts : Journaled B ts) (h : s.strip.replayFrom ts = .ok s₀) :
    ∃ s' bound, s.foldAll ts = .ok (s', bound) ∧ s'.strip = s₀ := by
  induction ts generalizing s with
  | nil =>
      cases h
      exact ⟨s, [], rfl, rfl⟩
  | cons t ts ih =>
      obtain ⟨ops, rfl, -⟩ := hts t (by simp)
      rw [replayFrom_cons, fold_ops, applyAll_stored_strip] at h
      cases happly : s.applyAll (ops.map Op.stored) with
      | error e => simp [happly, bind, Except.bind, Except.map] at h
      | ok s₁ =>
          simp only [happly, Except.map, bind, Except.bind] at h
          obtain ⟨s', bound, hall, hstrip⟩ := ih (fun t ht => hts t (by simp [ht])) h
          refine ⟨s', (ops.map Op.stored).filterMap Op.binds? ++ bound, ?_, hstrip⟩
          simp [State.foldAll, fold_ops, happly, hall, Except.map, bind, Except.bind, pure,
            Except.pure]

theorem foldAll_rows {bound : List (TenantId × String)} (hts : Journaled B ts) (hs : s.Rows B.row)
    (h : s.foldAll ts = .ok (s', bound)) : s'.Rows B.row := by
  induction ts generalizing s bound with
  | nil => cases h; exact hs
  | cons t ts ih =>
      obtain ⟨ops, rfl, hops⟩ := hts t (by simp)
      simp only [State.foldAll, fold_ops] at h
      cases happly : s.applyAll (ops.map Op.stored) with
      | error e => simp [happly, Except.map, bind, Except.bind] at h
      | ok s₁ =>
          simp only [happly, Except.map, bind, Except.bind] at h
          have hs₁ : s₁.Rows B.row := applyAll_rows hs (fun op hop => by
            obtain ⟨raw, hraw, rfl⟩ := List.mem_map.mp hop
            exact (hops raw hraw).stored) happly
          cases hall : State.foldAll s₁ ts with
          | error e => simp [hall] at h
          | ok r =>
              obtain ⟨s₂, more⟩ := r
              simp only [hall, pure, Except.pure, Except.ok.injEq, Prod.mk.injEq] at h
              obtain ⟨rfl, -⟩ := h
              exact ih (fun t ht => hts t (by simp [ht])) hs₁ hall

end Eventlog.File
