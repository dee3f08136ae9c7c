import Eventlog.File.Replay

/-!
# Eventlog.File.Erasing

Redaction and erasure rewrite a history operation by operation, and what they leave still
replays.

`Follows` is the simulation: the rewritten history keeps pace with the original one.  After
a redaction the state is the same but for the one event and the tenant's derived rows
(`Redacted`); after an erasure it is the same but for everything of the tenant
(`Without`).
-/

namespace Eventlog.File

variable {B : Bodies} {ts : List Json} {s s' t t' : State}

/-! ## Rewriting by operations -/

/-- A history whose transactions are rewritten by `f`. -/
def rewritten (f : List Op → List Op) (ts : List Json) : List Json :=
  ts.map fun t => toValue (f ((fromValue t : Option (List Op)).getD []))

/-- `f` works operation by operation, and what it makes of an operation that may occur does
    to the second state what the operation does to the first. -/
structure Follows (B : Bodies) (f : List Op → List Op) (occurs : Op → Prop)
    (R : State → State → Prop) : Prop where
  nil : f [] = []
  cons : ∀ op ops, f (op :: ops) = f [op] ++ f ops
  stored : ∀ op, op.stored = op → ∀ op' ∈ f [op], op'.stored = op'
  bodied : ∀ op, op.Bodied B → ∀ op' ∈ f [op], op'.Bodied B
  step : ∀ s s' op t, R s s' → occurs op → s.apply op = .ok t →
    ∃ t', s'.applyAll (f [op]) = .ok t' ∧ R t t'

namespace Follows

variable {f : List Op → List Op} {occurs : Op → Prop} {R : State → State → Prop}

theorem forall_mem (h : Follows B f occurs R) {q : Op → Prop} {q' : Op → Prop}
    (hq : ∀ op, q op → ∀ op' ∈ f [op], q' op') (ops : List Op) (hops : ∀ op ∈ ops, q op) :
    ∀ op ∈ f ops, q' op := by
  induction ops with
  | nil => simp [h.nil]
  | cons op ops ih =>
      rw [h.cons]
      intro op' hop'
      rcases List.mem_append.mp hop' with hop' | hop'
      · exact hq op (hops op (by simp)) op' hop'
      · exact ih (fun op hop => hops op (by simp [hop])) op' hop'

theorem applyAll (h : Follows B f occurs R) {ops : List Op} (hoccurs : ∀ op ∈ ops, occurs op)
    (hR : R s s') (happly : s.applyAll ops = .ok t) :
    ∃ t', s'.applyAll (f ops) = .ok t' ∧ R t t' := by
  induction ops generalizing s s' with
  | nil =>
      cases happly
      exact ⟨s', by rw [h.nil]; rfl, hR⟩
  | cons op ops ih =>
      rw [applyAll_cons] at happly
      cases hop : s.apply op with
      | error e => simp [hop, bind, Except.bind] at happly
      | ok s₁ =>
          rw [hop] at happly
          obtain ⟨s₁', hfirst, hR₁⟩ := h.step s s' op s₁ hR (hoccurs op (by simp)) hop
          obtain ⟨t', hrest, hRt⟩ := ih (fun op hop => hoccurs op (by simp [hop])) hR₁ happly
          refine ⟨t', ?_, hRt⟩
          rw [h.cons, State.applyAll_append, hfirst]
          exact hrest

/-- **The rewritten history replays**, in step with the original. -/
theorem replayFrom (h : Follows B f occurs R) (hts : Journaled B ts)
    (hoccurs : ∀ t ∈ ts, ∀ ops : List Op, fromValue t = some ops → ∀ op ∈ ops, occurs op)
    (hR : R s s') (hreplay : s.replayFrom ts = .ok t) :
    ∃ t', s'.replayFrom (rewritten f ts) = .ok t' ∧ R t t' := by
  induction ts generalizing s s' with
  | nil =>
      cases hreplay
      exact ⟨s', rfl, hR⟩
  | cons j ts ih =>
      obtain ⟨ops, rfl, hops⟩ := hts j (by simp)
      rw [replayFrom_cons, fold_ops] at hreplay
      cases happly : s.applyAll (ops.map Op.stored) with
      | error e => simp [happly, Except.map, bind, Except.bind] at hreplay
      | ok s₁ =>
          simp only [happly, Except.map, bind, Except.bind] at hreplay
          have hread := fromValue_toValue_ops ops
          obtain ⟨s₁', hfirst, hR₁⟩ := h.applyAll (hoccurs _ (by simp) _ hread) hR happly
          obtain ⟨t', hrest, hRt⟩ := ih (fun t ht => hts t (by simp [ht]))
            (fun t ht => hoccurs t (by simp [ht])) hR₁ hreplay
          -- what is rewritten was read back, so it is stored as it is
          have hstored : (f (ops.map Op.stored)).map Op.stored = f (ops.map Op.stored) := by
            refine (List.map_congr_left fun op hop => ?_).trans (List.map_id _)
            refine h.forall_mem (q := fun op => op.stored = op) h.stored (ops.map Op.stored) ?_ op hop
            intro op hop
            obtain ⟨raw, -, rfl⟩ := List.mem_map.mp hop
            exact Op.stored_stored raw
          refine ⟨t', ?_, hRt⟩
          rw [rewritten, List.map_cons, ← rewritten, hread, Option.getD_some, replayFrom_cons,
            fold_ops, hstored, hfirst]
          exact hrest

theorem journaled (h : Follows B f occurs R) (hts : Journaled B ts) :
    Journaled B (rewritten f ts) := by
  intro j hj
  obtain ⟨t, ht, rfl⟩ := List.mem_map.mp hj
  obtain ⟨ops, rfl, hops⟩ := hts t ht
  refine ⟨_, rfl, ?_⟩
  have hread := fromValue_toValue_ops ops
  rw [hread, Option.getD_some]
  exact h.forall_mem (q := fun op => op.Bodied B) h.bodied _ (hts.bodied ht hread)

end Follows

/-- Every event of a history is in the state it replays to. -/
theorem mem_events_of_replayFrom (hts : Journaled B ts) (h : s.replayFrom ts = .ok s')
    (e : RecordedEvent) : (e ∈ s.events → e ∈ s'.events) ∧
      ∀ t ∈ ts, ∀ ops : List Op, fromValue t = some ops → .Event e ∈ ops → e ∈ s'.events := by
  induction ts generalizing s with
  | nil => cases h; simp
  | cons j ts ih =>
      obtain ⟨ops, rfl, -⟩ := hts j (by simp)
      rw [replayFrom_cons, fold_ops] at h
      cases happly : s.applyAll (ops.map Op.stored) with
      | error e => simp [happly, Except.map, bind, Except.bind] at h
      | ok s₁ =>
          simp only [happly, Except.map, bind, Except.bind] at h
          obtain ⟨hkept, hrest⟩ := ih (fun t ht => hts t (by simp [ht])) h
          have hevents := applyAll_events happly
          refine ⟨fun he => hkept (by rw [hevents]; simp [he]), fun t ht ops' hread hmem => ?_⟩
          rcases List.mem_cons.mp ht with rfl | ht
          · rw [fromValue_toValue_ops] at hread
            cases hread
            refine hkept ?_
            rw [hevents]
            exact List.mem_append_right _ (List.mem_filterMap.mpr ⟨_, hmem, rfl⟩)
          · exact hrest t ht ops' hread hmem

/-! ## Tables that lost entries -/

/-- The keys of a tenant's entries, which start with its name. -/
def Owned (tenant : TenantId) (k : List String) : Prop :=
  k.head? = some tenant.value

/-- The keys of a tenant's counters. -/
def CountedFor (tenant : TenantId) (k : List String) : Prop :=
  ∃ coordinate, k = [coordinate] ∧ Counted (some tenant) coordinate

theorem owned_cons {tenant owner : TenantId} {ks : List String} :
    Owned tenant (owner.value :: ks) ↔ owner = tenant := by
  simp [Owned, TenantId.ext_iff]

theorem not_countedFor {tenant : TenantId} {owner : Option TenantId} {coordinate : String}
    (h : Counted owner coordinate) (hne : owner ≠ some tenant) :
    ¬ CountedFor tenant [coordinate] := by
  rintro ⟨c, hc, scope', hcoordinate', htenant'⟩
  cases hc
  obtain ⟨scope, hcoordinate, htenant⟩ := h
  refine hne ?_
  rw [← htenant, ← htenant']
  exact AdmissionScope.tenant?_of_coordinate hcoordinate hcoordinate'

/-- A table that has lost its entries under some keys. -/
def Dropped (lost : List String → Prop) (T T' : Table V) : Prop :=
  ∀ k : List String, (lost k → T'[k]? = none) ∧ (¬ lost k → T'[k]? = T[k]?)

namespace Dropped

variable {lost : List String → Prop} {T T' : Table V} {k : List String}

theorem empty : Dropped lost (∅ : Table V) ∅ := fun _ => by simp

theorem insert (h : Dropped lost T T') (hk : ¬ lost k) (v : V) :
    Dropped lost (T.insert k v) (T'.insert k v) := by
  intro l
  simp only [Std.ExtTreeMap.getElem?_insert]
  by_cases hl : k = l
  · subst hl
    simp [hk]
  · simpa [hl] using h l

theorem insert_lost (h : Dropped lost T T') (hk : lost k) (v : V) :
    Dropped lost (T.insert k v) T' := by
  intro l
  simp only [Std.ExtTreeMap.getElem?_insert]
  by_cases hl : k = l
  · subst hl
    simp [hk, (h k).1 hk]
  · simpa [hl] using h l

theorem erase (h : Dropped lost T T') : Dropped lost (T.erase k) (T'.erase k) := by
  intro l
  simp only [Std.ExtTreeMap.getElem?_erase]
  by_cases hl : k = l
  · simp [hl]
  · simpa [hl] using h l

theorem erase_lost (h : Dropped lost T T') (hk : lost k) : Dropped lost (T.erase k) T' := by
  intro l
  simp only [Std.ExtTreeMap.getElem?_erase]
  by_cases hl : k = l
  · subst hl
    simp [hk, (h k).1 hk]
  · simpa [hl] using h l

theorem filter (h : Dropped lost T T') (f : List String → V → Bool) :
    Dropped lost (T.filter f) (T'.filter f) := by
  intro l
  simp only [Std.ExtTreeMap.getElem?_filter']
  exact ⟨fun hl => by simp [(h l).1 hl], fun hl => by rw [(h l).2 hl]⟩

theorem filter_lost (h : Dropped lost T T') {f : List String → V → Bool}
    (hf : ∀ k v, ¬ lost k → f k v = true) : Dropped lost (T.filter f) T' := by
  intro l
  refine ⟨(h l).1, fun hl => ?_⟩
  rw [(h l).2 hl, Std.ExtTreeMap.getElem?_filter']
  cases T[l]? with
  | none => rfl
  | some v => rw [Option.filter_some, if_pos (hf l v hl)]

end Dropped

theorem take_owned {tenant : TenantId} {name : String} {k : List String}
    (h : k.take 2 = [tenant.value, name]) : Owned tenant k := by
  cases k with
  | nil => simp at h
  | cons x k =>
      simp only [List.take_succ_cons, List.cons.injEq] at h
      simp [Owned, h.1]

/-! ## Redaction -/

/-- Two events that are in one place of one stream. -/
structure SamePlace (e e' : RecordedEvent) : Prop where
  tenant : e.tenant = e'.tenant
  streamType : e.streamType = e'.streamType
  streamId : e.streamId = e'.streamId
  version : e.version = e'.version
  globalSeq : e.globalSeq = e'.globalSeq

theorem SamePlace.stream {e e' : RecordedEvent} (h : SamePlace e e') : e.stream = e'.stream := by
  simp [RecordedEvent.stream, h.tenant, h.streamType, h.streamId]

theorem SamePlace.isOn {e e' : RecordedEvent} (h : SamePlace e e') (stream : StreamId) :
    RecordedEvent.isOn e stream = RecordedEvent.isOn e' stream := by
  simp [RecordedEvent.isOn, h.tenant, h.streamType, h.streamId]

/-- What becomes of an event when `event` takes the place of its old self. -/
def redactEvent (event e : RecordedEvent) : RecordedEvent :=
  if e.eventId = event.eventId then event else e

theorem redactOp_event (event e : RecordedEvent) :
    redactOp event (.Event e) = .Event (redactEvent event e) := by
  simp only [redactOp, redactEvent]
  split_ifs <;> rfl

/-- The state after a redaction: the event is replaced, and only what was derived for the
    tenant is lost. -/
structure Redacted (tenant : TenantId) (event : RecordedEvent) (s s' : State) : Prop where
  place : ∀ e ∈ s.events, SamePlace (redactEvent event e) e
  events : s'.events = s.events.map (redactEvent event)
  nextPosition : s'.nextPosition = s.nextPosition
  commands : s'.commands = s.commands
  claims : s'.claims = s.claims
  groups : s'.groups = s.groups
  identities : s'.identities = s.identities
  generations : s'.generations = s.generations
  projections : s'.projections = s.projections
  dirtyViews : s'.dirtyViews = s.dirtyViews
  rows : Dropped (Owned tenant) s.rows s'.rows
  cursors : Dropped (Owned tenant) s.cursors s'.cursors
  blobs : s'.blobs = s.blobs
  counters : s'.counters = s.counters

theorem redacted_empty (tenant : TenantId) (event : RecordedEvent) :
    Redacted tenant event .empty .empty := by
  constructor <;> first | exact Dropped.empty | simp [State.empty]

section

variable {tenant : TenantId} {event : RecordedEvent}

theorem Redacted.ofStream (h : Redacted tenant event s s') (stream : StreamId) :
    s'.ofStream stream = (s.ofStream stream).map (redactEvent event) := by
  rw [State.ofStream, State.ofStream, h.events, List.filter_map]
  congr 1
  exact List.filter_congr fun e he => (h.place e he).isOn stream

theorem Redacted.head (h : Redacted tenant event s s') (stream : StreamId) :
    s'.head stream = s.head stream := by
  rw [State.head, State.head, h.ofStream, List.getLast?_map, Option.map_map]
  cases hlast : (s.ofStream stream).getLast? with
  | none => rfl
  | some e =>
      have he : e ∈ s.events := (List.mem_filter.mp (List.mem_of_getLast? hlast)).1
      exact (h.place e he).version

/-- An operation that leaves alone what a redaction keeps. -/
theorem Redacted.update_of_derived {op : Op} (h : Redacted tenant event s s')
    (hop : op.derivedFor tenant) : Redacted tenant event (s.update op) s' := by
  cases op with
  | Row owner name key body =>
      have howner : owner = tenant := by simpa [Op.derivedFor] using hop
      cases body with
      | none => exact { h with rows := h.rows.erase_lost (owned_cons.mpr howner) }
      | some body => exact { h with rows := h.rows.insert_lost (owned_cons.mpr howner) body }
  | Cursor owner name position =>
      have howner : owner = tenant := by simpa [Op.derivedFor] using hop
      exact { h with cursors := h.cursors.insert_lost (owned_cons.mpr howner) position }
  | _ => simp [Op.derivedFor] at hop

theorem Redacted.update {op : Op} (h : Redacted tenant event s s')
    (hop : op.derivedFor tenant = false) : Redacted tenant event (s.update op) (s'.update op) := by
  cases op with
  | Row owner name key body =>
      have howner : owner ≠ tenant := by simpa [Op.derivedFor] using hop
      cases body with
      | none => exact { h with rows := h.rows.erase }
      | some body =>
          exact { h with rows := h.rows.insert (fun hlost => howner (owned_cons.mp hlost)) body }
  | Cursor owner name position =>
      have howner : owner ≠ tenant := by simpa [Op.derivedFor] using hop
      exact { h with
        cursors := h.cursors.insert (fun hlost => howner (owned_cons.mp hlost)) position }
  | ClearRows owner name => exact { h with rows := h.rows.filter _ }
  | Blob tenant digest object =>
      cases object <;> exact { h with blobs := by simp [State.update, h.blobs] }
  | Watermark position =>
      exact { h with nextPosition := by simp [State.update, h.nextPosition] }
  | Command stream key digest first last =>
      exact { h with commands := by simp [State.update, h.commands] }
  | Claim tenant scope key digest range =>
      exact { h with claims := by simp [State.update, h.claims] }
  | Group tenant key digest ranges blobs =>
      exact { h with groups := by simp [State.update, h.groups] }
  | Identity tenant id => exact { h with identities := by simp [State.update, h.identities] }
  | Generation stream id =>
      exact { h with generations := by simp [State.update, h.generations] }
  | DirtyView tenant name dirty =>
      exact { h with dirtyViews := by simp [State.update, h.dirtyViews] }
  | Counter tenant coordinate value =>
      exact { h with counters := by simp [State.update, h.counters] }
  | _ => exact { h with }

end

theorem redactOps_cons (tenant : TenantId) (event : RecordedEvent) (op : Op) (ops : List Op) :
    redactOps tenant event (op :: ops) = redactOps tenant event [op] ++ redactOps tenant event ops := by
  simp only [redactOps, List.map_cons, List.map_nil, List.filter_cons, List.filter_nil]
  split_ifs <;> simp

theorem mem_redactOps_singleton {tenant : TenantId} {event : RecordedEvent} {op op' : Op}
    (h : op' ∈ redactOps tenant event [op]) : op' = redactOp event op := by
  simp only [redactOps, List.map_cons, List.map_nil, List.mem_filter, List.mem_singleton] at h
  exact h.1

theorem apply_event {e : RecordedEvent} {stream : StreamId} (hposition : s.nextPosition < e.globalSeq)
    (hstream : e.stream = .ok stream) (hversion : e.version = s.head stream + 1) :
    s.apply (.Event e) =
      .ok { s with nextPosition := e.globalSeq, events := s.events ++ [e] } := by
  have hle : ¬ e.globalSeq ≤ s.nextPosition := by omega
  simp [State.apply, State.applyEvent, hle, hstream, hversion]

theorem apply_projection {name : String} {indexed : List String}
    (h : ∀ old, s.projections[[name]]? = some old → old = indexed) :
    s.apply (.Projection name indexed) =
      .ok { s with projections := s.projections.insert [name] indexed } := by
  simp only [State.apply, State.applyProjection]
  cases hold : s.projections[[name]]? with
  | none => rfl
  | some old => simp [h old hold]

/-- **Redaction keeps pace.** -/
theorem redactOps_follows (tenant : TenantId) {event : RecordedEvent} (hdata : B.data event.data) :
    Follows B (redactOps tenant event)
      (fun op => ∀ e, op = .Event e → SamePlace (redactEvent event e) e) (Redacted tenant event) where
  nil := rfl
  cons := redactOps_cons tenant event
  stored op hop op' hop' := by
    rw [mem_redactOps_singleton hop']
    cases op with
    | Event e => rw [redactOp_event]; rfl
    | _ => exact hop
  bodied op hop op' hop' := by
    rw [mem_redactOps_singleton hop']
    cases op with
    | Event e =>
        rw [redactOp_event]
        change B.data (redactEvent event e).data
        rw [redactEvent]
        split_ifs
        · exact hdata
        · exact hop
    | _ => exact hop
  step s s' op t hR hoccurs happly := by
    rcases State.apply_cases happly with ⟨e, stream, rfl, hstream, hposition, hversion, rfl⟩ |
      ⟨name, indexed, rfl, hold, rfl⟩ | ⟨hplain, rfl⟩
    · have hplace := hoccurs e rfl
      have hsingle : redactOps tenant event [.Event e] = [.Event (redactEvent event e)] := by
        simp [redactOps, redactOp_event, Op.derivedFor]
      refine ⟨_, by
        rw [hsingle, applyAll_singleton]
        exact apply_event (by rw [hR.nextPosition, hplace.globalSeq]; exact hposition)
          (hplace.stream.trans hstream) (by rw [hR.head, hplace.version]; exact hversion), ?_⟩
      refine { hR with
        place := fun e' he' => ?_
        events := by simp [hR.events]
        nextPosition := hplace.globalSeq }
      rcases List.mem_append.mp he' with he' | he'
      · exact hR.place e' he'
      · rw [List.mem_singleton.mp he']
        exact hplace
    · have hsingle : redactOps tenant event [.Projection name indexed] =
          [.Projection name indexed] := rfl
      refine ⟨_, by
        rw [hsingle, applyAll_singleton]
        exact apply_projection (hR.projections ▸ hold), ?_⟩
      exact { hR with projections := by simp [hR.projections] }
    · have hsame : redactOp event op = op := by
        cases op with
        | Event e => exact hplain.elim
        | _ => rfl
      by_cases hderived : op.derivedFor tenant
      · refine ⟨s', ?_, hR.update_of_derived hderived⟩
        simp [redactOps, hsame, hderived, State.applyAll_nil]
      · refine ⟨s'.update op, ?_, hR.update (by simpa using hderived)⟩
        have hsingle : redactOps tenant event [op] = [op] := by
          simp [redactOps, hsame, hderived]
        rw [hsingle, applyAll_singleton, State.apply_of_plain hplain]

/-! ## Erasure -/

/-- The state after an erasure: nothing of the tenant is left, and the rest is there. -/
structure Without (tenant : TenantId) (s s' : State) : Prop where
  events : s'.events = s.events.filter fun e => decide (e.tenant ≠ tenant)
  nextPosition : s'.nextPosition ≤ s.nextPosition
  projections : s'.projections = s.projections
  commands : Dropped (Owned tenant) s.commands s'.commands
  claims : Dropped (Owned tenant) s.claims s'.claims
  groups : Dropped (Owned tenant) s.groups s'.groups
  identities : Dropped (Owned tenant) s.identities s'.identities
  generations : Dropped (Owned tenant) s.generations s'.generations
  dirtyViews : Dropped (Owned tenant) s.dirtyViews s'.dirtyViews
  rows : Dropped (Owned tenant) s.rows s'.rows
  cursors : Dropped (Owned tenant) s.cursors s'.cursors
  blobs : Dropped (Owned tenant) s.blobs s'.blobs
  counters : Dropped (CountedFor tenant) s.counters s'.counters

theorem without_empty (tenant : TenantId) : Without tenant .empty .empty := by
  constructor <;> first | exact Dropped.empty | simp [State.empty]

theorem Without.ofStream {tenant : TenantId} (h : Without tenant s s') {stream : StreamId}
    (hstream : stream.tenant ≠ tenant) : s'.ofStream stream = s.ofStream stream := by
  rw [State.ofStream, State.ofStream, h.events, List.filter_filter]
  refine List.filter_congr fun e _ => ?_
  by_cases hon : RecordedEvent.isOn e stream = true
  · have htenant : e.tenant = stream.tenant := by
      simp only [RecordedEvent.isOn, Bool.and_eq_true, beq_iff_eq] at hon
      exact hon.1.1
    simp [hon, htenant, hstream]
  · simp [hon]

theorem Without.head {tenant : TenantId} (h : Without tenant s s') {stream : StreamId}
    (hstream : stream.tenant ≠ tenant) : s'.head stream = s.head stream := by
  rw [State.head, State.head, h.ofStream hstream]

/-- An operation of the tenant changes nothing that is left. -/
theorem Without.update_of_own {tenant : TenantId} {op : Op} (h : Without tenant s s')
    (hbodied : op.Bodied B) (hop : op.tenant? = some tenant) : Without tenant (s.update op) s' := by
  have howned (ks : List String) : Owned tenant (tenant.value :: ks) := owned_cons.mpr rfl
  cases op with
  | Watermark => simp [Op.tenant?] at hop
  | Projection => simp [Op.tenant?] at hop
  | Event e => exact h
  | Counter owner coordinate value =>
      cases hop
      exact { h with counters := h.counters.insert_lost ⟨coordinate, rfl, hbodied⟩ value }
  | Row owner name key body =>
      cases hop
      cases body with
      | none => exact { h with rows := h.rows.erase_lost (howned _) }
      | some body => exact { h with rows := h.rows.insert_lost (howned _) body }
  | ClearRows owner name =>
      cases hop
      refine { h with rows := h.rows.filter_lost fun k v hk => ?_ }
      simp only [decide_eq_true_eq]
      exact fun htake => hk (take_owned htake)
  | Cursor owner name position =>
      cases hop
      exact { h with cursors := h.cursors.insert_lost (howned _) position }
  | DirtyView owner name dirty =>
      cases hop
      cases dirty with
      | false => exact { h with dirtyViews := h.dirtyViews.erase_lost (howned _) }
      | true => exact { h with dirtyViews := h.dirtyViews.insert_lost (howned _) () }
  | Identity owner id =>
      cases hop
      exact { h with identities := h.identities.insert_lost (howned _) id }
  | Command stream key digest first last =>
      cases hop
      exact { h with commands := h.commands.insert_lost (howned _) _ }
  | Claim owner scope key digest range =>
      cases hop
      exact { h with claims := h.claims.insert_lost (howned _) _ }
  | Group owner key digest ranges blobs =>
      cases hop
      exact { h with groups := h.groups.insert_lost (howned _) _ }
  | Generation stream id =>
      cases hop
      exact { h with generations := h.generations.insert_lost (howned _) id }
  | Blob owner digest object =>
      cases hop
      cases object with
      | none => exact { h with blobs := h.blobs.erase_lost (howned _) }
      | some object => exact { h with blobs := h.blobs.insert_lost (howned _) object }

theorem Without.update {tenant : TenantId} {op : Op} (h : Without tenant s s')
    (hbodied : op.Bodied B) (hop : op.tenant? ≠ some tenant) :
    Without tenant (s.update op) (s'.update op) := by
  have hne {owner : TenantId} {ks : List String} (howner : some owner ≠ some tenant) :
      ¬ Owned tenant (owner.value :: ks) := fun howned =>
    howner (congrArg some (owned_cons.mp howned))
  cases op with
  | Watermark position =>
      have hle := h.nextPosition
      exact { h with nextPosition := by simp only [State.update]; omega }
  | Counter owner coordinate value =>
      exact { h with counters := h.counters.insert (not_countedFor hbodied hop) value }
  | Row owner name key body =>
      cases body with
      | none => exact { h with rows := h.rows.erase }
      | some body => exact { h with rows := h.rows.insert (hne hop) body }
  | ClearRows owner name => exact { h with rows := h.rows.filter _ }
  | Cursor owner name position => exact { h with cursors := h.cursors.insert (hne hop) position }
  | DirtyView owner name dirty =>
      cases dirty with
      | false => exact { h with dirtyViews := h.dirtyViews.erase }
      | true => exact { h with dirtyViews := h.dirtyViews.insert (hne hop) () }
  | Identity owner id => exact { h with identities := h.identities.insert (hne hop) id }
  | Command stream key digest first last =>
      exact { h with commands := h.commands.insert (hne hop) _ }
  | Claim owner scope key digest range => exact { h with claims := h.claims.insert (hne hop) _ }
  | Group owner key digest ranges blobs => exact { h with groups := h.groups.insert (hne hop) _ }
  | Generation stream id => exact { h with generations := h.generations.insert (hne hop) id }
  | Blob owner digest object =>
      cases object with
      | none => exact { h with blobs := h.blobs.erase }
      | some object => exact { h with blobs := h.blobs.insert (hne hop) object }
  | _ => exact { h with }

/-- **Erasure keeps pace.** -/
theorem forgetOps_follows (tenant : TenantId) :
    Follows B (forgetOps tenant) (Op.Bodied B) (Without tenant) where
  nil := rfl
  cons op ops := by
    simp only [forgetOps, List.filter_cons, List.filter_nil]
    split_ifs <;> simp
  stored op hop op' hop' := by
    rw [List.mem_singleton.mp (List.mem_of_mem_filter hop')]
    exact hop
  bodied op hop op' hop' := by
    rw [List.mem_singleton.mp (List.mem_of_mem_filter hop')]
    exact hop
  step s s' op t hR hbodied happly := by
    by_cases hown : op.tenant? = some tenant
    · -- the operation goes, and what it did is not missed
      have hnone : forgetOps tenant [op] = [] := by simp [forgetOps, hown]
      refine ⟨s', by rw [hnone]; rfl, ?_⟩
      rcases State.apply_cases happly with ⟨e, stream, rfl, -, hposition, -, rfl⟩ |
        ⟨name, indexed, rfl, -, -⟩ | ⟨-, rfl⟩
      · have htenant : e.tenant = tenant := by simpa [Op.tenant?] using hown
        have hle := hR.nextPosition
        exact { hR with
          events := by simp [hR.events, htenant]
          nextPosition := by simp only; omega }
      · simp [Op.tenant?] at hown
      · exact hR.update_of_own hbodied hown
    · have hkept : forgetOps tenant [op] = [op] := by simp [forgetOps, hown]
      rw [hkept]
      simp only [applyAll_singleton]
      rcases State.apply_cases happly with ⟨e, stream, rfl, hstream, hposition, hversion, rfl⟩ |
        ⟨name, indexed, rfl, hold, rfl⟩ | ⟨hplain, rfl⟩
      · have htenant : e.tenant ≠ tenant := by simpa [Op.tenant?] using hown
        have hstreamTenant : stream.tenant ≠ tenant := by
          rw [(StreamId.new_eq_ok_iff.mp hstream).1]
          exact htenant
        have hle := hR.nextPosition
        refine ⟨_, apply_event (by omega) hstream (by rw [hR.head hstreamTenant]; exact hversion), ?_⟩
        exact { hR with
          events := by simp [hR.events, htenant]
          nextPosition := le_refl _ }
      · refine ⟨_, apply_projection (hR.projections ▸ hold), ?_⟩
        exact { hR with projections := by simp [hR.projections] }
      · exact ⟨s'.update op, State.apply_of_plain hplain s', hR.update hbodied hown⟩

/-! ## Positions -/

/-- The position an operation brings the feed to. -/
def Op.position : Op → Nat
  | .Event e => e.globalSeq
  | .Watermark position => position
  | _ => 0

@[simp] theorem Op.position_stored (op : Op) : op.stored.position = op.position := by
  cases op <;> rfl

theorem apply_nextPosition_le_iff {op : Op} (h : s.apply op = .ok s') (n : Nat) :
    s'.nextPosition ≤ n ↔ s.nextPosition ≤ n ∧ op.position ≤ n := by
  rcases State.apply_cases h with ⟨e, stream, rfl, -, hposition, -, rfl⟩ |
    ⟨name, indexed, rfl, -, rfl⟩ | ⟨hplain, rfl⟩
  · simp only [Op.position]
    omega
  · simp [Op.position]
  · cases op with
    | Event e => exact hplain.elim
    | Watermark position => simp [State.update, Op.position]
    | Row owner name key body => cases body <;> simp [State.update, Op.position]
    | Blob owner digest object => cases object <;> simp [State.update, Op.position]
    | _ => simp [State.update, Op.position]

theorem applyAll_nextPosition_le_iff {ops : List Op} (h : s.applyAll ops = .ok s') (n : Nat) :
    s'.nextPosition ≤ n ↔ s.nextPosition ≤ n ∧ ∀ op ∈ ops, op.position ≤ n := by
  induction ops generalizing s with
  | nil => cases h; simp
  | cons op ops ih =>
      rw [applyAll_cons] at h
      cases hop : s.apply op with
      | error e => simp [hop, bind, Except.bind] at h
      | ok s₁ =>
          rw [hop] at h
          rw [ih h, apply_nextPosition_le_iff hop, List.forall_mem_cons, and_assoc]

/-- **Where the feed stands after a history**: at the greatest position in it. -/
theorem replayFrom_nextPosition_le_iff (hts : Journaled B ts) (h : s.replayFrom ts = .ok s')
    (n : Nat) : s'.nextPosition ≤ n ↔ s.nextPosition ≤ n ∧
      ∀ t ∈ ts, ∀ ops : List Op, fromValue t = some ops → ∀ op ∈ ops, op.position ≤ n := by
  induction ts generalizing s with
  | nil => cases h; simp
  | cons j ts ih =>
      obtain ⟨ops, rfl, -⟩ := hts j (by simp)
      rw [replayFrom_cons, fold_ops] at h
      cases happly : s.applyAll (ops.map Op.stored) with
      | error e => simp [happly, Except.map, bind, Except.bind] at h
      | ok s₁ =>
          simp only [happly, Except.map, bind, Except.bind] at h
          rw [ih (fun t ht => hts t (by simp [ht])) h, applyAll_nextPosition_le_iff happly,
            List.forall_mem_cons, and_assoc]
          simp only [fromValue_toValue_ops, Option.some.injEq, forall_eq']

/-- Every event of a transaction is within a position the transaction records. -/
def Covered (ops : List Op) : Prop :=
  ∀ e, .Event e ∈ ops → ∃ position, .Watermark position ∈ ops ∧ e.globalSeq ≤ position

/-- A history of transactions each of which records how far it brought the feed. -/
def Sealed (ts : List Json) : Prop :=
  ∀ t ∈ ts, ∀ ops : List Op, fromValue t = some ops → Covered ops

theorem Op.stored_eq_event {op : Op} {e : RecordedEvent} : op.stored = .Event e ↔ op = .Event e := by
  cases op <;> simp [Op.stored]

theorem Op.stored_eq_watermark {op : Op} {n : Nat} :
    op.stored = .Watermark n ↔ op = .Watermark n := by
  cases op <;> simp [Op.stored]

theorem covered_stored {ops : List Op} : Covered (ops.map Op.stored) ↔ Covered ops := by
  simp [Covered, Op.stored_eq_event, Op.stored_eq_watermark]

theorem sealed_nil : Sealed [] := by
  simp [Sealed]

theorem Sealed.append {us : List Json} (h : Sealed ts) (h' : Sealed us) : Sealed (ts ++ us) :=
  fun t ht => (List.mem_append.mp ht).elim (h t) (h' t)

theorem sealed_singleton {ops : List Op} (h : Covered ops) : Sealed [toValue ops] := by
  intro t ht ops' hread
  rw [List.mem_singleton.mp ht, fromValue_toValue_ops] at hread
  cases hread
  exact covered_stored.mpr h

/-- What is rewritten of a history stays sealed where positions and their records do. -/
theorem Sealed.rewritten {f : List Op → List Op} (h : Sealed ts) (hts : Journaled B ts)
    (hf : ∀ t ∈ ts, ∀ ops : List Op, fromValue t = some ops → Covered ops → Covered (f ops)) :
    Sealed (rewritten f ts) := by
  intro j hj ops' hread
  obtain ⟨t, ht, rfl⟩ := List.mem_map.mp hj
  obtain ⟨ops, rfl, -⟩ := hts t ht
  have hops := fromValue_toValue_ops ops
  rw [hops, Option.getD_some, fromValue_toValue_ops] at hread
  cases hread
  exact covered_stored.mpr (hf _ ht _ hops (h _ ht _ hops))

theorem Covered.forgetOps {ops : List Op} (h : Covered ops) (tenant : TenantId) :
    Covered (forgetOps tenant ops) := by
  intro e he
  obtain ⟨position, hmem, hle⟩ := h e (List.mem_of_mem_filter he)
  exact ⟨position, List.mem_filter.mpr ⟨hmem, by simp [Op.tenant?]⟩, hle⟩

theorem Covered.redactOps {ops : List Op} {event : RecordedEvent} (h : Covered ops)
    (tenant : TenantId)
    (hplace : ∀ e, .Event e ∈ ops → SamePlace (redactEvent event e) e) :
    Covered (redactOps tenant event ops) := by
  intro e he
  obtain ⟨op, hop, heq⟩ := List.mem_map.mp (List.mem_of_mem_filter he)
  cases op with
  | Event old =>
      rw [redactOp_event] at heq
      cases heq
      obtain ⟨position, hmem, hle⟩ := h old hop
      refine ⟨position, List.mem_filter.mpr ⟨List.mem_map.mpr ⟨_, hmem, rfl⟩, rfl⟩, ?_⟩
      rw [(hplace old hop).globalSeq]
      exact hle
  | _ => simp [redactOp] at heq

/-- **Erasure keeps the position of the feed**, for every event it drops left a record of its
    position behind. -/
theorem forget_nextPosition {tenant : TenantId} (hts : Journaled B ts) (hsealed : Sealed ts)
    (h : State.replay ts = .ok s) (h' : State.replay (rewritten (forgetOps tenant) ts) = .ok s') :
    s'.nextPosition = s.nextPosition := by
  refine eq_of_forall_ge_iff fun n => ?_
  rw [replayFrom_nextPosition_le_iff ((forgetOps_follows tenant).journaled hts) h',
    replayFrom_nextPosition_le_iff hts h]
  refine and_congr_right fun _ => ⟨fun hle t ht ops hread op hop => ?_,
    fun hle j hj ops' hread op hop => ?_⟩
  · have hkept {op' : Op} (hop' : op' ∈ ops) (hother : op'.tenant? ≠ some tenant) :
        op'.position ≤ n := by
      have hmem : op'.stored ∈ (forgetOps tenant ops).map Op.stored :=
        List.mem_map_of_mem (List.mem_filter.mpr ⟨hop', by simpa using hother⟩)
      rw [← Op.position_stored]
      refine hle _ (List.mem_map.mpr ⟨t, ht, rfl⟩) _ ?_ _ hmem
      rw [hread, Option.getD_some, fromValue_toValue_ops]
    by_cases hown : op.tenant? = some tenant
    · cases op with
      | Event e =>
          obtain ⟨position, hmem, hposition⟩ := hsealed t ht ops hread e hop
          exact le_trans hposition (hkept hmem (by simp [Op.tenant?]))
      | Watermark => simp [Op.tenant?] at hown
      | _ => exact Nat.zero_le _
    · exact hkept hop hown
  · obtain ⟨t, ht, rfl⟩ := List.mem_map.mp hj
    obtain ⟨ops, rfl, -⟩ := hts t ht
    have hops := fromValue_toValue_ops ops
    rw [hops, Option.getD_some, fromValue_toValue_ops] at hread
    cases hread
    obtain ⟨raw, hraw, rfl⟩ := List.mem_map.mp hop
    rw [Op.position_stored]
    exact hle _ ht _ hops raw (List.mem_of_mem_filter hraw)

end Eventlog.File
