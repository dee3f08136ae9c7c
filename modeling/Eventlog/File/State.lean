import Eventlog.Core.Groups
import Eventlog.File.Frame

/-!
# Eventlog.File.State

The operations a File store journals, and the state they fold into.

A handle applies each operation as it is recorded; a reopen applies what serialisation
made of it.  The two differ in one place only: a row whose body is `null` reads back as
the deletion of that row (`Op.stored`).  So a replayed state is the live one without its
`null` rows (`State.strip`), and the two agree exactly when it has none.
-/

namespace Eventlog.File

/-! ## Operations -/

/-- `state::Blob`: the object that holds a blob's bytes, and their SHA-256. -/
structure Blob where
  id : String
  hash : String
  deriving DecidableEq

/-- `state::Op`. -/
inductive Op where
  | Watermark (position : Nat)
  | Counter (tenant : Option TenantId) (coordinate : String) (value : Int)
  | Event (event : RecordedEvent)
  | Command (stream : StreamId) (key digest : String) (first last : Nat)
  | Claim (tenant : TenantId) (scope key digest : String) (range : GroupRange)
  | Group (tenant : TenantId) (key digest : String) (ranges : List GroupRange)
      (blobs : List String)
  | Identity (tenant : TenantId) (id : String)
  | Generation (stream : StreamId) (id : String)
  | Projection (name : String) (indexed : List String)
  | DirtyView (tenant : TenantId) (name : String) (dirty : Bool)
  | Row (tenant : TenantId) (name key : String) (body : Option Json)
  | ClearRows (tenant : TenantId) (name : String)
  | Cursor (tenant : TenantId) (name : String) (position : Nat)
  | Blob (tenant : TenantId) (digest : String) (object : Option Blob)
  deriving DecidableEq

/-- `Op::tenant`: whose data an operation carries. -/
def Op.tenant? : Op → Option TenantId
  | .Counter tenant _ _ => tenant
  | .Event event => some event.tenant
  | .Command stream _ _ _ _ | .Generation stream _ => some stream.tenant
  | .Projection _ _ | .Watermark _ => none
  | .DirtyView tenant _ _ | .Claim tenant _ _ _ _ | .Group tenant _ _ _ _
  | .Identity tenant _ | .Row tenant _ _ _ | .ClearRows tenant _ | .Cursor tenant _ _
  | .Blob tenant _ _ => some tenant

/-- The binding an operation creates. -/
def Op.binds? : Op → Option (TenantId × String)
  | .Blob tenant digest (some _) => some (tenant, digest)
  | _ => none

/-! ## Their JSON form -/

def Blob.toJson (b : Blob) : Json :=
  .obj [("hash", toValue b.hash), ("id", toValue b.id)]

def Blob.ofJson (j : Json) : Option Blob := do
  let fs ← Json.members ["hash", "id"] j
  let hash ← Json.member "hash" fs
  let id ← Json.member "id" fs
  return { id, hash }

instance : Serde Blob := ⟨Blob.toJson, Blob.ofJson⟩

instance : LawfulSerde Blob := ⟨fun b => by
  change Blob.ofJson b.toJson = some b
  simp [Blob.toJson, Blob.ofJson, Json.members, Json.member, List.lookup]⟩

instance : NeverNull Blob := ⟨fun _ => Json.noConfusion⟩

/-- An operation is an object tagged with its kind, its members by name.  The digests of a
    group without blobs are left out. -/
def Op.toJson : Op → Json
  | .Watermark position => .obj [("operation", .str "watermark"), ("position", toValue position)]
  | .Counter tenant coordinate value => .obj [("coordinate", toValue coordinate),
      ("operation", .str "counter"), ("tenant", toValue tenant), ("value", toValue value)]
  | .Event event => .obj [("event", toValue event), ("operation", .str "event")]
  | .Command stream key digest first last => .obj [("digest", toValue digest),
      ("first", toValue first), ("key", toValue key), ("last", toValue last),
      ("operation", .str "command"), ("stream", toValue stream)]
  | .Claim tenant scope key digest range => .obj [("digest", toValue digest),
      ("key", toValue key), ("operation", .str "claim"), ("range", toValue range),
      ("scope", toValue scope), ("tenant", toValue tenant)]
  | .Group tenant key digest ranges blobs => .obj (
      (match blobs with
        | [] => []
        | blobs => [("blobs", toValue blobs)]) ++
      [("digest", toValue digest), ("key", toValue key), ("operation", .str "group"),
      ("ranges", toValue ranges), ("tenant", toValue tenant)])
  | .Identity tenant id => .obj [("id", toValue id), ("operation", .str "identity"),
      ("tenant", toValue tenant)]
  | .Generation stream id => .obj [("id", toValue id), ("operation", .str "generation"),
      ("stream", toValue stream)]
  | .Projection name indexed => .obj [("indexed", toValue indexed), ("name", toValue name),
      ("operation", .str "projection")]
  | .DirtyView tenant name dirty => .obj [("dirty", toValue dirty), ("name", toValue name),
      ("operation", .str "dirty_view"), ("tenant", toValue tenant)]
  | .Row tenant name key body => .obj [("body", toValue body), ("key", toValue key),
      ("name", toValue name), ("operation", .str "row"), ("tenant", toValue tenant)]
  | .ClearRows tenant name => .obj [("name", toValue name), ("operation", .str "clear_rows"),
      ("tenant", toValue tenant)]
  | .Cursor tenant name position => .obj [("name", toValue name), ("operation", .str "cursor"),
      ("position", toValue position), ("tenant", toValue tenant)]
  | .Blob tenant digest object => .obj [("digest", toValue digest), ("object", toValue object),
      ("operation", .str "blob"), ("tenant", toValue tenant)]

/-- The kind of an operation, without the rest. -/
def Op.kindOf (j : Json) : Option String :=
  (Json.openMembers j).bind (Json.member "operation")

/-- An operation of a given kind.  Each kind is closed; an optional member may be absent. -/
def Op.readAs (j : Json) (kind : String) : Option Op := do
  match kind with
  | "watermark" =>
      let fs ← Json.members ["operation", "position"] j
      return .Watermark (← Json.member "position" fs)
  | "counter" =>
      let fs ← Json.members ["coordinate", "operation", "tenant", "value"] j
      return .Counter (← Json.memberOr "tenant" none fs) (← Json.member "coordinate" fs)
        (← Json.member "value" fs)
  | "event" =>
      let fs ← Json.members ["event", "operation"] j
      return .Event (← Json.member "event" fs)
  | "command" =>
      let fs ← Json.members ["digest", "first", "key", "last", "operation", "stream"] j
      return .Command (← Json.member "stream" fs) (← Json.member "key" fs)
        (← Json.member "digest" fs) (← Json.member "first" fs) (← Json.member "last" fs)
  | "claim" =>
      let fs ← Json.members ["digest", "key", "operation", "range", "scope", "tenant"] j
      return .Claim (← Json.member "tenant" fs) (← Json.member "scope" fs)
        (← Json.member "key" fs) (← Json.member "digest" fs) (← Json.member "range" fs)
  | "group" =>
      let fs ← Json.members ["blobs", "digest", "key", "operation", "ranges", "tenant"] j
      return .Group (← Json.member "tenant" fs) (← Json.member "key" fs)
        (← Json.member "digest" fs) (← Json.member "ranges" fs) (← Json.memberOr "blobs" [] fs)
  | "identity" =>
      let fs ← Json.members ["id", "operation", "tenant"] j
      return .Identity (← Json.member "tenant" fs) (← Json.member "id" fs)
  | "generation" =>
      let fs ← Json.members ["id", "operation", "stream"] j
      return .Generation (← Json.member "stream" fs) (← Json.member "id" fs)
  | "projection" =>
      let fs ← Json.members ["indexed", "name", "operation"] j
      return .Projection (← Json.member "name" fs) (← Json.member "indexed" fs)
  | "dirty_view" =>
      let fs ← Json.members ["dirty", "name", "operation", "tenant"] j
      return .DirtyView (← Json.member "tenant" fs) (← Json.member "name" fs)
        (← Json.member "dirty" fs)
  | "row" =>
      let fs ← Json.members ["body", "key", "name", "operation", "tenant"] j
      return .Row (← Json.member "tenant" fs) (← Json.member "name" fs)
        (← Json.member "key" fs) (← Json.memberOr "body" none fs)
  | "clear_rows" =>
      let fs ← Json.members ["name", "operation", "tenant"] j
      return .ClearRows (← Json.member "tenant" fs) (← Json.member "name" fs)
  | "cursor" =>
      let fs ← Json.members ["name", "operation", "position", "tenant"] j
      return .Cursor (← Json.member "tenant" fs) (← Json.member "name" fs)
        (← Json.member "position" fs)
  | "blob" =>
      let fs ← Json.members ["digest", "object", "operation", "tenant"] j
      return .Blob (← Json.member "tenant" fs) (← Json.member "digest" fs)
        (← Json.memberOr "object" none fs)
  | _ => none

def Op.ofJson (j : Json) : Option Op :=
  (Op.kindOf j).bind (Op.readAs j)

instance : Serde Op := ⟨Op.toJson, Op.ofJson⟩

/-! ## What comes back -/

/-- A body of `null` is written like an absent one. -/
def storedBody : Option Json → Option Json
  | some .null => none
  | body => body

theorem fromValue_toValue_body (body : Option Json) :
    (fromValue (toValue body) : Option (Option Json)) = some (storedBody body) := by
  cases body with
  | none => rfl
  | some j => cases j <;> rfl

/-- An operation as a reopen reads it. -/
def Op.stored : Op → Op
  | .Row tenant name key body => .Row tenant name key (storedBody body)
  | op => op

/-- How an operation is tagged. -/
def Op.kind : Op → String
  | .Watermark _ => "watermark"
  | .Counter _ _ _ => "counter"
  | .Event _ => "event"
  | .Command _ _ _ _ _ => "command"
  | .Claim _ _ _ _ _ => "claim"
  | .Group _ _ _ _ _ => "group"
  | .Identity _ _ => "identity"
  | .Generation _ _ => "generation"
  | .Projection _ _ => "projection"
  | .DirtyView _ _ _ => "dirty_view"
  | .Row _ _ _ _ => "row"
  | .ClearRows _ _ => "clear_rows"
  | .Cursor _ _ _ => "cursor"
  | .Blob _ _ _ => "blob"

theorem Op.kindOf_toJson (op : Op) : Op.kindOf op.toJson = some op.kind := by
  have hkind (s : String) : (fromValue (.str s) : Option String) = some s := rfl
  cases op with
  | Group tenant key digest ranges blobs =>
      cases blobs <;>
        simp [Op.toJson, Op.kindOf, Op.kind, Json.openMembers, Json.member, List.lookup, hkind]
  | _ => simp [Op.toJson, Op.kindOf, Op.kind, Json.openMembers, Json.member, List.lookup, hkind]

/-- **What an operation reads back as.** -/
theorem Op.fromValue_toValue (op : Op) : fromValue (toValue op) = some op.stored := by
  change (Op.kindOf op.toJson).bind (Op.readAs op.toJson) = some op.stored
  rw [Op.kindOf_toJson, Option.bind_some]
  have htenant (t : Option TenantId) : (fromValue (toValue t) : Option (Option TenantId)) = some t :=
    LawfulSerde.fromValue_toValue t
  have hobject (o : Option File.Blob) : (fromValue (toValue o) : Option (Option File.Blob)) = some o :=
    LawfulSerde.fromValue_toValue o
  cases op with
  | Group tenant key digest ranges blobs =>
      simp only [Op.kind, Op.readAs]
      cases blobs <;>
        simp [Op.toJson, Op.stored, Json.members, Json.member, Json.memberOr, List.lookup]
  | Counter tenant coordinate value =>
      simp only [Op.kind, Op.readAs]
      simp [Op.toJson, Op.stored, Json.members, Json.member, Json.memberOr, List.lookup, htenant]
  | Row tenant name key body =>
      simp only [Op.kind, Op.readAs]
      simp [Op.toJson, Op.stored, Json.members, Json.member, Json.memberOr, List.lookup,
        fromValue_toValue_body]
  | Blob tenant digest object =>
      simp only [Op.kind, Op.readAs]
      simp [Op.toJson, Op.stored, Json.members, Json.member, Json.memberOr, List.lookup, hobject]
  | _ =>
      simp only [Op.kind, Op.readAs]
      simp [Op.toJson, Op.stored, Json.members, Json.member, List.lookup]

theorem fromValue_toValue_ops (ops : List Op) :
    fromValue (toValue ops) = some (ops.map Op.stored) := by
  change (ops.map toValue).mapM fromValue = _
  induction ops with
  | nil => rfl
  | cons op ops ih => simp [Op.fromValue_toValue, ih]

/-! ## State -/

/-- A map from coordinates.  The source keys some maps by tuples and some by the JSON text
    of the same strings; the strings themselves serve for both. -/
abbrev Table (V : Type) : Type := Std.ExtTreeMap (List String) V compare

def StreamId.key (s : StreamId) : List String :=
  [s.tenant.value, s.streamType, s.streamId]

theorem StreamId.key_injective : Function.Injective StreamId.key := by
  rintro ⟨⟨tenant, _⟩, streamType, streamId, _, _⟩ ⟨⟨tenant', _⟩, streamType', streamId', _, _⟩ h
  simp only [StreamId.key, List.cons.injEq, and_true] at h
  obtain ⟨rfl, rfl, rfl⟩ := h
  rfl

/-- Whether an event is one of a stream's. -/
def RecordedEvent.isOn (e : RecordedEvent) (s : StreamId) : Bool :=
  e.tenant == s.tenant && e.streamType == s.streamType && e.streamId == s.streamId

/-- `State`: what the committed history amounts to.

    Events are kept in global order.  The source's index by stream holds, for each stream,
    the events of that stream in this order, since versions and positions rise together. -/
structure State where
  events : List RecordedEvent
  commands : Table (String × GroupRange)
  claims : Table (String × GroupRange)
  groups : Table (String × List GroupRange × List String)
  identities : Table String
  generations : Table String
  projections : Table (List String)
  dirtyViews : Table Unit
  rows : Table Json
  cursors : Table Nat
  blobs : Table Blob
  nextPosition : Nat
  counters : Table Int
  deriving DecidableEq

namespace State

/-- `State::default`. -/
def empty : State where
  events := []
  commands := ∅
  claims := ∅
  groups := ∅
  identities := ∅
  generations := ∅
  projections := ∅
  dirtyViews := ∅
  rows := ∅
  cursors := ∅
  blobs := ∅
  nextPosition := 0
  counters := ∅

/-- `Events::of_stream` without bounds: the events of a stream in version order. -/
def ofStream (s : State) (stream : StreamId) : List RecordedEvent :=
  s.events.filter fun e => RecordedEvent.isOn e stream

/-- `State::head`: the highest version of a stream, or 0. -/
def head (s : State) (stream : StreamId) : Nat :=
  ((s.ofStream stream).getLast?.map RecordedEvent.version).getD 0

/-- The refusal of an event out of order. -/
def invalidOrder : EventLogError := .Backend "invalid recorded event order"

/-- `State::apply` for an event. -/
def applyEvent (s : State) (event : RecordedEvent) : Except EventLogError State :=
  if event.globalSeq ≤ s.nextPosition then .error invalidOrder
  else
    match event.stream with
    | .error e => .error e
    | .ok stream =>
        if event.version ≠ s.head stream + 1 then .error invalidOrder
        else .ok { s with nextPosition := event.globalSeq, events := s.events ++ [event] }

/-- `State::apply` for the admission of a projection. -/
def applyProjection (s : State) (name : String) (indexed : List String) :
    Except EventLogError State :=
  match s.projections[[name]]? with
  | some old =>
      if old ≠ indexed then .error (.Backend "projection registration shape changed")
      else .ok { s with projections := s.projections.insert [name] indexed }
  | none => .ok { s with projections := s.projections.insert [name] indexed }

/-- What an operation that is neither of these does; it is never refused. -/
def update (s : State) : Op → State
  | .Event _ | .Projection _ _ => s
  | .DirtyView tenant name dirty =>
      { s with dirtyViews :=
          if dirty then s.dirtyViews.insert [tenant.value, name] ()
          else s.dirtyViews.erase [tenant.value, name] }
  | .Watermark position => { s with nextPosition := max s.nextPosition position }
  | .Counter _ coordinate value => { s with counters := s.counters.insert [coordinate] value }
  | .Command stream key digest first last =>
      let range : GroupRange := ⟨stream, first, last⟩
      { s with commands := s.commands.insert (StreamId.key stream ++ [key]) (digest, range) }
  | .Claim tenant scope key digest range =>
      { s with claims := s.claims.insert [tenant.value, scope, key] (digest, range) }
  | .Group tenant key digest ranges blobs =>
      { s with groups := s.groups.insert [tenant.value, key] (digest, ranges, blobs) }
  | .Identity tenant id => { s with identities := s.identities.insert [tenant.value] id }
  | .Generation stream id => { s with generations := s.generations.insert (StreamId.key stream) id }
  | .Row tenant name key (some body) =>
      { s with rows := s.rows.insert [tenant.value, name, key] body }
  | .Row tenant name key none => { s with rows := s.rows.erase [tenant.value, name, key] }
  | .ClearRows tenant name =>
      { s with rows := s.rows.filter fun k _ => decide (k.take 2 ≠ [tenant.value, name]) }
  | .Cursor tenant name position =>
      { s with cursors := s.cursors.insert [tenant.value, name] position }
  | .Blob tenant digest (some object) =>
      { s with blobs := s.blobs.insert [tenant.value, digest] object }
  | .Blob tenant digest none => { s with blobs := s.blobs.erase [tenant.value, digest] }

/-- `State::apply`. -/
def apply (s : State) (op : Op) : Except EventLogError State :=
  match op with
  | .Event event => s.applyEvent event
  | .Projection name indexed => s.applyProjection name indexed
  | op => .ok (s.update op)

/-- Applies operations in order, up to the first that is refused. -/
def applyAll (s : State) (ops : List Op) : Except EventLogError State :=
  ops.foldlM apply s

/-- The failure of a transaction that is no list of operations; the text is serde's. -/
def unreadable : EventLogError := .Backend "unknown operation"

/-- `State::fold`: applies one committed transaction, and returns the bindings it created. -/
def fold (s : State) (transaction : Json) :
    Except EventLogError (State × List (TenantId × String)) :=
  match (fromValue transaction : Option (List Op)) with
  | none => .error unreadable
  | some ops => (s.applyAll ops).map fun s => (s, ops.filterMap Op.binds?)

/-- The loop of `State::replay`. -/
def replayFrom (s : State) (transactions : List Json) : Except EventLogError State :=
  transactions.foldlM (fun s t => (s.fold t).map Prod.fst) s

/-- `State::replay`. -/
def replay (transactions : List Json) : Except EventLogError State :=
  replayFrom empty transactions

@[simp] theorem applyAll_nil (s : State) : s.applyAll [] = .ok s := rfl

theorem applyAll_append (s : State) (ops ops' : List Op) :
    s.applyAll (ops ++ ops') = s.applyAll ops >>= fun s => s.applyAll ops' := by
  simp [applyAll, List.foldlM_append]

theorem replayFrom_append (s : State) (ts us : List Json) :
    s.replayFrom (ts ++ us) = s.replayFrom ts >>= fun s => s.replayFrom us := by
  simp [replayFrom, List.foldlM_append]

/-! ## Live and replayed states -/

/-- The rows a table keeps when it drops those of `null`. -/
def nonNull (rows : Table Json) : Table Json :=
  rows.filter fun _ body => decide (body ≠ .null)

theorem getElem?_nonNull (rows : Table Json) (k : List String) :
    (nonNull rows)[k]? = rows[k]?.filter fun body => decide (body ≠ .null) :=
  Std.ExtTreeMap.getElem?_filter'

theorem nonNull_insert {body : Json} (rows : Table Json) (k : List String) (h : body ≠ .null) :
    nonNull (rows.insert k body) = (nonNull rows).insert k body := by
  refine Std.ExtTreeMap.ext_getElem? fun l => ?_
  simp only [getElem?_nonNull, Std.ExtTreeMap.getElem?_insert]
  split_ifs <;> simp [h]

theorem nonNull_insert_null (rows : Table Json) (k : List String) :
    nonNull (rows.insert k .null) = (nonNull rows).erase k := by
  refine Std.ExtTreeMap.ext_getElem? fun l => ?_
  simp only [getElem?_nonNull, Std.ExtTreeMap.getElem?_insert, Std.ExtTreeMap.getElem?_erase]
  split_ifs <;> simp

theorem nonNull_erase (rows : Table Json) (k : List String) :
    nonNull (rows.erase k) = (nonNull rows).erase k := by
  refine Std.ExtTreeMap.ext_getElem? fun l => ?_
  simp only [getElem?_nonNull, Std.ExtTreeMap.getElem?_erase]
  split_ifs <;> simp

theorem nonNull_filter (rows : Table Json) (f : List String → Json → Bool) :
    nonNull (rows.filter f) = (nonNull rows).filter f := by
  refine Std.ExtTreeMap.ext_getElem? fun l => ?_
  simp only [getElem?_nonNull, Std.ExtTreeMap.getElem?_filter', Option.filter_filter,
    Bool.and_comm]

/-- A state without its `null` rows. -/
def strip (s : State) : State :=
  { s with rows := nonNull s.rows }

theorem strip_update (s : State) (op : Op) : (s.update op).strip = s.strip.update op.stored := by
  cases op with
  | Row tenant name key body =>
      cases body with
      | none => simp [update, strip, Op.stored, storedBody, nonNull_erase]
      | some body =>
          by_cases h : body = .null
          · subst h
            simp [update, strip, Op.stored, storedBody, nonNull_insert_null]
          · have hstored : storedBody (some body) = some body := by
              cases body <;> first | rfl | exact absurd rfl h
            simp [update, strip, Op.stored, hstored, nonNull_insert _ _ h]
  | ClearRows tenant name => simp only [update, strip, Op.stored, nonNull_filter]
  | Blob tenant digest object => cases object <;> rfl
  | _ => rfl

/-- What is stored of an operation does to the stripped state what the operation does to
    the live one. -/
theorem apply_stored (s : State) (op : Op) :
    s.strip.apply op.stored = (s.apply op).map strip := by
  cases op with
  | Event event =>
      simp only [apply, Op.stored, applyEvent]
      have hhead (stream : StreamId) : s.strip.head stream = s.head stream := rfl
      have hnext : s.strip.nextPosition = s.nextPosition := rfl
      rw [hnext]
      split_ifs with hpos
      · rfl
      · cases event.stream with
        | error e => rfl
        | ok stream =>
            simp only [hhead]
            split_ifs <;> rfl
  | Projection name indexed =>
      have hprojections : s.strip.projections = s.projections := rfl
      simp only [apply, Op.stored, applyProjection, hprojections]
      cases s.projections[[name]]? with
      | none => rfl
      | some old => simp only; split_ifs <;> rfl
  | Row tenant name key body =>
      exact congrArg Except.ok (strip_update s (.Row tenant name key body)).symm
  | ClearRows tenant name => exact congrArg Except.ok (strip_update s (.ClearRows tenant name)).symm
  | _ => exact congrArg Except.ok (strip_update s _).symm

theorem applyAll_stored (s : State) (ops : List Op) :
    s.strip.applyAll (ops.map Op.stored) = (s.applyAll ops).map strip := by
  induction ops generalizing s with
  | nil => rfl
  | cons op ops ih =>
      simp only [applyAll, List.map_cons, List.foldlM_cons, apply_stored]
      cases s.apply op with
      | error e => rfl
      | ok s' => exact ih s'

/-- **Folding a journaled transaction** gives the stripped state of applying it. -/
theorem fold_toValue (s : State) (ops : List Op) :
    (s.strip.fold (toValue ops)).map Prod.fst = (s.applyAll ops).map strip := by
  simp only [fold, fromValue_toValue_ops, applyAll_stored]
  cases s.applyAll ops <;> rfl

theorem replayFrom_singleton (s : State) (ops : List Op) :
    s.strip.replayFrom [toValue ops] = (s.applyAll ops).map strip := by
  rw [← fold_toValue]
  simp [replayFrom]

end State

end Eventlog.File
