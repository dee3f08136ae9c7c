import Eventlog.Sqlite.Database

/-!
# Eventlog.Sqlite.Callbacks

`SqliteProjections`: what a guard or a projector sees of the transaction it runs in, and
what it may do to it.

A callback reads blobs and rows and writes rows and counters, of one tenant only.  Whatever
it does, the tables of history are those it found (`View.call_rowsOnly`).
-/

namespace Eventlog.Sqlite

open File (Table)

variable (P : Platform)

/-- `SqliteProjections`, without the connection: whose rows, under which permit admission is
    allowed, which projections are driven inline, and which tables a rebuild selected.  `hidden`
    says that a temporary table of the same name hides that of the blobs. -/
structure View where
  tenant : TenantId
  admission : Option Nat
  inline : List String
  selected : Option (List ProjectionSpec)
  hidden : Bool

/-- A table that is not there, or has no such column. -/
def missing : EventLogError := .Backend "no such table or column"

/-- A row whose text is not JSON. -/
def unreadableRow : EventLogError := .Backend "stored projection row is not JSON"

/-- The table a statement names, with its first `columns` indexed fields. -/
def Db.table (db : Db) (spec : ProjectionSpec) (columns : Nat) : Except EventLogError Unit :=
  match db.registry[[spec.name]]? with
  | some indexed => if columns ≤ indexed.length then .ok () else .error missing
  | none => .error missing

/-- The key of a row. -/
def rowKey (spec : ProjectionSpec) (tenant : TenantId) (key : String) : List String :=
  [spec.name, tenant.value, key]

/-- A row as an upsert leaves it: fields the statement does not name keep their text. -/
def Row.upserted (old : Option Row) (spec : ProjectionSpec) (body : Json) : Row where
  body := body
  indexed := spec.indexed.map (indexedValue P.toFloatText body) ++
    ((old.map Row.indexed).getD []).drop spec.indexed.length

/-- The body of a row, parsed from its text. -/
def Row.read (row : Row) : Except EventLogError Json :=
  match Json.reread P.toFloatText row.body with
  | some body => .ok body
  | none => .error unreadableRow

/-- The body under a key, if there is a row. -/
def Db.rowBody (db : Db) (spec : ProjectionSpec) (tenant : TenantId) (key : String) :
    Except EventLogError (Option Json) := do
  db.table spec 0
  match db.rows[rowKey spec tenant key]? with
  | none => return none
  | some row => return some (← row.read P)

/-- The rows of a projection that belong to a tenant, by key. -/
def Db.tenantRows (db : Db) (spec : ProjectionSpec) (tenant : TenantId) :
    List (String × Row) :=
  (db.rows.toList.filter fun row => row.1.take 2 == [spec.name, tenant.value]).map
    fun row => ((row.1.drop 2).headD "", row.2)

/-- `projection_find`, and `find` inside a transaction. -/
def Db.findRows (db : Db) (spec : ProjectionSpec) (tenant : TenantId) (field value : String)
    (limit : Nat) : Except EventLogError (List Json) := do
  if field ∉ spec.indexed then
    throw (.Invalid (field ++ " is not a declared indexed field of " ++ spec.name))
  spec.validate
  let position := spec.indexed.idxOf field
  db.table spec (position + 1)
  let found := (db.tenantRows spec tenant).filter fun row =>
    row.2.indexed[position]? == some (some value)
  (found.take (boundedLimit limit)).mapM fun row => row.2.read P

/-- `projection_list`. -/
def Db.listRows (db : Db) (spec : ProjectionSpec) (tenant : TenantId) (after : Option String)
    (limit : Nat) : Except EventLogError (List (String × Json)) := do
  spec.validate
  db.table spec 0
  let found := (db.tenantRows spec tenant).filter fun row => decide (after.getD "" < row.1)
  (found.take (boundedLimit limit)).mapM fun row => do return (row.1, ← row.2.read P)

/-- What one reservation comes to. -/
def Db.reserved (db : Db) (located : String × Reservation) :
    Except EventLogError (String × Int) :=
  match checkedAddInt (db.counters[[located.1]]?.getD 0) located.2.delta with
  | none => .error File.ceilingRefused
  | some value =>
      if value < 0 ∨ value > located.2.ceiling then .error File.ceilingRefused
      else .ok (located.1, value)

namespace View

/-- The checks every question about rows starts with. -/
def target (v : View) (spec : ProjectionSpec) (tenant : TenantId) : Except EventLogError Unit := do
  if v.selected.any fun selected => !selected.contains spec then
    throw (.Invalid "projection is outside this rebuild's selected tables")
  if tenant ≠ v.tenant then
    throw (.Invalid "projection context cannot cross tenant")

/-- `get_blob`. -/
def getBlob (v : View) (digest : String) (db : Db) : Except EventLogError (Option Bytes) := do
  validateField "digest" digest
  if v.hidden then
    throw missing
  return db.boundBlob v.tenant digest

/-- `ensure_callback_integrity`: a callback that was refused a blob by the database fails,
    whatever it makes of the refusal. -/
def ensureIntegrity (blob : Except EventLogError (Option Bytes))
    (result : Except EventLogError Unit) : Except EventLogError Unit :=
  match blob with
  | .error (.Backend _) => .error (.Backend "transaction observed corrupt blob content")
  | _ => result

/-- The checks of `reserve_now`, and the counters it then writes. -/
def planReserve (v : View) (permit : Nat) (rs : List Reservation) (db : Db) :
    Except EventLogError (List (String × Int)) := do
  match v.admission with
  | none => throw (.Invalid "admission is confined to a trusted append guard")
  | some authority =>
      if authority ≠ permit then
        throw (.Invalid "foreign admission permit")
      let ordered ← orderedReservations v.tenant rs
      ordered.mapM db.reserved

/-- `reserve_now`: a refusal changes no counter. -/
def reserve (v : View) (permit : Nat) (rs : List Reservation) (db : Db) :
    Except EventLogError (List Int) × Db :=
  match v.planReserve permit rs db with
  | .error e => (.error e, db)
  | .ok writes =>
      (.ok (writes.map Prod.snd),
        { db with counters := writes.foldl (fun t w => t.insert [w.1] w.2) db.counters })

/-- The checks of `upsert_now`, and the row it then writes. -/
def planUpsert (v : View) (spec : ProjectionSpec) (tenant : TenantId) (key : String) (body : Json)
    (db : Db) : Except EventLogError Row := do
  v.target spec tenant
  spec.validate
  db.table spec spec.indexed.length
  return Row.upserted P db.rows[rowKey spec tenant key]? spec body

/-- `upsert_now`. -/
def upsert (v : View) (spec : ProjectionSpec) (tenant : TenantId) (key : String) (body : Json)
    (db : Db) : Except EventLogError Unit × Db :=
  match v.planUpsert P spec tenant key body db with
  | .error e => (.error e, db)
  | .ok row => (.ok (), { db with rows := db.rows.insert (rowKey spec tenant key) row })

/-- The checks of `delete_now`. -/
def planDelete (v : View) (spec : ProjectionSpec) (tenant : TenantId) (db : Db) :
    Except EventLogError Unit := do
  v.target spec tenant
  spec.validate
  db.table spec 0

/-- `delete_now`. -/
def delete (v : View) (spec : ProjectionSpec) (tenant : TenantId) (key : String) (db : Db) :
    Except EventLogError Unit × Db :=
  match v.planDelete spec tenant db with
  | .error e => (.error e, db)
  | .ok () => (.ok (), { db with rows := db.rows.erase (rowKey spec tenant key) })

/-- `get_now`. -/
def get (v : View) (spec : ProjectionSpec) (tenant : TenantId) (key : String) (db : Db) :
    Except EventLogError (Option Json) := do
  v.target spec tenant
  spec.validate
  db.rowBody P spec tenant key

/-- `get_for_update_now`: only a read model written in this transaction. -/
def getForUpdate (v : View) (spec : ProjectionSpec) (tenant : TenantId) (key : String) (db : Db) :
    Except EventLogError (Option Json) := do
  v.target spec tenant
  if spec.name ∉ v.inline then
    throw (.Invalid ("projection " ++ spec.name ++
      " is not driven inline, so a guard over it would be enforced late"))
  v.get P spec tenant key db

/-- `find_now`. -/
def find (v : View) (spec : ProjectionSpec) (tenant : TenantId) (field value : String)
    (limit : Nat) (db : Db) : Except EventLogError (List Json) := do
  v.target spec tenant
  db.findRows P spec tenant field value limit

/-- Runs a callback against the tables. -/
def call (v : View) : Callback → Db → Except EventLogError Unit × Db
  | .done result, db => (result, db)
  | .reserve permit rs next, db =>
      v.call (next (v.reserve permit rs db).1) (v.reserve permit rs db).2
  | .getBlob digest next, db =>
      (ensureIntegrity (v.getBlob digest db) (v.call (next (v.getBlob digest db)) db).1,
        (v.call (next (v.getBlob digest db)) db).2)
  | .upsert spec tenant key body next, db =>
      v.call (next (v.upsert P spec tenant key body db).1) (v.upsert P spec tenant key body db).2
  | .delete spec tenant key next, db =>
      v.call (next (v.delete spec tenant key db).1) (v.delete spec tenant key db).2
  | .get spec tenant key next, db => v.call (next (v.get P spec tenant key db)) db
  | .getForUpdate spec tenant key next, db =>
      v.call (next (v.getForUpdate P spec tenant key db)) db
  | .find spec tenant field value limit next, db =>
      v.call (next (v.find P spec tenant field value limit db)) db

end View

/-! ## What a callback leaves alone -/

/-- Nothing but rows and counters differs. -/
structure RowsOnly (db db' : Db) : Prop where
  ledger : db'.toLedger = db.toLedger
  cursors : db'.cursors = db.cursors
  snapshots : db'.snapshots = db.snapshots
  generations : db'.generations = db.generations
  registry : db'.registry = db.registry

theorem RowsOnly.refl (db : Db) : RowsOnly db db := ⟨rfl, rfl, rfl, rfl, rfl⟩

theorem RowsOnly.trans {a b c : Db} (h : RowsOnly a b) (h' : RowsOnly b c) : RowsOnly a c :=
  ⟨h'.ledger.trans h.ledger, h'.cursors.trans h.cursors, h'.snapshots.trans h.snapshots,
    h'.generations.trans h.generations, h'.registry.trans h.registry⟩

theorem View.reserve_rowsOnly (v : View) (permit : Nat) (rs : List Reservation) (db : Db) :
    RowsOnly db (v.reserve permit rs db).2 := by
  unfold reserve
  split
  · exact .refl db
  · exact ⟨rfl, rfl, rfl, rfl, rfl⟩

theorem View.upsert_rowsOnly (v : View) (spec : ProjectionSpec) (tenant : TenantId) (key : String)
    (body : Json) (db : Db) : RowsOnly db (v.upsert P spec tenant key body db).2 := by
  unfold upsert
  split
  · exact .refl db
  · exact ⟨rfl, rfl, rfl, rfl, rfl⟩

theorem View.delete_rowsOnly (v : View) (spec : ProjectionSpec) (tenant : TenantId) (key : String)
    (db : Db) : RowsOnly db (v.delete spec tenant key db).2 := by
  unfold delete
  split
  · exact .refl db
  · exact ⟨rfl, rfl, rfl, rfl, rfl⟩

/-- **A callback writes rows and counters, nothing else.** -/
theorem View.call_rowsOnly (v : View) (c : Callback) (db : Db) :
    RowsOnly db (v.call P c db).2 := by
  induction c generalizing db with
  | done result => exact .refl db
  | reserve permit rs next ih => exact (v.reserve_rowsOnly permit rs db).trans (ih _ _)
  | getBlob digest next ih => exact ih _ _
  | upsert spec tenant key body next ih =>
      exact (v.upsert_rowsOnly P spec tenant key body db).trans (ih _ _)
  | delete spec tenant key next ih =>
      exact (v.delete_rowsOnly spec tenant key db).trans (ih _ _)
  | get spec tenant key next ih => exact ih _ _
  | getForUpdate spec tenant key next ih => exact ih _ _
  | find spec tenant field value limit next ih => exact ih _ _

end Eventlog.Sqlite
