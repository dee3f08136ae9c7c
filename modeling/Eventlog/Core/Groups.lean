import Eventlog.Core.Records
import Eventlog.Durable.Checks

/-!
# Eventlog.Core.Groups

Ordered multi-stream appends, with or without the content they bind, and the digests that
identify such a request.

A group's fingerprint covers its tenant, its members and its command; the fingerprint of a
group with blobs covers the group's and the SHA-256 of each blob's bytes.
-/

namespace Eventlog

open Durable

variable (P : Primitives)

/-- `request_hash`. -/
def requestHash (value : Json) : String :=
  P.sha256 (Json.toVec P.toFloatText value)

/-- One ordered entry; repeated streams observe earlier entries in the same transaction. -/
structure StreamAppend where
  stream : StreamId
  expected : Expected
  events : List NewEvent
  deriving DecidableEq

/-- One tenant-scoped command identity covers the complete ordered request. -/
structure AppendGroup where
  tenant : TenantId
  appends : List StreamAppend
  command : CommandMeta
  deriving DecidableEq

def NewEvent.toJson (e : NewEvent) : Json :=
  .obj [("data", e.data), ("name", toValue e.name), ("schema_version", toValue e.schemaVersion)]

/-- How a fingerprint names an expectation. -/
def Expected.toJson : Expected → Json
  | .Any => .arr [.str "any"]
  | .NoStream => .arr [.str "no-stream"]
  | .Exact version => .arr [.str "exact", toValue version]
  | .Merge heads => .arr [.str "merge", .str heads.hex]

def StreamAppend.toJson (a : StreamAppend) : Json :=
  .obj [("events", .arr (a.events.map NewEvent.toJson)), ("expected", a.expected.toJson),
    ("stream", toValue a.stream)]

/-- The command as a fingerprint covers it: all of it but the claim, which a group has not. -/
def CommandMeta.toJson (m : CommandMeta) : Json :=
  .obj [("actor", toValue m.actor), ("causation_depth", toValue m.causationDepth),
    ("causation_id", toValue m.causationId), ("digest", toValue m.requestHash),
    ("key", toValue m.idempotencyKey), ("occurred_at", toValue m.occurredAt),
    ("request_id", toValue m.requestId), ("subject", toValue m.subject),
    ("trace_id", toValue m.traceId)]

/-- The checks `AppendGroup::fingerprint` makes of one entry. -/
def AppendGroup.checkEntry (g : AppendGroup) (a : StreamAppend) : Except EventLogError Unit := do
  if a.stream.tenant ≠ g.tenant then
    throw (.Invalid "append group crosses tenants")
  validateAppend a.events g.command

/-- The checks of `AppendGroup::fingerprint`. -/
def AppendGroup.check (g : AppendGroup) : Except EventLogError Unit := do
  g.command.validate
  if g.appends.isEmpty then
    throw (.Invalid "an append group must contain entries")
  if g.command.claim.isSome then
    throw (.Invalid "stream claims cannot name an append group")
  g.appends.forM g.checkEntry

/-- A group that passes its checks has no claim. -/
theorem AppendGroup.claim_of_check {g : AppendGroup} (h : g.check = .ok ()) :
    g.command.claim = none := by
  obtain ⟨_, -, h⟩ := Checks.bind_eq_ok_iff.mp h
  rcases hclaim : g.command.claim with _ | claim
  · rfl
  · by_cases hempty : g.appends = []
    · simp [hempty, throw, throwThe, MonadExceptOf.throw, bind, Except.bind] at h
    · simp [hempty, hclaim, throw, throwThe, MonadExceptOf.throw, bind, Except.bind] at h

/-- What `validate_append` asks of an append. -/
theorem of_validateAppend {events : List NewEvent} {command : CommandMeta}
    (h : validateAppend events command = .ok ()) :
    command.validate = .ok () ∧ ∀ e ∈ events, e.validate = .ok () := by
  by_cases hempty : events.isEmpty
  · simp [validateAppend, hempty, throw, throwThe, MonadExceptOf.throw, bind, Except.bind] at h
  by_cases hlong : events.length > MAX_EVENTS_PER_APPEND
  · simp [validateAppend, hempty, hlong, throw, throwThe, MonadExceptOf.throw, bind, Except.bind]
      at h
  have hchecks : (do events.forM NewEvent.validate; command.validate : Except _ _) = .ok () := by
    simpa [validateAppend, hempty, hlong, pure, Except.pure, bind, Except.bind] using h
  obtain ⟨_, hevents, hcommand⟩ := Checks.bind_eq_ok_iff.mp hchecks
  exact ⟨hcommand, Checks.forM_eq_ok_iff.mp hevents⟩

/-- What the checks of a group ask of its entries. -/
theorem AppendGroup.entries_of_check {g : AppendGroup} (h : g.check = .ok ()) :
    g.appends ≠ [] ∧ ∀ a ∈ g.appends, a.stream.tenant = g.tenant ∧
      validateAppend a.events g.command = .ok () := by
  have hclaim := claim_of_check h
  obtain ⟨_, -, h⟩ := Checks.bind_eq_ok_iff.mp h
  by_cases hempty : g.appends = []
  · simp [hempty, throw, throwThe, MonadExceptOf.throw, bind, Except.bind] at h
  · refine ⟨hempty, fun a ha => ?_⟩
    have hall : g.appends.forM g.checkEntry = .ok () := by
      simpa [hempty, hclaim, bind, Except.bind, pure, Except.pure] using h
    have hentry := Checks.forM_eq_ok_iff.mp hall a ha
    unfold checkEntry at hentry
    by_cases htenant : a.stream.tenant = g.tenant
    · exact ⟨htenant, by simpa [htenant, bind, Except.bind, pure, Except.pure] using hentry⟩
    · simp [htenant, throw, throwThe, MonadExceptOf.throw, bind, Except.bind] at hentry

/-- The document `AppendGroup::fingerprint` hashes. -/
def AppendGroup.toJson (g : AppendGroup) : Json :=
  .obj [("entries", .arr (g.appends.map StreamAppend.toJson)),
    ("format", .str "eventlog-append-group/1"), ("meta", g.command.toJson),
    ("tenant", toValue g.tenant)]

/-- `AppendGroup::fingerprint`. -/
def AppendGroup.fingerprint (g : AppendGroup) : Except EventLogError String := do
  g.check
  return requestHash P g.toJson

theorem AppendGroup.fingerprint_eq_ok_iff {g : AppendGroup} {f : String} :
    g.fingerprint P = .ok f ↔ g.check = .ok () ∧ f = requestHash P g.toJson := by
  rw [fingerprint, Checks.bind_eq_ok_iff]
  constructor
  · rintro ⟨_, hcheck, hf⟩
    exact ⟨hcheck, (Checks.pure_eq_ok_iff.mp hf).symm⟩
  · rintro ⟨hcheck, rfl⟩
    exact ⟨(), hcheck, rfl⟩

/-- Ordered entry results.  A retry has the original ids, positions and version ranges. -/
structure AppendGroupResult where
  appends : List AppendResult
  deduplicated : Bool
  deriving DecidableEq

/-! ## Groups with content -/

/-- One tenant-confined blob binding; the owner's digest is an opaque address. -/
structure BlobWrite where
  digest : String
  bytes : Bytes
  deriving DecidableEq

/-- `blobs.sort_by(|a, b| a.digest.cmp(&b.digest))`. -/
def sortByDigest (blobs : List BlobWrite) : List BlobWrite :=
  blobs.insertionSort fun a b => a.digest ≤ b.digest

/-- The contained group supplies the tenant and the shared group receipt identity. -/
structure BlobAppendGroup where
  group : AppendGroup
  blobs : List BlobWrite
  deriving DecidableEq

/-- The loop of `BlobAppendGroup::fingerprint` over its blobs. -/
def checkBlobs : List String → List BlobWrite → Except EventLogError Unit
  | _, [] => .ok ()
  | seen, b :: rest => do
      validateField "blob digest" b.digest
      if b.digest ∈ seen then
        throw (.Invalid "duplicate blob digest in atomic group")
      checkBlobs (b.digest :: seen) rest

def BlobWrite.toJson (b : BlobWrite) : Json :=
  .obj [("byte_count", toValue b.bytes.length), ("content_sha256", toValue (P.sha256 b.bytes)),
    ("digest", toValue b.digest)]

/-- `BlobAppendGroup::fingerprint`. -/
def BlobAppendGroup.fingerprint (g : BlobAppendGroup) : Except EventLogError String := do
  let group ← g.group.fingerprint P
  if g.blobs.isEmpty then
    throw (.Invalid "an atomic blob group must contain blobs")
  checkBlobs [] g.blobs
  return requestHash P (.obj [("blobs", .arr ((sortByDigest g.blobs).map (BlobWrite.toJson P))),
    ("format", .str "eventlog-blob-append-group/1"), ("group_fingerprint", toValue group)])

/-- What the loop over the blobs asks of them: valid digests, each once. -/
theorem checkBlobs_eq_ok_iff {seen : List String} {blobs : List BlobWrite} :
    checkBlobs seen blobs = .ok () ↔ (∀ b ∈ blobs, validateField "blob digest" b.digest = .ok ()) ∧
      (blobs.map BlobWrite.digest).Nodup ∧ ∀ b ∈ blobs, b.digest ∉ seen := by
  induction blobs generalizing seen with
  | nil => simp [checkBlobs]
  | cons b rest ih =>
      rw [checkBlobs, Checks.bind_eq_ok_iff]
      by_cases hseen : b.digest ∈ seen
      · simp [hseen, throw, throwThe, MonadExceptOf.throw, bind, Except.bind]
      · simp only [hseen, if_false, ih, List.map_cons, List.nodup_cons, List.mem_cons, not_or, List.mem_map]
        grind

/-- Past the checks of the group, those of its blobs decide. -/
theorem BlobAppendGroup.fingerprint_eq_error_iff {g : BlobAppendGroup} {e : EventLogError}
    (hcheck : g.group.check = .ok ()) (hblobs : g.blobs ≠ []) :
    g.fingerprint P = .error e ↔ checkBlobs [] g.blobs = .error e := by
  have hgroup : g.group.fingerprint P = .ok (requestHash P g.group.toJson) :=
    (AppendGroup.fingerprint_eq_ok_iff P).mpr ⟨hcheck, rfl⟩
  have hempty : g.blobs.isEmpty = false := by simpa using hblobs
  rw [fingerprint, hgroup]
  rcases checkBlobs [] g.blobs with e' | u
  · simp [bind, Except.bind, hempty]
  · simp [bind, Except.bind, hempty, pure, Except.pure]

theorem BlobAppendGroup.fingerprint_eq_ok_iff {g : BlobAppendGroup} {f : String} :
    g.fingerprint P = .ok f ↔ g.group.check = .ok () ∧ g.blobs ≠ [] ∧ checkBlobs [] g.blobs = .ok () ∧
      f = requestHash P (.obj [("blobs", .arr ((sortByDigest g.blobs).map (BlobWrite.toJson P))),
        ("format", .str "eventlog-blob-append-group/1"),
        ("group_fingerprint", toValue (requestHash P g.group.toJson))]) := by
  rw [fingerprint, Checks.bind_eq_ok_iff]
  simp only [AppendGroup.fingerprint_eq_ok_iff]
  by_cases hempty : g.blobs = []
  · simp [hempty, throw, throwThe, MonadExceptOf.throw, bind, Except.bind]
  · simp only [List.isEmpty_iff, hempty, if_false, Checks.bind_eq_ok_iff, Checks.pure_eq_ok_iff]
    constructor
    · rintro ⟨_, ⟨hcheck, rfl⟩, _, hblobs, rfl⟩
      exact ⟨hcheck, hempty, hblobs, rfl⟩
    · rintro ⟨hcheck, -, hblobs, rfl⟩
      exact ⟨_, ⟨hcheck, rfl⟩, (), hblobs, rfl⟩

end Eventlog
