import Eventlog.Core.Capture
import Eventlog.Core.Projection
import Eventlog.Durable.Metering

/-!
# Eventlog.Core.Usage

What one tenant's complete observation holds, the caps it must fit, and the accounting of the one
against the other.

A capture is a list of charges (`TenantCapture.charges`): one event, blob or row each, and the
bytes of its payload.  `TenantCapture.account` is the accounting of the source, which admits one
item after another; it comes to the exact usage if that is within the caps (`account_eq_ok_iff`).
-/

namespace Eventlog

open Durable

/-! ## Captures and their refusals -/

/-- Why a capture request was refused before any store was read. -/
inductive CaptureRequestRefusal where
  | InvalidTenant
  | InvalidProjectionSpecification
  | DuplicateProjection
  | DuplicateIndexedField
  deriving DecidableEq

/-- Why one requested projection cannot be part of an observation. -/
inductive ProjectionCaptureRefusal where
  | Undeclared
  | DeclarationMismatch
  | PhysicalShapeMismatch
  | Dirty
  deriving DecidableEq

/-- Which cap the content crossed. -/
inductive CaptureResource where
  | Events
  | Blobs
  | ProjectionRows
  | PayloadBytes
  deriving DecidableEq

/-- Which stored material failed its integrity check. -/
inductive CaptureMaterial where
  | Journal
  | Identity
  | Event
  | Blob
  | Projection
  deriving DecidableEq

/-- `CaptureError`. -/
inductive CaptureError where
  | InvalidRequest (reason : CaptureRequestRefusal)
  | TenantIdentityMissing
  | RedactedHistory
  | RecoveryRequired
  | ProjectionUnavailable (projection : String) (reason : ProjectionCaptureRefusal)
  | LimitExceeded (resource : CaptureResource) (limit : Nat)
  | Corrupt (material : CaptureMaterial)
  | Store (error : EventLogError)
  deriving DecidableEq

/-- One tenant's complete observation. -/
structure TenantCapture where
  tenant : TenantId
  streamIdentity : String
  events : List RecordedEvent
  blobs : List (String × Bytes)
  projections : List (ProjectionSpec × List (String × Json))
  deriving DecidableEq

/-- The rows of all requested projections. -/
def TenantCapture.rows (c : TenantCapture) : List (String × Json) :=
  c.projections.flatMap Prod.snd

/-- The loop of `validate_capture_request` over the specifications, with the names already
    seen.  A `TenantId` is a valid one. -/
def validateCaptureRequest : List String → List ProjectionSpec → Except CaptureError Unit
  | _, [] => .ok ()
  | names, spec :: rest =>
      if !spec.validate.isOk then
        .error (.InvalidRequest .InvalidProjectionSpecification)
      else if spec.name ∈ names then
        .error (.InvalidRequest .DuplicateProjection)
      else if ¬ spec.indexed.Nodup then
        .error (.InvalidRequest .DuplicateIndexedField)
      else validateCaptureRequest (spec.name :: names) rest

/-! ## Limits and usage -/

/-- `CaptureLimits`: each cap is a `u64`. -/
structure CaptureLimits where
  maxEvents : Nat
  maxBlobs : Nat
  maxProjectionRows : Nat
  maxPayloadBytes : Nat
  bounded : maxEvents < u64Limit ∧ maxBlobs < u64Limit ∧ maxProjectionRows < u64Limit ∧
    maxPayloadBytes < u64Limit

/-- `CaptureBudget::cap`. -/
def CaptureLimits.cap (limits : CaptureLimits) : CaptureResource → Nat
  | .Events => limits.maxEvents
  | .Blobs => limits.maxBlobs
  | .ProjectionRows => limits.maxProjectionRows
  | .PayloadBytes => limits.maxPayloadBytes

theorem CaptureLimits.cap_lt (limits : CaptureLimits) (r : CaptureResource) :
    limits.cap r < u64Limit := by
  obtain ⟨hevents, hblobs, hrows, hbytes⟩ := limits.bounded
  cases r <;> assumption

/-- `CaptureUsage`. -/
structure CaptureUsage where
  events : Nat
  blobs : Nat
  projectionRows : Nat
  payloadBytes : Nat
  deriving DecidableEq

namespace CaptureUsage

/-- `CaptureBudget::held`. -/
def held (u : CaptureUsage) : CaptureResource → Nat
  | .Events => u.events
  | .Blobs => u.blobs
  | .ProjectionRows => u.projectionRows
  | .PayloadBytes => u.payloadBytes

/-- A counter set to a value. -/
def put (u : CaptureUsage) (value : Nat) : CaptureResource → CaptureUsage
  | .Events => { u with events := value }
  | .Blobs => { u with blobs := value }
  | .ProjectionRows => { u with projectionRows := value }
  | .PayloadBytes => { u with payloadBytes := value }

/-- Nothing is held. -/
def zero : CaptureUsage := ⟨0, 0, 0, 0⟩

@[simp] theorem held_zero (r : CaptureResource) : zero.held r = 0 := by
  cases r <;> rfl

theorem held_put (u : CaptureUsage) (r : CaptureResource) (value : Nat) :
    (u.put value r).held = Function.update u.held r value := by
  funext s
  cases r <;> cases s <;> rfl

theorem held_injective : Function.Injective held := by
  intro u v h
  have hevents := congrFun h .Events
  have hblobs := congrFun h .Blobs
  have hrows := congrFun h .ProjectionRows
  have hbytes := congrFun h .PayloadBytes
  cases u
  cases v
  simp only [held] at hevents hblobs hrows hbytes
  rw [hevents, hblobs, hrows, hbytes]

/-- One counter raised: what a charge leaves. -/
theorem held_put_add (u : CaptureUsage) (c : CaptureResource × Nat) :
    (u.put (u.held c.1 + c.2) c.1).held = charged u.held c := held_put u c.1 _

end CaptureUsage

/-! ## The budget -/

/-- `CaptureBudget`. -/
structure CaptureBudget where
  limits : CaptureLimits
  usage : CaptureUsage

/-- The compact length of a body.  Every body has a text, and no text is longer than a `u64`
    counts. -/
def compactLen (F : Json.FloatText) (body : Json) : Nat := (Json.toVec F body).length

namespace CaptureBudget

/-- `CaptureBudget::new`. -/
def new (limits : CaptureLimits) : CaptureBudget := ⟨limits, .zero⟩

/-- `CaptureBudget::add`. -/
def add (b : CaptureBudget) (resource : CaptureResource) (amount : Nat) :
    Except CaptureError CaptureBudget :=
  match checkedAdd (b.usage.held resource) amount with
  | some value =>
      if value ≤ b.limits.cap resource then .ok { b with usage := b.usage.put value resource }
      else .error (.LimitExceeded resource (b.limits.cap resource))
  | none => .error (.LimitExceeded resource (b.limits.cap resource))

/-- `CaptureBudget::proven`. -/
def proven (b : CaptureBudget) (resource : CaptureResource) (total : Nat) :
    Except CaptureError Unit :=
  if total > b.limits.cap resource then
    .error (.LimitExceeded resource (b.limits.cap resource))
  else .ok ()

/-- Within the caps, which are below what overflows, a charge is taken. -/
theorem add_eq (b : CaptureBudget) (resource : CaptureResource) (amount : Nat) :
    b.add resource amount =
      if b.usage.held resource + amount ≤ b.limits.cap resource then
        .ok { b with usage := b.usage.put (b.usage.held resource + amount) resource }
      else .error (.LimitExceeded resource (b.limits.cap resource)) := by
  have hcap := b.limits.cap_lt resource
  unfold add checkedAdd
  by_cases hfits : b.usage.held resource + amount ≤ b.limits.cap resource
  · rw [if_pos (by omega)]
  · rw [if_neg hfits]
    split
    · rename_i value hvalue
      split_ifs at hvalue
      obtain rfl := Option.some.inj hvalue
      exact if_neg hfits
    · rfl

/-- `admit_event`. -/
def admitEvent (F : Json.FloatText) (b : CaptureBudget) (event : RecordedEvent) :
    Except CaptureError CaptureBudget := do
  let b ← b.add .Events 1
  b.add .PayloadBytes (compactLen F event.data)

/-- `admit_blob`. -/
def admitBlob (b : CaptureBudget) (bytes : Nat) : Except CaptureError CaptureBudget := do
  let b ← b.add .Blobs 1
  b.add .PayloadBytes bytes

/-- `admit_projection_row`. -/
def admitProjectionRow (F : Json.FloatText) (b : CaptureBudget) (body : Json) :
    Except CaptureError CaptureBudget := do
  let b ← b.add .ProjectionRows 1
  b.add .PayloadBytes (compactLen F body)

end CaptureBudget

/-! ## Charges -/

/-- What an event is charged. -/
def eventCharges (F : Json.FloatText) (event : RecordedEvent) : List (CaptureResource × Nat) :=
  [(.Events, 1), (.PayloadBytes, compactLen F event.data)]

/-- What a blob is charged. -/
def blobCharges (bytes : Nat) : List (CaptureResource × Nat) :=
  [(.Blobs, 1), (.PayloadBytes, bytes)]

/-- What a row is charged. -/
def rowCharges (F : Json.FloatText) (body : Json) : List (CaptureResource × Nat) :=
  [(.ProjectionRows, 1), (.PayloadBytes, compactLen F body)]

namespace TenantCapture

variable (F : Json.FloatText)

/-- All a capture is charged. -/
def charges (c : TenantCapture) : List (CaptureResource × Nat) :=
  c.events.flatMap (eventCharges F) ++ c.blobs.flatMap (fun blob => blobCharges blob.2.length) ++
    c.rows.flatMap fun row => rowCharges F row.2

/-- The accounting of a complete capture: its events, its blobs, then its rows. -/
def account (limits : CaptureLimits) (c : TenantCapture) : Except CaptureError CaptureUsage := do
  let b ← c.events.foldlM (CaptureBudget.admitEvent F) (.new limits)
  let b ← c.blobs.foldlM (fun b blob => b.admitBlob blob.2.length) b
  let b ← c.rows.foldlM (fun b row => b.admitProjectionRow F row.2) b
  return b.usage

/-- The capture's exact usage is within every cap. -/
def Within (limits : CaptureLimits) (c : TenantCapture) : Prop :=
  ∀ r, total (c.charges F) r ≤ limits.cap r

/-- A usage that says exactly what the capture holds. -/
def Exact (c : TenantCapture) (u : CaptureUsage) : Prop :=
  u.held = total (c.charges F)

end TenantCapture

namespace CaptureBudget

variable {F : Json.FloatText} {b : CaptureBudget} {cs : List (CaptureResource × Nat)}

/-- One charge after another. -/
def addAll (b : CaptureBudget) (cs : List (CaptureResource × Nat)) :
    Except CaptureError CaptureBudget :=
  cs.foldlM (fun b c => b.add c.1 c.2) b

theorem addAll_pair (b : CaptureBudget) (c d : CaptureResource × Nat) :
    b.addAll [c, d] = b.add c.1 c.2 >>= fun b => b.add d.1 d.2 := by
  simp [addAll]

theorem addAll_append (b : CaptureBudget) (cs ds : List (CaptureResource × Nat)) :
    b.addAll (cs ++ ds) = b.addAll cs >>= fun b => b.addAll ds := List.foldlM_append

/-- Charging a budget is metering what it holds, against its caps. -/
theorem addAll_eq (b : CaptureBudget) (cs : List (CaptureResource × Nat)) :
    (∀ held, meter b.limits.cap b.usage.held cs = .ok held →
      ∃ u : CaptureUsage, u.held = held ∧ b.addAll cs = .ok ⟨b.limits, u⟩) ∧
    ∀ r, meter b.limits.cap b.usage.held cs = .error r →
      b.addAll cs = .error (.LimitExceeded r (b.limits.cap r)) := by
  induction cs generalizing b with
  | nil => exact ⟨fun held h => ⟨b.usage, Except.ok.inj h, rfl⟩, fun r h => by cases h⟩
  | cons c cs ih =>
      rw [meter]
      change (∀ held, _ → ∃ u, _ ∧ (b.add c.1 c.2 >>= fun b => b.addAll cs) = _) ∧
        ∀ r, _ → (b.add c.1 c.2 >>= fun b => b.addAll cs) = _
      rw [add_eq]
      split_ifs with hfits
      · have hnext := ih { b with usage := b.usage.put (b.usage.held c.1 + c.2) c.1 }
        rw [CaptureUsage.held_put_add] at hnext
        exact hnext
      · refine ⟨fun held h => (by cases h), fun r h => ?_⟩
        obtain rfl := Except.error.inj h
        rfl

end CaptureBudget

namespace TenantCapture

variable {F : Json.FloatText} {limits : CaptureLimits} {c : TenantCapture} {u : CaptureUsage}

theorem account_eq_addAll (F : Json.FloatText) (limits : CaptureLimits) (c : TenantCapture) :
    c.account F limits =
      (CaptureBudget.new limits).addAll (c.charges F) >>= fun b => pure b.usage := by
  have hevents (b : CaptureBudget) : c.events.foldlM (CaptureBudget.admitEvent F) b =
      b.addAll (c.events.flatMap (eventCharges F)) :=
    Checks.foldlM_flatMap (fun b e =>
      (b.addAll_pair (.Events, 1) (.PayloadBytes, compactLen F e.data)).symm) c.events b
  have hblobs (b : CaptureBudget) : c.blobs.foldlM (fun b blob => b.admitBlob blob.2.length) b =
      b.addAll (c.blobs.flatMap fun blob => blobCharges blob.2.length) :=
    Checks.foldlM_flatMap (fun b blob =>
      (b.addAll_pair (.Blobs, 1) (.PayloadBytes, blob.2.length)).symm) c.blobs b
  have hrows (b : CaptureBudget) : c.rows.foldlM (fun b row => b.admitProjectionRow F row.2) b =
      b.addAll (c.rows.flatMap fun row => rowCharges F row.2) :=
    Checks.foldlM_flatMap (fun b row =>
      (b.addAll_pair (.ProjectionRows, 1) (.PayloadBytes, compactLen F row.2)).symm) c.rows b
  unfold account
  simp only [hevents, hblobs, hrows, charges, CaptureBudget.addAll_append, bind_assoc]

/-- **The accounting of a capture** succeeds exactly within the caps, with the exact usage. -/
theorem account_eq_ok_iff : c.account F limits = .ok u ↔ c.Within F limits ∧ c.Exact F u := by
  rw [account_eq_addAll]
  obtain ⟨hok, herror⟩ := (CaptureBudget.new limits).addAll_eq (c.charges F)
  have hheld : (CaptureBudget.new limits).usage.held = fun _ => 0 :=
    funext CaptureUsage.held_zero
  rw [hheld] at hok herror
  have hmeter (held : CaptureResource → Nat) :
      meter limits.cap (fun _ => 0) (c.charges F) = .ok held ↔
        c.Within F limits ∧ held = total (c.charges F) := by
    rw [meter_eq_ok_iff fun _ => Nat.zero_le _]
    simp only [Nat.zero_add]
    rfl
  constructor
  · intro h
    obtain ⟨b, hb, hu⟩ := Checks.bind_eq_ok_iff.mp h
    obtain rfl := Checks.pure_eq_ok_iff.mp hu
    cases hrun : meter limits.cap (fun _ => 0) (c.charges F) with
    | error r => rw [herror r hrun] at hb; contradiction
    | ok held =>
        obtain ⟨u', hu', hall⟩ := hok held hrun
        rw [hall] at hb
        obtain rfl := Except.ok.inj hb
        obtain ⟨hwithin, hexact⟩ := (hmeter held).mp hrun
        exact ⟨hwithin, hu'.trans hexact⟩
  · rintro ⟨hwithin, hexact⟩
    obtain ⟨u', hu', hall⟩ := hok _ ((hmeter _).mpr ⟨hwithin, rfl⟩)
    rw [hall, CaptureUsage.held_injective (hu'.trans hexact.symm)]
    rfl

end TenantCapture

end Eventlog
