import Eventlog.Core.Records
import Eventlog.Durable.Checks

/-!
# Eventlog.Core.Projection

Read models and admission: what a projector or a guard declares and what it may ask of the
transaction it runs in.

A callback is code of the host.  It is modelled as the tree of what it asks, one question
at a time with a continuation for every answer, so a result about every callback is an
induction over such trees.
-/

namespace Eventlog

open Durable

/-! ## Read models -/

/-- A read model's table and the fields it can be looked up by. -/
structure ProjectionSpec where
  name : String
  indexed : List String
  deriving DecidableEq

/-- The most fields one read model may be looked up by. -/
def MAX_INDEXED_FIELDS : Nat := 8

/-- A lower-case ASCII letter, a digit or an underscore. -/
def isIdentifierChar (c : Char) : Bool :=
  ('a' ≤ c && c ≤ 'z') || c.isDigit || c == '_'

/-- `validate_identifier`. -/
def validateIdentifier (what value : String) : Except EventLogError Unit :=
  if value.isEmpty || value.utf8ByteSize > 40 || !value.toList.all isIdentifierChar ||
      value.toList.head?.any Char.isDigit then
    .error (.Invalid
      (what ++ " is lowercase ASCII, digits and underscores, not starting with a digit"))
  else .ok ()

/-- `ProjectionSpec::validate`. -/
def ProjectionSpec.validate (s : ProjectionSpec) : Except EventLogError Unit := do
  validateIdentifier "projection name" s.name
  if s.indexed.length > MAX_INDEXED_FIELDS then
    throw (.Invalid "a projection may declare at most 8 indexed fields")
  s.indexed.forM (validateIdentifier "indexed field")

/-- `indexed_value`: what a declared field is for one row. -/
def indexedValue (F : Json.FloatText) (body : Json) (field : String) : Option String :=
  match body with
  | .obj fs =>
      match fs.lookup field with
      | some (.str value) => some value
      | some .null | none => none
      | some other => some (String.ofList (Json.print F other))
  | _ => none

/-! ## Admission -/

/-- Exact typed coordinates within one owner's store. -/
inductive AdmissionScope where
  | Tenant (tenant : TenantId) (key : String)
  | Deployment (key : String)
  deriving DecidableEq

/-- A text with its length before it, so that no two lists of texts share an encoding. -/
def lengthPrefixed (value : String) : String :=
  toString value.utf8ByteSize ++ ":" ++ value

/-- `AdmissionScope::coordinate`. -/
def AdmissionScope.coordinate : AdmissionScope → Except EventLogError String
  | .Tenant tenant key => do
      validateField "admission key" key
      return "t" ++ lengthPrefixed tenant.value ++ lengthPrefixed key
  | .Deployment key => do
      validateField "admission key" key
      return "d" ++ lengthPrefixed key

/-- `AdmissionScope::belongs_to`. -/
def AdmissionScope.belongsTo (tenant : TenantId) : AdmissionScope → Bool
  | .Tenant owner _ => owner == tenant
  | .Deployment _ => true

/-- Whose counter a scope names. -/
def AdmissionScope.tenant? : AdmissionScope → Option TenantId
  | .Tenant tenant _ => some tenant
  | .Deployment _ => none

/-- The first colon of a text splits it in one way only. -/
theorem split_at_colon {xs ys us vs : List Char} (hx : ':' ∉ xs) (hy : ':' ∉ ys)
    (h : xs ++ ':' :: us = ys ++ ':' :: vs) : xs = ys ∧ us = vs := by
  induction xs generalizing ys with
  | nil =>
      cases ys with
      | nil => simpa using h
      | cons y ys =>
          simp only [List.nil_append, List.cons_append, List.cons.injEq, List.mem_cons,
            not_or] at h hy
          exact absurd h.1 hy.1
  | cons x xs ih =>
      cases ys with
      | nil =>
          simp only [List.nil_append, List.cons_append, List.cons.injEq, List.mem_cons,
            not_or] at h hx
          exact absurd h.1.symm hx.1
      | cons y ys =>
          simp only [List.cons_append, List.cons.injEq, List.mem_cons, not_or] at h hx hy
          obtain ⟨hxs, hus⟩ := ih hx.2 hy.2 h.2
          exact ⟨by rw [h.1, hxs], hus⟩

/-- Of two texts that start the same longer one, the one that is no shorter is the other. -/
theorem eq_of_append_eq {a b x y : String} (h : a ++ x = b ++ y)
    (hsize : a.utf8ByteSize = b.utf8ByteSize) : a = b := by
  have hlonger {c d w : String} (hc : c = d ++ w) (hcd : c.utf8ByteSize = d.utf8ByteSize) :
      c = d := by
    rw [hc, String.utf8ByteSize_append] at hcd
    have hempty : w = "" := String.utf8ByteSize_eq_zero_iff.mp (by omega)
    rw [hc, hempty, String.append_empty]
  have hlist : a.toList ++ x.toList = b.toList ++ y.toList := by
    rw [← String.toList_append, h, String.toList_append]
  rcases List.append_eq_append_iff.mp hlist with ⟨w, hw, -⟩ | ⟨w, hw, -⟩
  · refine (hlonger (w := String.ofList w) ?_ hsize.symm).symm
    rw [← String.toList_inj, String.toList_append, hw, String.toList_ofList]
  · refine hlonger (w := String.ofList w) ?_ hsize
    rw [← String.toList_inj, String.toList_append, hw, String.toList_ofList]

/-- A length-prefixed text can be told from what follows it. -/
theorem eq_of_lengthPrefixed {a b x y : String}
    (h : lengthPrefixed a ++ x = lengthPrefixed b ++ y) : a = b := by
  have hdigits (n : Nat) : (toString n).toList = Nat.toDigits 10 n := by simp [toString, Nat.repr]
  have hcolon (n : Nat) : ':' ∉ Nat.toDigits 10 n := fun hmem => by
    have := Nat.isDigit_of_mem_toDigits (by decide) (by decide) hmem
    contradiction
  have hlist := congrArg String.toList h
  simp only [lengthPrefixed, String.toList_append, hdigits, List.append_assoc,
    show (":" : String).toList = [':'] from rfl, List.singleton_append] at hlist
  obtain ⟨hsize, hrest⟩ := split_at_colon (hcolon _) (hcolon _) hlist
  have hread := congrArg Json.readDigits hsize
  rw [Json.readDigits_toDigits, Json.readDigits_toDigits] at hread
  refine eq_of_append_eq (x := x) (y := y) ?_ (Option.some.inj hread)
  rw [← String.toList_inj, String.toList_append, String.toList_append]
  exact hrest

/-- **A coordinate tells whose counter it is.** -/
theorem AdmissionScope.tenant?_of_coordinate {s t : AdmissionScope} {c : String}
    (hs : s.coordinate = .ok c) (ht : t.coordinate = .ok c) : s.tenant? = t.tenant? := by
  have hhead {x y : String} : "t" ++ x ≠ "d" ++ y := fun h => by
    have := congrArg (fun text => text.toList.head?) h
    simp [String.toList_append] at this
  cases s <;> cases t <;>
    simp only [coordinate, Checks.bind_eq_ok_iff, Checks.pure_eq_ok_iff] at hs ht <;>
    obtain ⟨-, -, rfl⟩ := hs <;> obtain ⟨-, -, h⟩ := ht
  · rw [String.append_assoc, String.append_assoc] at h
    have hrest := eq_of_lengthPrefixed (String.append_right_inj _ |>.mp h)
    rw [tenant?, tenant?, TenantId.ext hrest]
  · rw [String.append_assoc] at h
    exact absurd h.symm hhead
  · rw [String.append_assoc] at h
    exact absurd h hhead
  · rfl

/-- One counter delta checked against a host-selected ceiling. -/
structure Reservation where
  scope : AdmissionScope
  delta : Int
  ceiling : Int
  deriving DecidableEq

/-- `i64::checked_add`. -/
def checkedAddInt (a b : Int) : Option Int :=
  if -2 ^ 63 ≤ a + b ∧ a + b < 2 ^ 63 then some (a + b) else none

/-- The checks of `ordered_reservations` on one reservation, and its coordinate. -/
def Reservation.located (tenant : TenantId) (r : Reservation) :
    Except EventLogError (String × Reservation) := do
  if !r.scope.belongsTo tenant || r.ceiling < 0 then
    throw (.Invalid "invalid or cross-tenant admission scope")
  return (← r.scope.coordinate, r)

/-- `ordered_reservations`. -/
def orderedReservations (tenant : TenantId) (rs : List Reservation) :
    Except EventLogError (List (String × Reservation)) := do
  if rs.isEmpty || rs.length > 64 then
    throw (.Invalid "admission requires 1..64 scopes")
  let located ← rs.mapM (Reservation.located tenant)
  if (located.map Prod.fst).Nodup then
    return located.insertionSort fun a b => a.1 ≤ b.1
  else
    throw (.Invalid "duplicate admission scope")

/-- Reservations are ordered under the coordinates of their own scopes. -/
theorem coordinate_of_ordered {tenant : TenantId} {rs : List Reservation}
    {ordered : List (String × Reservation)} (h : orderedReservations tenant rs = .ok ordered) :
    ∀ located ∈ ordered, located.2.scope.coordinate = .ok located.1 := by
  simp only [orderedReservations, bind, Except.bind, throw, throwThe, MonadExceptOf.throw, pure,
    Except.pure] at h
  split at h
  · contradiction
  · split at h
    · contradiction
    · rename_i found hfound
      split_ifs at h
      cases h
      intro located hlocated
      obtain ⟨r, -, hr⟩ := Checks.exists_of_mem_mapM hfound
        ((List.mem_insertionSort _).mp hlocated)
      simp only [Reservation.located, bind, Except.bind, throw, throwThe, MonadExceptOf.throw, pure,
        Except.pure] at hr
      split at hr
      · contradiction
      · split at hr
        · contradiction
        · rename_i c hc
          cases hr
          exact hc

/-! ## Callbacks -/

/-- What a guard or a projector does with the transaction it is given.

    An error answered to a question is an answer like any other: the callback may give up
    or carry on. -/
inductive Callback where
  | done (result : Except EventLogError Unit)
  | reserve (permit : Nat) (reservations : List Reservation)
      (next : Except EventLogError (List Int) → Callback)
  | getBlob (digest : String) (next : Except EventLogError (Option Bytes) → Callback)
  | upsert (spec : ProjectionSpec) (tenant : TenantId) (key : String) (body : Json)
      (next : Except EventLogError Unit → Callback)
  | delete (spec : ProjectionSpec) (tenant : TenantId) (key : String)
      (next : Except EventLogError Unit → Callback)
  | get (spec : ProjectionSpec) (tenant : TenantId) (key : String)
      (next : Except EventLogError (Option Json) → Callback)
  | getForUpdate (spec : ProjectionSpec) (tenant : TenantId) (key : String)
      (next : Except EventLogError (Option Json) → Callback)
  | find (spec : ProjectionSpec) (tenant : TenantId) (field value : String) (limit : Nat)
      (next : Except EventLogError (List Json) → Callback)

/-- `NoGuard`. -/
def noGuard : Callback := .done (.ok ())

/-- Every row the callback may write, whatever it is answered, satisfies `good`. -/
def Callback.Writes (good : Json → Prop) : Callback → Prop
  | .done _ => True
  | .reserve _ _ next => ∀ r, (next r).Writes good
  | .getBlob _ next => ∀ r, (next r).Writes good
  | .upsert _ _ _ body next => good body ∧ ∀ r, (next r).Writes good
  | .delete _ _ _ next => ∀ r, (next r).Writes good
  | .get _ _ _ next => ∀ r, (next r).Writes good
  | .getForUpdate _ _ _ next => ∀ r, (next r).Writes good
  | .find _ _ _ _ _ next => ∀ r, (next r).Writes good

/-- Turns facts into a read model. -/
structure Projector where
  name : String
  projections : List ProjectionSpec
  apply : RecordedEvent → Callback

/-- A projector writes good rows only, whatever event it is given. -/
def Projector.Writes (good : Json → Prop) (p : Projector) : Prop :=
  ∀ event, (p.apply event).Writes good

/-! ## Catching up -/

/-- How far a catch-up projection has read. -/
structure CatchUpProgress where
  applied : Nat
  position : Nat
  moreWaiting : Bool
  deriving DecidableEq

end Eventlog
