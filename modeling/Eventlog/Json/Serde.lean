import Eventlog.Json.Bytes

/-!
# Eventlog.Json.Serde

Typed values as JSON documents, in the manner of derived serialisers.

`Serde` gives the two directions, `LawfulSerde` says that the second undoes the first.
An optional value writes an absent one as `null`, so it is lawful only over types that
never write `null` themselves (`NeverNull`): `some null` comes back as `none`.
-/

/-- A type with a JSON form. -/
class Serde (α : Type) where
  toValue : α → Json
  fromValue : Json → Option α

export Serde (toValue fromValue)

/-- Reading the JSON form gives the value back. -/
class LawfulSerde (α : Type) [Serde α] : Prop where
  fromValue_toValue : ∀ a : α, fromValue (toValue a) = some a

theorem toValue_injective [Serde α] [LawfulSerde α] : Function.Injective (toValue : α → Json) := by
  intro a b h
  have hread := congrArg (fromValue : Json → Option α) h
  simpa only [LawfulSerde.fromValue_toValue, Option.some.injEq] using hread

/-- No value of the type is written as `null`. -/
class NeverNull (α : Type) [Serde α] : Prop where
  toValue_ne_null : ∀ a : α, toValue a ≠ Json.null

attribute [simp] LawfulSerde.fromValue_toValue NeverNull.toValue_ne_null

/-! ## Basic types -/

instance : Serde Json where
  toValue j := j
  fromValue j := some j

instance : LawfulSerde Json := ⟨fun _ => rfl⟩

instance : Serde String where
  toValue s := .str s
  fromValue
    | .str s => some s
    | _ => none

instance : LawfulSerde String := ⟨fun _ => rfl⟩
instance : NeverNull String := ⟨fun _ => by simp [toValue]⟩

instance : Serde Bool where
  toValue b := .bool b
  fromValue
    | .bool b => some b
    | _ => none

instance : LawfulSerde Bool := ⟨fun _ => rfl⟩

instance : Serde Int where
  toValue i := .num (.int i)
  fromValue
    | .num (.int i) => some i
    | _ => none

instance : LawfulSerde Int := ⟨fun _ => rfl⟩

/-- Unsigned machine integers: a negative number is not one. -/
instance : Serde Nat where
  toValue n := .num (.int n)
  fromValue
    | .num (.int (.ofNat n)) => some n
    | _ => none

instance : LawfulSerde Nat := ⟨fun _ => rfl⟩

instance [Serde α] : Serde (List α) where
  toValue xs := .arr (xs.map toValue)
  fromValue
    | .arr xs => xs.mapM fromValue
    | _ => none

/-- A list is read element by element, so it comes back when each element does. -/
theorem fromValue_toValue_list [Serde α] {xs : List α}
    (h : ∀ x ∈ xs, fromValue (toValue x) = some x) : fromValue (toValue xs) = some xs := by
  change (xs.map toValue).mapM fromValue = some xs
  induction xs with
  | nil => rfl
  | cons x xs ih =>
      have hx := h x (by simp)
      have hxs := ih fun y hy => h y (by simp [hy])
      simp [hx, hxs]

instance [Serde α] [LawfulSerde α] : LawfulSerde (List α) :=
  ⟨fun _ => fromValue_toValue_list fun x _ => LawfulSerde.fromValue_toValue x⟩

instance [Serde α] : Serde (Option α) where
  toValue
    | none => .null
    | some a => toValue a
  fromValue
    | .null => some none
    | j => (fromValue j).map some

theorem fromValue_option_of_ne_null [Serde α] {j : Json} (h : j ≠ .null) :
    (fromValue j : Option (Option α)) = (fromValue j).map some := by
  cases j <;> first | rfl | exact absurd rfl h

instance [Serde α] [LawfulSerde α] [NeverNull α] : LawfulSerde (Option α) := ⟨by
  intro o
  cases o with
  | none => rfl
  | some a =>
      change (fromValue (toValue a) : Option (Option α)) = _
      rw [fromValue_option_of_ne_null (NeverNull.toValue_ne_null a)]
      simp⟩

/-! ## Records -/

namespace Json

/-- The members of an object, if its names are all among `names` and none is repeated. -/
def members (names : List String) : Json → Option (List (String × Json))
  | .obj fs =>
      if (∀ f ∈ fs, f.1 ∈ names) ∧ (fs.map Prod.fst).Nodup then some fs else none
  | _ => none

/-- The members of an object that may carry others than those read, none repeated. -/
def openMembers : Json → Option (List (String × Json))
  | .obj fs => if (fs.map Prod.fst).Nodup then some fs else none
  | _ => none

/-- A required member. -/
def member [Serde α] (name : String) (fs : List (String × Json)) : Option α :=
  (fs.lookup name).bind fromValue

/-- A member whose absence stands for `default`. -/
def memberOr [Serde α] (name : String) (default : α) (fs : List (String × Json)) : Option α :=
  match fs.lookup name with
  | some j => fromValue j
  | none => some default

section Reading

variable {name : String} {names : List String} {fs : List (String × Json)} [Serde α]
  [LawfulSerde α] {a : α}

theorem bind_members (hnames : ∀ f ∈ fs, f.1 ∈ names) (hnodup : (fs.map Prod.fst).Nodup)
    (k : List (String × Json) → Option β) : (members names (.obj fs) >>= k) = k fs := by
  rw [members, if_pos ⟨hnames, hnodup⟩]
  rfl

theorem bind_openMembers (h : (fs.map Prod.fst).Nodup) (k : List (String × Json) → Option β) :
    (openMembers (.obj fs) >>= k) = k fs := by
  rw [openMembers, if_pos h]
  rfl

theorem bind_member (h : fs.lookup name = some (toValue a)) (k : α → Option β) :
    (member name fs >>= k) = k a := by
  rw [member, h, Option.bind_some, LawfulSerde.fromValue_toValue]
  rfl

theorem bind_memberOr {d : α} (h : fs.lookup name = some (toValue a)) (k : α → Option β) :
    (memberOr name d fs >>= k) = k a := by
  rw [memberOr, h]
  dsimp only
  rw [LawfulSerde.fromValue_toValue]
  rfl

end Reading

end Json

/-! ## Bytes of typed values -/

/-- The bytes a value is stored as. -/
def toBytes [Serde α] (F : Json.FloatText) (a : α) : Bytes :=
  Json.toVec F (toValue a)

/-- The value that stored bytes hold. -/
def fromBytes [Serde α] (F : Json.FloatText) (bytes : Bytes) : Option α :=
  (Json.fromSlice F bytes).bind fromValue

theorem fromBytes_toBytes_of_stable [Serde α] [LawfulSerde α] {F : Json.FloatText} {a : α}
    (h : Json.Stable F (toValue a)) (hdepth : (toValue a).depth ≤ Json.maxDepth) :
    fromBytes F (toBytes F a) = some a := by
  rw [fromBytes, toBytes, Json.fromSlice_toVec, (Json.reread_eq_some_iff F _).mpr ⟨h, hdepth⟩]
  simp

/-- The JSON form of the type holds no binary64 value. -/
class Floatless (α : Type) [Serde α] : Prop where
  stable_toValue : ∀ (F : Json.FloatText) (a : α), Json.Stable F (toValue a)

instance : Floatless String := ⟨fun _ _ => by simp [toValue, Json.Stable]⟩

theorem Json.stableItems_iff (F : Json.FloatText) (xs : List Json) :
    Json.StableItems F xs ↔ ∀ x ∈ xs, Json.Stable F x := by
  induction xs with
  | nil => simp [Json.StableItems]
  | cons x xs ih => simp [Json.StableItems, ih]

instance [Serde α] [Floatless α] : Floatless (List α) := ⟨fun F xs => by
  simp only [toValue, Json.Stable, Json.stableItems_iff, List.mem_map]
  rintro _ ⟨x, -, rfl⟩
  exact Floatless.stable_toValue F x⟩

/-- The JSON form of the type is always read back: it holds no binary64 value, and it is never
    nested deep. -/
class Readable (α : Type) [Serde α] : Prop extends Floatless α where
  depth_toValue : ∀ a : α, (toValue a).depth ≤ Json.maxDepth

theorem fromBytes_toBytes [Serde α] [LawfulSerde α] [Readable α] (F : Json.FloatText) (a : α) :
    fromBytes F (toBytes F a) = some a :=
  fromBytes_toBytes_of_stable (Floatless.stable_toValue F a) (Readable.depth_toValue a)
