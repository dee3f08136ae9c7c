import Eventlog.Json.Bytes

/-!
# Eventlog.Json.Sorted

Documents with the members of every object in the order of their names.

Two documents that are the same map, member by member, have the same `sorted` document, and a
document whose members are in order already is its own.  Sorting changes neither the depth of a
document nor its numbers.
-/

namespace Json

/-- Members in the order of their names. -/
def sortMembers (fs : List (String × α)) : List (String × α) :=
  fs.insertionSort fun a b => a.1 ≤ b.1

theorem sortMembers_perm (fs : List (String × α)) : (sortMembers fs).Perm fs :=
  List.perm_insertionSort _ fs

theorem map_sortMembers (f : α → β) (fs : List (String × α)) :
    (sortMembers fs).map (Prod.map id f) = sortMembers (fs.map (Prod.map id f)) :=
  List.map_insertionSort _ _ _ fs fun _ _ _ _ => Iff.rfl

mutual

/-- A document with the members of its objects sorted. -/
def sorted : Json → Json
  | .arr xs => .arr (sortedItems xs)
  | .obj fs => .obj (sortMembers (sortedFields fs))
  | j => j

/-- `sorted` for each element of an array. -/
def sortedItems : List Json → List Json
  | [] => []
  | x :: xs => sorted x :: sortedItems xs

/-- `sorted` for each member of an object. -/
def sortedFields : List (String × Json) → List (String × Json)
  | [] => []
  | (k, x) :: fs => (k, sorted x) :: sortedFields fs

end

mutual

/-- The members of every object are in order. -/
def Ordered : Json → Prop
  | .arr xs => OrderedItems xs
  | .obj fs => fs.Pairwise (fun a b => a.1 ≤ b.1) ∧ OrderedFields fs
  | _ => True

/-- `Ordered` for each element of an array. -/
def OrderedItems : List Json → Prop
  | [] => True
  | x :: xs => Ordered x ∧ OrderedItems xs

/-- `Ordered` for each member of an object. -/
def OrderedFields : List (String × Json) → Prop
  | [] => True
  | (_, x) :: fs => Ordered x ∧ OrderedFields fs

end

/-! ## Members in any order -/

theorem orderedFields_iff {fs : List (String × Json)} :
    OrderedFields fs ↔ ∀ f ∈ fs, Ordered f.2 := by
  induction fs with
  | nil => simp [OrderedFields]
  | cons f fs ih => simp [OrderedFields, ih]

theorem floatFreeFields_iff {fs : List (String × Json)} :
    FloatFreeFields fs ↔ ∀ f ∈ fs, FloatFree f.2 := by
  induction fs with
  | nil => simp [FloatFreeFields]
  | cons f fs ih => simp [FloatFreeFields, ih]

theorem depthFields_perm {fs gs : List (String × Json)} (h : fs.Perm gs) :
    depthFields fs = depthFields gs := by
  induction h with
  | nil => rfl
  | cons f _ ih => rw [depthFields, depthFields, ih]
  | swap f g fs => simp only [depthFields, max_left_comm]
  | trans _ _ ih ih' => exact ih.trans ih'

/-! ## Sorting -/

mutual

theorem ordered_sorted (j : Json) : j.sorted.Ordered := by
  match j with
  | .null | .bool _ | .num _ | .str _ => simp [sorted, Ordered]
  | .arr xs =>
      rw [sorted, Ordered]
      exact orderedItems_sorted xs
  | .obj fs =>
      rw [sorted, Ordered, orderedFields_iff]
      refine ⟨List.pairwise_insertionSort _ _, fun f hf => ?_⟩
      exact orderedFields_iff.mp (orderedFields_sorted fs) f ((sortMembers_perm _).mem_iff.mp hf)

theorem orderedItems_sorted (xs : List Json) : OrderedItems (sortedItems xs) := by
  match xs with
  | [] => simp [sortedItems, OrderedItems]
  | x :: xs => exact ⟨ordered_sorted x, orderedItems_sorted xs⟩

theorem orderedFields_sorted (fs : List (String × Json)) : OrderedFields (sortedFields fs) := by
  match fs with
  | [] => simp [sortedFields, OrderedFields]
  | (k, x) :: fs => exact ⟨ordered_sorted x, orderedFields_sorted fs⟩

end

mutual

theorem sorted_of_ordered {j : Json} (h : j.Ordered) : j.sorted = j := by
  match j with
  | .null | .bool _ | .num _ | .str _ => rfl
  | .arr xs => rw [sorted, sortedItems_of_ordered (by rwa [Ordered] at h)]
  | .obj fs =>
      rw [Ordered] at h
      rw [sorted, sortedFields_of_ordered h.2, sortMembers, h.1.insertionSort_eq]

theorem sortedItems_of_ordered {xs : List Json} (h : OrderedItems xs) : sortedItems xs = xs := by
  match xs with
  | [] => rfl
  | x :: xs => rw [sortedItems, sorted_of_ordered h.1, sortedItems_of_ordered h.2]

theorem sortedFields_of_ordered {fs : List (String × Json)} (h : OrderedFields fs) :
    sortedFields fs = fs := by
  match fs with
  | [] => rfl
  | (k, x) :: fs => rw [sortedFields, sorted_of_ordered h.1, sortedFields_of_ordered h.2]

end

mutual

theorem depth_sorted (j : Json) : j.sorted.depth = j.depth := by
  match j with
  | .null | .bool _ | .num _ | .str _ => rfl
  | .arr xs => rw [sorted, depth, depth, depthItems_sorted xs]
  | .obj fs =>
      rw [sorted, depth, depth, depthFields_perm (sortMembers_perm _), depthFields_sorted fs]

theorem depthItems_sorted (xs : List Json) : depthItems (sortedItems xs) = depthItems xs := by
  match xs with
  | [] => rfl
  | x :: xs => rw [sortedItems, depthItems, depthItems, depth_sorted x, depthItems_sorted xs]

theorem depthFields_sorted (fs : List (String × Json)) :
    depthFields (sortedFields fs) = depthFields fs := by
  match fs with
  | [] => rfl
  | (k, x) :: fs =>
      rw [sortedFields, depthFields, depthFields, depth_sorted x, depthFields_sorted fs]

end

mutual

theorem FloatFree.sorted {j : Json} (h : j.FloatFree) : j.sorted.FloatFree := by
  match j with
  | .null | .bool _ | .num _ | .str _ => exact h
  | .arr xs =>
      rw [Json.sorted, FloatFree]
      exact FloatFreeItems.sorted (by rwa [FloatFree] at h)
  | .obj fs =>
      rw [Json.sorted, FloatFree, floatFreeFields_iff]
      have hfields := FloatFreeFields.sorted (by rwa [FloatFree] at h)
      exact fun f hf => floatFreeFields_iff.mp hfields f ((sortMembers_perm _).mem_iff.mp hf)

theorem FloatFreeItems.sorted {xs : List Json} (h : FloatFreeItems xs) :
    FloatFreeItems (sortedItems xs) := by
  match xs with
  | [] => exact h
  | x :: xs => exact ⟨FloatFree.sorted h.1, FloatFreeItems.sorted h.2⟩

theorem FloatFreeFields.sorted {fs : List (String × Json)} (h : FloatFreeFields fs) :
    FloatFreeFields (sortedFields fs) := by
  match fs with
  | [] => exact h
  | (k, x) :: fs => exact ⟨FloatFree.sorted h.1, FloatFreeFields.sorted h.2⟩

end

end Json
