import Mathlib

/-!
# Eventlog.Durable.Bookkeeping

Books of account: amounts are booked under keys, and keys are struck.

`posted` is what a list of amounts comes to under a key, `balance` what a history of entries comes
to: under each key, the sum of what was booked there since the key was last struck.
-/

namespace Durable

variable {κ : Type} [DecidableEq κ]

/-- What amounts come to under a key. -/
def posted (amounts : List (κ × Int)) (k : κ) : Int :=
  ((amounts.filter fun a => a.1 = k).map Prod.snd).sum

@[simp] theorem posted_nil (k : κ) : posted [] k = 0 := rfl

@[simp] theorem posted_append (as bs : List (κ × Int)) (k : κ) :
    posted (as ++ bs) k = posted as k + posted bs k := by
  simp [posted]

@[simp] theorem posted_cons (a : κ × Int) (as : List (κ × Int)) (k : κ) :
    posted (a :: as) k = (if a.1 = k then a.2 else 0) + posted as k := by
  unfold posted
  by_cases h : a.1 = k <;> simp [h]

theorem posted_of_not_mem {as : List (κ × Int)} {k : κ} (h : k ∉ as.map Prod.fst) :
    posted as k = 0 := by
  have hnone : as.filter (fun a => a.1 = k) = [] := by
    refine List.filter_eq_nil_iff.mpr fun a ha hk => h ?_
    rw [← of_decide_eq_true hk]
    exact List.mem_map_of_mem ha
  rw [posted, hnone]
  rfl

/-- Under keys that are all different, each amount is all there is. -/
theorem posted_of_mem {as : List (κ × Int)} {a : κ × Int} (hnodup : (as.map Prod.fst).Nodup)
    (h : a ∈ as) : posted as a.1 = a.2 := by
  induction as with
  | nil => contradiction
  | cons b as ih =>
      obtain ⟨hb, hrest⟩ := List.nodup_cons.mp hnodup
      rw [posted_cons]
      rcases List.mem_cons.mp h with rfl | hmem
      · rw [if_pos rfl, posted_of_not_mem hb, add_zero]
      · have hne : b.1 ≠ a.1 := fun heq => hb (heq ▸ List.mem_map_of_mem hmem)
        rw [if_neg hne, ih hrest hmem, zero_add]

theorem posted_perm {as bs : List (κ × Int)} (h : as.Perm bs) (k : κ) :
    posted as k = posted bs k :=
  ((h.filter _).map _).sum_eq

/-- An entry of a history of books: amounts that are booked, or keys that are struck. -/
inductive Entry (κ : Type) where
  | booked (amounts : List (κ × Int))
  | struck (keys : κ → Bool)

/-- The books after an entry. -/
def Entry.enter (books : κ → Int) : Entry κ → κ → Int
  | .booked amounts, k => books k + posted amounts k
  | .struck keys, k => if keys k then 0 else books k

/-- What a history comes to under each key. -/
def balance (entries : List (Entry κ)) : κ → Int :=
  entries.foldl Entry.enter fun _ => 0

end Durable
