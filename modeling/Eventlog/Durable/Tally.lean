import Mathlib

/-!
# Durable.Tally

What the tasks of a system hold altogether.

A task moves on by being replaced in the list of all tasks, so the total of what they hold changes
by what this one gave up and took (`total_set`).
-/

namespace Tally

variable {T : Type} (f : T → Nat) {tasks : List T}

/-- The sum of what the tasks hold. -/
def total (tasks : List T) : Nat := (tasks.map f).sum

@[simp] theorem total_nil : total f [] = 0 := rfl

@[simp] theorem total_cons (t : T) (tasks : List T) : total f (t :: tasks) = f t + total f tasks :=
  rfl

@[simp] theorem total_append (a b : List T) : total f (a ++ b) = total f a + total f b := by
  simp [total]

/-- **Replacing a task** changes the total by the difference between the two. -/
theorem total_set {i : Nat} {old : T} (hi : tasks[i]? = some old) (new : T) :
    total f (tasks.set i new) + f old = total f tasks + f new := by
  induction tasks generalizing i with
  | nil => simp at hi
  | cons t tasks ih =>
      cases i with
      | zero =>
          obtain rfl : t = old := by simpa using hi
          simp only [List.set_cons_zero, total_cons]
          omega
      | succ i =>
          have := ih (i := i) (by simpa using hi)
          simp only [List.set_cons_succ, total_cons]
          omega

theorem le_total {t : T} (ht : t ∈ tasks) : f t ≤ total f tasks := by
  obtain ⟨a, b, rfl⟩ := List.append_of_mem ht
  simp only [total_append, total_cons]
  omega

theorem total_add (g : T → Nat) (tasks : List T) :
    total (fun t => f t + g t) tasks = total f tasks + total g tasks := by
  induction tasks with
  | nil => rfl
  | cons t tasks ih =>
      simp only [total_cons, ih]
      omega

/-- Counting is a total. -/
theorem total_toNat (p : T → Bool) (tasks : List T) :
    total (fun t => (p t).toNat) tasks = tasks.countP p := by
  induction tasks with
  | nil => rfl
  | cons t tasks ih => cases h : p t <;> simp [h, ih, Nat.add_comm]

variable {f} {g : T → Nat}

theorem total_le (h : ∀ t ∈ tasks, f t ≤ g t) : total f tasks ≤ total g tasks := by
  induction tasks with
  | nil => exact Nat.le_refl _
  | cons t tasks ih =>
      have hhead := h t List.mem_cons_self
      have htail := ih fun u hu => h u (List.mem_cons_of_mem _ hu)
      simp only [total_cons]
      omega

end Tally
