import Mathlib

/-!
# Eventlog.Durable.Memo

A bounded memory of content kept under keys.

What does not fit in the budget is not kept; what does not fit beside the rest clears the rest.
The memory can be emptied at any time, and counts how often it was.  Content that was looked up
before and is settled later is kept only if the memory was not emptied in between (`mem_settle`).
-/

namespace Durable

/-- Content under keys, its total size, and how often the memory was emptied. -/
structure Memo (κ α : Type) where
  entries : List (κ × α)
  held : Nat
  generation : Nat
  deriving DecidableEq

namespace Memo

variable {κ α : Type} [DecidableEq κ]

def empty : Memo κ α := ⟨[], 0, 0⟩

def find (m : Memo κ α) (k : κ) : Option α := m.entries.lookup k

def cleared (m : Memo κ α) : Memo κ α := { m with entries := [], held := 0 }

/-- Keeps content that fits in the budget under a key that has none. -/
def insert (size : α → Nat) (budget : Nat) (m : Memo κ α) (k : κ) (a : α) : Memo κ α :=
  if budget < size a ∨ (m.find k).isSome then m
  else
    let m := if budget < m.held + size a then m.cleared else m
    { m with held := m.held + size a, entries := (k, a) :: m.entries }

/-- Keeps content looked up at `generation`, unless the memory was emptied since. -/
def settle (size : α → Nat) (budget : Nat) (m : Memo κ α) (generation : Nat) (k : κ) (a : α) :
    Memo κ α :=
  if m.generation = generation then m.insert size budget k a else m

def forget (m : Memo κ α) : Memo κ α := { m.cleared with generation := m.generation + 1 }

theorem mem_of_find {m : Memo κ α} {k : κ} {a : α} (h : m.find k = some a) :
    (k, a) ∈ m.entries := by
  rw [find, List.lookup_eq_some_iff] at h
  obtain ⟨before, after, hentries, -⟩ := h
  simp [hentries]

variable {size : α → Nat} {budget : Nat} {m : Memo κ α}

theorem mem_insert {k : κ} {a : α} {e : κ × α} (h : e ∈ (m.insert size budget k a).entries) :
    e ∈ m.entries ∨ e = (k, a) := by
  unfold insert at h
  split_ifs at h
  · exact .inl h
  · exact .inr (List.mem_singleton.mp h)
  · exact (List.mem_cons.mp h).symm

@[simp] theorem generation_insert (k : κ) (a : α) :
    (m.insert size budget k a).generation = m.generation := by
  unfold insert
  split_ifs <;> rfl

/-- **What settling adds** was looked up in the generation it is settled in. -/
theorem mem_settle {g : Nat} {k : κ} {a : α} {e : κ × α}
    (h : e ∈ (m.settle size budget g k a).entries) :
    e ∈ m.entries ∨ m.generation = g ∧ e = (k, a) := by
  unfold settle at h
  split_ifs at h with hg
  · exact (mem_insert h).imp_right fun he => ⟨hg, he⟩
  · exact .inl h

@[simp] theorem generation_settle (g : Nat) (k : κ) (a : α) :
    (m.settle size budget g k a).generation = m.generation := by
  unfold settle
  split_ifs <;> simp

/-- The total is that of the entries, and within the budget. -/
structure Fits (size : α → Nat) (budget : Nat) (m : Memo κ α) : Prop where
  held : m.held = (m.entries.map fun e => size e.2).sum
  within : m.held ≤ budget

omit [DecidableEq κ] in
theorem fits_empty : Fits size budget (empty : Memo κ α) := ⟨rfl, Nat.zero_le _⟩

theorem Fits.insert (h : Fits size budget m) (k : κ) (a : α) :
    Fits size budget (m.insert size budget k a) := by
  unfold Memo.insert
  split_ifs with hskip hroom
  · exact h
  · refine ⟨by simp [cleared], ?_⟩
    simp only [cleared]
    omega
  · refine ⟨by simp [h.held, Nat.add_comm], ?_⟩
    show m.held + size a ≤ budget
    omega

theorem Fits.settle (h : Fits size budget m) (g : Nat) (k : κ) (a : α) :
    Fits size budget (m.settle size budget g k a) := by
  unfold Memo.settle
  split_ifs
  · exact h.insert k a
  · exact h

omit [DecidableEq κ] in
theorem Fits.forget : Fits size budget m.forget := ⟨rfl, Nat.zero_le _⟩

end Memo

end Durable
