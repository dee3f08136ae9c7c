import Mathlib

/-!
# Eventlog.Durable.Metering

Amounts charged to resources, each against a limit of its own.

A meter takes one charge after another and stops at the first that takes a resource over its
limit.  Amounts are never negative, so what is held only grows: `meter_eq_ok_iff` says that a
meter takes all charges exactly if their totals fit, and `lt_of_meter_eq_error` that the resource
it stops at is one whose total does not.
-/

namespace Durable

variable {ρ : Type} [DecidableEq ρ]

/-- What charges come to for a resource. -/
def total (charges : List (ρ × Nat)) (r : ρ) : Nat :=
  ((charges.filter fun c => c.1 = r).map Prod.snd).sum

@[simp] theorem total_nil (r : ρ) : total [] r = 0 := rfl

@[simp] theorem total_cons (c : ρ × Nat) (cs : List (ρ × Nat)) (r : ρ) :
    total (c :: cs) r = (if c.1 = r then c.2 else 0) + total cs r := by
  unfold total
  by_cases h : c.1 = r <;> simp [h]

@[simp] theorem total_append (cs ds : List (ρ × Nat)) (r : ρ) :
    total (cs ++ ds) r = total cs r + total ds r := by
  simp [total]

theorem total_perm {cs ds : List (ρ × Nat)} (h : cs.Perm ds) (r : ρ) : total cs r = total ds r :=
  ((h.filter _).map _).sum_eq

/-- What is held of each resource after a charge. -/
def charged (held : ρ → Nat) (c : ρ × Nat) : ρ → Nat :=
  Function.update held c.1 (held c.1 + c.2)

/-- Takes charges one after another; the resource that one of them takes over its limit stops
    it. -/
def meter (limit : ρ → Nat) : (ρ → Nat) → List (ρ × Nat) → Except ρ (ρ → Nat)
  | held, [] => .ok held
  | held, c :: cs =>
      if held c.1 + c.2 ≤ limit c.1 then meter limit (charged held c) cs else .error c.1

variable {limit held held' : ρ → Nat} {cs : List (ρ × Nat)} {r : ρ}

theorem charged_add_total (held : ρ → Nat) (c : ρ × Nat) (cs : List (ρ × Nat)) (r : ρ) :
    charged held c r + total cs r = held r + total (c :: cs) r := by
  rw [total_cons, charged]
  by_cases h : c.1 = r
  · subst h
    rw [Function.update_self, if_pos rfl, Nat.add_assoc]
  · rw [Function.update_of_ne (Ne.symm h), if_neg h, Nat.zero_add]

theorem held_of_meter_eq_ok (h : meter limit held cs = .ok held') :
    held' = fun r => held r + total cs r := by
  induction cs generalizing held with
  | nil =>
      obtain rfl := Except.ok.inj h
      rfl
  | cons c cs ih =>
      rw [meter] at h
      split_ifs at h
      rw [ih h]
      exact funext fun r => charged_add_total held c cs r

/-- **The resource a meter stops at** is one whose total is over its limit. -/
theorem lt_of_meter_eq_error (h : meter limit held cs = .error r) :
    limit r < held r + total cs r := by
  induction cs generalizing held with
  | nil => contradiction
  | cons c cs ih =>
      rw [meter] at h
      split_ifs at h with hfits
      · rw [← charged_add_total]
        exact ih h
      · obtain rfl := Except.error.inj h
        rw [total_cons, if_pos rfl]
        omega

/-- **A meter takes all charges** exactly if their totals fit. -/
theorem meter_eq_ok_iff (hheld : ∀ r, held r ≤ limit r) :
    meter limit held cs = .ok held' ↔
      (∀ r, held r + total cs r ≤ limit r) ∧ held' = fun r => held r + total cs r := by
  refine ⟨fun h => ⟨fun r => ?_, held_of_meter_eq_ok h⟩, fun ⟨hfits, heq⟩ => ?_⟩
  · induction cs generalizing held with
    | nil => exact hheld r
    | cons c cs ih =>
        rw [meter] at h
        split_ifs at h with hc
        rw [← charged_add_total]
        refine ih (fun r => ?_) h
        by_cases hr : r = c.1
        · subst hr
          rw [charged, Function.update_self]
          exact hc
        · rw [charged, Function.update_of_ne hr]
          exact hheld r
  · cases hrun : meter limit held cs with
    | error r => exact absurd (lt_of_meter_eq_error hrun) (Nat.not_lt.mpr (hfits r))
    | ok held₁ => rw [heq, held_of_meter_eq_ok hrun]

end Durable
