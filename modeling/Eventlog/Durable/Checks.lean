import Mathlib

/-!
# Eventlog.Durable.Checks

Inverting a sequence of checks that passed.

A function that may fail is a sequence of checks in `Except`.  Each lemma says what its success
means, part by part; loops are turned into statements about every element.
-/

namespace Durable.Checks

variable {x : Except ε α}

theorem bind_eq_ok_iff {f : α → Except ε β} {b : β} :
    (x >>= f) = .ok b ↔ ∃ a, x = .ok a ∧ f a = .ok b := by
  cases x with
  | error e => simp [bind, Except.bind]
  | ok a => simp [bind, Except.bind]

theorem ok_bind {a : α} {f : α → Except ε β} : (Except.ok a >>= f) = f a := rfl

theorem pure_eq_ok_iff {a b : α} : (pure a : Except ε α) = .ok b ↔ a = b := by
  simp [pure, Except.pure]

theorem map_eq_ok_iff {f : α → β} {b : β} : x.map f = .ok b ↔ ∃ a, x = .ok a ∧ f a = b := by
  cases x <;> simp [Except.map]

theorem isOk_iff : x.isOk = true ↔ ∃ a, x = .ok a := by
  cases x <;> simp [Except.isOk, Except.toBool]

theorem forM_eq_ok_iff {f : α → Except ε Unit} {xs : List α} :
    xs.forM f = .ok () ↔ ∀ x ∈ xs, f x = .ok () := by
  induction xs with
  | nil => exact iff_of_true rfl fun _ h => absurd h List.not_mem_nil
  | cons x xs ih =>
      change (f x >>= fun _ => xs.forM f) = .ok () ↔ _
      rw [bind_eq_ok_iff, List.forall_mem_cons]
      exact ⟨fun ⟨_, hx, hxs⟩ => ⟨hx, ih.mp hxs⟩, fun ⟨hx, hxs⟩ => ⟨(), hx, ih.mpr hxs⟩⟩

theorem mapM_eq_ok_iff {f : α → Except ε β} {xs : List α} {ys : List β} :
    xs.mapM f = .ok ys ↔ List.Forall₂ (fun x y => f x = .ok y) xs ys := by
  induction xs generalizing ys with
  | nil =>
      cases ys with
      | nil => simp [pure, Except.pure]
      | cons y ys => simp [pure, Except.pure]
  | cons x xs ih =>
      rw [List.mapM_cons]
      simp only [bind_eq_ok_iff, pure_eq_ok_iff, ih, List.forall₂_cons_left_iff]
      constructor
      · rintro ⟨y, hy, ys', hys, rfl⟩
        exact ⟨y, ys', hy, hys, rfl⟩
      · rintro ⟨y, ys', hy, hys, rfl⟩
        exact ⟨y, hy, ys', hys, rfl⟩

theorem mapM_ok {f : α → Except ε β} {xs : List α} (h : ∀ x ∈ xs, ∃ y, f x = .ok y) :
    ∃ ys, xs.mapM f = .ok ys := by
  induction xs with
  | nil => exact ⟨[], rfl⟩
  | cons x xs ih =>
      obtain ⟨y, hy⟩ := h x List.mem_cons_self
      obtain ⟨ys, hys⟩ := ih fun z hz => h z (List.mem_cons_of_mem _ hz)
      exact ⟨y :: ys, mapM_eq_ok_iff.mpr (.cons hy (mapM_eq_ok_iff.mp hys))⟩

theorem forall₂_mem_left {R : α → β → Prop} {xs : List α} {ys : List β} (h : List.Forall₂ R xs ys)
    {x : α} (hx : x ∈ xs) : ∃ y ∈ ys, R x y := by
  induction h with
  | nil => simp at hx
  | cons hxy _ ih =>
      rcases List.mem_cons.mp hx with rfl | hx
      · exact ⟨_, List.mem_cons_self, hxy⟩
      · obtain ⟨y, hy, hR⟩ := ih hx
        exact ⟨y, List.mem_cons_of_mem _ hy, hR⟩

theorem forall₂_mem_right {R : α → β → Prop} {xs : List α} {ys : List β}
    (h : List.Forall₂ R xs ys) {y : β} (hy : y ∈ ys) : ∃ x ∈ xs, R x y :=
  forall₂_mem_left h.flip hy

theorem exists_of_mem_mapM {f : α → Except ε β} {xs : List α} {ys : List β} {y : β}
    (h : xs.mapM f = .ok ys) (hy : y ∈ ys) : ∃ x ∈ xs, f x = .ok y :=
  forall₂_mem_right (mapM_eq_ok_iff.mp h) hy

theorem exists_mem_mapM {f : α → Except ε β} {xs : List α} {ys : List β} {x : α}
    (h : xs.mapM f = .ok ys) (hx : x ∈ xs) : ∃ y ∈ ys, f x = .ok y :=
  forall₂_mem_left (mapM_eq_ok_iff.mp h) hx

theorem exists_of_mapM_eq_error {f : α → Except ε β} {xs : List α} {e : ε}
    (h : xs.mapM f = .error e) : ∃ x ∈ xs, f x = .error e := by
  induction xs with
  | nil => exact nomatch h
  | cons x xs ih =>
      rw [List.mapM_cons] at h
      rcases hx : f x with e' | y
      · rw [hx] at h
        exact ⟨x, List.mem_cons_self, by rw [hx, ← Except.error.inj h]⟩
      · rcases hxs : xs.mapM f with e' | ys
        · rw [hx, hxs] at h
          obtain ⟨z, hz, hfz⟩ := ih (by rw [hxs, ← Except.error.inj h])
          exact ⟨z, List.mem_cons_of_mem _ hz, hfz⟩
        · rw [hx, hxs] at h
          exact nomatch h

/-- What each round of a loop that succeeded keeps, the loop keeps. -/
theorem foldlM_induct {f : β → α → Except ε β} {xs : List α} {I : β → Prop} {b b' : β}
    (h : xs.foldlM f b = .ok b') (hb : I b)
    (hf : ∀ b b', I b → ∀ x ∈ xs, f b x = .ok b' → I b') : I b' := by
  induction xs generalizing b with
  | nil => exact Except.ok.inj h ▸ hb
  | cons x xs ih =>
      rw [List.foldlM_cons, bind_eq_ok_iff] at h
      obtain ⟨c, hstep, hrest⟩ := h
      exact ih hrest (hf b c hb x List.mem_cons_self hstep)
        fun c c' hc y hy => hf c c' hc y (List.mem_cons_of_mem _ hy)

/-- A loop whose steps are loops over parts is one loop over all parts. -/
theorem foldlM_flatMap {step : β → α → Except ε β} {part : β → γ → Except ε β} {f : α → List γ}
    (hstep : ∀ b x, step b x = (f x).foldlM part b) (xs : List α) (b : β) :
    xs.foldlM step b = (xs.flatMap f).foldlM part b := by
  induction xs generalizing b with
  | nil => rfl
  | cons x xs ih =>
      rw [List.foldlM_cons, List.flatMap_cons, List.foldlM_append, hstep]
      exact congrArg _ (funext fun b => ih b)

end Durable.Checks
