import Mathlib

/-!
# Eventlog.Durable.Program

Programs over durable state that may be interrupted.

A `Program` runs a sequence of operations on a state and remembers the state after each
completed one.  The states it passes are exactly those an interruption can leave behind:
an operation either completed, and persists, or did not happen.

* `Program.Meets` — a triple with a crash condition: every state the program passes
  satisfies the one, its end satisfies the other.
* `Restarts` — any number of interrupted runs of a recovery program, one after another.
* `Program.meets_of_restarts` — a recovery program whose crash condition is also its
  precondition ends well after any number of interruptions.
-/

namespace Durable

/-- What a run leaves: the states after each completed operation (oldest first), and the
    result. -/
structure Outcome (σ ε α : Type) where
  passed : List σ
  result : Except ε α

/-- A program over the durable state `σ` that may fail with `ε`.  A failed program keeps
    the state it reached. -/
def Program (σ ε α : Type) : Type := σ → Outcome σ ε α

namespace Program

/-! ## Building programs -/

/-- The program that does nothing and returns `a`. -/
def done (a : α) : Program σ ε α := fun _ => ⟨[], .ok a⟩

/-- The program that fails. -/
def fail (e : ε) : Program σ ε α := fun _ => ⟨[], .error e⟩

/-- Reads the state, and decides from it. -/
def ask (f : σ → Except ε α) : Program σ ε α := fun s => ⟨[], f s⟩

/-- One operation: it changes the state as a whole, or fails and leaves it alone. -/
def perform (f : σ → Except ε σ) : Program σ ε Unit := fun s =>
  match f s with
  | .ok s' => ⟨[s'], .ok ()⟩
  | .error e => ⟨[], .error e⟩

/-- The state a run ends in: the last one it passed, if it passed any. -/
def last (p : Program σ ε α) (s : σ) : σ :=
  (p s).passed.getLastD s

theorem last_mem (p : Program σ ε α) (s : σ) : p.last s ∈ s :: (p s).passed :=
  List.getLastD_mem_cons

/-- Runs `p`, then `k` on its result from the state `p` reached. -/
def andThen (p : Program σ ε α) (k : α → Program σ ε β) : Program σ ε β := fun s =>
  match (p s).result with
  | .ok a => ⟨(p s).passed ++ (k a (p.last s)).passed, (k a (p.last s)).result⟩
  | .error e => ⟨(p s).passed, .error e⟩

instance : Monad (Program σ ε) where
  pure := done
  bind := andThen

/-- Runs `p` if `c` holds. -/
def when (c : Bool) (p : Program σ ε Unit) : Program σ ε Unit :=
  if c then p else pure ()

/-- Runs `p` and renames its error. -/
def mapError (p : Program σ ε α) (f : ε → δ) : Program σ δ α := fun s =>
  ⟨(p s).passed, (p s).result.mapError f⟩

/-! ## Runs of composed programs -/

section Runs

variable {p : Program σ ε α} {k : α → Program σ ε β} {s : σ}

theorem bind_of_ok (h : (p s).result = .ok a) :
    (p >>= k) s = ⟨(p s).passed ++ (k a (p.last s)).passed, (k a (p.last s)).result⟩ := by
  simp [Bind.bind, andThen, h]

/-- A sequence that returns has two parts that do. -/
theorem result_bind_eq_ok_iff {b : β} : ((p >>= k) s).result = .ok b ↔
    ∃ a, (p s).result = .ok a ∧ (k a (p.last s)).result = .ok b := by
  cases h : (p s).result with
  | error e => simp [Bind.bind, andThen, h]
  | ok a => simp [bind_of_ok h]

theorem result_ask (f : σ → Except ε α) (s : σ) : (ask f s).result = f s := rfl

theorem last_bind (h : (p s).result = .ok a) : (p >>= k).last s = (k a).last (p.last s) := by
  rw [last, bind_of_ok h, last, last]
  cases hk : (k a (p.last s)).passed with
  | nil => simp
  | cons x xs => simp [List.getLast?_append]

end Runs

/-! ## Triples with a crash condition -/

/-- From `s`, every state `p` passes satisfies `C`, and its end satisfies `Q`. -/
def Meets (p : Program σ ε α) (s : σ) (C : σ → Prop) (Q : Except ε α → σ → Prop) : Prop :=
  (∀ s' ∈ s :: (p s).passed, C s') ∧ Q (p s).result (p.last s)

/-- The program returns a value, and the value and the state at the end satisfy `Q`. -/
def Returns (Q : α → σ → Prop) (r : Except ε α) (s : σ) : Prop :=
  ∃ a, r = .ok a ∧ Q a s

section Rules

variable {p : Program σ ε α} {k : α → Program σ ε β} {s : σ}

theorem Meets.mono {C D : σ → Prop} {Q R : Except ε α → σ → Prop} (h : p.Meets s C Q)
    (hC : ∀ s, C s → D s) (hQ : ∀ r s, Q r s → R r s) : p.Meets s D R :=
  ⟨fun s' hs' => hC s' (h.1 s' hs'), hQ _ _ h.2⟩

theorem meets_done {C : σ → Prop} {Q : Except ε α → σ → Prop} (hC : C s) (hQ : Q (.ok a) s) :
    (pure a : Program σ ε α).Meets s C Q :=
  ⟨by simpa [pure, done] using hC, hQ⟩

theorem meets_fail {C : σ → Prop} {Q : Except ε α → σ → Prop} (hC : C s) (hQ : Q (.error e) s) :
    (fail e : Program σ ε α).Meets s C Q :=
  ⟨by simpa [fail] using hC, hQ⟩

/-- Sequencing: what the first program ends in is where the second one starts. -/
theorem Meets.bind {C : σ → Prop} {Q : Except ε β → σ → Prop}
    (h : p.Meets s C (Returns fun a s' => (k a).Meets s' C Q)) : (p >>= k).Meets s C Q := by
  obtain ⟨hpassed, a, ha, hnext⟩ := h
  rw [Meets, last_bind ha, bind_of_ok ha]
  refine ⟨?_, hnext.2⟩
  intro s' hs'
  rcases List.mem_cons.mp hs' with rfl | hmem
  · exact hpassed _ (by simp)
  rcases List.mem_append.mp hmem with h1 | h2
  · exact hpassed _ (by simp [h1])
  · exact hnext.1 _ (by simp [h2])

/-- A program that fails ends the sequence there. -/
theorem Meets.bind_error {C : σ → Prop} {Q : Except ε β → σ → Prop}
    (h : p.Meets s C fun r s' => ∃ e, r = .error e ∧ Q (.error e) s') : (p >>= k).Meets s C Q := by
  obtain ⟨hpassed, e, he, hQ⟩ := h
  have hrun : (p >>= k) s = ⟨(p s).passed, .error e⟩ := by simp [Bind.bind, andThen, he]
  rw [Meets, last, hrun]
  exact ⟨hpassed, hQ⟩

/-- Sequencing where the first program may fail. -/
theorem Meets.bind_either {C : σ → Prop} {Q : Except ε β → σ → Prop}
    (h : p.Meets s C fun r s' => (∃ a, r = .ok a ∧ (k a).Meets s' C Q) ∨
      ∃ e, r = .error e ∧ Q (.error e) s') : (p >>= k).Meets s C Q := by
  obtain ⟨hpassed, hnext | herror⟩ := h
  · exact Meets.bind ⟨hpassed, hnext⟩
  · exact Meets.bind_error ⟨hpassed, herror⟩

theorem meets_ask {f : σ → Except ε α} {C : σ → Prop} {Q : Except ε α → σ → Prop}
    (hf : f s = .ok a) (hC : C s) (hQ : Q (.ok a) s) : (ask f).Meets s C Q :=
  ⟨by simpa [ask] using hC, by simpa [ask, last, hf] using hQ⟩

theorem meets_ask_bind {f : σ → Except ε α} {C : σ → Prop} {Q : Except ε β → σ → Prop}
    (hf : f s = .ok a) (h : (k a).Meets s C Q) : (ask f >>= k).Meets s C Q :=
  Meets.bind ⟨by simpa [ask] using h.1 s (by simp), a, hf, h⟩

theorem meets_ask_bind_error {f : σ → Except ε α} {C : σ → Prop} {Q : Except ε β → σ → Prop}
    (hf : f s = .error e) (hC : C s) (hQ : Q (.error e) s) : (ask f >>= k).Meets s C Q :=
  Meets.bind_error ⟨by simpa [ask] using hC, e, hf, hQ⟩

theorem meets_perform_bind {f : σ → Except ε σ} {k : Unit → Program σ ε β} {C : σ → Prop}
    {Q : Except ε β → σ → Prop} (hf : f s = .ok s') (hC : C s)
    (h : (k ()).Meets s' C Q) : (perform f >>= k).Meets s C Q := by
  refine Meets.bind ⟨?_, (), ?_⟩
  · have hs' := h.1 s' (by simp)
    simp [perform, hf, hC, hs']
  · simpa [perform, last, hf] using h

theorem meets_perform {f : σ → Except ε σ} {C : σ → Prop} {Q : Except ε Unit → σ → Prop}
    (hf : f s = .ok s') (hC : C s) (hC' : C s') (hQ : Q (.ok ()) s') :
    (perform f).Meets s C Q := by
  simp [Meets, perform, last, hf, hC, hC', hQ]

theorem meets_when {c : Bool} {p : Program σ ε Unit} {C : σ → Prop}
    {Q : Except ε Unit → σ → Prop} (hC : C s) (htrue : c = true → p.Meets s C Q)
    (hfalse : c = false → Q (.ok ()) s) : (when c p).Meets s C Q := by
  cases c with
  | true => exact htrue rfl
  | false => exact meets_done hC (hfalse rfl)

theorem Meets.mapError {C : σ → Prop} {Q : α → σ → Prop} {f : ε → δ}
    (h : p.Meets s C (Returns Q)) : (p.mapError f).Meets s C (Returns Q) := by
  obtain ⟨hC, a, ha, hQ⟩ := h
  exact ⟨hC, a, by simp [Program.mapError, ha, Except.mapError], hQ⟩

/-- A run ends in one of the states it passes. -/
theorem Meets.last {C : σ → Prop} {Q : Except ε α → σ → Prop} (h : p.Meets s C Q) :
    C (p.last s) :=
  h.1 _ (p.last_mem s)

end Rules

/-! ## Frames -/

/-- Every state a run passes is related to the one it started from, whatever its end. -/
def Keeps (R : σ → σ → Prop) (p : Program σ ε α) : Prop :=
  ∀ s, ∀ s' ∈ s :: (p s).passed, R s s'

section Frames

variable {R : σ → σ → Prop} {p : Program σ ε α} {k : α → Program σ ε β}

theorem Keeps.last (h : Keeps R p) (s : σ) : R s (p.last s) :=
  h s _ (p.last_mem s)

theorem Keeps.mapError {f : ε → δ} (h : Keeps R p) : Keeps R (p.mapError f) :=
  h

variable [Std.Refl R]

theorem keeps_of_unmoved (h : ∀ s, (p s).passed = []) : Keeps R p := by
  intro s s' hs'
  rw [h s, List.mem_singleton] at hs'
  exact hs' ▸ Std.Refl.refl s'

theorem keeps_done (a : α) : Keeps R (pure a : Program σ ε α) :=
  keeps_of_unmoved fun _ => rfl

theorem keeps_fail (e : ε) : Keeps R (fail e : Program σ ε α) :=
  keeps_of_unmoved fun _ => rfl

theorem keeps_ask (f : σ → Except ε α) : Keeps R (ask f) :=
  keeps_of_unmoved fun _ => rfl

theorem keeps_perform {f : σ → Except ε σ} (h : ∀ s s', f s = .ok s' → R s s') :
    Keeps R (perform f) := by
  intro s s' hs'
  cases hf : f s with
  | error e =>
      simp only [perform, hf, List.mem_singleton] at hs'
      exact hs' ▸ Std.Refl.refl s'
  | ok s₁ =>
      simp only [perform, hf, List.mem_cons, List.not_mem_nil, or_false] at hs'
      rcases hs' with rfl | rfl
      · exact Std.Refl.refl s'
      · exact h _ _ hf

theorem keeps_when {c : Bool} {p : Program σ ε Unit} (h : Keeps R p) : Keeps R (when c p) := by
  cases c with
  | true => exact h
  | false => exact keeps_done ()

variable [IsTrans σ R]

theorem Keeps.bind (hp : Keeps R p) (hk : ∀ a, Keeps R (k a)) : Keeps R (p >>= k) := by
  intro s s' hs'
  cases hr : (p s).result with
  | error e =>
      have hrun : (p >>= k) s = ⟨(p s).passed, .error e⟩ := by simp [Bind.bind, andThen, hr]
      rw [hrun] at hs'
      exact hp s s' hs'
  | ok a =>
      rw [bind_of_ok hr] at hs'
      rcases List.mem_cons.mp hs' with rfl | hs'
      · exact Std.Refl.refl s'
      rcases List.mem_append.mp hs' with hs' | hs'
      · exact hp s s' (by simp [hs'])
      · exact trans_of R (hp.last s) (hk a _ _ (by simp [hs']))

theorem keeps_forM {f : γ → Program σ ε Unit} {xs : List γ} (h : ∀ x ∈ xs, Keeps R (f x)) :
    Keeps R (xs.forM f) := by
  induction xs with
  | nil => exact keeps_done ()
  | cons x xs ih => exact (h x (by simp)).bind fun _ => ih fun y hy => h y (by simp [hy])

end Frames

/-! ## Interruption and recovery -/

/-- The states an interruption of `p` can leave: the one it starts from and those it
    passes. -/
def Interrupted (p : Program σ ε α) (s s' : σ) : Prop :=
  s' ∈ s :: (p s).passed

/-- Any number of interrupted runs of `p`, each from where the one before it was cut. -/
def Restarts (p : Program σ ε α) : σ → σ → Prop :=
  Relation.ReflTransGen p.Interrupted

theorem Meets.interrupted {p : Program σ ε α} {C : σ → Prop} {Q : Except ε α → σ → Prop}
    (h : p.Meets s C Q) (hs : p.Interrupted s s') : C s' :=
  h.1 s' hs

/-- A condition that every run of the recovery program keeps at each of its own points
    survives any number of interrupted runs. -/
theorem holds_of_restarts {p : Program σ ε α} {C : σ → Prop} {Q : Except ε α → σ → Prop}
    (hstep : ∀ s, C s → p.Meets s C Q) (hs : C s) (hr : p.Restarts s s') : C s' := by
  induction hr with
  | refl => exact hs
  | tail _ hcut ih => exact (hstep _ ih).interrupted hcut

/-- **Recovery**: if `C` is kept at every point of the recovery program, then after any
    number of interrupted recoveries the next uninterrupted one ends in `Q`. -/
theorem meets_of_restarts {p : Program σ ε α} {C : σ → Prop} {Q : Except ε α → σ → Prop}
    (hstep : ∀ s, C s → p.Meets s C Q) (hs : C s) (hr : p.Restarts s s') : p.Meets s' C Q :=
  hstep s' (holds_of_restarts hstep hs hr)

end Program

end Durable
