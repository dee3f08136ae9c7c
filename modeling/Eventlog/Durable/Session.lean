import Mathlib

/-!
# Eventlog.Durable.Session

Stateful work that may be refused.

A `Session` passes a state along and may end in an error; the error keeps the state
reached, since whoever called decides what to do with it.  `Obeys` says that a session
relates the state before to the state after, however it ends, and a relation that composes
(`Composes`) is obeyed by a sequence of sessions that obey it.
-/

namespace Durable

/-- Work over the state `σ` that may be refused with `ε`. -/
def Session (σ ε α : Type) : Type := σ → Except ε α × σ

namespace Session

/-- Runs `p`, then `k` on its result, unless `p` is refused. -/
def andThen (p : Session σ ε α) (k : α → Session σ ε β) : Session σ ε β := fun s =>
  match p s with
  | (.ok a, s') => k a s'
  | (.error e, s') => (.error e, s')

instance : Monad (Session σ ε) where
  pure a := fun s => (.ok a, s)
  bind := andThen

/-- Refuses. -/
def refuse (e : ε) : Session σ ε α := fun s => (.error e, s)

/-- Decides from the state, and leaves it alone. -/
def ask (f : σ → Except ε α) : Session σ ε α := fun s => (f s, s)

/-- Changes the state. -/
def change (f : σ → σ) : Session σ ε Unit := fun s => (.ok (), f s)

/-! ## Relations that work obeys -/

/-- From `s`, however `p` ends, it ends in a state related to `s` (the relation is told
    whether it succeeded), and if it succeeds its result satisfies `Q`. -/
def Delivers (R : σ → Bool → σ → Prop) (p : Session σ ε α) (s : σ) (Q : α → σ → Prop) : Prop :=
  R s (p s).1.isOk (p s).2 ∧ ∀ a, (p s).1 = .ok a → Q a (p s).2

/-- From every state `p` ends in a related one. -/
def Obeys (R : σ → Bool → σ → Prop) (p : Session σ ε α) : Prop :=
  ∀ s, R s (p s).1.isOk (p s).2

/-- A relation that holds of doing nothing and of one thing after another. -/
structure Composes (R : σ → Bool → σ → Prop) : Prop where
  refl : ∀ s ok, R s ok s
  trans : ∀ s₁ s₂ s₃ ok, R s₁ true s₂ → R s₂ ok s₃ → R s₁ ok s₃

section Rules

variable {R : σ → Bool → σ → Prop} {p : Session σ ε α} {k : α → Session σ ε β} {s : σ}

theorem bind_of_ok (h : p s = (.ok a, s')) : (p >>= k) s = k a s' := by
  simp [Bind.bind, andThen, h]

theorem bind_of_error (h : p s = (.error e, s')) : (p >>= k) s = (.error e, s') := by
  simp [Bind.bind, andThen, h]

/-- Work that succeeds is a first part that succeeds and a second one that does from there. -/
theorem bind_eq_ok_iff {b : β} {s₂ : σ} :
    (p >>= k) s = (.ok b, s₂) ↔ ∃ a s₁, p s = (.ok a, s₁) ∧ k a s₁ = (.ok b, s₂) := by
  rcases hrun : p s with ⟨r, s₁⟩
  cases r with
  | error e => simp [bind_of_error hrun]
  | ok a =>
      rw [bind_of_ok hrun]
      constructor
      · intro h
        exact ⟨a, s₁, rfl, h⟩
      · rintro ⟨a', s', h, h'⟩
        obtain ⟨rfl, rfl⟩ : a = a' ∧ s₁ = s' := by simpa using h
        exact h'

theorem pure_eq_ok_iff {a b : α} {s₂ : σ} :
    (pure a : Session σ ε α) s = (.ok b, s₂) ↔ a = b ∧ s = s₂ := by
  simp [pure]

theorem ask_eq_ok_iff {f : σ → Except ε α} {b : α} {s₂ : σ} :
    (ask f : Session σ ε α) s = (.ok b, s₂) ↔ f s = .ok b ∧ s = s₂ := by
  simp [ask]

theorem change_eq_ok_iff {f : σ → σ} {u : Unit} {s₂ : σ} :
    (change f : Session σ ε Unit) s = (.ok u, s₂) ↔ f s = s₂ := by
  simp [change]

theorem ask_eq {f : σ → Except ε α} (h : f s = r) : (ask f : Session σ ε α) s = (r, s) := by
  simp [ask, h]

theorem get_bind {g : σ → α} : (ask (fun s => .ok (g s)) >>= k) s = k (g s) s := rfl

theorem ask_bind_ok {f : σ → Except ε α} {a : α} (h : f s = .ok a) :
    (ask f >>= k) s = k a s := by
  simp [ask, Bind.bind, andThen, h]

theorem ask_bind_error {f : σ → Except ε α} {e : ε} (h : f s = .error e) :
    (ask f >>= k) s = (.error e, s) := by
  simp [ask, Bind.bind, andThen, h]

theorem change_bind {f : σ → σ} {k : Unit → Session σ ε β} : (change f >>= k) s = k () (f s) := rfl

theorem Delivers.mono {Q Q' : α → σ → Prop} (h : Delivers R p s Q)
    (hQ : ∀ a s', Q a s' → Q' a s') : Delivers R p s Q' :=
  ⟨h.1, fun a ha => hQ _ _ (h.2 a ha)⟩

/-- The result of a success may be used together with what the relation says of it. -/
theorem Delivers.related {Q : α → σ → Prop} (h : Delivers R p s Q) :
    Delivers R p s fun a s' => Q a s' ∧ R s true s' := by
  refine ⟨h.1, fun a ha => ⟨h.2 a ha, ?_⟩⟩
  have hrel := h.1
  rwa [ha] at hrel

theorem Obeys.delivers (h : Obeys R p) : Delivers R p s fun _ _ => True :=
  ⟨h s, fun _ _ => trivial⟩

theorem obeys_of_delivers (h : ∀ s, Delivers R p s fun _ _ => True) : Obeys R p :=
  fun s => (h s).1

/-- Sequencing: the second session starts where the first one ended. -/
theorem Delivers.bind {Q : β → σ → Prop} (hR : Composes R)
    (h : Delivers R p s fun a s' => Delivers R (k a) s' Q) : Delivers R (p >>= k) s Q := by
  obtain ⟨hfirst, hnext⟩ := h
  rcases hrun : p s with ⟨r, s'⟩
  rw [hrun] at hfirst hnext
  cases r with
  | error e =>
      rw [Delivers, bind_of_error hrun]
      exact ⟨hfirst, fun _ ha => by contradiction⟩
  | ok a =>
      obtain ⟨hsecond, hQ⟩ := hnext a rfl
      rw [Delivers, bind_of_ok hrun]
      exact ⟨hR.trans _ _ _ _ hfirst hsecond, hQ⟩

theorem delivers_pure {Q : α → σ → Prop} (hR : Composes R) (hQ : Q a s) :
    Delivers R (pure a : Session σ ε α) s Q :=
  ⟨hR.refl s true, fun _ ha => by cases ha; exact hQ⟩

theorem delivers_refuse {Q : α → σ → Prop} (hR : Composes R) (e : ε) :
    Delivers R (refuse e : Session σ ε α) s Q :=
  ⟨hR.refl s false, fun _ ha => by cases ha⟩

theorem delivers_ask {f : σ → Except ε α} {Q : α → σ → Prop} (hR : Composes R)
    (hQ : ∀ a, f s = .ok a → Q a s) : Delivers R (ask f) s Q :=
  ⟨hR.refl s _, hQ⟩

theorem delivers_ite {c : Prop} [Decidable c] {p q : Session σ ε α} {Q : α → σ → Prop}
    (hp : c → Delivers R p s Q) (hq : ¬ c → Delivers R q s Q) :
    Delivers R (if c then p else q) s Q := by
  split
  · exact hp ‹_›
  · exact hq ‹_›

theorem Obeys.bind (hR : Composes R) (hp : Obeys R p) (hk : ∀ a, Obeys R (k a)) :
    Obeys R (p >>= k) :=
  obeys_of_delivers fun _ => Delivers.bind hR (hp.delivers.mono fun a _ _ => (hk a).delivers)

theorem obeys_pure (hR : Composes R) (a : α) : Obeys R (pure a : Session σ ε α) :=
  fun s => hR.refl s true

theorem obeys_refuse (hR : Composes R) (e : ε) : Obeys R (refuse e : Session σ ε α) :=
  fun s => hR.refl s false

theorem obeys_ask (hR : Composes R) (f : σ → Except ε α) : Obeys R (ask f : Session σ ε α) :=
  fun s => hR.refl s _

theorem obeys_forM (hR : Composes R) {f : γ → Session σ ε Unit} {xs : List γ}
    (hf : ∀ x ∈ xs, Obeys R (f x)) : Obeys R (xs.forM f) := by
  induction xs with
  | nil => exact obeys_pure hR _
  | cons x xs ih => exact (hf x (by simp)).bind hR fun _ => ih fun y hy => hf y (by simp [hy])

/-- A loop keeps what each round keeps. -/
theorem delivers_forM (hR : Composes R) {f : γ → Session σ ε Unit} {xs : List γ} {I : σ → Prop}
    (hf : ∀ x ∈ xs, ∀ s, I s → Delivers R (f x) s fun _ s' => I s') (hs : I s) :
    Delivers R (xs.forM f) s fun _ s' => I s' := by
  induction xs generalizing s with
  | nil => exact delivers_pure hR hs
  | cons x xs ih =>
      refine Delivers.bind hR ((hf x (by simp) s hs).mono fun _ s' hs' => ?_)
      exact ih (fun y hy => hf y (by simp [hy])) hs'

theorem Obeys.map (hR : Composes R) {f : α → β} (hp : Obeys R p) : Obeys R (f <$> p) :=
  hp.bind hR fun _ => obeys_pure hR _

end Rules

end Session

end Durable
