import Mathlib

/-!
# Eventlog.Durable.AppendOnly

Logs that grow at their end, and whose entries last in their order: some may be replaced in their
place, and some dropped.
-/

namespace Durable

/-- A log, and the last key it handed out. -/
structure Log (α : Type) where
  entries : List α
  last : Nat

/-- What may become of the entries of a log.  Only if it may be `rewritten` is any of them
    replaced or dropped, and only those that may be `gone` are dropped. -/
structure Fate (α : Type) where
  key : α → Nat
  became : α → α → Prop
  gone : α → Prop
  rewritten : Prop
  refl : ∀ x, became x x
  trans : ∀ {x y z}, became x y → became y z → became x z
  key_eq : ∀ {x y}, became x y → key y = key x
  gone_of : ∀ {x y}, became x y → gone y → gone x

namespace Fate

variable {α : Type} {F : Fate α} {l l' l₁ l₂ l₃ : Log α}

/-- Every entry of `l` went through `f`, and `added` came after them, under new keys. -/
structure Lasting (F : Fate α) (l l' : Log α) (f : α → Option α) (added : List α) : Prop where
  entries : l'.entries = l.entries.filterMap f ++ added
  last : l.last ≤ l'.last
  fresh : ∀ x ∈ added, l.last < F.key x
  became : ∀ x y, f x = some y → F.became x y
  gone : ∀ x, f x = none → F.gone x
  plain : ¬ F.rewritten → f = some

/-- The entries of `l` last in `l'`. -/
def Lasts (F : Fate α) (l l' : Log α) : Prop := ∃ f added, F.Lasting l l' f added

theorem lasts_append {added : List α} (h : l'.entries = l.entries ++ added)
    (hlast : l.last ≤ l'.last) (hfresh : ∀ x ∈ added, l.last < F.key x) : F.Lasts l l' :=
  ⟨some, added, by rw [List.filterMap_some, h], hlast, hfresh,
    fun x _ hx => Option.some.inj hx ▸ F.refl x, by simp, fun _ => rfl⟩

theorem Lasts.refl (l : Log α) : F.Lasts l l :=
  lasts_append (List.append_nil _).symm (le_refl _) (by simp)

theorem lasts_filter (p : α → Bool) (h : l'.entries = l.entries.filter p)
    (hlast : l.last ≤ l'.last) (hgone : ∀ x, p x = false → F.gone x) (hF : F.rewritten) :
    F.Lasts l l' := by
  refine ⟨Option.guard p, [], ?_, hlast, by simp, fun x y hx => ?_, fun x hx => hgone x ?_,
    fun hplain => absurd hF hplain⟩
  · rw [List.append_nil, List.filterMap_eq_filter, h]
  · exact (Option.guard_eq_some_iff.mp hx).1 ▸ F.refl x
  · simpa [Option.guard_eq_none_iff] using hx

theorem lasts_map (g : α → α) (h : l'.entries = l.entries.map g) (hlast : l.last ≤ l'.last)
    (hg : ∀ x, F.became x (g x)) (hF : F.rewritten) : F.Lasts l l' :=
  ⟨some ∘ g, [], by rw [List.append_nil, List.filterMap_eq_map, h], hlast, by simp,
    fun x _ hx => Option.some.inj hx ▸ hg x, by simp, fun hplain => absurd hF hplain⟩

theorem Lasts.trans (h : F.Lasts l₁ l₂) (h' : F.Lasts l₂ l₃) : F.Lasts l₁ l₃ := by
  obtain ⟨f, added, h⟩ := h
  obtain ⟨f', added', h'⟩ := h'
  refine ⟨fun x => (f x).bind f', added.filterMap f' ++ added', ?_, h.last.trans h'.last,
    fun y hy => ?_, fun x z hz => ?_, fun x hx => ?_, fun hF => by simp [h.plain hF, h'.plain hF]⟩
  · rw [h'.entries, h.entries, List.filterMap_append, List.filterMap_filterMap, List.append_assoc]
  · rcases List.mem_append.mp hy with hy | hy
    · obtain ⟨x, hx, hxy⟩ := List.mem_filterMap.mp hy
      exact F.key_eq (h'.became x y hxy) ▸ h.fresh x hx
    · exact lt_of_le_of_lt h.last (h'.fresh y hy)
  · obtain ⟨y, hy, hz⟩ := Option.bind_eq_some_iff.mp hz
    exact F.trans (h.became x y hy) (h'.became y z hz)
  · cases hy : f x with
    | none => exact h.gone x hy
    | some y => exact F.gone_of (h.became x y hy) (h'.gone y (by simpa [hy] using hx))

end Fate

end Durable
