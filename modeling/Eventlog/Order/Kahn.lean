import Mathlib

/-!
# Eventlog.Order.Kahn

Topological sorting with a priority: of the nodes whose prerequisites are all done, the one
of least rank comes next.

`Graph.kahn` is the algorithm, with the nodes that are ready and a count of what each node
still waits for.  `Graph.Greedy` says what it computes: at every place the least ready node,
and nothing ready at the end.  From that alone follow

* `Greedy.unique` — there is one such order;
* `Greedy.before` — a node comes after all it waits for;
* `Greedy.complete` — every node comes, if waiting is well founded, which is the case exactly
  if no node waits for itself through others (`founded_iff_acyclic`).

The nodes and their ranks are arbitrary.
-/

namespace Kahn

/-- Nodes, what each of them waits for, and the rank that decides among the ready. -/
structure Graph (α ρ : Type) where
  nodes : List α
  depends : α → List α
  rank : α → ρ
  nodes_nodup : nodes.Nodup
  depends_nodup : ∀ k, (depends k).Nodup

namespace Graph

variable {α ρ : Type}

/-! ## Readiness -/

/-- Not done yet, and waiting for nothing that is not done. -/
def Ready (G : Graph α ρ) (done : Finset α) (k : α) : Prop :=
  k ∈ G.nodes ∧ k ∉ done ∧ ∀ d ∈ G.depends k, d ∈ done

/-- Nodes wait for nodes only, and a measure shrinks from a node to what it waits for. -/
def Founded (G : Graph α ρ) : Prop :=
  ∃ measure : α → Nat, ∀ k ∈ G.nodes, ∀ d ∈ G.depends k, d ∈ G.nodes ∧ measure d < measure k

variable {G H : Graph α ρ} {done : Finset α} {order : List α}

/-- Where waiting is well founded, some node is ready until all are done. -/
theorem Founded.exists_ready (hG : G.Founded) (hk : k ∈ G.nodes) (hdone : k ∉ done) :
    ∃ k', G.Ready done k' := by
  obtain ⟨measure, hmeasure⟩ := hG
  induction hn : measure k using Nat.strong_induction_on generalizing k with
  | _ n ih =>
      by_cases hwait : ∀ d ∈ G.depends k, d ∈ done
      · exact ⟨k, hk, hdone, hwait⟩
      · push Not at hwait
        obtain ⟨d, hd, hnot⟩ := hwait
        obtain ⟨hnode, hless⟩ := hmeasure k hk d hd
        exact ih _ (hn ▸ hless) hnode hnot rfl

/-! ## The order it should be -/

variable [DecidableEq α] [LinearOrder ρ]

/-- An order that takes, at every place, the least of the nodes then ready, and goes on
    until none is. -/
inductive Greedy (G : Graph α ρ) : Finset α → List α → Prop
  | stop {done : Finset α} (hnone : ∀ k, ¬ G.Ready done k) : Greedy G done []
  | next {done : Finset α} {k : α} {rest : List α} (hready : G.Ready done k)
      (hleast : ∀ k', G.Ready done k' → G.rank k ≤ G.rank k')
      (hrest : Greedy G (insert k done) rest) : Greedy G done (k :: rest)

/-- Different nodes have different ranks. -/
def Ranked (G : Graph α ρ) : Prop :=
  ∀ k ∈ G.nodes, ∀ k' ∈ G.nodes, G.rank k = G.rank k' → k = k'

theorem Greedy.unique (hG : G.Ranked) {order' : List α} (h : G.Greedy done order)
    (h' : G.Greedy done order') : order = order' := by
  induction h generalizing order' with
  | stop hnone =>
      cases h' with
      | stop _ => rfl
      | next hready _ _ => exact absurd hready (hnone _)
  | next hready hleast _ ih =>
      cases h' with
      | stop hnone => exact absurd hready (hnone _)
      | next hready' hleast' hrest' =>
          have hrank := le_antisymm (hleast _ hready') (hleast' _ hready)
          obtain rfl := hG _ hready.1 _ hready'.1 hrank
          rw [ih hrest']

/-- Only nodes are ordered, none of them done before. -/
theorem Greedy.mem (h : G.Greedy done order) (hk : k ∈ order) : k ∈ G.nodes ∧ k ∉ done := by
  induction h with
  | stop _ => simp at hk
  | next hready _ _ ih =>
      rcases List.mem_cons.mp hk with rfl | hk
      · exact ⟨hready.1, hready.2.1⟩
      · exact ⟨(ih hk).1, fun hdone => (ih hk).2 (Finset.mem_insert_of_mem hdone)⟩

theorem Greedy.nodup (h : G.Greedy done order) : order.Nodup := by
  induction h with
  | stop _ => exact List.nodup_nil
  | next _ _ hrest ih =>
      exact List.nodup_cons.mpr ⟨fun hk => (hrest.mem hk).2 (Finset.mem_insert_self _ _), ih⟩

/-- A node comes after everything it waits for. -/
theorem Greedy.before (h : G.Greedy done order) {earlier later : List α} {k : α}
    (horder : order = earlier ++ k :: later) : ∀ d ∈ G.depends k, d ∈ done ∨ d ∈ earlier := by
  induction h generalizing earlier with
  | stop _ => simp at horder
  | next hready _ _ ih =>
      intro d hd
      cases earlier with
      | nil =>
          obtain ⟨rfl, -⟩ := List.cons.inj horder
          exact .inl (hready.2.2 d hd)
      | cons k' earlier =>
          obtain ⟨rfl, hrest⟩ := List.cons.inj horder
          rcases ih hrest d hd with hdone | hearlier
          · rcases Finset.mem_insert.mp hdone with rfl | hdone
            · exact .inr List.mem_cons_self
            · exact .inl hdone
          · exact .inr (List.mem_cons_of_mem _ hearlier)

/-- At every place is the least of the nodes then ready. -/
theorem Greedy.place (h : G.Greedy done order) {earlier later : List α} {k : α}
    (horder : order = earlier ++ k :: later) : G.Ready (done ∪ earlier.toFinset) k ∧
      ∀ k', G.Ready (done ∪ earlier.toFinset) k' → G.rank k ≤ G.rank k' := by
  induction h generalizing earlier with
  | stop _ => simp at horder
  | @next done k' rest hready hleast _ ih =>
      cases earlier with
      | nil =>
          obtain ⟨rfl, -⟩ := List.cons.inj horder
          simpa using ⟨hready, hleast⟩
      | cons k'' earlier =>
          obtain ⟨rfl, hrest⟩ := List.cons.inj horder
          have hdone : done ∪ (k' :: earlier).toFinset = insert k' done ∪ earlier.toFinset := by
            simp [Finset.insert_union]
          rw [hdone]
          exact ih hrest

/-- Nothing else is greedy: an order of all that is not done, with the least ready node at
    every place. -/
theorem greedy_of_place (hall : ∀ k ∈ G.nodes, k ∈ done ∨ k ∈ order)
    (hplace : ∀ earlier k later, order = earlier ++ k :: later →
      G.Ready (done ∪ earlier.toFinset) k ∧
        ∀ k', G.Ready (done ∪ earlier.toFinset) k' → G.rank k ≤ G.rank k') : G.Greedy done order := by
  induction order generalizing done with
  | nil => exact .stop fun k hready => hready.2.1 ((hall k hready.1).resolve_right (by simp))
  | cons k order ih =>
      have hfirst := hplace [] k order rfl
      rw [List.toFinset_nil, Finset.union_empty] at hfirst
      refine .next hfirst.1 hfirst.2 (ih (fun k' hk' => ?_) fun earlier k' later horder => ?_)
      · rcases hall k' hk' with hdone | hmem
        · exact .inl (Finset.mem_insert_of_mem hdone)
        · rcases List.mem_cons.mp hmem with rfl | hmem
          · exact .inl (Finset.mem_insert_self _ _)
          · exact .inr hmem
      · have hlater := hplace (k :: earlier) k' later (by rw [horder]; rfl)
        simpa [Finset.insert_union] using hlater

theorem Greedy.complete (hG : G.Founded) (h : G.Greedy done order) (hk : k ∈ G.nodes) :
    k ∈ done ∨ k ∈ order := by
  induction h with
  | stop hnone =>
      by_contra hnot
      push Not at hnot
      obtain ⟨k', hready⟩ := hG.exists_ready hk hnot.1
      exact hnone k' hready
  | next _ _ _ ih =>
      rcases ih with hdone | hrest
      · rcases Finset.mem_insert.mp hdone with rfl | hdone
        · exact .inr List.mem_cons_self
        · exact .inl hdone
      · exact .inr (List.mem_cons_of_mem _ hrest)

theorem Greedy.perm (hG : G.Founded) (h : G.Greedy ∅ order) : order.Perm G.nodes := by
  refine (List.perm_ext_iff_of_nodup h.nodup G.nodes_nodup).mpr fun k => ⟨fun hk => (h.mem hk).1, ?_⟩
  intro hk
  exact (h.complete hG hk).resolve_left (Finset.notMem_empty k)

/-- An order of all nodes is a measure. -/
theorem Greedy.founded (h : G.Greedy ∅ order) (hall : ∀ k ∈ G.nodes, k ∈ order) : G.Founded := by
  refine ⟨fun k => order.idxOf k, fun k hk d hd => ?_⟩
  obtain ⟨earlier, later, horder⟩ := List.append_of_mem (hall k hk)
  have hearlier : d ∈ earlier :=
    (h.before horder d hd).resolve_left (Finset.notMem_empty d)
  have hnodup := h.nodup
  rw [horder] at hnodup
  have hk' : k ∉ earlier := fun hmem =>
    (List.nodup_append.mp hnodup).2.2 k hmem k List.mem_cons_self rfl
  refine ⟨(h.mem (horder ▸ List.mem_append_left _ hearlier)).1, ?_⟩
  simp only [horder, List.idxOf_append_of_mem hearlier, List.idxOf_append_of_notMem hk']
  exact Nat.lt_of_lt_of_le (List.idxOf_lt_length_of_mem hearlier) (Nat.le_add_right _ _)

/-! ## The algorithm -/

variable (G)

/-- The nodes that wait for `k`. -/
def dependents (k : α) : List α :=
  G.nodes.filter fun d => decide (k ∈ G.depends d)

/-- Counts down what each of `ds` waits for; those left waiting for nothing become ready. -/
def release : (α → Nat) → List α → List α → (α → Nat) × List α
  | remaining, ready, [] => (remaining, ready)
  | remaining, ready, d :: ds =>
      let left := remaining d - 1
      release (Function.update remaining d left) (if left = 0 then d :: ready else ready) ds

/-- Takes the least ready node until none is ready, for at most `fuel` nodes. -/
def loop : Nat → (α → Nat) → List α → List α
  | 0, _, _ => []
  | fuel + 1, remaining, ready =>
      match ready.argmin G.rank with
      | none => []
      | some k =>
          let released := release remaining (ready.erase k) (G.dependents k)
          k :: loop fuel released.1 released.2

/-- The nodes in order.  A node is missing if it waits for itself through others. -/
def kahn : List α :=
  G.loop G.nodes.length (fun k => (G.depends k).length)
    (G.nodes.filter fun k => (G.depends k).isEmpty)

variable {G}

theorem release_remaining {ds : List α} (hds : ds.Nodup) (remaining : α → Nat) (ready : List α)
    (x : α) : (release remaining ready ds).1 x =
      if x ∈ ds then remaining x - 1 else remaining x := by
  induction ds generalizing remaining ready with
  | nil => simp [release]
  | cons d ds ih =>
      obtain ⟨hd, hds⟩ := List.nodup_cons.mp hds
      rw [release, ih hds]
      by_cases hx : x = d
      · subst hx
        simp [hd]
      · simp [hx]

theorem mem_release {ds : List α} (hds : ds.Nodup) (remaining : α → Nat) (ready : List α) (x : α) :
    x ∈ (release remaining ready ds).2 ↔ x ∈ ready ∨ x ∈ ds ∧ remaining x - 1 = 0 := by
  induction ds generalizing remaining ready with
  | nil => simp [release]
  | cons d ds ih =>
      obtain ⟨hd, hds⟩ := List.nodup_cons.mp hds
      rw [release, ih hds]
      by_cases hx : x = d
      · subst hx
        split_ifs with hleft <;> simp [hd, hleft]
      · split_ifs with hleft <;> simp [hx]

theorem nodup_release {ds : List α} (hds : ds.Nodup) (remaining : α → Nat) {ready : List α}
    (hready : ready.Nodup) (hdisjoint : ∀ d ∈ ds, d ∉ ready) :
    (release remaining ready ds).2.Nodup := by
  induction ds generalizing remaining ready with
  | nil => exact hready
  | cons d ds ih =>
      obtain ⟨hd, hds⟩ := List.nodup_cons.mp hds
      rw [release]
      refine ih hds _ ?_ ?_
      · split_ifs
        · exact List.nodup_cons.mpr ⟨hdisjoint d List.mem_cons_self, hready⟩
        · exact hready
      · intro x hx
        have hfree := hdisjoint x (List.mem_cons_of_mem _ hx)
        split_ifs
        · rw [List.mem_cons]
          rintro (rfl | hmem)
          · exact hd hx
          · exact hfree hmem
        · exact hfree

/-- What holds whenever the loop looks for the next node. -/
structure Running (G : Graph α ρ) (done : Finset α) (remaining : α → Nat) (ready : List α) :
    Prop where
  subset : ∀ k ∈ done, k ∈ G.nodes
  closed : ∀ k ∈ done, ∀ d ∈ G.depends k, d ∈ done
  remaining : ∀ k ∈ G.nodes, remaining k = ((G.depends k).filter (· ∉ done)).length
  nodup : ready.Nodup
  ready : ∀ k, k ∈ ready ↔ G.Ready done k

omit [LinearOrder ρ] in
theorem running_start : G.Running ∅ (fun k => (G.depends k).length)
    (G.nodes.filter fun k => (G.depends k).isEmpty) where
  subset := by simp
  closed := by simp
  remaining k _ := by simp
  nodup := G.nodes_nodup.filter _
  ready k := by simp [Ready, List.eq_nil_iff_forall_not_mem]

omit [LinearOrder ρ] in
theorem mem_dependents : d ∈ G.dependents k ↔ d ∈ G.nodes ∧ k ∈ G.depends d := by
  simp [dependents]

omit [LinearOrder ρ] in
/-- Once `k` is done, a node waits for one less exactly if it waited for `k`. -/
theorem length_waiting (hk : k ∉ done) (x : α) :
    ((G.depends x).filter (· ∉ insert k done)).length =
      if k ∈ G.depends x then ((G.depends x).filter (· ∉ done)).length - 1
      else ((G.depends x).filter (· ∉ done)).length := by
  have hfilter : (G.depends x).filter (· ∉ insert k done) =
      ((G.depends x).filter (· ∉ done)).erase k := by
    rw [((G.depends_nodup x).filter _).erase_eq_filter, List.filter_filter]
    exact List.filter_congr fun d _ => by
      rw [Bool.eq_iff_iff]
      simp [Finset.mem_insert]
  rw [hfilter, List.length_erase]
  simp [hk]

omit [LinearOrder ρ] in
/-- One round, whatever order the nodes that wait for `k` are gone through in. -/
theorem Running.step {remaining : α → Nat} {ready ds : List α}
    (h : G.Running done remaining ready) (hk : k ∈ ready) (hds : ds.Nodup)
    (hmem : ∀ d, d ∈ ds ↔ d ∈ G.nodes ∧ k ∈ G.depends d) :
    G.Running (insert k done) (release remaining (ready.erase k) ds).1
      (release remaining (ready.erase k) ds).2 := by
  obtain ⟨hnode, hdone, hwait⟩ := (h.ready k).mp hk
  -- whoever waits for `k` is not done while `k` is not
  have hwaiting : ∀ d ∈ ds, d ∉ done := fun d hd hin =>
    hdone (h.closed d hin k ((hmem d).mp hd).2)
  refine ⟨?_, ?_, ?_, ?_, ?_⟩
  · intro x hx
    rcases Finset.mem_insert.mp hx with rfl | hx
    · exact hnode
    · exact h.subset x hx
  · intro x hx d hd
    rcases Finset.mem_insert.mp hx with rfl | hx
    · exact Finset.mem_insert_of_mem (hwait d hd)
    · exact Finset.mem_insert_of_mem (h.closed x hx d hd)
  · intro x hx
    rw [release_remaining hds, length_waiting hdone, h.remaining x hx]
    simp [hmem, hx]
  · refine nodup_release hds _ (h.nodup.erase k) fun d hd hin => ?_
    have hready := (h.ready d).mp (List.mem_of_mem_erase hin)
    exact hdone (hready.2.2 k ((hmem d).mp hd).2)
  · intro x
    rw [mem_release hds, h.nodup.mem_erase_iff, h.ready]
    constructor
    · rintro (⟨hne, hready⟩ | ⟨hx, hzero⟩)
      · exact ⟨hready.1, by simp [hne, hready.2.1], fun d hd =>
          Finset.mem_insert_of_mem (hready.2.2 d hd)⟩
      · -- the count of what `x` waits for came down to nothing
        obtain ⟨hxnode, hxk⟩ := (hmem x).mp hx
        have hne : x ≠ k := fun heq => hdone (hwait k (heq ▸ hxk))
        have hlength := length_waiting (G := G) hdone x
        rw [if_pos hxk, ← h.remaining x hxnode, hzero] at hlength
        refine ⟨hxnode, by simp [hne, hwaiting x hx], fun d hd => ?_⟩
        by_contra hnot
        have hin : d ∈ (G.depends x).filter (· ∉ insert k done) :=
          List.mem_filter.mpr ⟨hd, decide_eq_true hnot⟩
        rw [List.eq_nil_of_length_eq_zero hlength] at hin
        exact absurd hin List.not_mem_nil
    · rintro ⟨hxnode, hxdone, hxwait⟩
      have hne : x ≠ k := fun heq => hxdone (heq ▸ Finset.mem_insert_self _ _)
      have hxold : x ∉ done := fun hmem => hxdone (Finset.mem_insert_of_mem hmem)
      by_cases hxk : k ∈ G.depends x
      · have hlength := length_waiting (G := G) hdone x
        have hnil : (G.depends x).filter (· ∉ insert k done) = [] := by
          rw [List.filter_eq_nil_iff]
          intro d hd
          exact fun hnot => of_decide_eq_true hnot (hxwait d hd)
        rw [if_pos hxk, ← h.remaining x hxnode, hnil] at hlength
        exact .inr ⟨(hmem x).mpr ⟨hxnode, hxk⟩, hlength.symm⟩
      · refine .inl ⟨hne, hxnode, hxold, fun d hd => ?_⟩
        refine (Finset.mem_insert.mp (hxwait d hd)).resolve_left fun heq => hxk (heq ▸ hd)

/-- The loop, with fuel for the nodes not done, takes a greedy order. -/
theorem Running.greedy {fuel : Nat} {remaining : α → Nat} {ready : List α}
    (h : G.Running done remaining ready) (hfuel : G.nodes.length ≤ fuel + done.card) :
    G.Greedy done (G.loop fuel remaining ready) := by
  induction fuel generalizing done remaining ready with
  | zero =>
      -- as many are done as there are, so all are
      have hsubset : done ⊆ G.nodes.toFinset := fun k hk => List.mem_toFinset.mpr (h.subset k hk)
      have hcard : G.nodes.toFinset.card ≤ done.card := by
        rw [List.toFinset_card_of_nodup G.nodes_nodup]
        omega
      have hall := Finset.eq_of_subset_of_card_le hsubset hcard
      exact .stop fun k hready => hready.2.1 (hall ▸ List.mem_toFinset.mpr hready.1)
  | succ fuel ih =>
      rw [loop]
      cases hmin : ready.argmin G.rank with
      | none =>
          rw [List.argmin_eq_none] at hmin
          exact .stop fun k hready => by simpa [hmin] using (h.ready k).mpr hready
      | some k =>
          have hk : k ∈ ready := List.argmin_mem hmin
          have hready := (h.ready k).mp hk
          refine .next hready (fun k' hready' => ?_)
            (ih (h.step hk (G.nodes_nodup.filter _) fun d => mem_dependents) ?_)
          · exact List.le_of_mem_argmin ((h.ready k').mpr hready') hmin
          · rw [Finset.card_insert_of_notMem hready.2.1]
            omega

/-- **The algorithm computes the greedy order.** -/
theorem kahn_greedy (G : Graph α ρ) : G.Greedy ∅ G.kahn :=
  running_start.greedy (by simp)

/-- It orders all nodes exactly if waiting is well founded. -/
theorem length_kahn_iff : G.kahn.length = G.nodes.length ↔ G.Founded := by
  constructor
  · intro hlength
    refine G.kahn_greedy.founded fun k hk => ?_
    have hsubset : G.kahn ⊆ G.nodes := fun k hk => (G.kahn_greedy.mem hk).1
    exact ((G.kahn_greedy.nodup.subperm hsubset).perm_of_length_le hlength.ge).mem_iff.mpr hk
  · intro hfounded
    exact (G.kahn_greedy.perm hfounded).length_eq

/-- A node waits for another. -/
def Awaits (G : Graph α ρ) (k d : α) : Prop := k ∈ G.nodes ∧ d ∈ G.depends k

omit [LinearOrder ρ] in
/-- **Waiting is well founded exactly if no node waits for itself through others.** -/
theorem founded_iff_acyclic (hclosed : ∀ k ∈ G.nodes, ∀ d ∈ G.depends k, d ∈ G.nodes) :
    G.Founded ↔ ∀ k, ¬ Relation.TransGen G.Awaits k k := by
  constructor
  · rintro ⟨measure, hmeasure⟩ k hcycle
    have hless : ∀ {k d}, Relation.TransGen G.Awaits k d → measure d < measure k := by
      intro k d h
      induction h with
      | single h => exact (hmeasure _ h.1 _ h.2).2
      | tail _ h ih => exact (hmeasure _ h.1 _ h.2).2.trans ih
    exact lt_irrefl _ (hless hcycle)
  · intro hacyclic
    -- a node reaches more nodes than what it waits for
    classical
    refine ⟨fun k => (G.nodes.toFinset.filter (Relation.TransGen G.Awaits k)).card,
      fun k hk d hd => ⟨hclosed k hk d hd, Finset.card_lt_card ?_⟩⟩
    refine Finset.ssubset_iff_subset_ne.mpr ⟨fun x hx => ?_, fun heq => ?_⟩
    · rw [Finset.mem_filter] at hx ⊢
      exact ⟨hx.1, .head ⟨hk, hd⟩ hx.2⟩
    · have hin : d ∈ G.nodes.toFinset.filter (Relation.TransGen G.Awaits k) :=
        Finset.mem_filter.mpr ⟨List.mem_toFinset.mpr (hclosed k hk d hd), .single ⟨hk, hd⟩⟩
      rw [← heq, Finset.mem_filter] at hin
      exact hacyclic d hin.2

end Graph

end Kahn
