import Eventlog.Tree.Archive

/-!
# Eventlog.Tree.ReplayOrder

`replay_order` with the maps it works on: what each group follows, which groups follow it, how
many of the former are still to come, and the heap of those that wait for nothing.

Here every index, `expect` and subtraction that could panic is a step that can fail
(`none`), and the loop over the heap has fuel.  On what `load` collects (`Collected`) none of
them does: the run ends with the answer of `replayOrder` (`replayOrderRun_eq`).  What that answer
is can be said without the algorithm: it is refused exactly if groups follow each other in a
circle, and otherwise it is the one order in which every place holds, of the groups whose
parents are all there, the one with the earliest instant, and then the smallest key
(`Canonical`).
-/

namespace Eventlog.Tree

open Durable

/-! ## The maps -/

/-- The groups each group follows, and the groups that follow it. -/
structure Dependencies where
  depends : Named (Finset String)
  dependents : Named (Finset String)

/-- One parent of an event of `group`. -/
def Dependencies.note (owner : Named String) (group : String) (d : Dependencies) (parent : String) :
    Option Dependencies := do
  let parentGroup ← owner[parent]?
  if parentGroup ≠ group then
    let needs ← d.depends[group]?
    let followers := d.dependents[parentGroup]?.getD ∅
    return ⟨d.depends.insert group (insert parentGroup needs),
      d.dependents.insert parentGroup (insert group followers)⟩
  else
    return d

/-- The parents of one committed event. -/
def Dependencies.noteEvent (owner : Named String) (events : Named EventRecord) (d : Dependencies)
    (owned : String × String) : Option Dependencies := do
  let event ← events[owned.1]?
  event.parents.foldlM (Dependencies.note owner owned.2) d

/-- The first loops of `replay_order`. -/
def Dependencies.collect (committed : Named Committed) (owner : Named String)
    (events : Named EventRecord) : Option Dependencies :=
  owner.toList.foldlM (Dependencies.noteEvent owner events) ⟨committed.map fun _ _ => ∅, ∅⟩

/-! ## The heap -/

/-- What the heap orders a group by. -/
def rankOf (committed : Named Committed) (key : String) : Option (Int ×ₗ String) := do
  let c ← committed[key]?
  return toLex (c.earliest, key)

/-- One group that follows the one just taken. -/
def countDown (committed : Named Committed) (s : Named Nat × List (Int ×ₗ String))
    (dependent : String) : Option (Named Nat × List (Int ×ₗ String)) := do
  let left ← s.1[dependent]?
  if left = 0 then none
  else
    let remaining := s.1.insert dependent (left - 1)
    if left - 1 = 0 then
      return (remaining, (← rankOf committed dependent) :: s.2)
    else
      return (remaining, s.2)

/-- The loop over the heap, for at most `fuel` rounds. -/
def drain (committed : Named Committed) (dependents : Named (Finset String)) :
    Nat → Named Nat → List (Int ×ₗ String) → Option (List String)
  | 0, _, _ => none
  | fuel + 1, remaining, ready =>
      match ready.min? with
      | none => some []
      | some least => do
          let key := (ofLex least).2
          let (remaining, ready) ← ((dependents[key]?.getD ∅).sort (· ≤ ·)).foldlM
            (countDown committed) (remaining, ready.erase least)
          return key :: (← drain committed dependents fuel remaining ready)

/-- The groups of an order, each taken out of the map. -/
def takeOrdered : Named Committed → List String → Option (List Committed)
  | _, [] => some []
  | committed, key :: rest => do
      let c ← committed[key]?
      return c :: (← takeOrdered (committed.erase key) rest)

/-- `replay_order`, with its panics. -/
def replayOrderRun (committed : Named Committed) (owner : Named String) (events : Named EventRecord) :
    Option (Except EventLogError (List Committed)) := do
  let d ← Dependencies.collect committed owner events
  let ready ← (d.depends.toList.filter fun n => n.2 = ∅).mapM fun n => rankOf committed n.1
  let remaining := d.depends.map fun _ needs => needs.card
  let order ← drain committed d.dependents (committed.size + 1) remaining ready
  if order.length ≠ committed.size then
    return .error (corrupt "groups whose parents form a cycle")
  else
    return .ok (← takeOrdered committed order)

/-! ## What it is given, and what it is for -/

/-- What `load` has collected when it asks for the order: groups with the events they commit,
    the owner of each event, and parents that are committed. -/
structure Collected (A : Archive) (owner : Named String) (events : Named EventRecord) : Prop where
  owns : Owns A owner
  events : ∀ (key : String) (c : Committed), A[key]? = some c →
    List.Forall₂ (Among events) c.digests c.events.flatten
  parents : ∀ key e, A.Has key e → ∀ p ∈ e.parents, ∃ key' : String, owner[p]? = some key'

/-- A group follows another if one of its events has a parent there. -/
def Archive.Follows (A : Archive) (owner : Named String) (key key' : String) : Prop :=
  key' ≠ key ∧ ∃ e, A.Has key e ∧ ∃ p ∈ e.parents, owner[p]? = some key'

/-- The earliest instant of a group, and its key. -/
def Archive.rank (A : Archive) (key : String) : Int ×ₗ String :=
  toLex ((A[key]?.map Committed.earliest).getD 0, key)

/-- The canonical causal order. -/
structure Canonical (A : Archive) (owner : Named String) (order : List String) : Prop where
  perm : order.Perm A.keys
  follows : ∀ earlier key later, order = earlier ++ key :: later →
    ∀ key', A.Follows owner key key' → key' ∈ earlier
  least : ∀ earlier key later, order = earlier ++ key :: later → ∀ other : String, other ∈ A →
    other ∉ earlier → (∀ key', A.Follows owner other key' → key' ∈ earlier) →
      A.rank key ≤ A.rank other

section Order

variable {A : Archive} {owner : Named String} {events : Named EventRecord}

theorem mem_depends_iff {key key' : String} :
    key' ∈ (graph A owner).depends key ↔ A.Follows owner key key' := by
  simp only [graph, Archive.Follows, Archive.Has]
  cases hc : A[key]? with
  | none => simp
  | some c =>
      simp only [Option.map_some, Option.getD_some, Committed.follows, List.mem_dedup, List.mem_filter,
        List.mem_filterMap, List.mem_flatMap, decide_eq_true_eq, Option.some.injEq, exists_eq_left']
      constructor
      · rintro ⟨⟨p, ⟨e, he, hp⟩, howner⟩, hne⟩
        exact ⟨hne, e, he, p, hp, howner⟩
      · rintro ⟨hne, e, he, p, hp, howner⟩
        exact ⟨⟨p, ⟨e, he, hp⟩, howner⟩, hne⟩

theorem mem_nodes {key : String} : key ∈ (graph A owner).nodes ↔ key ∈ A := Std.ExtTreeMap.mem_keys

theorem Archive.Follows.mem {key key' : String} (h : A.Follows owner key key') : key ∈ A := by
  obtain ⟨-, e, he, -⟩ := h
  exact he.mem

theorem Collected.mem (h : Collected A owner events) {key key' : String}
    (hfollows : A.Follows owner key key') : key' ∈ A := by
  obtain ⟨-, e, -, p, -, howner⟩ := hfollows
  obtain ⟨c, hc, -⟩ := (h.owns _ _).mp howner
  exact Std.ExtTreeMap.mem_iff_isSome_getElem?.mpr (by rw [hc]; rfl)

/-- The canonical order is the greedy one. -/
theorem canonical_iff {order : List String} :
    Canonical A owner order ↔ order.Perm A.keys ∧ (graph A owner).Greedy ∅ order := by
  constructor
  · rintro ⟨hperm, hfollows, hleast⟩
    refine ⟨hperm, Kahn.Graph.greedy_of_place (fun key hkey => .inr (hperm.mem_iff.mpr hkey)) ?_⟩
    intro earlier key later horder
    have hnodup : (earlier ++ key :: later).Nodup :=
      horder ▸ hperm.nodup_iff.mpr (graph A owner).nodes_nodup
    have hnot : key ∉ earlier := fun hin =>
      (List.nodup_append.mp hnodup).2.2 key hin key List.mem_cons_self rfl
    simp only [Finset.empty_union, Kahn.Graph.Ready, List.mem_toFinset, mem_nodes, mem_depends_iff]
    refine ⟨⟨?_, hnot, hfollows earlier key later horder⟩, fun other hother =>
      hleast earlier key later horder other hother.1 hother.2.1 hother.2.2⟩
    exact Std.ExtTreeMap.mem_keys.mp (hperm.mem_iff.mp (by simp [horder]))
  · rintro ⟨hperm, hgreedy⟩
    refine ⟨hperm, fun earlier key later horder key' hfollows => ?_,
      fun earlier key later horder other hmem hnot hall => ?_⟩
    · have hready := (hgreedy.place horder).1.2.2 key' (mem_depends_iff.mpr hfollows)
      simpa using hready
    · refine (hgreedy.place horder).2 other ⟨mem_nodes.mpr hmem, by simpa using hnot, fun d hd => ?_⟩
      simpa using hall d (mem_depends_iff.mp hd)

/-! ## The maps hold the graph -/

/-- The maps hold the edges `E` from groups to groups they follow. -/
structure Dependencies.Hold (A : Archive) (d : Dependencies) (E : String → String → Prop) : Prop where
  depends : ∀ key : String, key ∈ A → ∃ needs, d.depends[key]? = some needs ∧ ∀ x, x ∈ needs ↔ E key x
  keys : ∀ key : String, key ∈ d.depends → key ∈ A
  dependents : ∀ key x : String, x ∈ d.dependents[key]?.getD ∅ ↔ E x key

theorem Dependencies.Hold.congr {d : Dependencies} {E E' : String → String → Prop} (h : d.Hold A E)
    (heq : ∀ g x, E g x ↔ E' g x) : d.Hold A E' := by
  obtain rfl : E = E' := funext fun g => funext fun x => propext (heq g x)
  exact h

theorem Dependencies.Hold.note {d : Dependencies} {E : String → String → Prop} (h : d.Hold A E)
    {group parent parentGroup : String} (hgroup : group ∈ A) (howner : owner[parent]? = some parentGroup) :
    ∃ d', d.note owner group parent = some d' ∧
      d'.Hold A fun g x => E g x ∨ g = group ∧ x ≠ group ∧ x = parentGroup := by
  obtain ⟨needs, hneeds, hmem⟩ := h.depends group hgroup
  by_cases hself : parentGroup = group
  · refine ⟨d, by simp [Dependencies.note, howner, hself], h.congr fun g x => ?_⟩
    constructor
    · exact .inl
    · rintro (hE | ⟨-, hne, rfl⟩)
      · exact hE
      · exact absurd hself hne
  · have hnote : d.note owner group parent = some ⟨d.depends.insert group (insert parentGroup needs),
        d.dependents.insert parentGroup (insert group (d.dependents[parentGroup]?.getD ∅))⟩ := by
      simp [Dependencies.note, howner, hself, hneeds]
    refine ⟨_, hnote, fun key hkey => ?_, fun key hkey => ?_, fun key x => ?_⟩
    · by_cases hkey' : group = key
      · subst hkey'
        refine ⟨insert parentGroup needs, by simp, fun x => ?_⟩
        rw [Finset.mem_insert, hmem]
        constructor
        · rintro (rfl | hE)
          · exact .inr ⟨rfl, hself, rfl⟩
          · exact .inl hE
        · rintro (hE | ⟨-, -, rfl⟩)
          · exact .inr hE
          · exact .inl rfl
      · obtain ⟨needs', hneeds', hmem'⟩ := h.depends key hkey
        refine ⟨needs', by simp [named_insert, hkey', hneeds'], fun x => ?_⟩
        simp [hmem', Ne.symm hkey']
    · rw [Std.ExtTreeMap.mem_insert, Std.LawfulEqCmp.compare_eq_iff_eq] at hkey
      rcases hkey with rfl | hkey
      · exact hgroup
      · exact h.keys key hkey
    · rw [named_insert]
      by_cases hkey' : parentGroup = key
      · subst hkey'
        rw [if_pos rfl, Option.getD_some, Finset.mem_insert, h.dependents]
        constructor
        · rintro (rfl | hE)
          · exact .inr ⟨rfl, hself, rfl⟩
          · exact .inl hE
        · rintro (hE | ⟨rfl, -, -⟩)
          · exact .inr hE
          · exact .inl rfl
      · rw [if_neg hkey', h.dependents]
        simp [Ne.symm hkey']

theorem Dependencies.Hold.noteParents {d : Dependencies} {E : String → String → Prop} (h : d.Hold A E)
    {group : String} {parents : List String} (hgroup : group ∈ A)
    (howners : ∀ p ∈ parents, ∃ key : String, owner[p]? = some key) :
    ∃ d', parents.foldlM (Dependencies.note owner group) d = some d' ∧
      d'.Hold A fun g x => E g x ∨ g = group ∧ x ≠ group ∧ ∃ p ∈ parents, owner[p]? = some x := by
  induction parents generalizing d E with
  | nil => exact ⟨d, rfl, h.congr (by simp)⟩
  | cons p parents ih =>
      obtain ⟨key, hkey⟩ := howners p List.mem_cons_self
      obtain ⟨d₁, hnote, h₁⟩ := h.note hgroup hkey
      obtain ⟨d₂, hrest, h₂⟩ := ih h₁ fun q hq => howners q (List.mem_cons_of_mem _ hq)
      refine ⟨d₂, by rw [List.foldlM_cons, hnote]; exact hrest, h₂.congr fun g x => ?_⟩
      simp only [List.exists_mem_cons_iff, hkey, Option.some.injEq, eq_comm (a := key)]
      tauto

/-- The edges a list of owned events gives. -/
def Edges (owner : Named String) (events : Named EventRecord) (owned : List (String × String))
    (g x : String) : Prop :=
  ∃ o ∈ owned, g = o.2 ∧ x ≠ o.2 ∧ ∃ e : EventRecord, events[o.1]? = some e ∧
    ∃ p ∈ e.parents, owner[p]? = some x

theorem edges_cons {o : String × String} {owned : List (String × String)} {e : EventRecord}
    (hevent : events[o.1]? = some e) {g x : String} : Edges owner events (o :: owned) g x ↔
      (g = o.2 ∧ x ≠ o.2 ∧ ∃ p ∈ e.parents, owner[p]? = some x) ∨ Edges owner events owned g x := by
  unfold Edges
  rw [List.exists_mem_cons_iff, hevent]
  simp

theorem Dependencies.Hold.noteEvents {d : Dependencies} {E : String → String → Prop} (h : d.Hold A E)
    (hC : Collected A owner events) {owned : List (String × String)}
    (howned : ∀ o ∈ owned, owner[o.1]? = some o.2) :
    ∃ d', owned.foldlM (Dependencies.noteEvent owner events) d = some d' ∧
      d'.Hold A fun g x => E g x ∨ Edges owner events owned g x := by
  induction owned generalizing d E with
  | nil => exact ⟨d, rfl, h.congr (by simp [Edges])⟩
  | cons o owned ih =>
      obtain ⟨c, hc, hdigest⟩ := (hC.owns _ _).mp (howned o List.mem_cons_self)
      obtain ⟨e, he, hevent⟩ := Checks.forall₂_mem_left (hC.events _ c hc) hdigest
      have hgroup : o.2 ∈ A := Std.ExtTreeMap.mem_iff_isSome_getElem?.mpr (by rw [hc]; rfl)
      obtain ⟨d₁, hnote, h₁⟩ := h.noteParents hgroup (hC.parents o.2 e ⟨c, hc, he⟩)
      obtain ⟨d₂, hrest, h₂⟩ := ih h₁ fun o' ho' => howned o' (List.mem_cons_of_mem _ ho')
      have hstep : d.noteEvent owner events o = some d₁ := by
        rw [Dependencies.noteEvent, show events[o.1]? = some e from hevent]
        exact hnote
      refine ⟨d₂, by rw [List.foldlM_cons, hstep]; exact hrest, h₂.congr fun g x => ?_⟩
      rw [edges_cons hevent, or_assoc]

/-- **The maps hold what follows what.** -/
theorem collect_hold (hC : Collected A owner events) :
    ∃ d, Dependencies.collect A owner events = some d ∧ d.Hold A (A.Follows owner) := by
  have hstart : Dependencies.Hold A ⟨A.map fun _ _ => ∅, ∅⟩ fun _ _ => False := by
    refine ⟨fun key hkey => ⟨∅, ?_, by simp⟩, fun key hkey => ?_, fun key x => ?_⟩
    · obtain ⟨c, hc⟩ := Option.isSome_iff_exists.mp (Std.ExtTreeMap.mem_iff_isSome_getElem?.mp hkey)
      rw [Std.ExtTreeMap.getElem?_map, hc]
      rfl
    · exact Std.ExtTreeMap.mem_map.mp hkey
    · simp
  obtain ⟨d, hcollect, hd⟩ := hstart.noteEvents hC
    fun o ho => Std.ExtTreeMap.mem_toList_iff_getElem?_eq_some.mp ho
  refine ⟨d, hcollect, hd.congr fun g x => ?_⟩
  simp only [false_or, Edges, Archive.Follows]
  constructor
  · rintro ⟨o, ho, rfl, hne, e, hevent, hparent⟩
    obtain ⟨c, hc, hdigest⟩ := (hC.owns _ _).mp (Std.ExtTreeMap.mem_toList_iff_getElem?_eq_some.mp ho)
    obtain ⟨e', he', hevent'⟩ := Checks.forall₂_mem_left (hC.events _ c hc) hdigest
    obtain rfl := Option.some.inj (hevent.symm.trans hevent')
    exact ⟨hne, e, ⟨c, hc, he'⟩, hparent⟩
  · rintro ⟨hne, e, ⟨c, hc, he⟩, hparent⟩
    obtain ⟨digest, hdigest, hevent⟩ := Checks.forall₂_mem_right (hC.events _ c hc) he
    exact ⟨(digest, g), Std.ExtTreeMap.mem_toList_iff_getElem?_eq_some.mpr
      ((hC.owns _ _).mpr ⟨c, hc, hdigest⟩), rfl, hne, e, hevent, hparent⟩

/-! ## The loop takes the greedy order -/

theorem rankOf_eq {key : String} (h : key ∈ A) : rankOf A key = some ((graph A owner).rank key) := by
  obtain ⟨c, hc⟩ := Option.isSome_iff_exists.mp (Std.ExtTreeMap.mem_iff_isSome_getElem?.mp h)
  simp [rankOf, graph, hc]

/-- The counters as a function. -/
def counts (remaining : Named Nat) (key : String) : Nat := remaining[key]?.getD 0

/-- Counting down finds a counter above zero for every group, and does what `release` does. -/
theorem countDown_release (owner : Named String) (keys : List String) (remaining : Named Nat)
    {ds : List String} (hds : ds.Nodup) (hnodes : ∀ d ∈ ds, d ∈ A) (hcounts : ∀ d ∈ ds, ∃ n, remaining[d]? = some (n + 1)) :
    ∃ remaining' : Named Nat,
      ds.foldlM (countDown A) (remaining, keys.map (graph A owner).rank) =
        some (remaining', (Kahn.Graph.release (counts remaining) keys ds).2.map (graph A owner).rank) ∧
      counts remaining' = (Kahn.Graph.release (counts remaining) keys ds).1 ∧
      ∀ key : String, key ∈ remaining → key ∈ remaining' := by
  induction ds generalizing remaining keys with
  | nil => exact ⟨remaining, rfl, rfl, fun _ => id⟩
  | cons d ds ih =>
      obtain ⟨hd, hds⟩ := List.nodup_cons.mp hds
      obtain ⟨n, hn⟩ := hcounts d List.mem_cons_self
      have hcount : counts remaining d = n + 1 := by rw [counts, hn]; rfl
      have hupdate : counts (remaining.insert d n) = Function.update (counts remaining) d n := by
        funext key
        unfold counts
        rw [named_insert, Function.update_apply]
        by_cases hkey : d = key
        · simp [hkey]
        · rw [if_neg hkey, if_neg (Ne.symm hkey)]
      have hstep : countDown A (remaining, keys.map (graph A owner).rank) d =
          some (remaining.insert d n, (if n = 0 then d :: keys else keys).map (graph A owner).rank) := by
        have hrank : rankOf A d = some ((graph A owner).rank d) := rankOf_eq (hnodes d List.mem_cons_self)
        unfold countDown
        by_cases hzero : n = 0 <;> simp [hn, hzero, hrank]
      have hother : ∀ x ∈ ds, ∃ m, (remaining.insert d n)[x]? = some (m + 1) := by
        intro x hx
        have hne : d ≠ x := fun heq => hd (heq ▸ hx)
        rw [named_insert, if_neg hne]
        exact hcounts x (List.mem_cons_of_mem _ hx)
      obtain ⟨remaining', hrest, hcounts', hkeys⟩ := ih (if n = 0 then d :: keys else keys)
        (remaining.insert d n) hds (fun x hx => hnodes x (List.mem_cons_of_mem _ hx)) hother
      rw [hupdate] at hrest hcounts'
      refine ⟨remaining', ?_, ?_, fun key hkey => hkeys key (Std.ExtTreeMap.mem_insert.mpr (.inr hkey))⟩
      · rw [List.foldlM_cons, hstep, Kahn.Graph.release, hcount]
        exact hrest
      · rw [Kahn.Graph.release, hcount]
        exact hcounts'

/-- The least entry of the heap is that of the group of least rank. -/
theorem min?_map_rank {keys : List String} {least : Int ×ₗ String}
    (h : (keys.map (graph A owner).rank).min? = some least) :
    (ofLex least).2 ∈ keys ∧ (graph A owner).rank (ofLex least).2 = least ∧
      ∀ key ∈ keys, (graph A owner).rank (ofLex least).2 ≤ (graph A owner).rank key := by
  obtain ⟨hmem, hleast⟩ := List.min?_eq_some_iff.mp h
  obtain ⟨key, hkey, rfl⟩ := List.mem_map.mp hmem
  have hname : (ofLex ((graph A owner).rank key)).2 = key := rfl
  rw [hname]
  exact ⟨hkey, rfl, fun key' hkey' => hleast _ (List.mem_map_of_mem hkey')⟩

theorem map_rank_erase (A : Archive) (owner : Named String) (keys : List String) (key : String) :
    (keys.map (graph A owner).rank).erase ((graph A owner).rank key) =
      (keys.erase key).map (graph A owner).rank := by
  have hinj : Function.Injective (graph A owner).rank := fun x y h =>
    congrArg (fun r : Int ×ₗ String => (ofLex r).2) h
  exact (List.map_erase hinj keys).symm

/-- The loop ends before its fuel does, without a panic, and takes the greedy order. -/
theorem drain_greedy {d : Dependencies} (hd : d.Hold A (A.Follows owner)) {fuel : Nat}
    {done : Finset String} {remaining : Named Nat} {keys : List String}
    (h : (graph A owner).Running done (counts remaining) keys)
    (hkeys : ∀ key : String, key ∈ A → key ∈ remaining)
    (hfuel : (graph A owner).nodes.length < fuel + done.card) :
    ∃ order, drain A d.dependents fuel remaining (keys.map (graph A owner).rank) = some order ∧
      (graph A owner).Greedy done order := by
  induction fuel generalizing done remaining keys with
  | zero =>
      -- more are done than there are
      have hsubset : done ⊆ (graph A owner).nodes.toFinset := fun k hk =>
        List.mem_toFinset.mpr (h.subset k hk)
      have hcard := Finset.card_le_card hsubset
      rw [List.toFinset_card_of_nodup (graph A owner).nodes_nodup] at hcard
      omega
  | succ fuel ih =>
      rw [drain]
      cases hmin : (keys.map (graph A owner).rank).min? with
      | none =>
          rw [List.min?_eq_none_iff, List.map_eq_nil_iff] at hmin
          exact ⟨[], rfl, .stop fun k hready => by simpa [hmin] using (h.ready k).mpr hready⟩
      | some least =>
          obtain ⟨hk, hrank, hleast⟩ := min?_map_rank hmin
          generalize hkey : (ofLex least).2 = k at hk hrank hleast ⊢
          have hready := (h.ready k).mp hk
          -- the groups that follow `k`, in the order of the set
          have hds : ((d.dependents[k]?.getD ∅).sort (· ≤ ·)).Nodup := Finset.sort_nodup _ _
          have hmem : ∀ x, x ∈ (d.dependents[k]?.getD ∅).sort (· ≤ ·) ↔
              x ∈ (graph A owner).nodes ∧ k ∈ (graph A owner).depends x := by
            intro x
            rw [Finset.mem_sort, hd.dependents, mem_depends_iff, mem_nodes]
            exact ⟨fun hfollows => ⟨hfollows.mem, hfollows⟩, fun hx => hx.2⟩
          -- each of them still waits for `k`, so its counter is not zero
          have hwaits : ∀ x ∈ (d.dependents[k]?.getD ∅).sort (· ≤ ·), ∃ n, remaining[x]? = some (n + 1) := by
            intro x hx
            obtain ⟨hnode, hdepends⟩ := (hmem x).mp hx
            obtain ⟨n, hn⟩ := Option.isSome_iff_exists.mp
              (Std.ExtTreeMap.mem_iff_isSome_getElem?.mp (hkeys x (mem_nodes.mp hnode)))
            have hpos : 0 < counts remaining x := by
              rw [h.remaining x hnode]
              exact List.length_pos_of_mem (List.mem_filter.mpr ⟨hdepends, decide_eq_true hready.2.1⟩)
            rw [counts, hn, Option.getD_some] at hpos
            exact ⟨n - 1, by rw [hn, Nat.sub_add_cancel hpos]⟩
          obtain ⟨remaining', hcount, hcounts', hkeys'⟩ :=
            countDown_release owner (keys.erase k) remaining hds (fun x hx => mem_nodes.mp ((hmem x).mp hx).1) hwaits
          have hstep := h.step hk hds hmem
          rw [← hcounts'] at hstep
          obtain ⟨order, hrest, hgreedy⟩ := ih hstep (fun key hkey => hkeys' key (hkeys key hkey)) (by
            rw [Finset.card_insert_of_notMem hready.2.1]
            omega)
          refine ⟨k :: order, ?_, .next hready (fun k' hready' =>
            hleast k' ((h.ready k').mpr hready')) hgreedy⟩
          have herase := map_rank_erase A owner keys k
          rw [hrank] at herase
          simp only [hkey, herase, hcount, hrest, Option.bind_eq_bind, Option.bind_some, Option.pure_def]

/-! ## The run -/

theorem takeOrdered_eq {order : List String} {B : Named Committed} (hnodup : order.Nodup)
    (hmem : ∀ key ∈ order, key ∈ B) : takeOrdered B order = some (order.filterMap (B[·]?)) := by
  induction order generalizing B with
  | nil => rfl
  | cons key order ih =>
      obtain ⟨hnot, hnodup⟩ := List.nodup_cons.mp hnodup
      obtain ⟨c, hc⟩ := Option.isSome_iff_exists.mp
        (Std.ExtTreeMap.mem_iff_isSome_getElem?.mp (hmem key List.mem_cons_self))
      have hother : ∀ k ∈ order, (B.erase key)[k]? = B[k]? := by
        intro k hk
        rw [Std.ExtTreeMap.getElem?_erase, if_neg]
        rw [Std.LawfulEqCmp.compare_eq_iff_eq]
        rintro rfl
        exact hnot hk
      have hrest := ih (B := B.erase key) hnodup fun k hk =>
        Std.ExtTreeMap.mem_iff_isSome_getElem?.mpr (by
          rw [hother k hk]
          exact Std.ExtTreeMap.mem_iff_isSome_getElem?.mp (hmem k (List.mem_cons_of_mem _ hk)))
      rw [takeOrdered, hc, hrest]
      simp only [Option.bind_eq_bind, Option.bind_some, Option.pure_def, List.filterMap_cons, hc,
        List.filterMap_congr hother]

/-- The groups that wait for nothing, as the maps tell. -/
theorem running_collected {d : Dependencies} (hd : d.Hold A (A.Follows owner)) :
    (graph A owner).Running ∅ (counts (d.depends.map fun _ needs => needs.card))
      ((d.depends.toList.filter fun n => n.2 = ∅).map Prod.fst) := by
  refine ⟨by simp, by simp, fun key hkey => ?_, ?_, fun key => ?_⟩
  · obtain ⟨needs, hneeds, hmem⟩ := hd.depends key (mem_nodes.mp hkey)
    have hset : ((graph A owner).depends key).toFinset = needs := by
      ext x
      rw [List.mem_toFinset, mem_depends_iff, hmem]
    simp only [counts, Std.ExtTreeMap.getElem?_map, hneeds, Option.map_some, Option.getD_some, ← hset,
      List.toFinset_card_of_nodup ((graph A owner).depends_nodup key)]
    simp
  · refine (List.Nodup.sublist ((List.filter_sublist).map Prod.fst) ?_)
    rw [List.nodup_iff_pairwise_ne, List.pairwise_map]
    exact Std.ExtTreeMap.distinct_keys_toList.imp fun hne heq =>
      hne (Std.LawfulEqCmp.compare_eq_iff_eq.mpr heq)
  · simp only [List.mem_map, List.mem_filter, Prod.exists, exists_and_right, exists_eq_right,
      Std.ExtTreeMap.mem_toList_iff_getElem?_eq_some, decide_eq_true_eq, Kahn.Graph.Ready,
      Finset.notMem_empty, not_false_eq_true, true_and, mem_nodes]
    constructor
    · intro hneeds
      have hkey : key ∈ A :=
        hd.keys key (Std.ExtTreeMap.mem_iff_isSome_getElem?.mpr (by rw [hneeds]; rfl))
      obtain ⟨_, hneeds', hmem⟩ := hd.depends key hkey
      obtain rfl := Option.some.inj (hneeds.symm.trans hneeds')
      exact ⟨hkey, fun x hx => by simpa using (hmem x).mpr (mem_depends_iff.mp hx)⟩
    · rintro ⟨hkey, hnone⟩
      obtain ⟨needs, hneeds, hmem⟩ := hd.depends key hkey
      have hempty : needs = ∅ := Finset.eq_empty_iff_forall_notMem.mpr fun x hx =>
        hnone x (mem_depends_iff.mpr ((hmem x).mp hx))
      rw [hneeds, hempty]

theorem mapM_rankOf (owner : Named String) {l : List (String × Finset String)}
    (h : ∀ n ∈ l, n.1 ∈ A) : l.mapM (fun n => rankOf A n.1) =
      some ((l.map Prod.fst).map (graph A owner).rank) := by
  induction l with
  | nil => rfl
  | cons n l ih =>
      rw [List.mapM_cons, rankOf_eq (h n List.mem_cons_self),
        ih fun n' hn' => h n' (List.mem_cons_of_mem _ hn')]
      rfl

theorem graph_ranked (A : Archive) (owner : Named String) : (graph A owner).Ranked := by
  intro key _ key' _ hrank
  exact (Prod.mk.inj (toLex.injective hrank)).2

/-- **The maps, the counters and the heap compute `replayOrder`, and nothing panics.** -/
theorem replayOrderRun_eq (hC : Collected A owner events) :
    replayOrderRun A owner events = some (replayOrder A owner) := by
  obtain ⟨d, hcollect, hd⟩ := collect_hold hC
  have hrunning := running_collected hd
  have hready := mapM_rankOf owner (l := d.depends.toList.filter fun n => n.2 = ∅) fun n hn =>
    hd.keys n.1 (Std.ExtTreeMap.mem_iff_isSome_getElem?.mpr (by
      rw [Std.ExtTreeMap.mem_toList_iff_getElem?_eq_some.mp (List.mem_filter.mp hn).1]
      rfl))
  have hkeys : ∀ key : String, key ∈ A → key ∈ d.depends.map fun _ needs => needs.card := by
    intro key hkey
    obtain ⟨needs, hneeds, -⟩ := hd.depends key hkey
    rw [Std.ExtTreeMap.mem_map]
    exact Std.ExtTreeMap.mem_iff_isSome_getElem?.mpr (by rw [hneeds]; rfl)
  have hfuel : (graph A owner).nodes.length < A.size + 1 + (∅ : Finset String).card := by
    rw [Finset.card_empty, Nat.add_zero, show (graph A owner).nodes = A.keys from rfl,
      Std.ExtTreeMap.length_keys]
    exact Nat.lt_succ_self _
  obtain ⟨order, hdrain, hgreedy⟩ := drain_greedy hd hrunning hkeys hfuel
  obtain rfl := hgreedy.unique (graph_ranked A owner) (Kahn.Graph.kahn_greedy _)
  have htaken : takeOrdered A (graph A owner).kahn = some ((graph A owner).kahn.filterMap (A[·]?)) :=
    takeOrdered_eq hgreedy.nodup fun key hkey => mem_nodes.mp (hgreedy.mem hkey).1
  unfold replayOrderRun replayOrder
  simp only [hcollect, hready, hdrain, Option.bind_eq_bind, Option.bind_some, Std.ExtTreeMap.length_keys,
    htaken]
  split_ifs <;> rfl

section Loading

variable {P : Platform} {files : Files} {t : String} {blobs : List (String × Bytes)}

/-- What the check of the parents leaves true of a committed event. -/
theorem Building.parent (h : Building P files t events blobs A owner)
    (hparents : checkParents events owner = .ok ()) {key p : String} {e : EventRecord}
    (he : A.Has key e) (hp : p ∈ e.parents) :
    ∃ key' e', owner[p]? = some key' ∧ Among events p e' ∧ e'.streamType = e.streamType ∧
      e'.streamId = e.streamId ∧ (key' = key → e'.index < e.index) := by
  obtain ⟨c, hc, he⟩ := he
  obtain ⟨digest, hdigest, hevent⟩ := Checks.forall₂_mem_right (h.found key c hc).events.forall₂ he
  have howned : (digest, key) ∈ owner.toList :=
    Std.ExtTreeMap.mem_toList_iff_getElem?_eq_some.mpr ((h.owns _ _).mpr ⟨c, hc, hdigest⟩)
  have hchecked := Checks.forM_eq_ok_iff.mp hparents _ howned
  rw [show events[digest]? = some e from hevent] at hchecked
  exact checkParent_eq_ok_iff.mp (Checks.forM_eq_ok_iff.mp hchecked p hp)

/-- What `load` has when it asks for the order. -/
theorem building_of_load
    (htake : takeGroups P files t events blobs ∅ ∅ (groupKeys files t) = .ok (A, owner)) :
    Building P files t events blobs A owner ∧ ∀ key : String, key ∈ A ↔ key ∈ groupKeys files t := by
  have hempty : Building P files t events blobs (∅ : Archive) (∅ : Named String) :=
    ⟨fun key c h => by simp at h, fun d k => by simp⟩
  simpa using takeGroups_building P hempty (nodup_groupKeys files t) (fun key _ => by simp) htake

/-- It is collected. -/
theorem collected_of_load
    (htake : takeGroups P files t events blobs ∅ ∅ (groupKeys files t) = .ok (A, owner))
    (hparents : checkParents events owner = .ok ()) : Collected A owner events := by
  obtain ⟨hbuilding, -⟩ := building_of_load htake
  refine ⟨hbuilding.owns, fun key c hc => (hbuilding.found key c hc).events.forall₂, ?_⟩
  intro key e he p hp
  obtain ⟨key', -, howner, -⟩ := hbuilding.parent hparents he hp
  exact ⟨key', howner⟩

end Loading

theorem awaits_eq_follows : (graph A owner).Awaits = A.Follows owner := by
  funext key key'
  unfold Kahn.Graph.Awaits
  rw [mem_nodes, mem_depends_iff]
  exact propext ⟨fun h => h.2, fun h => ⟨h.mem, h⟩⟩

theorem Collected.founded_iff (hC : Collected A owner events) :
    (graph A owner).Founded ↔ ¬ ∃ key, Relation.TransGen (A.Follows owner) key key := by
  have hclosed : ∀ key ∈ (graph A owner).nodes, ∀ d ∈ (graph A owner).depends key,
      d ∈ (graph A owner).nodes := fun key _ d hd => mem_nodes.mpr (hC.mem (mem_depends_iff.mp hd))
  rw [Kahn.Graph.founded_iff_acyclic hclosed, awaits_eq_follows, not_exists]

/-- The groups of an order of groups that are there. -/
theorem forall₂_filterMap {order : List String} (h : ∀ key ∈ order, key ∈ A) :
    List.Forall₂ (fun key c => A[key]? = some c) order (order.filterMap (A[·]?)) := by
  induction order with
  | nil => exact .nil
  | cons key order ih =>
      obtain ⟨c, hc⟩ := Option.isSome_iff_exists.mp
        (Std.ExtTreeMap.mem_iff_isSome_getElem?.mp (h key List.mem_cons_self))
      rw [List.filterMap_cons, hc]
      exact .cons hc (ih fun k hk => h k (List.mem_cons_of_mem _ hk))

/-- **`replay_order` ends without a panic.  It refuses exactly groups that follow each other in
    a circle, and otherwise returns the canonical causal order, of which there is one.** -/
theorem replayOrder_canonical (hC : Collected A owner events) :
    ∃ answer, replayOrderRun A owner events = some answer ∧
      ((∃ error, answer = .error error) ↔ ∃ key, Relation.TransGen (A.Follows owner) key key) ∧
      ∀ groups, answer = .ok groups → ∃ order, Canonical A owner order ∧
        List.Forall₂ (fun key c => A[key]? = some c) order groups ∧
        ∀ order', Canonical A owner order' → order' = order := by
  refine ⟨_, replayOrderRun_eq hC, ?_, fun groups hgroups => ?_⟩
  · rw [← not_not (a := ∃ key, Relation.TransGen (A.Follows owner) key key), ← hC.founded_iff]
    constructor
    · rintro ⟨error, herror⟩ hfounded
      exact nomatch herror.symm.trans (replayOrder_eq_ok_iff.mpr ⟨hfounded, rfl⟩)
    · intro hnot
      cases hanswer : replayOrder A owner with
      | error error => exact ⟨error, rfl⟩
      | ok groups => exact absurd (replayOrder_eq_ok_iff.mp hanswer).1 hnot
  · obtain ⟨hfounded, rfl⟩ := replayOrder_eq_ok_iff.mp hgroups
    have hgreedy := Kahn.Graph.kahn_greedy (graph A owner)
    have hperm := hgreedy.perm hfounded
    refine ⟨_, canonical_iff.mpr ⟨hperm, hgreedy⟩,
      forall₂_filterMap fun key hkey => mem_nodes.mp (hperm.mem_iff.mp hkey), fun order' horder' => ?_⟩
    exact (canonical_iff.mp horder').2.unique (graph_ranked A owner) hgreedy

/-! ## A group and one that follows it -/

def sampleRecord (key digest : String) (parents : List String) : EventRecord :=
  ⟨"t", "account", "a", digest, "e", 1, sampleTime, parents, key, 0, "", .obj [], none⟩

/-- A group of one event. -/
def sampleCommitted (key digest : String) (parents : List String) : Committed where
  record := ⟨"t", .Append, sampleCommand key, [⟨"account", "a", .Any, [digest]⟩], [], sampleTime⟩
  events := [[sampleRecord key digest parents]]
  blobs := []

def sampleArchive : Archive :=
  ((∅ : Archive).insert "g" (sampleCommitted "g" "d" ["e"])).insert "h" (sampleCommitted "h" "e" [])

def sampleOwner : Named String := ((∅ : Named String).insert "d" "g").insert "e" "h"

def sampleEvents : Named EventRecord :=
  ((∅ : Named EventRecord).insert "d" (sampleRecord "g" "d" ["e"])).insert "e" (sampleRecord "h" "e" [])

theorem sampleArchive_eq_some_iff {key : String} {c : Committed} : sampleArchive[key]? = some c ↔
    key = "h" ∧ c = sampleCommitted "h" "e" [] ∨ key = "g" ∧ c = sampleCommitted "g" "d" ["e"] := by
  simp only [sampleArchive, named_insert]
  split_ifs with h h' <;> simp_all [eq_comm]

theorem sampleOwner_eq_some_iff {d key : String} : sampleOwner[d]? = some key ↔
    d = "e" ∧ key = "h" ∨ d = "d" ∧ key = "g" := by
  simp only [sampleOwner, named_insert]
  split_ifs with h h' <;> simp_all [eq_comm]

theorem sample_collected : Collected sampleArchive sampleOwner sampleEvents := by
  refine ⟨fun d key => ?_, fun key c hc => ?_, fun key e he p hp => ?_⟩
  · simp only [sampleOwner_eq_some_iff, sampleArchive_eq_some_iff]
    constructor
    · rintro (⟨rfl, rfl⟩ | ⟨rfl, rfl⟩)
      · exact ⟨_, .inl ⟨rfl, rfl⟩, by decide⟩
      · exact ⟨_, .inr ⟨rfl, rfl⟩, by decide⟩
    · rintro ⟨c, ⟨rfl, rfl⟩ | ⟨rfl, rfl⟩, hd⟩
      · exact .inl ⟨List.mem_singleton.mp hd, rfl⟩
      · exact .inr ⟨List.mem_singleton.mp hd, rfl⟩
  · rcases sampleArchive_eq_some_iff.mp hc with ⟨-, rfl⟩ | ⟨-, rfl⟩
    · exact .cons (by rw [Among, sampleEvents, named_insert, if_pos rfl]) .nil
    · exact .cons (by
        rw [Among, sampleEvents, named_insert, if_neg (by decide), named_insert, if_pos rfl]) .nil
  · obtain ⟨c, hc, he⟩ := he
    refine ⟨"h", sampleOwner_eq_some_iff.mpr (.inl ⟨?_, rfl⟩)⟩
    rcases sampleArchive_eq_some_iff.mp hc with ⟨-, rfl⟩ | ⟨-, rfl⟩
    · obtain rfl := List.mem_singleton.mp he
      exact absurd hp List.not_mem_nil
    · obtain rfl := List.mem_singleton.mp he
      exact List.mem_singleton.mp hp

theorem replayOrder_canonical_sample :
    ∃ answer, replayOrderRun sampleArchive sampleOwner sampleEvents = some answer ∧
      ((∃ error, answer = .error error) ↔
        ∃ key, Relation.TransGen (sampleArchive.Follows sampleOwner) key key) ∧
      ∀ groups, answer = .ok groups → ∃ order, Canonical sampleArchive sampleOwner order ∧
        List.Forall₂ (fun key c => sampleArchive[key]? = some c) order groups ∧
        ∀ order', Canonical sampleArchive sampleOwner order' → order' = order :=
  replayOrder_canonical sample_collected

-- the group with the smaller key has to wait
example : (replayOrderRun sampleArchive sampleOwner sampleEvents).map
    (fun answer => answer.toOption.map (·.map (·.record.command.idempotencyKey))) =
      some (some ["h", "g"]) := by decide +kernel

end Order

end Eventlog.Tree
