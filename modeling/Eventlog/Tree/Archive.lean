import Eventlog.Tree.Rebuild

/-!
# Eventlog.Tree.Archive

What `load` has of a tenant once it has gone through the group files: a map from the name of each
file to the group with its events (`Archive`), and the group that owns each event.

An event names its group and its place there, so no two groups can have it: the check of `load`
for that never fires (`OwnedBelow.fresh`).
-/

namespace Eventlog.Tree

open Durable
open File (Table)

variable (P : Platform)

/-! ## Group files -/

theorem asGroup_eq_some_iff {path : Path} {g : String × String} :
    asGroup path = some g ↔ path = groupPath g.1 g.2 := by
  unfold asGroup groupPath
  split
  · obtain ⟨t, k⟩ := g
    simp
  · next h =>
      constructor
      · intro h'; exact nomatch h'
      · rintro rfl
        exact absurd rfl (h g.1 g.2)

theorem nodup_groupKeys (files : Files) (t : String) : (groupKeys files t).Nodup := by
  refine List.Nodup.filterMap ?_ (List.Nodup.filterMap ?_ files.nodup_keys)
  · rintro ⟨t₁, k₁⟩ ⟨t₂, k₂⟩ key h₁ h₂
    simp only [Option.mem_def, Option.ite_none_right_eq_some, Option.some.injEq] at h₁ h₂
    rw [h₁.1, h₂.1, h₁.2, h₂.2]
  · intro p q g hp hq
    rw [asGroup_eq_some_iff.mp hp, asGroup_eq_some_iff.mp hq]

/-- The events of a loaded tenant, as what their digests name. -/
def Among (events : Named EventRecord) (d : String) (e : EventRecord) : Prop := events[d]? = some e

/-! ## Groups with their events -/

/-- An event is the one a group names at a place. -/
structure EventRecord.Fits (e : EventRecord) (tenant key : String) (member : Member) (index : Nat) :
    Prop where
  group : e.group = key
  index : e.index = index
  streamType : e.streamType = member.streamType
  streamId : e.streamId = member.streamId
  tenant : e.tenant = tenant

/-- The events a member names, from a place on; `R` says which event a digest names. -/
inductive Takes (R : String → EventRecord → Prop) (tenant key : String) (member : Member) :
    Nat → List String → List EventRecord → Prop
  | nil {i : Nat} : Takes R tenant key member i [] []
  | cons {i : Nat} {d : String} {ds : List String} {e : EventRecord} {es : List EventRecord}
      (hevent : R d e) (hfits : e.Fits tenant key member i)
      (hrest : Takes R tenant key member (i + 1) ds es) :
      Takes R tenant key member i (d :: ds) (e :: es)

/-- The events the members of a group name, from a place on. -/
inductive TakesAll (R : String → EventRecord → Prop) (tenant key : String) :
    Nat → List Member → List (List EventRecord) → Prop
  | nil {i : Nat} : TakesAll R tenant key i [] []
  | cons {i : Nat} {m : Member} {ms : List Member} {es : List EventRecord}
      {ess : List (List EventRecord)} (hmember : Takes R tenant key m i m.events es)
      (hrest : TakesAll R tenant key (i + m.events.length) ms ess) :
      TakesAll R tenant key i (m :: ms) (es :: ess)

section Takes

variable {R R' : String → EventRecord → Prop} {tenant key : String} {member : Member} {i : Nat}
  {ds : List String} {es : List EventRecord} {ms : List Member} {ess : List (List EventRecord)}

theorem Takes.forall₂ (h : Takes R tenant key member i ds es) : List.Forall₂ R ds es := by
  induction h with
  | nil => exact .nil
  | cons hevent _ _ ih => exact .cons hevent ih

theorem TakesAll.forall₂ (h : TakesAll R tenant key i ms ess) :
    List.Forall₂ R (ms.flatMap Member.events) ess.flatten := by
  induction h with
  | nil => exact .nil
  | cons hmember _ ih => exact List.rel_append hmember.forall₂ ih

end Takes

/-- Every owned event is owned by the group it names; those of `key` come before a place. -/
def OwnedBelow (events : Named EventRecord) (owner : Named String) (key : String) (index : Nat) :
    Prop :=
  ∀ d k : String, owner[d]? = some k →
    ∃ e : EventRecord, events[d]? = some e ∧ e.group = k ∧ (k = key → e.index < index)

section Taking

variable {events : Named EventRecord} {record : GroupRecord} {key : String} {member : Member}
  {index : Nat} {owner owner' : Named String}

theorem takeEvent_eq_ok_iff {d : String} {e : EventRecord} :
    takeEvent events record key member index owner d = .ok (e, owner') ↔
      events[d]? = some e ∧ e.Fits record.tenant key member index ∧ owner.contains d = false ∧
        owner' = owner.insert d key := by
  unfold takeEvent
  rcases events[d]? with _ | event
  · simp
  · dsimp only
    split
    · next h =>
        constructor
        · intro h'; exact nomatch h'
        · rintro ⟨heq, hfits, -⟩
          obtain rfl := Option.some.inj heq
          have := hfits.group; have := hfits.index; have := hfits.streamType
          have := hfits.streamId; have := hfits.tenant
          tauto
    · next h =>
        split
        · next hcontains =>
            constructor
            · intro h'; exact nomatch h'
            · rintro ⟨-, -, hfresh, -⟩
              rw [hcontains] at hfresh
              exact nomatch hfresh
        · next hcontains =>
            simp only [Except.ok.injEq, Prod.mk.injEq, Option.some.injEq]
            constructor
            · rintro ⟨rfl, rfl⟩
              push Not at h
              exact ⟨rfl, ⟨h.1, h.2.1, h.2.2.1, h.2.2.2.1, h.2.2.2.2⟩, by simpa only [Bool.not_eq_true] using hcontains, rfl⟩
            · rintro ⟨rfl, -, -, rfl⟩
              exact ⟨rfl, rfl⟩

/-- An event that fits is not owned yet. -/
theorem OwnedBelow.fresh (h : OwnedBelow events owner key index) {d : String} {e : EventRecord}
    {tenant : String} (hevent : events[d]? = some e) (hfits : e.Fits tenant key member index) :
    owner.contains d = false := by
  by_contra hcontains
  rw [Bool.not_eq_false, Std.ExtTreeMap.contains_iff_mem, Std.ExtTreeMap.mem_iff_isSome_getElem?,
    Option.isSome_iff_exists] at hcontains
  obtain ⟨k, hk⟩ := hcontains
  obtain ⟨e', he', hgroup, hless⟩ := h d k hk
  obtain rfl := Option.some.inj (hevent.symm.trans he')
  have hlt := hless (hgroup.symm.trans hfits.group)
  rw [hfits.index] at hlt
  exact absurd hlt (lt_irrefl _)

theorem OwnedBelow.insert (h : OwnedBelow events owner key index) {d : String} {e : EventRecord}
    {tenant : String} (hevent : events[d]? = some e) (hfits : e.Fits tenant key member index) :
    OwnedBelow events (owner.insert d key) key (index + 1) := by
  intro d' k hk
  rw [named_insert] at hk
  split at hk
  · next heq =>
      subst heq
      obtain rfl := Option.some.inj hk
      exact ⟨e, hevent, hfits.group, fun _ => by rw [hfits.index]; omega⟩
  · obtain ⟨e', he', hgroup, hless⟩ := h d' k hk
    exact ⟨e', he', hgroup, fun hkey => Nat.lt_succ_of_lt (hless hkey)⟩

/-- Reading the events of a member, once all it names fit: they become owned. -/
theorem takeMember_eq_ok_iff (hbelow : OwnedBelow events owner key index) {ds : List String}
    {es : List EventRecord} :
    takeMember events record key member index owner ds = .ok (es, owner') ↔
      Takes (Among events) record.tenant key member index ds es ∧
        owner' = owner.insertMany (ds.map (·, key)) := by
  induction ds generalizing index owner es with
  | nil =>
      simp only [takeMember, Except.ok.injEq, Prod.mk.injEq, List.map_nil,
        Std.ExtTreeMap.insertMany_nil]
      constructor
      · rintro ⟨rfl, rfl⟩
        exact ⟨.nil, rfl⟩
      · rintro ⟨hnil, rfl⟩
        cases hnil
        exact ⟨rfl, rfl⟩
  | cons d ds ih =>
      simp only [takeMember, Checks.bind_eq_ok_iff, Checks.pure_eq_ok_iff, Prod.exists,
        takeEvent_eq_ok_iff, List.map_cons, Std.ExtTreeMap.insertMany_cons]
      constructor
      · rintro ⟨e, _, ⟨hevent, hfits, -, rfl⟩, es', _, hrest, heq⟩
        obtain ⟨rfl, rfl⟩ := Prod.mk.inj heq
        obtain ⟨htakes, rfl⟩ := (ih (hbelow.insert hevent hfits)).mp hrest
        exact ⟨.cons hevent hfits htakes, rfl⟩
      · rintro ⟨htakes, rfl⟩
        cases htakes with
        | cons hevent hfits hrest =>
            exact ⟨_, _, ⟨hevent, hfits, hbelow.fresh hevent hfits, rfl⟩, _, _,
              (ih (hbelow.insert hevent hfits)).mpr ⟨hrest, rfl⟩, rfl⟩

theorem OwnedBelow.takes (h : OwnedBelow events owner key index) {tenant : String} {ds : List String}
    {es : List EventRecord} (htakes : Takes (Among events) tenant key member index ds es) :
    OwnedBelow events (owner.insertMany (ds.map (·, key))) key (index + ds.length) := by
  induction htakes generalizing owner with
  | nil => simpa using h
  | cons hevent hfits _ ih =>
      have hnext := ih (h.insert hevent hfits)
      simp only [List.map_cons, Std.ExtTreeMap.insertMany_cons, List.length_cons]
      rwa [Nat.add_comm _ 1, ← Nat.add_assoc]

/-- The same for the members of a group. -/
theorem takeMembers_eq_ok_iff (hbelow : OwnedBelow events owner key index) {ms : List Member}
    {ess : List (List EventRecord)} :
    takeMembers events record key index owner ms = .ok (ess, owner') ↔
      TakesAll (Among events) record.tenant key index ms ess ∧
        owner' = owner.insertMany ((ms.flatMap Member.events).map (·, key)) := by
  induction ms generalizing index owner ess with
  | nil =>
      simp only [takeMembers, Except.ok.injEq, Prod.mk.injEq, List.flatMap_nil, List.map_nil,
        Std.ExtTreeMap.insertMany_nil]
      constructor
      · rintro ⟨rfl, rfl⟩
        exact ⟨.nil, rfl⟩
      · rintro ⟨hnil, rfl⟩
        cases hnil
        exact ⟨rfl, rfl⟩
  | cons m ms ih =>
      simp only [takeMembers, Checks.bind_eq_ok_iff, Checks.pure_eq_ok_iff, Prod.exists,
        takeMember_eq_ok_iff hbelow, List.flatMap_cons, List.map_append]
      constructor
      · rintro ⟨es, _, ⟨htakes, rfl⟩, ess', _, hrest, heq⟩
        obtain ⟨rfl, rfl⟩ := Prod.mk.inj heq
        obtain ⟨hall, rfl⟩ := (ih (hbelow.takes htakes)).mp hrest
        exact ⟨.cons htakes hall, Std.ExtTreeMap.insertMany_append.symm⟩
      · rintro ⟨hall, rfl⟩
        cases hall with
        | cons htakes hrest =>
            exact ⟨_, _, ⟨htakes, rfl⟩, _, _,
              (ih (hbelow.takes htakes)).mpr ⟨hrest, Std.ExtTreeMap.insertMany_append⟩, rfl⟩

theorem getElem?_insertMany_const (owner : Named String) (ds : List String) (key d : String) :
    (owner.insertMany (ds.map (·, key)))[d]? = if d ∈ ds then some key else owner[d]? := by
  induction ds generalizing owner with
  | nil => simp
  | cons d' ds ih =>
      rw [List.map_cons, Std.ExtTreeMap.insertMany_cons, ih, named_insert]
      by_cases hd : d ∈ ds
      · simp [hd]
      · simp [hd, eq_comm]

end Taking

/-! ## Archives -/

/-- A tenant's groups by the names of their files. -/
abbrev Archive : Type := Named Committed

/-- The digests a group names, in order. -/
def Committed.digests (c : Committed) : List String := c.record.members.flatMap Member.events

/-- Every digest is owned by the group that names it. -/
def Owns (A : Archive) (owner : Named String) : Prop :=
  ∀ d k : String, owner[d]? = some k ↔ ∃ c, A[k]? = some c ∧ d ∈ c.digests

/-- What files say a group is: its record, and the events it names. -/
structure Committed.Found (files : Files) (t : String) (events : Named EventRecord)
    (blobs : List (String × Bytes)) (key : String) (c : Committed) : Prop where
  record : loadGroup P files t key = .ok c.record
  events : TakesAll (Among events) c.record.tenant key 0 c.record.members c.events
  blobs : c.blobs = heldBlobs blobs c.record

theorem Takes.group {R : String → EventRecord → Prop} {tenant key : String} {member : Member}
    {i : Nat} {ds : List String} {es : List EventRecord} (h : Takes R tenant key member i ds es) :
    ∀ d ∈ ds, ∃ e : EventRecord, R d e ∧ e.group = key := by
  induction h with
  | nil => simp
  | cons hevent hfits _ ih =>
      intro d hd
      rcases List.mem_cons.mp hd with rfl | hd
      · exact ⟨_, hevent, hfits.group⟩
      · exact ih d hd

theorem TakesAll.group {R : String → EventRecord → Prop} {tenant key : String} {i : Nat}
    {ms : List Member} {ess : List (List EventRecord)} (h : TakesAll R tenant key i ms ess) :
    ∀ d ∈ ms.flatMap Member.events, ∃ e : EventRecord, R d e ∧ e.group = key := by
  induction h with
  | nil => simp
  | cons hmember _ ih =>
      intro d hd
      rw [List.flatMap_cons, List.mem_append] at hd
      rcases hd with hd | hd
      · exact hmember.group d hd
      · exact ih d hd

section Groups

variable {files : Files} {t : String} {events : Named EventRecord} {blobs : List (String × Bytes)}

/-- What the loop over the group files has built. -/
structure Building (P : Platform) (files : Files) (t : String) (events : Named EventRecord)
    (blobs : List (String × Bytes)) (A : Archive) (owner : Named String) : Prop where
  found : ∀ (key : String) (c : Committed), A[key]? = some c → c.Found P files t events blobs key
  owns : Owns A owner

theorem Building.below {A : Archive} {owner : Named String}
    (h : Building P files t events blobs A owner) {key : String} (hkey : A[key]? = none) :
    OwnedBelow events owner key 0 := by
  intro d k hk
  obtain ⟨c, hc, hd⟩ := (h.owns d k).mp hk
  obtain ⟨e, he, hgroup⟩ := (h.found k c hc).events.group d hd
  refine ⟨e, he, hgroup, ?_⟩
  rintro rfl
  rw [hkey] at hc
  exact nomatch hc

theorem Building.insert {A : Archive} {owner : Named String}
    (h : Building P files t events blobs A owner) {key : String} {c : Committed}
    (hkey : A[key]? = none) (hc : c.Found P files t events blobs key) :
    Building P files t events blobs (A.insert key c) (owner.insertMany (c.digests.map (·, key))) := by
  constructor
  · intro k c' hc'
    rw [named_insert] at hc'
    split at hc'
    · next heq =>
        obtain rfl := Option.some.inj hc'
        exact heq ▸ hc
    · exact h.found k c' hc'
  · intro d k
    rw [getElem?_insertMany_const]
    by_cases hd : d ∈ c.digests
    · -- no other group names an event of this one
      rw [if_pos hd]
      constructor
      · intro heq
        obtain rfl := Option.some.inj heq
        exact ⟨c, by rw [named_insert, if_pos rfl], hd⟩
      · rintro ⟨c', hc', hd'⟩
        rw [named_insert] at hc'
        split at hc'
        · next heq => rw [heq]
        · obtain ⟨e, he, hgroup⟩ := hc.events.group d hd
          obtain ⟨e', he', hgroup'⟩ := (h.found k c' hc').events.group d hd'
          obtain rfl := Option.some.inj (he.symm.trans he')
          rw [← hgroup, hgroup']
    · rw [if_neg hd, h.owns]
      constructor
      · rintro ⟨c', hc', hd'⟩
        refine ⟨c', ?_, hd'⟩
        rw [named_insert, if_neg]
        · exact hc'
        · rintro rfl
          rw [hkey] at hc'
          exact nomatch hc'
      · rintro ⟨c', hc', hd'⟩
        rw [named_insert] at hc'
        split at hc'
        · obtain rfl := Option.some.inj hc'
          exact absurd hd' hd
        · exact ⟨c', hc', hd'⟩

theorem insert_new {A : Archive} {key : String} {rest : List String} (c : Committed)
    (hkey : key ∉ rest) (hnew : ∀ k ∈ key :: rest, A[k]? = none) :
    ∀ k ∈ rest, (A.insert key c)[k]? = none := by
  intro k hk
  have hne : key ≠ k := fun heq => hkey (heq ▸ hk)
  rw [named_insert, if_neg hne]
  exact hnew k (List.mem_cons_of_mem _ hk)

theorem takeGroups_building {A A' : Archive} {owner owner' : Named String} {keys : List String}
    (h : Building P files t events blobs A owner) (hnodup : keys.Nodup)
    (hnew : ∀ key ∈ keys, A[key]? = none)
    (htake : takeGroups P files t events blobs A owner keys = .ok (A', owner')) :
    Building P files t events blobs A' owner' ∧
      ∀ key : String, key ∈ A' ↔ key ∈ A ∨ key ∈ keys := by
  induction keys generalizing A owner with
  | nil =>
      obtain ⟨rfl, rfl⟩ := Prod.mk.inj (Except.ok.inj htake)
      exact ⟨h, by simp⟩
  | cons key rest ih =>
      obtain ⟨hkey, hrest⟩ := List.nodup_cons.mp hnodup
      simp only [takeGroups, Checks.bind_eq_ok_iff, Prod.exists] at htake
      obtain ⟨record, hrecord, taken, owner₁, hmembers, htake⟩ := htake
      have hnone := hnew key List.mem_cons_self
      obtain ⟨htaken, rfl⟩ := (takeMembers_eq_ok_iff (h.below P hnone)).mp hmembers
      have hfound : Committed.Found P files t events blobs key
          ⟨record, taken, heldBlobs blobs record⟩ := ⟨hrecord, htaken, rfl⟩
      obtain ⟨hbuilt, hkeys⟩ := ih (h.insert P hnone hfound) hrest (insert_new _ hkey hnew) htake
      refine ⟨hbuilt, fun k => ?_⟩
      rw [hkeys, Std.ExtTreeMap.mem_insert, Std.LawfulEqCmp.compare_eq_iff_eq, List.mem_cons,
        eq_comm (a := key)]
      tauto

end Groups

/-! ## Sound archives -/

/-- The events of a group. -/
def Archive.Has (A : Archive) (key : String) (e : EventRecord) : Prop :=
  ∃ c, A[key]? = some c ∧ e ∈ c.events.flatten

section Sound

variable {P} {format : StoreFormat} {files : Files} {t : String} {events : Named EventRecord}
  {blobs : List (String × Bytes)} {A : Archive} {owner : Named String}

theorem checkParent_eq_ok_iff {group p : String} {e : EventRecord} :
    checkParent events owner group e p = .ok () ↔ ∃ key' e', owner[p]? = some key' ∧
      Among events p e' ∧ e'.streamType = e.streamType ∧ e'.streamId = e.streamId ∧
      (key' = group → e'.index < e.index) := by
  unfold checkParent Among
  rcases howner : owner[p]? with _ | key'
  · simp
  · rcases hevent : events[p]? with _ | e'
    · simp
    · simp only [Option.some.injEq, exists_and_left, exists_eq_left']
      split
      · next hstream =>
          simp only [reduceCtorEq, false_iff]
          tauto
      · next hstream =>
          push Not at hstream
          split
          · next hplace =>
              simp only [reduceCtorEq, false_iff]
              rintro ⟨-, -, hless⟩
              have := hless hplace.1
              omega
          · next hplace =>
              simp only [true_iff]
              refine ⟨hstream.1, hstream.2, fun hgroup => ?_⟩
              by_contra hge
              exact hplace ⟨hgroup, by omega⟩

theorem Archive.Has.mem {key : String} {e : EventRecord} (h : A.Has key e) : key ∈ A := by
  obtain ⟨c, hc, -⟩ := h
  exact Std.ExtTreeMap.mem_iff_isSome_getElem?.mpr (by rw [hc]; rfl)

theorem replayOrder_eq_ok_iff {groups : List Committed} :
    replayOrder A owner = .ok groups ↔
      (graph A owner).Founded ∧ groups = (graph A owner).kahn.filterMap (A[·]?) := by
  unfold replayOrder
  rw [show A.keys = (graph A owner).nodes from rfl]
  dsimp only
  split
  · next h =>
      rw [ne_eq, Kahn.Graph.length_kahn_iff] at h
      simp [h]
  · next h =>
      rw [not_not, Kahn.Graph.length_kahn_iff] at h
      simp [h, eq_comm]

end Sound

end Eventlog.Tree
