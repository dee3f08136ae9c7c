import Eventlog.Tree.Publishing
import Eventlog.Tree.ReplayOrder

/-!
# Eventlog.Tree.Loading

What `load` accepts is a causal history: every event is the one its digest names, and follows the
events its parents name (`load_causal`).
-/

namespace Eventlog.Tree

open Durable

variable {P : Platform} {format : StoreFormat} {files : Files} {t : String}

/-- A tenant's event under its own digest, with the body it was written with unless redacted. -/
structure EventRecord.Answers (P : Platform) (t digest : String) (e : EventRecord) : Prop where
  digest : e.digest P = .ok digest
  body : e.redacted = none → P.sha256 (canonical P e.data) = e.dataDigest
  tenant : e.tenant = t

/-- Where the receipt of a group's command lives, and under which key. -/
def GroupRecord.receipt (g : GroupRecord) : Json × String :=
  (scope g.kind g.tenant g.members, g.command.idempotencyKey)

/-- A causal history. -/
structure Causal (P : Platform) (t : String) (groups : List Committed) : Prop where
  /-- The digests a group names are those of its events. -/
  events : ∀ c ∈ groups, List.Forall₂ (EventRecord.Answers P t) c.digests c.events.flatten
  /-- No two groups commit one event. -/
  once : ∀ c ∈ groups, ∀ c' ∈ groups, ∀ d ∈ c.digests, d ∈ c'.digests → c = c'
  /-- No two groups are of one command. -/
  commands : ∀ c ∈ groups, ∀ c' ∈ groups, c.record.receipt = c'.record.receipt → c = c'
  /-- A parent is an event of the same stream, of an earlier group or earlier in the same one. -/
  parents : ∀ earlier c later, groups = earlier ++ c :: later → ∀ e ∈ c.events.flatten,
    ∀ p ∈ e.parents, ∃ c' e', e' ∈ c'.events.flatten ∧ e'.Answers P t p ∧
      e'.streamType = e.streamType ∧ e'.streamId = e.streamId ∧
      (c' ∈ earlier ∨ c' = c ∧ e'.index < e.index)

theorem loadEvents_answers {events : Named EventRecord}
    (h : loadEvents P format files t = .ok events) {d : String} {e : EventRecord}
    (he : Among events d e) : e.Answers P t d := by
  obtain ⟨loaded, hloaded, heq⟩ := Checks.bind_eq_ok_iff.mp h
  obtain rfl := Except.ok.inj heq
  have hmem : (d, e) ∈ loaded := by
    rw [Among, Std.ExtTreeMap.ofList_eq_insertMany_empty, Std.ExtTreeMap.getElem?_insertMany_list,
      Std.ExtTreeMap.getElem?_empty, Option.or_none, List.findSomeRev?_eq_findSome?_reverse] at he
    obtain ⟨⟨d', e'⟩, hmem, hsome⟩ := List.exists_of_findSome?_eq_some he
    obtain ⟨hd, he'⟩ := Option.ite_none_right_eq_some.mp hsome
    rw [← Std.LawfulEqCmp.eq_of_compare hd, ← Option.some.inj he']
    exact List.mem_reverse.mp hmem
  obtain ⟨file, -, hfile⟩ := Checks.exists_of_mem_mapM hloaded hmem
  obtain ⟨value, -, hfile⟩ := Checks.bind_eq_ok_iff.mp hfile
  obtain ⟨⟨record, stated⟩, -, hfile⟩ := Checks.bind_eq_ok_iff.mp hfile
  obtain ⟨digest, hdigest, hfile⟩ := Checks.bind_eq_ok_iff.mp hfile
  simp only [bind, Except.bind, throw, throwThe, MonadExceptOf.throw] at hfile
  split_ifs at hfile with hstated hbody hplace
  obtain ⟨rfl, rfl⟩ := Prod.mk.inj (Except.ok.inj hfile)
  push Not at hbody hplace
  exact ⟨hdigest, fun hlive => hbody (by simp [hlive]), hplace.1⟩

theorem keyDigest_of_loadGroup {key : String} {g : GroupRecord} (h : loadGroup P files t key = .ok g) :
    g.keyDigest P = key := by
  obtain ⟨value, -, h⟩ := Checks.bind_eq_ok_iff.mp h
  obtain ⟨record, -, h⟩ := Checks.bind_eq_ok_iff.mp h
  simp only [bind, Except.bind, throw, throwThe, MonadExceptOf.throw] at h
  split_ifs at h with hname
  obtain rfl := Except.ok.inj h
  push Not at hname
  exact hname.2

/-- What the loading of a tenant goes through. -/
theorem loadTenant_inv {history : TenantHistory} {torn : List Path}
    (h : loadTenant P format files t = .ok (history, torn)) : ∃ blobs events A owner,
      loadEvents P format files t = .ok events ∧
      takeGroups P files t events blobs ∅ ∅ (groupKeys files t) = .ok (A, owner) ∧
      checkParents events owner = .ok () ∧ replayOrder A owner = .ok history.groups := by
  simp only [loadTenant, bind, Except.bind, throw, throwThe, MonadExceptOf.throw] at h
  split_ifs at h
  obtain ⟨blobs, -, h⟩ := Checks.bind_eq_ok_iff.mp h
  obtain ⟨identity, -, h⟩ := Checks.bind_eq_ok_iff.mp h
  obtain ⟨events, hevents, h⟩ := Checks.bind_eq_ok_iff.mp h
  obtain ⟨⟨A, owner⟩, htake, h⟩ := Checks.bind_eq_ok_iff.mp h
  obtain ⟨_, hparents, h⟩ := Checks.bind_eq_ok_iff.mp h
  obtain ⟨groups, horder, h⟩ := Checks.bind_eq_ok_iff.mp h
  obtain ⟨rfl, -⟩ := Prod.mk.inj (Except.ok.inj h)
  exact ⟨blobs, events, A, owner, hevents, htake, hparents, horder⟩

theorem loadTenant_causal {history : TenantHistory} {torn : List Path}
    (h : loadTenant P format files t = .ok (history, torn)) : Causal P t history.groups := by
  obtain ⟨blobs, events, A, owner, hevents, htake, hparents, horder⟩ := loadTenant_inv h
  obtain ⟨hbuilding, -⟩ := building_of_load htake
  have hcollected := collected_of_load htake hparents
  obtain ⟨-, hgroups⟩ := replayOrder_eq_ok_iff.mp horder
  rw [hgroups]
  have hgroup {c : Committed} (hc : c ∈ (graph A owner).kahn.filterMap (A[·]?)) :
      ∃ key : String, A[key]? = some c := by
    obtain ⟨key, -, hkey⟩ := List.mem_filterMap.mp hc
    exact ⟨key, hkey⟩
  refine ⟨fun c hc => ?_, fun c hc c' hc' d hd hd' => ?_, fun c hc c' hc' hreceipt => ?_,
    fun earlier c later horder e he p hp => ?_⟩
  · obtain ⟨key, hkey⟩ := hgroup hc
    exact (hcollected.events key c hkey).imp fun d e => loadEvents_answers hevents
  · obtain ⟨key, hkey⟩ := hgroup hc
    obtain ⟨key', hkey'⟩ := hgroup hc'
    have howner := (hcollected.owns d key).mpr ⟨c, hkey, hd⟩
    rw [(hcollected.owns d key').mpr ⟨c', hkey', hd'⟩] at howner
    rw [Option.some.inj howner, hkey] at hkey'
    exact Option.some.inj hkey'
  · obtain ⟨key, hkey⟩ := hgroup hc
    obtain ⟨key', hkey'⟩ := hgroup hc'
    obtain ⟨hscope, hcommand⟩ := Prod.mk.inj hreceipt
    have hsame : c.record.keyDigest P = c'.record.keyDigest P := by
      rw [GroupRecord.keyDigest, GroupRecord.keyDigest, hscope, hcommand]
    rw [keyDigest_of_loadGroup (hbuilding.found key c hkey).record,
      keyDigest_of_loadGroup (hbuilding.found key' c' hkey').record] at hsame
    rw [hsame, hkey'] at hkey
    exact (Option.some.inj hkey).symm
  · obtain ⟨before, rest, hkahn, rfl, hrest⟩ := List.filterMap_eq_append_iff.mp horder
    obtain ⟨skipped, key, after, rfl, hskipped, hkey, -⟩ := List.filterMap_eq_cons_iff.mp hrest
    obtain ⟨key', e', howner, hevent, htype, hid, hindex⟩ :=
      hbuilding.parent hparents ⟨c, hkey, he⟩ hp
    obtain ⟨c', hkey', hp'⟩ := (hcollected.owns p key').mp howner
    obtain ⟨e'', he'', hevent'⟩ := Checks.forall₂_mem_left (hcollected.events key' c' hkey') hp'
    obtain rfl : e'' = e' := Option.some.inj (hevent'.symm.trans hevent)
    refine ⟨c', e'', he'', loadEvents_answers hevents hevent, htype, hid, ?_⟩
    by_cases heq : key' = key
    · obtain rfl : c' = c := by rw [heq, hkey] at hkey'; exact (Option.some.inj hkey').symm
      exact .inr ⟨rfl, hindex heq⟩
    · -- the algorithm took the parent's group first
      have hdepends : key' ∈ (graph A owner).depends key :=
        mem_depends_iff.mpr ⟨heq, e, ⟨c, hkey, he⟩, p, hp, howner⟩
      rw [← List.append_assoc] at hkahn
      have hbefore := ((Kahn.Graph.kahn_greedy (graph A owner)).before hkahn key' hdepends).resolve_left
        (Finset.notMem_empty _)
      rcases List.mem_append.mp hbefore with hbefore | hskip
      · exact .inl (List.mem_filterMap.mpr ⟨key', hbefore, hkey'⟩)
      · rw [hskipped key' hskip] at hkey'
        contradiction

theorem loadTenant_of_mem {loaded : Loaded} (h : load P files = .ok loaded)
    {tenant : String × TenantHistory} (htenant : tenant ∈ loaded.tenants) :
    ∃ format torn, loadTenant P format files tenant.1 = .ok (tenant.2, torn) := by
  obtain ⟨format, -, h⟩ := Checks.bind_eq_ok_iff.mp h
  obtain ⟨tenants, htenants, heq⟩ := Checks.bind_eq_ok_iff.mp h
  obtain rfl := Except.ok.inj heq
  obtain ⟨found, hmem, rfl⟩ := List.mem_map.mp htenant
  obtain ⟨name, -, hfound⟩ := Checks.exists_of_mem_mapM htenants hmem
  obtain ⟨⟨history, torn⟩, hload, heq⟩ := Checks.bind_eq_ok_iff.mp hfound
  obtain rfl := Except.ok.inj heq
  exact ⟨format, torn, hload⟩

theorem mem_of_loadGroup {key : String} {g : GroupRecord} (h : loadGroup P files t key = .ok g) :
    groupPath t key ∈ files.keys := by
  obtain ⟨value, hread, -⟩ := Checks.bind_eq_ok_iff.mp h
  rw [Std.ExtTreeMap.mem_keys, Std.ExtTreeMap.mem_iff_isSome_getElem?]
  cases hfile : files[groupPath t key]? with
  | none => simp [readFile, hfile] at hread
  | some bytes => rfl

theorem loadTenant_record_iff {history : TenantHistory} {torn : List Path}
    (h : loadTenant P format files t = .ok (history, torn)) {g : GroupRecord} :
    (∃ c ∈ history.groups, c.record = g) ↔ ∃ key, loadGroup P files t key = .ok g := by
  obtain ⟨blobs, events, A, owner, -, htake, -, horder⟩ := loadTenant_inv h
  obtain ⟨hbuilding, hkeys⟩ := building_of_load htake
  obtain ⟨hfounded, hgroups⟩ := replayOrder_eq_ok_iff.mp horder
  rw [hgroups]
  constructor
  · rintro ⟨c, hc, rfl⟩
    obtain ⟨key, -, hkey⟩ := List.mem_filterMap.mp hc
    exact ⟨key, (hbuilding.found key c hkey).record⟩
  · rintro ⟨key, hload⟩
    have hgroup := List.mem_filterMap (f := asGroup).mpr ⟨_, mem_of_loadGroup hload, rfl⟩
    have hkey : key ∈ A := (hkeys key).mpr (List.mem_filterMap.mpr ⟨_, hgroup, if_pos rfl⟩)
    obtain ⟨c, hc⟩ := Option.isSome_iff_exists.mp (Std.ExtTreeMap.mem_iff_isSome_getElem?.mp hkey)
    have hnode := ((Kahn.Graph.kahn_greedy (graph A owner)).perm hfounded).mem_iff.mpr
      (mem_nodes.mpr hkey)
    refine ⟨c, List.mem_filterMap.mpr ⟨key, hnode, hc⟩, ?_⟩
    exact Except.ok.inj ((hbuilding.found key c hc).record.symm.trans hload)

/-- **`load` serves exactly the group files.** -/
theorem load_record_iff {loaded : Loaded} (h : load P files = .ok loaded) {g : GroupRecord} :
    (∃ tenant ∈ loaded.tenants, ∃ c ∈ tenant.2.groups, c.record = g) ↔
      ∃ t key, loadGroup P files t key = .ok g := by
  constructor
  · rintro ⟨tenant, htenant, hc⟩
    obtain ⟨format, torn, hload⟩ := loadTenant_of_mem h htenant
    exact ⟨tenant.1, (loadTenant_record_iff hload).mp hc⟩
  · rintro ⟨t, key, hgroup⟩
    have hnamed : t ∈ tenantNames files :=
      List.mem_dedup.mpr (List.mem_filterMap.mpr ⟨_, mem_of_loadGroup hgroup, rfl⟩)
    obtain ⟨format, -, h⟩ := Checks.bind_eq_ok_iff.mp h
    obtain ⟨tenants, htenants, heq⟩ := Checks.bind_eq_ok_iff.mp h
    obtain rfl := Except.ok.inj heq
    obtain ⟨_, hmem, hfound⟩ := Checks.exists_mem_mapM htenants hnamed
    obtain ⟨⟨history, torn⟩, hload, heq⟩ := Checks.bind_eq_ok_iff.mp hfound
    obtain rfl := Except.ok.inj heq
    exact ⟨_, List.mem_map_of_mem hmem, (loadTenant_record_iff hload).mpr ⟨key, hgroup⟩⟩

/-- A tree in which one tenant was named. -/
theorem exists_load_named :
    let E := sampleEnv "i" validField_i
    let w := World.empty.run samplePlatform
      [.Open E .Nested [], .Call 0 E (.StreamIdentity sampleTenant)]
    ∃ loaded, load samplePlatform w.root.disk.files = .ok loaded ∧
      loaded.tenants.map Prod.fst = ["t"] := by
  intro E w
  have hcheck : (load samplePlatform w.root.disk.files).map (·.tenants.map Prod.fst) = .ok ["t"] := by
    decide +kernel
  exact Checks.map_eq_ok_iff.mp hcheck

/-! ## Two directories -/

/-- A history has an event under a digest. -/
def Holds (P : Platform) (t : String) (groups : List Committed) (d : String) (e : EventRecord) : Prop :=
  e.Answers P t d ∧ ∃ c ∈ groups, e ∈ c.events.flatten

/-- One event is a parent of another. -/
def Follows (P : Platform) (t : String) (groups : List Committed) (e parent : EventRecord) : Prop :=
  ∃ p ∈ e.parents, Holds P t groups p parent

/-- The past of an event that both histories have is the same in both, redactions apart. -/
def SharesPast (P : Platform) (t : String) (groups groups' : List Committed) : Prop :=
  ∀ d e e', Holds P t groups d e → Holds P t groups' d e' → ∀ a,
    Relation.ReflTransGen (Follows P t groups) e a →
      ∃ a', Relation.ReflTransGen (Follows P t groups') e' a' ∧ a'.envelope = a.envelope ∧
        ∃ c ∈ groups', a' ∈ c.events.flatten

theorem Causal.sharesPast (hsha : Function.Injective P.sha256) {groups groups' : List Committed}
    (h : Causal P t groups') : SharesPast P t groups groups' := by
  intro d e e' he he' a hpast
  -- with each ancestor goes one of the other history, under the same digest
  induction hpast with
  | refl => exact ⟨e', .refl, EventRecord.envelope_eq_of_digest hsha he'.1.digest he.1.digest, he'.2⟩
  | tail _ hparent ih =>
      obtain ⟨b', hpast', henvelope, c, hc, hb'⟩ := ih
      obtain ⟨p, hp, ha⟩ := hparent
      have hparents := congrArg EventRecord.parents henvelope
      simp only [EventRecord.envelope] at hparents
      rw [← hparents] at hp
      obtain ⟨earlier, later, rfl⟩ := List.append_of_mem hc
      obtain ⟨c', a', ha', hanswers, -, -, hplace⟩ := h.parents earlier c later rfl b' hb' p hp
      have hc' : c' ∈ earlier ++ c :: later := by
        rcases hplace with hearlier | ⟨rfl, -⟩ <;> simp [*]
      exact ⟨a', hpast'.tail ⟨p, hp, hanswers, c', hc', ha'⟩,
        EventRecord.envelope_eq_of_digest hsha hanswers.digest ha.1.digest, c', hc', ha'⟩

end Eventlog.Tree
