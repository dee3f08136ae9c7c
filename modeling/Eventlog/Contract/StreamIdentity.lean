import Eventlog.Tree.Publishing
import Eventlog.Tree.Replaying

/-!
# Eventlog.Contract.StreamIdentity

The identity of a tenant in a tree store, over any run of opens, commits and calls for it.

A handle keeps what its engine holds of an identity in step with the file (`State.Named`): it
restored it from there, or published it, or found the file to say the same.  So an identity that
is returned is the one on disk, and the file never changes.  A handle whose engine has none
mints one before it looks: if the file came to exist after the handle was built, it finds another
name there and closes itself.
-/

namespace Eventlog

open Durable

/-! ## The engine -/

namespace Sqlite

variable {P : Platform} {D : Draws} {e : Engine}

/-- An append names no tenant. -/
theorem Engine.appendGuarded_identities (stream : StreamId) (expected : Expected)
    (events : List NewEvent) (command : CommandMeta) (guard : Callback) :
    (e.appendGuarded P D stream expected events command guard).2.db.identities = e.db.identities := by
  rcases hanswer : e.appendGuarded P D stream expected events command guard with ⟨error | result, e'⟩
  · unfold Engine.appendGuarded at hanswer
    split at hanswer
    · rw [← (Prod.mk.inj hanswer).2]
    · rw [Engine.transact_error hanswer]
      rfl
  · rcases (Engine.appendGuarded_cases hanswer).2 with ⟨-, rfl⟩ | ⟨-, tx, hwrote, rfl⟩
    · rfl
    · exact (hwrote.groups P).2.2.1

/-- Nor does a group. -/
theorem Engine.appendGroupOf_identities (group : AppendGroup) (blobs : List BlobWrite)
    (guard : Callback) :
    (e.appendGroupOf P D group blobs guard).2.db.identities = e.db.identities := by
  rcases hanswer : e.appendGroupOf P D group blobs guard with ⟨error | result, e'⟩
  · rw [Engine.appendGroupOf_eq] at hanswer
    split at hanswer
    · rw [← (Prod.mk.inj hanswer).2]
    · rw [Engine.transact_error hanswer]
      rfl
  · obtain ⟨fingerprint, -, hcases⟩ := Engine.appendGroupOf_cases hanswer
    rcases hcases with ⟨ranges, -, -, rfl⟩ | ⟨-, -, results, tx₁, tx₂, hframed, hentered, -, rfl⟩
    · rfl
    · have hentries := (hentered.groups P).2.2.1
      rw [hframed.rows.ledger] at hentries
      change tx₂.db.identities = _
      rw [hentries]
      change (e.db.holding group.tenant _).identities = _
      rw [Ledger.holding_rest]

end Sqlite

namespace Tree

open File (Table StreamId.key)
open Sqlite (Engine Ledger)

variable (P : Platform)

/-- Registering projectors leaves history alone. -/
theorem register_ledger {inline catchUp : List Projector} {engine engine' : Engine}
    (h : register inline catchUp engine = .ok engine') :
    engine'.db.toLedger = engine.db.toLedger := by
  obtain ⟨engine₁, hcatchUp, hinline⟩ := Checks.bind_eq_ok_iff.mp h
  have hcreated : engine₁.db.toLedger = engine.db.toLedger := by
    refine Checks.foldlM_induct (I := fun e => e.db.toLedger = engine.db.toLedger) hcatchUp rfl ?_
    intro e e' he p _ hstep
    obtain ⟨⟨_, e''⟩, hdone, heq⟩ := Checks.bind_eq_ok_iff.mp hstep
    obtain rfl := Checks.pure_eq_ok_iff.mp heq
    unfold Engine.createProjections at hdone
    split at hdone
    · next db hplan =>
        obtain ⟨-, rfl⟩ := Prod.mk.inj (Except.ok.inj hdone)
        exact (Engine.planTables_ledger hplan).trans he
    · exact nomatch hdone
  refine Checks.foldlM_induct (I := fun e => e.db.toLedger = engine.db.toLedger) hinline hcreated ?_
  intro e e' he p _ hstep
  obtain ⟨⟨_, e''⟩, hdone, heq⟩ := Checks.bind_eq_ok_iff.mp hstep
  obtain rfl := Checks.pure_eq_ok_iff.mp heq
  unfold Engine.registerInline at hdone
  split at hdone
  · exact nomatch hdone
  · next db hplan =>
      obtain ⟨-, rfl⟩ := Prod.mk.inj (Except.ok.inj hdone)
      obtain ⟨_, -, hplan⟩ := Checks.bind_eq_ok_iff.mp hplan
      exact (Engine.planTables_ledger hplan).trans he

/-! ## What a handle knows of identities -/

/-- What the tables hold of identities is what the files say, and the names taken to be
    published are those the tables hold. -/
structure NamedBy (files : Files) (l : Ledger) (names : Finset String) : Prop where
  held : ∀ t i : String, l.identities[[t]]? = some i → loadIdentity P files t = .ok (some i)
  known : ∀ t : String, t ∈ names ↔ ∃ i : String, l.identities[[t]]? = some i

/-- A handle's identities are those of the files. -/
def State.Named (s : State) (files : Files) : Prop :=
  NamedBy P files s.engine.db.toLedger s.identities

section Replay

variable {P} {files : Files} {names : Finset String} {l l' : Ledger} {D : Draws}

theorem NamedBy.of_identities (h : NamedBy P files l names) (heq : l'.identities = l.identities) :
    NamedBy P files l' names :=
  ⟨fun t i hi => h.held t i (heq ▸ hi), fun t => heq ▸ h.known t⟩

/-- A tenant's identity joins what is held. -/
theorem NamedBy.insert (h : NamedBy P files l names) {t i : String}
    (hfile : loadIdentity P files t = .ok (some i))
    (heq : l'.identities = l.identities.insert [t] i) :
    NamedBy P files l' (insert t names) := by
  have hlookup : ∀ t' : String,
      l'.identities[[t']]? = if t = t' then some i else l.identities[[t']]? := by
    intro t'
    rw [heq, table_insert]
    simp only [List.cons.injEq, and_true]
  constructor
  · intro t' i' hi'
    rw [hlookup] at hi'
    split at hi'
    · next heq => rw [← heq, ← Option.some.inj hi', hfile]
    · exact h.held t' i' hi'
  · intro t'
    rw [Finset.mem_insert, h.known, hlookup]
    constructor
    · rintro (rfl | hold)
      · exact ⟨i, if_pos rfl⟩
      · split
        · exact ⟨i, rfl⟩
        · exact hold
    · rintro ⟨i', hi'⟩
      split at hi'
      · next heq => exact .inl heq.symm
      · exact .inr ⟨i', hi'⟩

theorem replayCall_identities {tenant : TenantId} {c : Committed} {entries : List StreamAppend}
    {engine engine' : Engine} {results : List AppendResult}
    (h : replayCall P D tenant c entries engine = .ok (results, engine')) :
    engine'.db.identities = engine.db.identities := by
  cases hkind : c.record.kind with
  | Append =>
      cases entries with
      | nil =>
          unfold replayCall at h
          rw [hkind] at h
          exact nomatch h
      | cons a rest =>
          obtain ⟨result, -, hcall⟩ := (replayCall_append P hkind).mp h
          have hsame := Engine.appendGuarded_identities (P := P) (D := D) (e := engine) a.stream
            a.expected a.events c.record.command noGuard
          rwa [hcall] at hsame
  | Group =>
      obtain ⟨_, hcall⟩ := (replayCall_group P hkind).mp h
      have hsame := Engine.appendGroupOf_identities (P := P) (D := D) (e := engine)
        ⟨tenant, entries, c.record.command⟩ c.writes noGuard
      rwa [hcall] at hsame

theorem replay_identities {tenant : TenantId} {c : Committed} {engine engine' : Engine}
    {versions : List Nat} (h : replay P D tenant c engine = .ok (versions, engine')) :
    engine'.db.identities = engine.db.identities := by
  obtain ⟨-, entries, results, -, hcall, -⟩ := (replay_eq_ok_iff P).mp h
  exact (replayCall_identities hcall).trans rfl

/-- Noting an event leaves the engine alone. -/
theorem noteEvent_engine {r r' : Replayed} {placed : EventRecord × Nat}
    (h : noteEvent P r placed = .ok r') :
    r'.engine = r.engine ∧ r'.identities = r.identities := by
  unfold noteEvent at h
  cases hredacted : placed.1.redacted with
  | none =>
      simp only [hredacted, Checks.bind_eq_ok_iff, Checks.pure_eq_ok_iff] at h
      obtain ⟨_, -, _, -, rfl⟩ := h
      exact ⟨rfl, rfl⟩
  | some reason =>
      simp only [hredacted, Checks.bind_eq_ok_iff, Checks.pure_eq_ok_iff] at h
      obtain ⟨_, -, _, -, _, -, rfl⟩ := h
      exact ⟨rfl, rfl⟩

/-- A replay of a group adds no identity. -/
theorem replayGroup_named {tenant : TenantId} {r r' : Replayed} {c : Committed}
    (h : replayGroup P D tenant r c = .ok r')
    (hr : NamedBy P files r.engine.db.toLedger r.identities) :
    NamedBy P files r'.engine.db.toLedger r'.identities := by
  obtain ⟨⟨versions, engine⟩, hreplay, hnotes⟩ := Checks.bind_eq_ok_iff.mp h
  refine Checks.foldlM_induct (I := fun r => NamedBy P files r.engine.db.toLedger r.identities)
    hnotes ?_ ?_
  · exact hr.of_identities (replay_identities hreplay)
  · intro r r' hr placed _ hnote
    obtain ⟨hengine, hnames⟩ := noteEvent_engine hnote
    rwa [hengine, hnames]

theorem replayBlobs_identities {tenant : TenantId} {blobs : List (String × Bytes)}
    {engine engine' : Engine} (h : replayBlobs tenant blobs engine = .ok engine') :
    engine'.db.identities = engine.db.identities := by
  refine Checks.foldlM_induct (I := fun e : Engine => e.db.identities = engine.db.identities) h rfl ?_
  intro e e' he b _ hput
  obtain ⟨⟨_, e₁⟩, hdone, heq⟩ := Checks.bind_eq_ok_iff.mp hput
  obtain rfl := Checks.pure_eq_ok_iff.mp heq
  rw [← he]
  have hcall := congrArg Prod.snd (done_eq_ok_iff.mp hdone)
  rw [← hcall]
  unfold Engine.putBlob
  split
  · rfl
  · split
    · split <;> rfl
    · rfl

/-- A replayed tenant has the identity its file states. -/
theorem replayTenant_named {r r' : Replayed} {t : String × TenantHistory}
    (h : replayTenant P D r t = .ok r') (hfile : loadIdentity P files t.1 = .ok t.2.identity)
    (hr : NamedBy P files r.engine.db.toLedger r.identities) :
    NamedBy P files r'.engine.db.toLedger r'.identities := by
  obtain ⟨tenant, htenant, h⟩ := Checks.bind_eq_ok_iff.mp h
  obtain ⟨r₁, hidentity, h⟩ := Checks.bind_eq_ok_iff.mp h
  obtain ⟨engine, hblobs, hgroups⟩ := Checks.bind_eq_ok_iff.mp h
  have hvalue : tenant.value = t.1 := TenantId.value_of_new htenant
  have hnamed : NamedBy P files r₁.engine.db.toLedger r₁.identities := by
    unfold replayIdentity at hidentity
    split at hidentity
    · exact Except.ok.inj hidentity ▸ hr
    · next identity hsome =>
        obtain ⟨⟨_, e₁⟩, hdone, heq⟩ := Checks.bind_eq_ok_iff.mp hidentity
        obtain rfl := Checks.pure_eq_ok_iff.mp heq
        have hcall := done_eq_ok_iff.mp hdone
        rw [hsome] at hfile
        unfold Engine.restoreStreamIdentity at hcall
        split at hcall
        · cases (Prod.mk.inj hcall).1
        · rw [hvalue] at hcall
          split at hcall
          · obtain rfl := (Prod.mk.inj hcall).2
            exact hr.insert hfile rfl
          · next stored hstored =>
              split at hcall
              · cases (Prod.mk.inj hcall).1
              · obtain rfl := (Prod.mk.inj hcall).2
                have hmem : t.1 ∈ r.identities := (hr.known t.1).mpr ⟨stored, hstored⟩
                rwa [show insert t.1 r.identities = r.identities from Finset.insert_eq_of_mem hmem]
  refine Checks.foldlM_induct (I := fun r => NamedBy P files r.engine.db.toLedger r.identities)
    hgroups (hnamed.of_identities (replayBlobs_identities hblobs)) ?_
  exact fun r r' hr c _ hgroup => replayGroup_named hgroup hr

theorem loadTenant_identity {format : StoreFormat} {t : String} {history : TenantHistory}
    {torn : List Path} (h : loadTenant P format files t = .ok (history, torn)) :
    loadIdentity P files t = .ok history.identity := by
  unfold loadTenant at h
  split at h
  · exact nomatch h
  · simp only [Checks.bind_eq_ok_iff, Checks.pure_eq_ok_iff] at h
    obtain ⟨blobs, -, identity, hidentity, h⟩ := h
    obtain ⟨_, -, _, -, _, -, _, -, heq⟩ := h
    rw [hidentity, ← (Prod.mk.inj heq).1]

theorem load_identity {loaded : Loaded} (h : load P files = .ok loaded)
    {t : String × TenantHistory} (ht : t ∈ loaded.tenants) :
    loadIdentity P files t.1 = .ok t.2.identity := by
  obtain ⟨format, -, h⟩ := Checks.bind_eq_ok_iff.mp h
  obtain ⟨tenants, htenants, h⟩ := Checks.bind_eq_ok_iff.mp h
  obtain rfl := Checks.pure_eq_ok_iff.mp h
  obtain ⟨⟨t, history, torn⟩, hmem, rfl⟩ := List.mem_map.mp ht
  obtain ⟨_, -, hload⟩ := Checks.exists_of_mem_mapM htenants hmem
  obtain ⟨_, hload, heq⟩ := Checks.bind_eq_ok_iff.mp hload
  obtain ⟨rfl, rfl⟩ := Prod.mk.inj (Checks.pure_eq_ok_iff.mp heq)
  exact loadTenant_identity hload

/-- Every identity file can be read. -/
def Legible (P : Platform) (files : Files) : Prop :=
  ∀ t : String, ∃ identity, loadIdentity P files t = .ok identity

theorem legible_of_load {loaded : Loaded} (h : load P files = .ok loaded) : Legible P files := by
  intro t
  by_cases hnamed : t ∈ tenantNames files
  · obtain ⟨format, -, h⟩ := Checks.bind_eq_ok_iff.mp h
    obtain ⟨tenants, htenants, -⟩ := Checks.bind_eq_ok_iff.mp h
    obtain ⟨_, -, hload⟩ := Checks.exists_mem_mapM htenants hnamed
    obtain ⟨⟨history, _⟩, hload, -⟩ := Checks.bind_eq_ok_iff.mp hload
    exact ⟨_, loadTenant_identity hload⟩
  · have hnone : files[identityPath t]? = none := by
      by_contra hsome
      refine hnamed (List.mem_dedup.mpr (List.mem_filterMap.mpr ⟨identityPath t, ?_, rfl⟩))
      rw [Std.ExtTreeMap.mem_keys, Std.ExtTreeMap.mem_iff_isSome_getElem?]
      exact Option.isSome_iff_ne_none.mpr hsome
    refine ⟨none, ?_⟩
    unfold loadIdentity
    rw [hnone]

theorem replayRedactions_identities {redactions : List (StreamId × Nat × String)}
    {engine engine' : Engine} (h : replayRedactions P D redactions engine = .ok engine') :
    engine'.db.identities = engine.db.identities := by
  induction redactions generalizing D engine with
  | nil => rw [← Except.ok.inj h]
  | cons r rest ih =>
      obtain ⟨stream, version, reason⟩ := r
      obtain ⟨⟨_, e₁⟩, hdone, hrest⟩ := Checks.bind_eq_ok_iff.mp h
      have hcall : (engine.redact P D stream version reason).2 = e₁ :=
        congrArg Prod.snd (done_eq_ok_iff.mp hdone)
      rw [ih hrest, ← hcall]
      unfold Engine.redact
      split
      · rfl
      · split
        · rfl
        · split <;> rfl

/-- A replay knows the identities on disk. -/
theorem replayAll_named {inline catchUp : List Projector} {s : State}
    (h : replayAll P D files inline catchUp = .ok s) :
    s.Named P files ∧ Legible P files ∧ s.poisoned = false := by
  obtain ⟨loaded, hload, h⟩ := Checks.bind_eq_ok_iff.mp h
  obtain ⟨engine, hregister, h⟩ := Checks.bind_eq_ok_iff.mp h
  obtain ⟨r, htenants, h⟩ := Checks.bind_eq_ok_iff.mp h
  obtain ⟨engine', hredactions, h⟩ := Checks.bind_eq_ok_iff.mp h
  obtain rfl := Checks.pure_eq_ok_iff.mp h
  refine ⟨?_, legible_of_load hload, rfl⟩
  have hempty : engine.db.toLedger.identities = ∅ := by
    rw [register_ledger hregister]
    rfl
  have hnamed : NamedBy P files r.engine.db.toLedger r.identities := by
    refine Checks.foldlM_induct (I := fun r => NamedBy P files r.engine.db.toLedger r.identities)
      htenants ⟨fun t i hi => ?_, fun t => ?_⟩ ?_
    · simp [hempty] at hi
    · simp [hempty]
    · exact fun r r' hr t ht hstep => replayTenant_named hstep (load_identity hload ht) hr
  exact hnamed.of_identities (replayRedactions_identities hredactions)

end Replay

/-! ## The kept state -/

/-- The names of a kept state read back as they were. -/
theorem keptMember_identities {s : State} {value : Json} {fs : List (String × Json)}
    {names : List String} (hread : Json.reread P.toFloatText (keptState P s) = some value)
    (hobject : object value "a kept state that does not read back" = .ok fs)
    (hnames : keptMember fs "identities" = .ok names) : names.toFinset = s.identities := by
  unfold keptState at hread
  replace hread := Json.refloat_of_reread hread
  rw [Json.refloat, Option.map_eq_some_iff] at hread
  obtain ⟨fs', hfields, rfl⟩ := hread
  obtain rfl := Except.ok.inj hobject
  have hmember : get? fs' "identities" = some (toValue (s.identities.sort (· ≤ ·))) := by
    rw [get?_refloatFields hfields]
    exact (Json.refloat_eq_some_iff _ _).mpr (Floatless.stable_toValue _ _)
  unfold keptMember at hnames
  rw [hmember, Option.bind_some, LawfulSerde.fromValue_toValue] at hnames
  rw [← Except.ok.inj hnames, Finset.sort_toFinset]

/-- A kept state that reads back names what the state it was made of named. -/
theorem fromKept_named {kept : Kept} {inline catchUp : List Projector} {s₀ s : State}
    {files : Files} (himage : kept.image = s₀.engine.db)
    (hstate : kept.state = canonical P (keptState P s₀)) (hs₀ : s₀.Named P files)
    (h : fromKept P kept inline catchUp = .ok s) : s.Named P files ∧ s.poisoned = false := by
  unfold fromKept at h
  rw [hstate, canonical, Json.fromSlice_toVec] at h
  cases hread : Json.reread P.toFloatText (keptState P s₀) with
  | none => simp [hread] at h; exact nomatch h
  | some value =>
      simp only [hread, Checks.bind_eq_ok_iff, Checks.pure_eq_ok_iff] at h
      obtain ⟨_, rfl, engine, hregister, fs, hobject, _, -, _, -, _, -, _, -, _, -, names, hnames,
        rfl⟩ := h
      refine ⟨?_, rfl⟩
      change NamedBy P files engine.db.toLedger names.toFinset
      rw [keptMember_identities P hread hobject hnames]
      refine hs₀.of_identities ?_
      rw [register_ledger hregister, ← himage]
      rfl

/-- A kept state is one of the files its name stands for. -/
def Kept.Honest (k : Kept) : Prop :=
  ∃ s : State, k.image = s.engine.db ∧ k.state = canonical P (keptState P s) ∧
    ∀ files : Files, k.files = files.toList → s.Named P files ∧ Legible P files

variable {P}

/-- Building a state leaves the files alone, and the state knows the identities on disk. -/
theorem build_named {D : Draws} {settled : Bool} {inline catchUp : List Projector} {root root' : Root}
    {answer : Except EventLogError State} (hkept : ∀ k ∈ root.kept, k.Honest P)
    (h : build P D settled inline catchUp root = (answer, root')) :
    root'.disk = root.disk ∧ (∀ k ∈ root'.kept, k.Honest P) ∧
      ∀ s, answer = .ok s →
        s.Named P root.disk.files ∧ Legible P root.disk.files ∧ s.poisoned = false := by
  unfold build at h
  cases hrecalled : root.recalled P inline catchUp with
  | some s =>
      rw [hrecalled] at h
      obtain ⟨rfl, rfl⟩ := Prod.mk.inj h
      refine ⟨rfl, hkept, ?_⟩
      rintro _ ⟨⟩
      unfold Root.recalled at hrecalled
      split at hrecalled
      · exact nomatch hrecalled
      · next kept heq =>
          split at hrecalled
          · next hmatches =>
              obtain ⟨s₀, himage, hstate, hfiles⟩ := hkept kept heq
              obtain ⟨hnamed, hlegible⟩ := hfiles _ (of_decide_eq_true hmatches).1
              have hfrom : fromKept P kept inline catchUp = .ok s := by
                cases hk : fromKept P kept inline catchUp with
                | error error => simp [hk, Except.toOption] at hrecalled
                | ok s' => simp_all [Except.toOption]
              obtain ⟨hs, hpoisoned⟩ := fromKept_named P himage hstate hnamed hfrom
              exact ⟨hs, hlegible, hpoisoned⟩
          · exact nomatch hrecalled
  | none =>
      rw [hrecalled] at h
      dsimp only at h
      cases hreplay : replayAll P D root.disk.files inline catchUp with
      | error error =>
          rw [hreplay] at h
          obtain ⟨rfl, rfl⟩ := Prod.mk.inj h
          exact ⟨rfl, hkept, fun _ h => nomatch h⟩
      | ok s =>
          rw [hreplay] at h
          obtain ⟨rfl, rfl⟩ := Prod.mk.inj h
          obtain ⟨hnamed, hlegible, hpoisoned⟩ := replayAll_named hreplay
          refine ⟨?_, ?_, ?_⟩
          · split <;> rfl
          · split
            · rintro k ⟨⟩
              refine ⟨s, rfl, rfl, fun files hfiles => ?_⟩
              rw [← Std.ExtTreeMap.toList_inj.mp hfiles]
              exact ⟨hnamed, hlegible⟩
            · exact hkept
          · rintro _ ⟨⟩
            exact ⟨hnamed, hlegible, hpoisoned⟩

/-! ## Calls -/

/-- A root whose identity files can be read and whose kept state is honest. -/
structure Root.Sound (P : Platform) (root : Root) : Prop where
  legible : Legible P root.disk.files
  kept : ∀ k ∈ root.kept, k.Honest P

/-- What a handle that is still open knows is true of its root. -/
structure Store.Sound (P : Platform) (s : Store) : Prop where
  root : s.root.Sound P
  named : s.state.poisoned = false → s.state.Named P s.root.disk.files

theorem loadIdentity_congr {files files' : Files} {t : String}
    (h : files'[identityPath t]? = files[identityPath t]?) :
    loadIdentity P files' t = loadIdentity P files t := by
  unfold loadIdentity
  rw [h]

theorem NamedBy.of_files {files files' : Files} {l : Ledger} {names : Finset String}
    (h : NamedBy P files l names) (hsame : ∀ t i : String,
      loadIdentity P files t = .ok (some i) → loadIdentity P files' t = .ok (some i)) :
    NamedBy P files' l names :=
  ⟨fun t i hi => hsame t i (h.held t i hi), h.known⟩

/-- A commit publishes no identity. -/
theorem loadIdentity_of_adds {A : Path → Prop} {d d' : Disk} (h : Disk.Adds A d d')
    (hA : ∀ t, ¬A (identityPath t)) (t : String) :
    loadIdentity P d'.files t = loadIdentity P d.files t :=
  loadIdentity_congr (h.same (hA t))

theorem not_inTenant_identityPath (t : String) : ¬InTenant (identityPath t) := by
  rintro ⟨_, _, _, heq, hkind⟩
  simp only [identityPath, List.cons.injEq] at heq
  exact hkind heq.2.2.1.symm

theorem Store.refresh_sound {E : Env} {s s' : Store} {answer : Except EventLogError Unit}
    (hs : s.Sound P) (h : s.refresh P E = (answer, s')) :
    s'.Sound P ∧ s'.root.disk = s.root.disk := by
  unfold Store.refresh at h
  split at h
  · obtain ⟨-, rfl⟩ := Prod.mk.inj h
    exact ⟨hs, rfl⟩
  · rcases hbuild : build P E.rebuilding E.settled s.state.inline s.state.catchUp s.root with
      ⟨error | state, root⟩
    all_goals
      rw [hbuild] at h
      obtain ⟨-, rfl⟩ := Prod.mk.inj h
      obtain ⟨hdisk, hkept, hstate⟩ := build_named hs.root.kept hbuild
      refine ⟨⟨⟨hdisk ▸ hs.root.legible, hkept⟩, fun hopen => ?_⟩, hdisk⟩
    · exact hdisk ▸ hs.named hopen
    · exact hdisk ▸ (hstate state rfl).1

/-- What a call may do to identities: the handle stays sound, and what is published stays. -/
structure Store.Kept (P : Platform) (s s' : Store) : Prop where
  sound : s'.Sound P
  stays : ∀ t i : String, loadIdentity P s.root.disk.files t = .ok (some i) →
    loadIdentity P s'.root.disk.files t = .ok (some i)

/-- A commit keeps what its handle knows. -/
theorem Commit.publish_sound {c : Commit} {s s' : Store} {expected : List Expected}
    {results : List AppendResult} {answer : Except EventLogError (List AppendResult × Bool)}
    (hs : s.Sound P) (h : c.publish P expected results s = (answer, s')) : Store.Kept P s s' := by
  rcases Commit.publish_cases h with ⟨error, -, -, rfl⟩ | ⟨plan, -, hroot, hstate⟩
  · exact ⟨hs, fun _ _ hi => hi⟩
  have hsame : ∀ t, loadIdentity P s'.root.disk.files t = loadIdentity P s.root.disk.files t := by
    rw [hroot]
    exact loadIdentity_of_adds ((plan.keeps_persist P c.tenant c.blobs).last s.root.disk)
      not_inTenant_identityPath
  refine ⟨⟨⟨fun t => (hsame t).symm ▸ hs.root.legible t, ?_⟩, fun hopen => ?_⟩, fun t i hi => (hsame t).trans hi⟩
  · rw [hroot]
    exact hs.root.kept
  · rcases hstate with ⟨_, -, -, hstate⟩ | ⟨path, -, -, hstate⟩
    · rw [hstate] at hopen
      exact nomatch hopen
    · rw [hstate] at hopen ⊢
      exact (hs.named hopen).of_files fun t i hi => (hsame t).trans hi

theorem Commit.run_sound {E : Env} {c : Commit} {s s' : Store}
    {answer : Except EventLogError (List AppendResult × Bool)}
    (hcall : ∀ engine expected, (c.call engine expected).2.db.identities = engine.db.identities)
    (hs : s.Sound P) (h : c.run P E s = (answer, s')) : Store.Kept P s s' := by
  rcases Commit.run_cases h with ⟨rfl, -⟩ | ⟨-, -, ⟨_, hrefresh, -⟩ | ⟨s₁, hrefresh, happend⟩⟩
  · exact ⟨hs, fun _ _ hi => hi⟩
  · obtain ⟨hs', hdisk⟩ := Store.refresh_sound hs hrefresh
    exact ⟨hs', fun _ _ hi => hdisk ▸ hi⟩
  obtain ⟨hs₁, hdisk⟩ := Store.refresh_sound hs hrefresh
  rcases Commit.append_cases happend with ⟨_, -, -, rfl⟩ | ⟨expected, engine, -, hanswer⟩
  · exact ⟨hs₁, fun _ _ hi => hdisk ▸ hi⟩
  have hidentities := hcall s₁.state.engine expected
  have hmoved : ∀ answered, c.call s₁.state.engine expected = (answered, engine) →
      (s₁.withEngine engine).Sound P := by
    intro answered heq
    rw [heq] at hidentities
    exact ⟨hs₁.root, fun hopen => (hs₁.named hopen).of_identities hidentities⟩
  rcases hanswer with ⟨_, heq, -, rfl⟩ | ⟨_, heq, -, rfl⟩ | ⟨results, heq, hpublish⟩
  · exact ⟨hmoved _ heq, fun _ _ hi => hdisk ▸ hi⟩
  · exact ⟨hmoved _ heq, fun _ _ hi => hdisk ▸ hi⟩
  · obtain ⟨hs', hstays⟩ := Commit.publish_sound (hmoved _ heq) hpublish
    exact ⟨hs', fun t i hi => hstays t i (hdisk ▸ hi)⟩

theorem Store.appendGuarded_sound {E : Env} {s : Store} (hs : s.Sound P) (stream : StreamId)
    (expected : Expected) (events : List NewEvent) (command : CommandMeta) (guard : Callback) :
    Store.Kept P s (s.appendGuarded P E stream expected events command guard).2 := by
  unfold Store.appendGuarded
  split
  · exact ⟨hs, fun _ _ hi => hi⟩
  · have hcall : ∀ engine passed, ((appendCommit P E.draws stream expected events command guard).call
        engine passed).2.db.identities = engine.db.identities :=
      fun engine passed => Engine.appendGuarded_identities stream _ events command guard
    rcases hrun : (appendCommit P E.draws stream expected events command guard).run P E s with
      ⟨error | ⟨_ | ⟨result, rest⟩, dedup⟩, s'⟩
    all_goals exact Commit.run_sound hcall hs hrun

theorem Store.group_sound {E : Env} {s : Store} (hs : s.Sound P) (group : AppendGroup)
    (guard : Callback) (blobs : List (String × Bytes)) :
    Store.Kept P s (s.group P E group guard blobs).2 := by
  unfold Store.group
  split
  · exact ⟨hs, fun _ _ hi => hi⟩
  · refine Commit.run_sound (fun engine passed => ?_) hs (Prod.mk.eta).symm
    have hsame := Engine.appendGroupOf_identities (P := P) (D := E.draws) (e := engine)
      (rewritten group passed) (blobs.map fun b => ⟨b.1, b.2⟩) guard
    unfold Engine.appendGroupOf at hsame
    rw [List.isEmpty_map] at hsame
    exact hsame

/-! ## Asking for the identity -/

/-- What a handle answers from, or mints, is what the file says, if there is one. -/
def Store.Agrees (P : Platform) (E : Env) (s : Store) (tenant : TenantId) : Prop :=
  tenant.value ∈ s.state.identities ∨
    ∀ stored, loadIdentity P s.root.disk.files tenant.value = .ok (some stored) →
      stored = E.draws.id 0

/-- The bytes of an identity file. -/
def identityBytes (P : Platform) (identity : String) : Bytes :=
  canonical P (.obj [("stream_identity", .str identity)])

theorem loadIdentity_of_bytes {files : Files} {t identity : String}
    (h : files[identityPath t]? = some (identityBytes P identity)) :
    loadIdentity P files t = .ok (some identity) := by
  have hread : readJson P (identityBytes P identity) "a file that is not JSON" =
      .ok (.obj [("stream_identity", .str identity)]) := by
    unfold readJson identityBytes canonical
    rw [Json.fromSlice_toVec]
    rfl
  unfold loadIdentity
  rw [h]
  dsimp only
  rw [hread, Checks.ok_bind]
  simp [getText, get?]

/-- An identity file that can be read states an identity. -/
theorem loadIdentity_stated {files : Files} {t : String} {bytes : Bytes} {found : Option String}
    (hfile : files[identityPath t]? = some bytes) (h : loadIdentity P files t = .ok found) :
    ∃ value stored, Json.fromSlice P.toFloatText bytes = some value ∧
      getText value "stream_identity" = some stored ∧ found = some stored := by
  unfold loadIdentity at h
  rw [hfile] at h
  obtain ⟨value, hvalue, h⟩ := Checks.bind_eq_ok_iff.mp h
  unfold readJson at hvalue
  split at hvalue
  · next hread =>
      obtain rfl := Except.ok.inj hvalue
      split at h
      · next stored hstored => exact ⟨_, stored, hread, hstored, (Except.ok.inj h).symm⟩
      · cases h
  · cases hvalue

/-- The identity file of a handle that holds `identity` for a tenant it has not yet seen one of. -/
theorem Store.identityFile_spec {s : Store} (tenant : TenantId) (identity : String) {l : Ledger}
    (hroot : s.root.Sound P) (hopen : s.state.poisoned = false)
    (hnamed : NamedBy P s.root.disk.files l s.state.identities)
    (heq : s.state.engine.db.identities = l.identities.insert [tenant.value] identity) :
    let r := s.identityFile P tenant identity
    Store.Kept P s r.2 ∧
      (∀ id, r.1 = .ok id → loadIdentity P r.2.root.disk.files tenant.value = .ok (some id)) ∧
      (r.2.state.poisoned = false ↔
        ∀ stored, loadIdentity P s.root.disk.files tenant.value = .ok (some stored) →
          stored = identity) := by
  intro r
  cases hfile : s.root.disk.files[identityPath tenant.value]? with
  | some bytes =>
      obtain ⟨found, hfound⟩ := hroot.legible tenant.value
      obtain ⟨value, stored, hread, hstored, rfl⟩ := loadIdentity_stated hfile hfound
      have hr : r = if stored ≠ identity then
            (.error (corrupt "another writer named this tenant's identity"), s.poison)
          else (.ok identity, { s with state :=
            { s.state with identities := insert tenant.value s.state.identities } }) := by
        change s.identityFile P tenant identity = _
        unfold Store.identityFile
        simp only [hfile, readJson, hread, Checks.ok_bind, hstored]
      by_cases hsame : stored = identity
      · rw [if_neg (not_not_intro hsame)] at hr
        rw [hr]
        subst hsame
        refine ⟨⟨⟨hroot, fun _ => hnamed.insert hfound heq⟩, fun _ _ hi => hi⟩, ?_, ?_⟩
        · rintro id ⟨⟩
          exact hfound
        · refine ⟨fun _ stored' hstored' => ?_, fun _ => hopen⟩
          rw [hfound] at hstored'
          exact (Option.some.inj (Except.ok.inj hstored')).symm
      · rw [if_pos hsame] at hr
        rw [hr]
        refine ⟨⟨⟨hroot, fun hopen => by cases hopen⟩, fun _ _ hi => hi⟩, fun _ h => (by cases h), ?_⟩
        exact ⟨fun h => (by cases h), fun h => absurd (h stored hfound) hsame⟩
  | none =>
      have hrun := (writeOnce_run (identityBytes P identity) hfile).trans (writeAtomic_run _ _ _)
      have hr : r = (.ok identity, ⟨{ s.state with
            identities := insert tenant.value s.state.identities },
          { s.root with disk := (writeOnce (identityPath tenant.value)
              (identityBytes P identity)).last s.root.disk }⟩) := by
        change s.identityFile P tenant identity = _
        unfold Store.identityFile
        have hbytes : canonical P (.obj [("stream_identity", .str identity)]) =
            identityBytes P identity := rfl
        simp only [hfile, hbytes, Program.last, hrun]
      have hlast : (writeOnce (identityPath tenant.value) (identityBytes P identity)).last s.root.disk =
          ⟨s.root.disk.files.insert (identityPath tenant.value) (identityBytes P identity),
            (s.root.disk.staged.insert (identityPath tenant.value) (identityBytes P identity)).erase
              (identityPath tenant.value)⟩ := by
        rw [Program.last, hrun]
        rfl
      have hwritten : loadIdentity P (s.root.disk.files.insert (identityPath tenant.value)
          (identityBytes P identity)) tenant.value = .ok (some identity) :=
        loadIdentity_of_bytes (by rw [table_insert, if_pos rfl])
      have hothers : ∀ t, t ≠ tenant.value → loadIdentity P (s.root.disk.files.insert
          (identityPath tenant.value) (identityBytes P identity)) t =
            loadIdentity P s.root.disk.files t := by
        intro t ht
        refine loadIdentity_congr ?_
        rw [table_insert, if_neg]
        simpa [identityPath] using Ne.symm ht
      have hunnamed : ∀ i, loadIdentity P s.root.disk.files tenant.value ≠ .ok (some i) := by
        intro i hi
        unfold loadIdentity at hi
        rw [hfile] at hi
        cases hi
      have hstays : ∀ t i : String, loadIdentity P s.root.disk.files t = .ok (some i) →
          loadIdentity P (s.root.disk.files.insert (identityPath tenant.value)
            (identityBytes P identity)) t = .ok (some i) := by
        intro t i hi
        rw [hothers t (fun heq => hunnamed i (heq ▸ hi)), hi]
      rw [hr, hlast]
      refine ⟨⟨⟨⟨fun t => ?_, hroot.kept⟩, fun _ => ?_⟩, hstays⟩, ?_, ?_⟩
      · by_cases ht : t = tenant.value
        · subst ht
          exact ⟨_, hwritten⟩
        · exact (hothers t ht).symm ▸ hroot.legible t
      · exact (hnamed.of_files hstays).insert hwritten heq
      · rintro id ⟨⟩
        exact hwritten
      · exact ⟨fun _ stored hstored => absurd hstored (hunnamed stored), fun _ => hopen⟩

/-- Asking for the identity of a tenant. -/
theorem Store.streamIdentity_spec {s : Store} (hs : s.Sound P) (E : Env) (tenant : TenantId) :
    let r := s.streamIdentity P E tenant
    Store.Kept P s r.2 ∧
      (∀ id, r.1 = .ok id → loadIdentity P r.2.root.disk.files tenant.value = .ok (some id)) ∧
      (r.2.state.poisoned = s.state.poisoned ↔
        s.state.poisoned = true ∨ s.Agrees P E tenant) := by
  intro r
  cases hopen : s.state.poisoned with
  | true =>
      have hr : r = (.error .Closed, s) := by
        change s.streamIdentity P E tenant = _
        unfold Store.streamIdentity
        rw [hopen]
        rfl
      rw [hr]
      exact ⟨⟨hs, fun _ _ hi => hi⟩, fun _ h => (nomatch h), fun _ => .inl rfl, fun _ => hopen⟩
  | false =>
      have hnamed := hs.named hopen
      cases hheld : s.state.engine.db.identities[[tenant.value]]? with
      | some identity =>
          have hknown : tenant.value ∈ s.state.identities := (hnamed.known _).mpr ⟨identity, hheld⟩
          have hr : r = (.ok identity, s) := by
            change s.streamIdentity P E tenant = _
            unfold Store.streamIdentity Engine.streamIdentity
            rw [if_neg (by simp [hopen])]
            simp only [hheld]
            exact if_pos hknown
          rw [hr]
          refine ⟨⟨hs, fun _ _ hi => hi⟩, ?_, fun _ => .inr (.inl hknown), fun _ => hopen⟩
          rintro id ⟨⟩
          exact hnamed.held _ _ hheld
      | none =>
          have hunknown : tenant.value ∉ s.state.identities := by
            rw [hnamed.known, hheld]
            simp
          have hr : r = (s.withEngine (s.state.engine.update fun db => { db with
              identities := db.identities.insert [tenant.value] (E.draws.id 0) })).identityFile P
                tenant (E.draws.id 0) := by
            change s.streamIdentity P E tenant = _
            unfold Store.streamIdentity Engine.streamIdentity
            rw [if_neg (by simp [hopen])]
            simp only [hheld]
            exact if_neg hunknown
          have hspec := Store.identityFile_spec (P := P) tenant (E.draws.id 0)
            (s := s.withEngine (s.state.engine.update fun db => { db with
              identities := db.identities.insert [tenant.value] (E.draws.id 0) }))
            hs.root hopen hnamed rfl
          rw [← hr] at hspec
          refine ⟨⟨hspec.1.sound, hspec.1.stays⟩, hspec.2.1, hspec.2.2.trans ?_⟩
          simp only [Store.Agrees, hunknown, false_or, reduceCtorEq]
          rfl

/-! ## Opening -/

theorem openStore_sound {E : Env} {layout : TreeLayout} {inline : List Projector} {root root' : Root}
    {answer : Except EventLogError Store} (hkept : ∀ k ∈ root.kept, k.Honest P)
    (h : openStore P E layout inline root = (answer, root')) :
    (∀ k ∈ root'.kept, k.Honest P) ∧
      (∀ t, loadIdentity P root'.disk.files t = loadIdentity P root.disk.files t) ∧
      ∀ s, answer = .ok s → s.root = root' ∧ s.Sound P := by
  have hsame : ∀ t, loadIdentity P ((prepare P layout (E.draws.id 0)).last root.disk).files t =
      loadIdentity P root.disk.files t :=
    loadIdentity_of_adds ((keeps_prepare P layout (E.draws.id 0)).last root.disk)
      fun t => by simp [identityPath, storePath]
  unfold openStore at h
  dsimp only at h
  split at h
  · obtain ⟨rfl, rfl⟩ := Prod.mk.inj h
    exact ⟨hkept, hsame, fun _ h => nomatch h⟩
  · rcases hbuild : build P E.rebuilding E.settled inline []
      { root with disk := (prepare P layout (E.draws.id 0)).last root.disk } with
      ⟨error | state, root₁⟩ <;> rw [hbuild] at h <;> obtain ⟨rfl, rfl⟩ := Prod.mk.inj h
    all_goals
      have hprepared : ∀ k ∈ (Root.mk ((prepare P layout (E.draws.id 0)).last root.disk)
        root.kept).kept, k.Honest P := hkept
      obtain ⟨hdisk, hkept', hstate⟩ := build_named hprepared hbuild
    · exact ⟨hkept', fun t => by rw [hdisk]; exact hsame t, fun _ h => nomatch h⟩
    · refine ⟨hkept', fun t => by rw [hdisk]; exact hsame t, ?_⟩
      rintro _ ⟨⟩
      obtain ⟨hnamed, hlegible, -⟩ := hstate state rfl
      exact ⟨rfl, ⟨hdisk ▸ hlegible, hkept'⟩, fun _ => hdisk ▸ hnamed⟩

/-! ## Runs -/

/-- Opening a store, committing to it, or asking for an identity. -/
def Action.Names : Action → Prop
  | .Open _ _ _ => True
  | .Call _ _ (.Append _ _ _ _ _) => True
  | .Call _ _ (.Group _ _ _) => True
  | .Call _ _ (.StreamIdentity _) => True
  | _ => False

/-- Every handle knows what is true of the directory. -/
structure World.Sound (P : Platform) (w : World) : Prop where
  kept : ∀ k ∈ w.root.kept, k.Honest P
  handles : ∀ s ∈ w.handles, Store.Sound P ⟨s, w.root⟩

/-- A published identity stays as it is. -/
def World.Stays (P : Platform) (w w' : World) : Prop :=
  ∀ t i : String, loadIdentity P w.root.disk.files t = .ok (some i) →
    loadIdentity P w'.root.disk.files t = .ok (some i)

/-- What one handle's call leaves is sound for the others too. -/
theorem World.Sound.set {w : World} (hw : w.Sound P) {i : Nat} {state : State} {s' : Store}
    (hkept : Store.Kept P ⟨state, w.root⟩ s') :
    World.Sound P ⟨s'.root, w.handles.set i s'.state⟩ := by
  refine ⟨hkept.sound.root.kept, fun s hs => ?_⟩
  rcases List.mem_or_eq_of_mem_set hs with hother | rfl
  · refine ⟨hkept.sound.root, fun hopen => ?_⟩
    exact ((hw.handles s hother).named hopen).of_files hkept.stays
  · exact hkept.sound

theorem World.act_sound {w : World} (hw : w.Sound P) {a : Action} (ha : a.Names) :
    (w.act P a).2.Sound P ∧ w.Stays P (w.act P a).2 := by
  cases a with
  | Open E layout inline =>
      rcases hopen : openStore P E layout inline w.root with ⟨error | s, root⟩
      all_goals
        obtain ⟨hkept, hsame, hanswer⟩ := openStore_sound hw.kept hopen
        unfold World.act
        simp only [hopen]
      · refine ⟨⟨hkept, fun s hs => ⟨⟨fun t => ?_, hkept⟩, fun h => ?_⟩⟩, fun t i hi => (hsame t).trans hi⟩
        · exact (hsame t).symm ▸ (hw.handles s hs).root.legible t
        · exact ((hw.handles s hs).named h).of_files fun t i hi => (hsame t).trans hi
      · obtain ⟨rfl, hsound⟩ := hanswer s rfl
        refine ⟨⟨hkept, fun s' hs' => ?_⟩, fun t i hi => (hsame t).trans hi⟩
        rcases List.mem_append.mp hs' with hold | hnew
        · refine ⟨hsound.root, fun h => ?_⟩
          exact ((hw.handles s' hold).named h).of_files fun t i hi => (hsame t).trans hi
        · obtain rfl := List.mem_singleton.mp hnew
          exact hsound
  | Call i E request =>
      unfold World.act
      cases hhandle : w.handles[i]? with
      | none =>
          simp only [hhandle]
          exact ⟨hw, fun _ _ hi => hi⟩
      | some state =>
          simp only [hhandle]
          have hs : Store.Sound P ⟨state, w.root⟩ := hw.handles state (List.mem_of_getElem? hhandle)
          have hkept : Store.Kept P ⟨state, w.root⟩ (request.run P E ⟨state, w.root⟩).2 := by
            cases request with
            | Append stream expected events command guard =>
                exact Store.appendGuarded_sound hs stream expected events command guard
            | Group group guard blobs => exact Store.group_sound hs group guard blobs
            | StreamIdentity tenant => exact (Store.streamIdentity_spec hs E tenant).1
            | _ => exact ha.elim
          exact ⟨hw.set hkept, hkept.stays⟩

theorem World.run_sound {w : World} (hw : w.Sound P) {actions : List Action}
    (hactions : ∀ a ∈ actions, a.Names) :
    (w.run P actions).Sound P ∧ w.Stays P (w.run P actions) := by
  induction actions generalizing w with
  | nil => exact ⟨hw, fun _ _ hi => hi⟩
  | cons a rest ih =>
      obtain ⟨hw', hstays⟩ := World.act_sound hw (hactions a List.mem_cons_self)
      obtain ⟨hend, hrest⟩ := ih hw' fun b hb => hactions b (List.mem_cons_of_mem a hb)
      exact ⟨hend, fun t i hi => hrest t i (hstays t i hi)⟩

/-- A directory nobody has open. -/
def World.closed (disk : Disk) : World := ⟨⟨disk, none⟩, []⟩

theorem World.closed_sound (disk : Disk) : (World.closed disk).Sound P :=
  ⟨fun _ h => (nomatch h), fun _ h => (nomatch h)⟩

/-- What is asked of a call for an identity: what it returns is and stays the identity on disk,
    the one that was there before it if there was one, and its handle stays open. -/
def Store.NamesOnce (P : Platform) (w : World) (i : Nat) (s : Store) (E : Env)
    (tenant : TenantId) : Prop :=
  (∀ id, (s.streamIdentity P E tenant).1 = .ok id →
    (∀ stored, loadIdentity P s.root.disk.files tenant.value = .ok (some stored) → id = stored) ∧
    ∀ later : List Action, (∀ a ∈ later, a.Names) →
      loadIdentity P (((w.act P (.Call i E (.StreamIdentity tenant))).2.run P later).root.disk.files)
        tenant.value = .ok (some id)) ∧
  (s.streamIdentity P E tenant).2.state.poisoned = s.state.poisoned

/-- **One identity**: in every run a call for an identity does what is asked of it exactly if
    its handle was poisoned before, knows the identity, or would mint the one on disk. -/
theorem stream_identity_namesOnce_iff (disk : Disk) {actions : List Action}
    (hactions : ∀ a ∈ actions, a.Names) {i : Nat} {s : Store}
    (hs : ((World.closed disk).run P actions).store i = some s) (E : Env) (tenant : TenantId) :
    s.NamesOnce P ((World.closed disk).run P actions) i E tenant ↔
      s.state.poisoned = true ∨ s.Agrees P E tenant := by
  obtain ⟨hw, -⟩ := World.run_sound (World.closed_sound (P := P) disk) hactions
  generalize (World.closed disk).run P actions = w at hs hw ⊢
  obtain ⟨state, hstate, rfl⟩ := Option.map_eq_some_iff.mp hs
  have hsound := hw.handles state (List.mem_of_getElem? hstate)
  obtain ⟨hkept, hanswer, hpoisoned⟩ := Store.streamIdentity_spec hsound E tenant
  refine (and_iff_right ?_).trans hpoisoned
  intro id hid
  have hafter := hanswer id hid
  constructor
  · intro stored hstored
    have hstill := hkept.stays _ _ hstored
    rw [hafter] at hstill
    exact Option.some.inj (Except.ok.inj hstill)
  · intro later hlater
    have hact : (w.act P (.Call i E (.StreamIdentity tenant))).2 =
        ⟨(Store.streamIdentity P E ⟨state, w.root⟩ tenant).2.root,
          w.handles.set i (Store.streamIdentity P E ⟨state, w.root⟩ tenant).2.state⟩ := by
      unfold World.act
      simp only [hstate]
      rfl
    have hw' := hw.set (i := i) hkept
    rw [hact]
    exact (World.run_sound hw' hlater).2 _ _ hafter

/-- A handle that has just been opened asks first. -/
theorem stream_identity_namesOnce_of_first :
    let E := sampleEnv "i" validField_i
    let w := (World.closed ⟨∅, ∅⟩).run samplePlatform [.Open E .Nested []]
    ∃ s : Store, w.store 0 = some s ∧ s.NamesOnce samplePlatform w 0 E sampleTenant := by
  intro E w
  have hsome : (w.store 0).isSome = true := by decide +kernel
  have hs : w.store 0 = some ((w.store 0).get hsome) := (Option.some_get hsome).symm
  have hnames : ∀ a ∈ [Action.Open E .Nested []], a.Names := by
    intro a ha
    rw [List.mem_singleton.mp ha]
    trivial
  have hnone : (w.store 0).map (fun s => loadIdentity samplePlatform s.root.disk.files
      sampleTenant.value) = some (.ok none) := by decide +kernel
  refine ⟨_, hs, (stream_identity_namesOnce_iff ⟨∅, ∅⟩ hnames hs E sampleTenant).mpr (.inr (.inr ?_))⟩
  intro stored hstored
  rw [hs, Option.map_some, hstored] at hnone
  exact nomatch hnone

/-- Two handles are opened on a new directory and both ask for the identity of a tenant: the
    second finds a name that is not the one it minted, and closes itself. -/
theorem stream_identity_poisons :
    let E := sampleEnv "i" validField_i
    let E' := sampleEnv "j" (by decide +kernel)
    let w := World.empty.run samplePlatform
      [.Open E .Nested [], .Open E .Nested [], .Call 0 E (.StreamIdentity sampleTenant)]
    let after := w.run samplePlatform [.Call 1 E' (.StreamIdentity sampleTenant)]
    (w.store 1).map (fun s => (s.state.poisoned, (s.streamIdentity samplePlatform E' sampleTenant).1)) =
        some (false, .error (corrupt "another writer named this tenant's identity")) ∧
      (after.store 1).map (fun s => s.state.poisoned) = some true ∧
      loadIdentity samplePlatform after.root.disk.files sampleTenant.value = .ok (some "i") := by
  decide +kernel

end Tree

end Eventlog
