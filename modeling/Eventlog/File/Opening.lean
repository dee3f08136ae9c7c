import Eventlog.File.Operations

/-!
# Eventlog.File.Opening

Opening a journal: recovery, the complete read of what is committed, the sweep, and the
minting of a store where there is none.

`Settled` is where an open that answers leaves the directory, and where another open
changes nothing; `Recovers` is what a crash result promises of the next complete open.
-/

namespace Eventlog.File

open Durable Program

variable {P : Primitives} {C : View → Prop} {d : Disk}

/-! ## Opening an existing store -/

theorem takeLock_meets {C : Disk → Prop} {create : Bool}
    {Q : Except EventLogError Unit → Disk → Prop} (hd : C d) (hbase : Base d.view)
    (hQ : Q (.ok ()) d) : (takeLock create).Meets d C Q := by
  have hlock : d.has .lock = true := hbase.lock
  unfold takeLock
  refine meets_ask_bind rfl ?_
  simp only [hlock, Bool.not_true, Bool.false_eq_true, if_false]
  exact meets_done hd hQ

theorem readManifest_eq_ok {m : Manifest}
    (hman : d.view.content .manifest = some (toBytes P.toFloatText m)) (hknown : m.known) :
    readManifest P d = .ok m := by
  have hread : d.read .manifest = some (toBytes P.toFloatText m) := hman
  simp [readManifest, Disk.readFile, hread, fromBytes_toBytes, hknown, bind, Except.bind]

/-- What an open answers for the history `ts` under `n`: what the bytes decode to, with the
    directory left in `R`. -/
def Reads (P : Primitives) (n : Manifest) (ts : List Json) (R : Disk → Prop)
    (r : Except EventLogError Journal) (d : Disk) : Prop :=
  match decode P (historyOf P n ts).1 n with
  | .ok us => ∃ j, r = .ok j ∧ j.manifest = n ∧ j.transactions = us ∧
      j.content.bytes = (historyOf P n ts).1 ∧ R d
  | .error e => r = .error e

theorem Reads.returns {R : Disk → Prop} {r : Except EventLogError Journal}
    (h : Reads P n ts R r d) (hn : Describes P n ts) (hts : ∀ t ∈ ts, Survives P t) :
    Returns (fun j d => j.manifest = n ∧ j.transactions = ts ∧
      j.content.bytes = (historyOf P n ts).1 ∧ R d) r d := by
  rw [Reads, (hn.decode_iff P).mpr hts] at h
  exact h

/-- An open that answers with the history itself shows that all of it survives. -/
theorem Reads.survives {R : Disk → Prop} {j : Journal} (h : Reads P n ts R (.ok j) d)
    (hn : Describes P n ts) (hj : j.transactions = ts) : ∀ t ∈ ts, Survives P t := by
  rw [← hn.decode_iff P]
  rw [Reads] at h
  split at h
  · obtain ⟨j', hj', -, rfl, -⟩ := h
    cases hj'
    rename_i hdecode
    rw [hdecode, hj]
  · contradiction

/-- Opening what exists is recovering, then reading what is committed, then sweeping. -/
theorem openProvisioned_meets {C R : Disk → Prop} {m n : Manifest}
    (hman : d.view.content .manifest = some (toBytes P.toFloatText m)) (hknown : m.known)
    (hrecover : (recover P m).Meets d C (Returns fun m' d₁ => m' = n ∧ C d₁ ∧
      Committed P d₁.view n ts parts active ∧
      (sweepUnselected P).Meets d₁ C (Returns fun _ d' => C d' ∧ R d'))) :
    (openProvisioned P).Meets d C (Reads P n ts R) := by
  unfold openProvisioned
  refine meets_ask_bind (readManifest_eq_ok hman hknown) (Meets.bind ?_)
  refine hrecover.mono (fun _ h => h) ?_
  rintro r d₁ ⟨m', rfl, rfl, hC₁, hcommitted, hsweep⟩
  refine ⟨m', rfl, ?_⟩
  obtain ⟨content, hbytes, hread⟩ := hcommitted.cut.readCommitted_eq P hcommitted.sealedAs
    hcommitted.events
  unfold Reads
  cases hdecode : decode P (historyOf P m' ts).1 m' with
  | error e =>
      rw [hdecode] at hread
      exact meets_ask_bind_error hread hC₁ rfl
  | ok us =>
      rw [hdecode] at hread
      refine meets_ask_bind hread (Meets.bind (hsweep.mono (fun _ h => h) ?_))
      rintro r d₂ ⟨b, rfl, hC₂, hR⟩
      exact ⟨b, rfl, meets_done hC₂ ⟨_, rfl, rfl, rfl, hbytes, hR⟩⟩

theorem openJournal_meets {C R : Disk → Prop} {m n : Manifest} (layout : Option FileLayout)
    (hd : C d) (hbase : Base d.view)
    (hman : d.view.content .manifest = some (toBytes P.toFloatText m)) (hknown : m.known)
    (hrecover : (recover P m).Meets d C (Returns fun m' d₁ => m' = n ∧ C d₁ ∧
      Committed P d₁.view n ts parts active ∧
      (sweepUnselected P).Meets d₁ C (Returns fun _ d' => C d' ∧ R d'))) :
    (openJournal P layout).Meets d C (Reads P n ts R) := by
  unfold openJournal
  refine meets_ask_bind rfl ?_
  simp only [has_eq_false hbase.foreign rfl, Bool.false_eq_true, if_false]
  refine Meets.bind (takeLock_meets hd hbase ⟨(), rfl, ?_⟩)
  refine meets_ask_bind rfl ?_
  rw [has_eq_true hman]
  exact Meets.bind (meets_done hd ⟨(), rfl, openProvisioned_meets hman hknown hrecover⟩)

/-- With no rewrite pending, recovery is that of an append, if one is pending. -/
theorem recover_meets {C : Disk → Prop} {Q : Manifest → Disk → Prop} {m : Manifest} (hd : C d)
    (hprivacy : d.view.content .privacyIntent = none)
    (hnone : d.view.content .appendIntent = none → Q m d)
    (hsome : ∀ bytes, d.view.content .appendIntent = some bytes →
      (recoverAppend P m).Meets d C (Returns fun _ d' => C d' ∧ Q m d')) :
    (recover P m).Meets d C (Returns Q) := by
  unfold recover
  refine meets_ask_bind rfl ?_
  simp only [has_eq_false hprivacy rfl, Bool.false_and, Bool.false_eq_true, if_false]
  refine meets_ask_bind rfl ?_
  simp only [has_eq_false hprivacy rfl, Bool.false_eq_true, if_false]
  refine Meets.bind (meets_done hd ⟨m, rfl, meets_ask_bind rfl ?_⟩)
  cases happend : d.view.content .appendIntent with
  | none =>
      rw [has_eq_false happend rfl]
      exact Meets.bind (meets_done hd ⟨(), rfl, meets_done hd ⟨m, rfl, hnone happend⟩⟩)
  | some bytes =>
      rw [has_eq_true happend]
      refine Meets.bind ((hsome bytes happend).mono (fun _ h => h) ?_)
      rintro r d' ⟨u, rfl, hd', hQ⟩
      exact ⟨u, rfl, meets_done hd' ⟨m, rfl, hQ⟩⟩

/-- With nothing pending there is nothing to recover. -/
theorem Committed.recover_meets {C : Disk → Prop} {Q : Manifest → Disk → Prop}
    (hc : Committed P d.view m ts parts active) (hd : C d) (hQ : Q m d) :
    (recover P m).Meets d C (Returns Q) :=
  File.recover_meets hd hc.privacy (fun _ => hQ) fun bytes h => by
    rw [hc.append] at h; contradiction

/-- A directory that holds a committed history and nothing else: the identifiers of its
    staging files were drawn here, nothing is pending and nothing is left over. -/
structure Settled (P : Primitives) (m : Manifest) (ts : List Json) (parts : List Bytes)
    (active : Bytes) (d : Disk) : Prop extends Clean d where
  drawn : d.Drawn P
  committed : Committed P d.view m ts parts active

/-- A recovery that ends in a committed history leaves a directory the sweep settles. -/
theorem recover_sweeps {m n : Manifest} (hdone : ∀ v, Committed P v n ts parts active → C v)
    (hrecover : (recover P m).Meets d (Inv P C) (Returns fun m' d' => m' = n ∧ Inv P C d' ∧
      Committed P d'.view n ts parts active)) :
    (recover P m).Meets d (Inv P C) (Returns fun m' d₁ => m' = n ∧ Inv P C d₁ ∧
      Committed P d₁.view n ts parts active ∧ (sweepUnselected P).Meets d₁ (Inv P C)
        (Returns fun _ d' => Inv P C d' ∧ Settled P n ts parts active d')) := by
  refine hrecover.mono (fun _ h => h) ?_
  rintro r d₁ ⟨m', rfl, rfl, hinv, hc⟩
  refine ⟨m', rfl, rfl, hinv, hc, ?_⟩
  have hswept := hc.put_privacyNext P none
  refine (sweepUnselected_meets hinv.1 hinv.2 (hdone _ hswept)).mono (fun _ h => h) ?_
  rintro r d₂ ⟨b, rfl, hdrawn, hclean, hview⟩
  rw [← hview] at hswept
  exact ⟨b, rfl, ⟨hdrawn, hdone _ hswept⟩, hclean, hdrawn, hswept⟩

/-- An open whose recovery ends in a committed history settles the directory there. -/
theorem openJournal_settles {m n : Manifest} (layout : Option FileLayout) (hd : Inv P C d)
    (hbase : Base d.view) (hman : d.view.content .manifest = some (toBytes P.toFloatText m))
    (hknown : m.known) (hdone : ∀ v, Committed P v n ts parts active → C v)
    (hrecover : (recover P m).Meets d (Inv P C) (Returns fun m' d' => m' = n ∧ Inv P C d' ∧
      Committed P d'.view n ts parts active)) :
    (openJournal P layout).Meets d (Inv P C) (Reads P n ts (Settled P n ts parts active)) :=
  openJournal_meets layout hd hbase hman hknown (recover_sweeps hdone hrecover)

/-- An open of a committed directory keeps it committed throughout, and settles it. -/
theorem Committed.open_meets (hd : d.Drawn P) (hc : Committed P d.view m ts parts active)
    (layout : Option FileLayout) :
    (openJournal P layout).Meets d (Inv P fun v => Committed P v m ts parts active)
      (Reads P m ts (Settled P m ts parts active)) :=
  openJournal_settles layout ⟨hd, hc⟩ hc.toBase hc.manifest hc.cut.describes.known
    (fun _ h => h) (hc.recover_meets ⟨hd, hc⟩ ⟨rfl, ⟨hd, hc⟩, hc⟩)

/-- **Opening a settled directory changes nothing.** -/
theorem Settled.open_meets (h : Settled P m ts parts active d) (layout : Option FileLayout) :
    (openJournal P layout).Meets d (· = d) (Reads P m ts (· = d)) := by
  have hc := h.committed
  refine openJournal_meets layout rfl hc.toBase hc.manifest hc.cut.describes.known
    (hc.recover_meets rfl ⟨rfl, rfl, hc, ?_⟩)
  exact h.toClean.sweepUnselected_meets rfl ⟨false, rfl, rfl, rfl⟩

/-! ## Minting a store -/

/-- A directory without a store in it. -/
structure Unprovisioned (v : View) : Prop where
  foreign : v.content .storeJson = none
  manifest : v.content .manifest = none
  events : v.content .events = none
  append : v.content .appendIntent = none
  privacy : v.content .privacyIntent = none
  sealedAs : SealedAs v []

/-- A directory whose creation was cut between its first file of events and its manifest. -/
structure Orphaned (v : View) : Prop extends Base v where
  manifest : v.content .manifest = none
  events : v.content .events = some []

/-- What the creation of a store passes. -/
def Creating (P : Primitives) (v : View) : Prop :=
  Unprovisioned v ∨ Orphaned v ∨ ∃ m, Committed P v m [] [] []

/-- The manifest a store is minted with. -/
def mintedManifest (format store : String) (segments : Option Segments) : Manifest where
  format := format
  store := store
  epoch := 0
  sequence := 0
  length := 0
  digest := ZERO
  segments := segments

/-- A minted manifest commits the empty history. -/
theorem minted_cut {layout : FileLayout} (h : layout.start = .ok (format, segments))
    (store : String) : Cut P (mintedManifest format store segments) [] [] [] := by
  have hstart : (mintedManifest format store segments).known ∧
      (mintedManifest format store segments).sealed = [] := by
    cases layout with
    | Single =>
        simp only [FileLayout.start, Except.ok.injEq, Prod.mk.injEq] at h
        obtain ⟨rfl, rfl⟩ := h
        simp [mintedManifest, Manifest.known, Manifest.sealed]
    | Segmented sealAt =>
        simp only [FileLayout.start] at h
        split_ifs at h with hat
        simp only [Except.ok.injEq, Prod.mk.injEq] at h
        obtain ⟨rfl, rfl⟩ := h
        simp [mintedManifest, Manifest.known, Manifest.sealed, hat, u64Limit]
  refine ⟨⟨hstart.1, rfl, rfl, rfl, ?_, ?_⟩, by simp [hstart.2], by simp, rfl⟩
  · simp [mintedManifest, u64Limit]
  · simp [mintedManifest, u64Limit]

theorem takeLock_creates (hd : d.Drawn P) (hu : Unprovisioned d.view) :
    (takeLock true).Meets d (Inv P (Creating P)) (Returns fun _ d' => d'.Drawn P ∧
      Unprovisioned d'.view ∧ (d'.view.content .lock).isSome ∧ d'.drawn = d.drawn) := by
  unfold takeLock
  refine meets_ask_bind rfl ?_
  cases hlock : d.read .lock with
  | none =>
      obtain ⟨d', hok, hb⟩ := Disk.createNew_eq_ok hlock
      simp only [Disk.has, hlock, Option.isSome_none, Bool.not_false, if_true]
      have hd' : d'.Drawn P := hd.of_became hb (by simp)
      have hu' : Unprovisioned d'.view := by
        rw [hb.view_put rfl]
        exact ⟨by simpa using hu.foreign, by simpa using hu.manifest, by simpa using hu.events,
          by simpa using hu.append, by simpa using hu.privacy, hu.sealedAs.put _ (by simp)⟩
      refine meets_perform hok ⟨hd, .inl hu⟩ ⟨hd', .inl hu'⟩ ⟨(), rfl, hd', hu', ?_, hb.drawn⟩
      rw [hb.view_put rfl]
      simp
  | some bytes =>
      simp only [Disk.has, hlock, Option.isSome_some, Bool.not_true, Bool.false_eq_true, if_false]
      exact meets_done ⟨hd, .inl hu⟩ ⟨(), rfl, hd, hu, by simp [Disk.view, Path.isStaging, hlock], rfl⟩

/-- What `createStore` leaves. -/
theorem createStore_meets (layout : FileLayout) (h : layout.start = .ok (format, segments))
    (hd : d.Drawn P) (hu : Unprovisioned d.view) (hlock : (d.view.content .lock).isSome) :
    (createStore P (some layout)).Meets d (Inv P (Creating P)) (Returns fun _ d' => d'.Drawn P ∧
      Committed P d'.view (mintedManifest format (P.eventId d.drawn) segments) [] [] []) := by
  have hinv : Inv P (Creating P) d := ⟨hd, .inl hu⟩
  have hdrawn₁ : ({ d with drawn := d.drawn + 1 } : Disk).Drawn P := fun id hid => by
    obtain ⟨n, hn, heq⟩ := hd id hid
    exact ⟨n, Nat.lt_succ_of_lt hn, heq⟩
  unfold createStore
  refine meets_ask_bind rfl ?_
  simp only [has_eq_false hu.events rfl, has_eq_false hu.privacy rfl, Bool.or_self,
    Bool.false_eq_true, if_false]
  refine meets_ask_bind h (Meets.bind (newEventId_meets hinv ⟨hdrawn₁, .inl hu⟩ ⟨_, rfl, ?_⟩))
  unfold writeSynced
  refine Meets.bind (meets_put_bind ⟨hdrawn₁, .inl hu⟩ rfl
    (Disk.createNew_eq_ok (show d.read .events = none from hu.events)) ?_)
  intro d₂ hdrawn₂ (hview₂ : d₂.view = d.view.put .events (some []))
  have he₂ : d₂.read .events = some [] := by
    have : d₂.view.content .events = some [] := by rw [hview₂]; simp
    exact this
  obtain ⟨d₃, hok₃, hb₃⟩ := Disk.writeAt_eq_ok he₂ 0 []
  have hdrawn₃ : d₃.Drawn P := hdrawn₂.of_became hb₃ (by simp)
  have horphaned₂ : Creating P d₂.view := by
    rw [hview₂]
    exact .inr (.inl ⟨⟨by simpa using hu.foreign, by simpa using hlock⟩,
      by simpa using hu.manifest, by simp⟩)
  have horphaned₃ : Creating P d₃.view := by
    rw [hb₃.view_put rfl, hview₂]
    exact .inr (.inl ⟨⟨by simpa using hu.foreign, by simpa using hlock⟩,
      by simpa using hu.manifest, by simp⟩)
  refine meets_perform hok₃ ⟨hdrawn₂, horphaned₂⟩ ⟨hdrawn₃, horphaned₃⟩ ⟨(), rfl, ?_⟩
  refine atomicJson_meets ⟨hdrawn₃, horphaned₃⟩ rfl fun d₄ hdrawn₄ hview₄ => ?_
  have hc : Committed P d₄.view (mintedManifest format (P.eventId d.drawn) segments) [] [] [] := by
    rw [hview₄, hb₃.view_put rfl, hview₂]
    exact { foreign := by simpa using hu.foreign
            lock := by simpa using hlock
            append := by simpa using hu.append
            privacy := by simpa using hu.privacy
            manifest := by simp [mintedManifest]
            cut := minted_cut h _
            sealedAs := ((hu.sealedAs.put _ (by simp)).put _ (by simp)).put _ (by simp)
            events := by simp }
  exact ⟨.inr (.inr ⟨_, hc⟩), (), rfl, hdrawn₄, hc⟩

/-- Opening a directory without a store mints one, settled on the empty history. -/
theorem open_mints (layout : FileLayout) (h : layout.start = .ok (format, segments))
    (hd : d.Drawn P) (hu : Unprovisioned d.view) :
    (openJournal P (some layout)).Meets d (Inv P (Creating P)) (Returns fun j d' =>
      j.manifest = mintedManifest format (P.eventId d.drawn) segments ∧ j.transactions = [] ∧
        Settled P j.manifest [] [] [] d') := by
  unfold openJournal
  refine meets_ask_bind rfl ?_
  simp only [has_eq_false hu.foreign rfl, Bool.false_eq_true, if_false]
  refine Meets.bind ((takeLock_creates hd hu).mono (fun _ h => h) ?_)
  rintro r d₁ ⟨u, rfl, hd₁, hu₁, hlock₁, hdrawn₁⟩
  refine ⟨u, rfl, meets_ask_bind rfl ?_⟩
  rw [has_eq_false hu₁.manifest rfl]
  refine Meets.bind ((createStore_meets layout h hd₁ hu₁ hlock₁).mono (fun _ h => h) ?_)
  rintro r d₂ ⟨u, rfl, hd₂, hc⟩
  have hinv₂ : Inv P (Creating P) d₂ := ⟨hd₂, .inr (.inr ⟨_, hc⟩)⟩
  have hopen := openProvisioned_meets hc.manifest hc.cut.describes.known
    (recover_sweeps (fun _ h => .inr (.inr ⟨_, h⟩)) (hc.recover_meets hinv₂ ⟨rfl, hinv₂, hc⟩))
  refine ⟨u, rfl, hopen.mono (fun _ h => h) fun r d' hreads => ?_⟩
  obtain ⟨j, hj, hmanifest, hts, -, hsettled⟩ := hreads.returns hc.cut.describes (by simp)
  exact ⟨j, hj, hdrawn₁ ▸ hmanifest, hts, hmanifest ▸ hsettled⟩

/-- A directory with nothing in it. -/
def emptyDisk : Disk where
  files := ∅
  segments := false
  blobs := false
  inodes := 0
  clock := 0
  drawn := 0

theorem emptyDisk_drawn : emptyDisk.Drawn P := by
  intro id hid
  simp [emptyDisk, Disk.read] at hid

theorem emptyDisk_unprovisioned : Unprovisioned emptyDisk.view := by
  have hnone : ∀ p, emptyDisk.view.content p = none := by
    intro p
    simp [Disk.view, emptyDisk, Disk.read]
  exact ⟨hnone _, hnone _, hnone _, hnone _, hnone _, ⟨fun i => by simp [hnone], by simp⟩⟩

/-- The store that opening an empty directory mints. -/
theorem minted_settled (layout : FileLayout) (h : layout.start = .ok (format, segments)) :
    ∃ j d, (openJournal P (some layout) emptyDisk).result = .ok j ∧
      d = (openJournal P (some layout)).last emptyDisk ∧
      j.manifest = mintedManifest format (P.eventId 0) segments ∧ j.transactions = [] ∧
      Settled P j.manifest [] [] [] d := by
  obtain ⟨j, hj, hmanifest, hts, hsettled⟩ :=
    (open_mints layout h emptyDisk_drawn emptyDisk_unprovisioned (P := P)).2
  exact ⟨j, _, hj, rfl, hmanifest, hts, hsettled⟩

/-! ## Recovering -/

/-- The next complete open yields exactly `ts`, leaves the directory settled on it, and
    opening again changes nothing. -/
def Recovers (P : Primitives) (layout : Option FileLayout) (ts : List Json) (d : Disk) : Prop :=
  ∃ j parts active, (openJournal P layout d).result = .ok j ∧ j.transactions = ts ∧
    Settled P j.manifest ts parts active ((openJournal P layout).last d) ∧
    (openJournal P layout).Meets ((openJournal P layout).last d)
      (· = (openJournal P layout).last d)
      (Returns fun j' _ => j'.manifest = j.manifest ∧ j'.transactions = ts)

theorem recovers_of_reads {C : Disk → Prop} {layout : Option FileLayout}
    (h : (openJournal P layout).Meets d C (Reads P n ts (Settled P n ts parts active)))
    (hn : Describes P n ts) (hts : ∀ t ∈ ts, Survives P t) : Recovers P layout ts d := by
  obtain ⟨j, hj, rfl, htransactions, -, hsettled⟩ := h.2.returns hn hts
  refine ⟨j, parts, active, hj, htransactions, hsettled, ?_⟩
  refine (hsettled.open_meets layout).mono (fun _ h => h) fun r d' hreads => ?_
  obtain ⟨j', hj', hmanifest, htransactions', -⟩ := hreads.returns hn hts
  exact ⟨j', hj', hmanifest, htransactions'⟩

/-- A committed history can be opened again only if all of it survives. -/
theorem Recovers.survives {layout : Option FileLayout} (h : Recovers P layout ts d)
    (hd : d.Drawn P) (hc : Committed P d.view m ts parts active) : ∀ t ∈ ts, Survives P t := by
  obtain ⟨j, -, -, hj, htransactions, -⟩ := h
  have hreads := (hc.open_meets hd layout).2
  rw [hj] at hreads
  exact hreads.survives hc.cut.describes htransactions

end Eventlog.File
