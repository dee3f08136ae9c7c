import Eventlog.File.Administering
import Eventlog.File.Recording
import Eventlog.File.Serving
import Eventlog.File.World

/-!
# Eventlog.File.Running

What holds of a directory and its handles after any run.

A root is fresh until a store is created in it; from then on it holds a committed history that
replays, and every handle's knowledge of it is true (`Live`).  The one way out of this is a
rewrite that cannot be read back (`Wedged`), after which every call fails and nothing changes.

* `Later`, `Proceeds` — how the history and its state move from one action to the next.
* `Turn.live` — every call keeps the directory live or leaves it wedged.
* `World.Live.act`, `World.Stands.run` — so does every action, and every run.
-/

namespace Eventlog.File

open Durable Program

variable {P : Primitives} {B : Bodies} {d d' : Disk} {m m' : Manifest} {ts ts' : List Json}
  {s s' s₀ : State} {h : Handle}

/-! ## Moving on -/

/-- A later history of the same store: a longer one of the epoch, or one of a later epoch. -/
def Later (m : Manifest) (ts : List Json) (m' : Manifest) (ts' : List Json) : Prop :=
  SameLineage m m' ∧ ts <+: ts' ∨ m.epoch < m'.epoch ∧ m'.store = m.store

theorem Later.refl (m : Manifest) (ts : List Json) : Later m ts m ts :=
  .inl ⟨⟨rfl, rfl, rfl⟩, List.prefix_rfl⟩

theorem Observed.epoch_le {o : Manifest} (h : Observed P o m ts) : o.epoch ≤ m.epoch :=
  h.2.elim le_of_lt fun hb => le_of_eq hb.lineage.epoch

/-- What a handle knows stays true. -/
theorem Handle.Sound.later (hh : h.Sound P B m ts) (hl : Later m ts m' ts') :
    h.Sound P B m' ts' := by
  rcases hl with ⟨hlineage, hprefix⟩ | ⟨hepoch, hstore⟩
  · exact hh.extend hlineage hprefix
  · have hover {o : Manifest} (ho : Observed P o m ts) : o.epoch < m'.epoch :=
      lt_of_le_of_lt ho.epoch_le hepoch
    refine ⟨fun o ho => ?_, fun v hv => ?_, hh.inline⟩
    · have hobserved := hh.observed o ho
      exact ⟨hobserved.1.trans hstore.symm, .inl (hover hobserved)⟩
    · have hobserved := (hh.verified v hv).1
      refine ⟨⟨hobserved.1.trans hstore.symm, .inl (hover hobserved)⟩, fun hb => ?_⟩
      exact absurd hb.lineage.epoch (ne_of_lt (hover hobserved))

/-- How a state moves on: the feed never goes back, and what is at a position it has passed
    was there before, with the same identity. -/
structure Proceeds (s s' : State) : Prop where
  position : s.nextPosition ≤ s'.nextPosition
  events : ∀ e ∈ s'.events, s.nextPosition < e.globalSeq ∨
    ∃ e₀ ∈ s.events, e₀.eventId = e.eventId ∧ SamePlace e e₀

theorem SamePlace.refl (e : RecordedEvent) : SamePlace e e := ⟨rfl, rfl, rfl, rfl, rfl⟩

theorem SamePlace.trans {e₁ e₂ e₃ : RecordedEvent} (h : SamePlace e₁ e₂) (h' : SamePlace e₂ e₃) :
    SamePlace e₁ e₃ :=
  ⟨h.tenant.trans h'.tenant, h.streamType.trans h'.streamType, h.streamId.trans h'.streamId,
    h.version.trans h'.version, h.globalSeq.trans h'.globalSeq⟩

theorem Proceeds.refl (s : State) : Proceeds s s :=
  ⟨le_refl _, fun e he => .inr ⟨e, he, rfl, .refl e⟩⟩

theorem Proceeds.trans {s₁ s₂ s₃ : State} (h : Proceeds s₁ s₂) (h' : Proceeds s₂ s₃) :
    Proceeds s₁ s₃ := by
  refine ⟨le_trans h.position h'.position, fun e he => ?_⟩
  rcases h'.events e he with hnew | ⟨e₂, he₂, hid₂, hplace₂⟩
  · exact .inl (lt_of_le_of_lt h.position hnew)
  · rcases h.events e₂ he₂ with hnew | ⟨e₁, he₁, hid₁, hplace₁⟩
    · exact .inl (hplace₂.globalSeq ▸ hnew)
    · exact .inr ⟨e₁, he₁, hid₁.trans hid₂, hplace₂.trans hplace₁⟩

theorem apply_proceeds {op : Op} (h : s.apply op = .ok s') : Proceeds s s' := by
  refine ⟨((apply_nextPosition_le_iff h _).mp (le_refl _)).1, fun e he => ?_⟩
  rw [apply_events h] at he
  rcases List.mem_append.mp he with he | he
  · exact .inr ⟨e, he, rfl, .refl e⟩
  · rcases State.apply_cases h with ⟨e', stream, rfl, -, hposition, -, -⟩ |
      ⟨name, indexed, rfl, -, -⟩ | ⟨hplain, -⟩
    · rw [List.mem_singleton.mp he]
      exact .inl hposition
    · simp [Op.event?] at he
    · cases op <;> simp_all [Op.event?, Op.Plain]

theorem applyAll_proceeds {ops : List Op} (h : s.applyAll ops = .ok s') : Proceeds s s' :=
  applyAll_induction (fun _ _ _ hs _ happly => hs.trans (apply_proceeds happly)) (.refl s) h

theorem Redacted.proceeds {tenant : TenantId} {event : RecordedEvent}
    (h : Redacted tenant event s s') : Proceeds s s' := by
  refine ⟨le_of_eq h.nextPosition.symm, fun e he => ?_⟩
  rw [h.events] at he
  obtain ⟨e₀, he₀, rfl⟩ := List.mem_map.mp he
  exact .inr ⟨e₀, he₀, (redactEvent_eventId event e₀).symm, h.place e₀ he₀⟩

theorem Without.proceeds {tenant : TenantId} (h : Without tenant s s')
    (hposition : s'.nextPosition = s.nextPosition) : Proceeds s s' := by
  refine ⟨le_of_eq hposition.symm, fun e he => ?_⟩
  rw [h.events] at he
  exact .inr ⟨e, List.mem_of_mem_filter he, rfl, .refl e⟩

theorem Unmarked.proceeds (h : Unmarked s s') : Proceeds s s' := by
  refine ⟨le_of_eq h.nextPosition.symm, fun e he => ?_⟩
  rw [h.events] at he
  exact .inr ⟨e, he, rfl, .refl e⟩

/-! ## What changes a committed state -/

/-- What a change of the committed state comes from. -/
inductive Cause where
  | none
  | request (r : Request)
  | register (p : Projector)
  | rebuild (p : Projector) (tenant : TenantId)

/-- The work of a cause that only adds to the history. -/
def Cause.Works (P : Primitives) (tx tx' : Tx) : Cause → Prop
  | .none => tx' = tx
  | .request r => r.rewrites = false ∧ ∃ a, r.work P tx = (.ok a, tx')
  | .register p => Work.register p tx = (.ok (), tx')
  | .rebuild p tenant => ∃ a, Work.rebuildInline P p tenant tx = (.ok a, tx')

/-- **How a committed state can change**, and how many identifiers were drawn before and after. -/
inductive Changes (P : Primitives) (B : Bodies) (s : State) (n : Nat) : Cause → State → Nat → Prop
  | same {c : Cause} {n' : Nat} (drawn : n ≤ n') : Changes P B s n c s n'
  | committed {c : Cause} {tx₀ tx : Tx} {n' : Nat} (strip : tx₀.state.strip = s)
      (rows : tx₀.state.Rows B.row) (fresh : tx₀.pending = []) (begun : n ≤ tx₀.disk.drawn)
      (work : c.Works P tx₀ tx) (ran : Ran P B tx₀ true tx) (ended : tx.disk.drawn ≤ n') :
      Changes P B s n c tx.state.strip n'
  | forgot {tenant : TenantId} {s' : State} {n' : Nat} (without : Without tenant s s')
      (position : s'.nextPosition = s.nextPosition) (drawn : n ≤ n') :
      Changes P B s n (.request (.forgetTenant tenant)) s' n'
  | redacted {stream : StreamId} {version : Nat} {reason : String} {old event : RecordedEvent}
      {moment : OffsetDateTime} {s' : State} {id n' : Nat} (found : old ∈ s.ofStream stream)
      (place : old.version = version) (replaces : event = redactedEvent old reason moment)
      (redacted : Redacted stream.tenant event s s') (begun : n ≤ id) (ended : id < n') :
      Changes P B s n (.request (.redact stream version reason))
        (s'.marked (redactionMarks s' stream (P.eventId id))) n'

theorem Changes.proceeds {c : Cause} {n n' : Nat} (h : Changes P B s n c s' n') : Proceeds s s' := by
  cases h with
  | same drawn => exact .refl s
  | @committed _ tx₀ tx _ strip rows fresh begun work ran ended =>
      obtain ⟨ops, hpending, hstaged⟩ := ran.staged
      have hproceeds := applyAll_proceeds (hstaged.applied rfl)
      rw [← strip]
      exact ⟨hproceeds.position, hproceeds.events⟩
  | forgot without position drawn => exact without.proceeds position
  | redacted found place replaces redacted begun ended =>
      exact redacted.proceeds.trans (unmarked_marked (redactionMarks_marks _ _ _) _).proceeds

/-! ## Calls -/

/-- A directory and a handle after something happened to the directory `d₀`. -/
structure Moved (P : Primitives) (B : Bodies) (m : Manifest) (ts : List Json) (s₀ : State)
    (d₀ : Disk) (c : Cause) (h : Handle) (d : Disk) (m' : Manifest) (ts' : List Json)
    (s' : State) : Prop where
  later : Later m ts m' ts'
  changes : Changes P B s₀ d₀.drawn c s' d.drawn
  stored : Stored P B d m' ts' s'
  sealed : Sealed ts'
  sound : h.Sound P B m' ts'

/-- A transaction that ends with where the feed stands covers its events. -/
theorem sealed_covered {tx : Tx} (h : s.applyAll tx.pending = .ok tx.state) : Covered tx.sealed := by
  unfold Tx.sealed
  split_ifs
  · simp [Covered]
  · intro e he
    have hmem : .Event e ∈ tx.pending := by simpa using he
    refine ⟨tx.state.nextPosition, by simp, ?_⟩
    exact ((applyAll_nextPosition_le_iff h _).mp (le_refl _)).2 _ hmem

theorem journalOf_sealed {ops : List Op} (hops : ∀ op ∈ ops, op.Marks) (s : State) :
    Sealed (journalOf ops s) := by
  unfold journalOf
  split_ifs
  · exact sealed_nil
  · refine sealed_singleton fun e he => ?_
    rcases List.mem_append.mp he with he | he
    · exact (hops _ he).elim
    · simp at he

theorem Replaced.sealed {r : Request} {a : Response} {tx₀ tx : Tx} {us : List Json} {ops : List Op}
    (h : Replaced P ts s₀ tx₀ r a tx us s ops) (hst : Stored P B d m ts s₀) (hsealed : Sealed ts) :
    Sealed (replacement us s ops) := by
  cases h with
  | forgot hreplayed hwithout =>
      exact (hsealed.rewritten hst.journaled fun t ht ops hread hcovered =>
        hcovered.forgetOps _).append (journalOf_sealed (by simp) _)
  | redacted hfound hplace hevent hreplayed hredacted =>
      refine (hsealed.rewritten hst.journaled fun t ht ops hread hcovered =>
        hcovered.redactOps _ fun e he => ?_).append
          (journalOf_sealed (redactionMarks_marks _ _ _) _)
      exact hredacted.place e ((mem_events_of_replayFrom hst.journaled hst.replayed e).2 t ht ops
        hread he)

theorem Replaced.changes {r : Request} {a : Response} {tx₀ tx : Tx} {us : List Json}
    {ops : List Op} {n' : Nat} (h : Replaced P ts s₀ tx₀ r a tx us s ops)
    (hst : Stored P B d m ts s₀) (hsealed : Sealed ts) (hdrawn : tx.disk.drawn ≤ n') :
    Changes P B s₀ tx₀.disk.drawn (.request r) (s.marked ops) n' := by
  cases h with
  | forgot hreplayed hwithout =>
      exact .forgot hwithout (forget_nextPosition hst.journaled hsealed hst.replayed hreplayed)
        hdrawn
  | redacted hfound hplace hevent hreplayed hredacted =>
      exact .redacted hfound hplace hevent hredacted (le_refl _) hdrawn

theorem Changes.begin {c : Cause} {n k n' : Nat} (h : Changes P B s k c s' n') (hle : n ≤ k) :
    Changes P B s n c s' n' := by
  cases h with
  | same drawn => exact .same (le_trans hle drawn)
  | committed strip rows fresh begun work ran ended =>
      exact .committed strip rows fresh (le_trans hle begun) work ran ended
  | forgot without position drawn => exact .forgot without position (le_trans hle drawn)
  | redacted found place replaces redacted begun ended =>
      exact .redacted found place replaces redacted (le_trans hle begun) ended

/-- A handle that knows a head and keeps no view. -/
theorem observing_sound {o : Manifest} (ho : Observed P o m ts) (hobserved : h.observed = some o)
    (hverified : h.verified = none) (hinline : ∀ p ∈ h.inline, p.Writes B.row) :
    h.Sound P B m ts where
  observed o' ho' := by
    rw [hobserved] at ho'
    cases ho'
    exact ho
  verified v hv := by
    rw [hverified] at hv
    contradiction
  inline := hinline

theorem Stored.observed (hst : Stored P B d m ts s₀) : Observed P m m ts := by
  obtain ⟨parts, active, hc⟩ := hst.committed
  exact ⟨rfl, .inr (behind_self hc.cut.describes)⟩

/-- **Every turn of a call** leaves a directory that is live, or wedged. -/
theorem Turn.moved {r : Request} {served : Served Response}
    (hturn : Turn P B m ts s₀ h d r served) (hsealed : Sealed ts) (hh : h.Sound P B m ts) :
    (∃ m' ts' s', Moved P B m ts s₀ d (.request r) served.handle served.disk m' ts' s') ∨
      Wedged P served.disk := by
  have hstay {h' : Handle} {d' : Disk} (hst' : Stored P B d' m ts s₀) (hdrawn : d.drawn ≤ d'.drawn)
      (hh' : h'.Sound P B m ts) :
      ∃ m' ts' s', Moved P B m ts s₀ d (.request r) h' d' m' ts' s' :=
    ⟨m, ts, s₀, .refl m ts, .same hdrawn, hst', hsealed, hh'⟩
  cases hturn with
  | shut entered => exact .inl (hstay entered.1 entered.2.1.drawn (forgotten_sound hh))
  | refused given work unmoved sound observed =>
      exact .inl (hstay (given.starts.stored.unmoved unmoved)
        (le_trans given.tended.drawn unmoved.drawn) sound)
  | quiet given rewrites work ran pending state stored =>
      refine .inl (hstay stored (le_trans given.tended.drawn ran.grew.drawn)
        (keep_sound stored (ran.journal ▸ given.starts.manifest)
          (ran.journal ▸ given.starts.transactions) (state ▸ given.starts.strip)
          (state ▸ given.starts.rows) hh.inline))
  | saved given request current became stored =>
      exact .inl (hstay stored (le_trans given.tended.drawn (le_of_eq became.drawn.symm))
        (keep_sound stored given.starts.manifest given.starts.transactions given.starts.strip
          given.starts.rows hh.inline))
  | full given work grew stored =>
      exact .inl (hstay stored (le_trans given.tended.drawn grew.drawn) (forgotten_sound hh))
  | @committed tx₀ tx a j d' given rewrites work ran pending lineage transactions stored tended =>
      obtain ⟨happlied, hbodied⟩ := given.starts.applied ran
      refine .inl ⟨_, _, _, .inl ⟨lineage, List.prefix_append _ _⟩, ?_, stored,
        hsealed.append (sealed_singleton (sealed_covered happlied)), ?_⟩
      · exact .committed given.starts.strip given.starts.rows given.starts.pending
          given.tended.drawn ⟨rewrites, a, work⟩ ran tended.drawn
      · exact keep_sound stored rfl transactions rfl
          (applyAll_rows given.starts.rows hbodied happlied) hh.inline
  | replaced given work replaced epoch store stored tended =>
      have hst₀ := given.starts.stored
      refine .inl ⟨_, _, _, .inr ⟨by omega, store⟩,
        (replaced.changes hst₀ hsealed tended.drawn).begin given.tended.drawn, stored,
        replaced.sealed hst₀ hsealed, ?_⟩
      exact observing_sound stored.observed rfl rfl hh.inline
  | stuck given work replaced wedged => exact .inr wedged

/-! ## Administration -/

theorem attached_sound {ps : List Projector} (hh : h.Sound P B m ts) (ho : Observed P m m ts)
    (hps : ∀ p ∈ ps, p.Writes B.row) : (h.attached m ps).Sound P B m ts where
  observed o h := by
    cases h
    exact ho
  verified := hh.verified
  inline p hp := (List.mem_append.mp hp).elim (hh.inline p) (hps p)

theorem Administered.moved {ps : List Projector} {w : Work α} {served : Served α} {c : Cause}
    (hadmin : Administered P B m ts s₀ h d ps w served) (hsealed : Sealed ts)
    (hh : h.Sound P B m ts) (hps : ∀ p ∈ ps, p.Writes B.row)
    (hw : Session.Obeys Eventless w)
    (hc : ∀ tx a tx', w tx = (.ok a, tx') → c.Works P tx tx') :
    ∃ m' ts' s', Moved P B m ts s₀ d c served.handle served.disk m' ts' s' := by
  cases hadmin with
  | refused stored drawn => exact ⟨m, ts, s₀, .refl m ts, .same drawn, stored, hsealed, hh⟩
  | quiet behind stored drawn =>
      exact ⟨m, ts, s₀, .refl m ts, .same drawn, stored, hsealed,
        attached_sound hh stored.observed hps⟩
  | @committed tx₀ tx a us j d' behind starts begun work ran ops lineage stored ended =>
      obtain ⟨happlied, -⟩ := starts.applied ran
      obtain ⟨staged, hstaged, hnone⟩ := hw tx₀
      rw [work, starts.pending, List.nil_append] at hstaged
      have hplain : Covered tx.pending := fun e he => absurd rfl (hnone _ (hstaged ▸ he) e)
      have hcovered : Covered us := by
        rcases ops with rfl | rfl
        · exact hplain
        · exact sealed_covered happlied
      have hlater : Later m ts j.manifest (ts ++ [toValue us]) :=
        .inl ⟨lineage, List.prefix_append _ _⟩
      refine ⟨_, _, _, hlater, ?_, stored, hsealed.append (sealed_singleton hcovered),
        attached_sound (hh.later hlater) stored.observed hps⟩
      exact .committed starts.strip starts.rows starts.pending begun (hc _ _ _ work) ran ended

/-! ## Opening -/

/-- The end of an open whose journal was opened at the history `ts`. -/
theorem openStore_of_opened {layout : Option FileLayout} {permit : Nat} {j : Journal}
    (hlayout : layout ≠ some (.Segmented 0)) (hj : (openJournal P layout d).result = .ok j)
    (hst : Stored P B ((openJournal P layout).last d) m ts s₀) (hts : Genuine P ts)
    (hm : j.manifest = m) (htransactions : j.transactions = ts) :
    Stored P B (openStore P layout permit d).2 m ts s₀ ∧
      d.drawn ≤ (openStore P layout permit d).2.drawn ∧
      ∀ h, (openStore P layout permit d).1 = .ok h → h.Sound P B m ts := by
  have haside : Aside d ((openJournal P layout).last d) :=
    ((openJournal_keeps layout).last d).toAside
  have hreplay : State.replay j.transactions = .ok s₀ := by rw [htransactions]; exact hst.replayed
  have hsound : (Handle.opened j.manifest permit).Sound P B m ts :=
    observing_sound hst.observed (by rw [← hm]; rfl) rfl (by simp [Handle.opened])
  have heq : openStore P layout permit d =
      (((Handle.opened j.manifest permit).transaction P (pure () : Work Unit)
          ((openJournal P layout).last d)).result.map fun _ =>
        ((Handle.opened j.manifest permit).transaction P (pure () : Work Unit)
          ((openJournal P layout).last d)).handle,
        ((Handle.opened j.manifest permit).transaction P (pure () : Work Unit)
          ((openJournal P layout).last d)).disk) := by
    unfold openStore
    rw [if_neg hlayout]
    simp only [hj, hreplay]
  rw [heq]
  rcases transaction_cases (pure () : Work Unit) hst hts hsound with ⟨e, d', hserved, hentered⟩ |
    ⟨j', s, d', hentered, hserved⟩
  · rw [hserved]
    exact ⟨hentered.1, le_trans haside.drawn hentered.2.1.drawn,
      fun h hh => by simp [Except.map] at hh⟩
  · have hwork : (pure () : Work Unit) ((Handle.opened j.manifest permit).begin j' s d') =
        (.ok (), (Handle.opened j.manifest permit).begin j' s d') := rfl
    rw [hwork] at hserved
    simp only at hserved
    rw [finish_of_nothing rfl rfl] at hserved
    rw [hserved]
    obtain ⟨hstored, htended, hmanifest, hts', hstrip, hrows, -, -⟩ := hentered
    refine ⟨hstored, le_trans haside.drawn htended.drawn, fun h hh => ?_⟩
    cases hh
    exact keep_sound hstored hmanifest hts' hstrip hrows (by simp [Handle.opened])

theorem openStore_of_stored {layout : Option FileLayout} {permit : Nat}
    (hst : Stored P B d m ts s₀) (hts : Genuine P ts) :
    Stored P B (openStore P layout permit d).2 m ts s₀ ∧
      d.drawn ≤ (openStore P layout permit d).2.drawn ∧
      ∀ h, (openStore P layout permit d).1 = .ok h → h.Sound P B m ts := by
  by_cases hlayout : layout = some (.Segmented 0)
  · unfold openStore
    rw [if_pos hlayout]
    exact ⟨hst, le_refl _, fun h hh => nomatch hh⟩
  · obtain ⟨hst₁, haside, hr⟩ := (openJournal_meets_stored hst hts layout).2
    cases hj : (openJournal P layout d).result with
    | error e =>
        unfold openStore
        simp only [if_neg hlayout, hj]
        exact ⟨hst₁, haside.drawn, fun h hh => nomatch hh⟩
    | ok j =>
        rw [hj] at hr
        exact openStore_of_opened hlayout hj hst₁ hts hr.1 hr.2.1

/-- A root in which no store was created yet. -/
structure Fresh (P : Primitives) (d : Disk) : Prop where
  drawn : d.Drawn P
  unprovisioned : Unprovisioned d.view
  lock : d.view.content .lock = none
  content : ∀ p : Path, p.isContent → d.read p = none

/-- Opening an existing store fails on a fresh root. -/
theorem Fresh.open_existing (h : Fresh P d) :
    (openJournal P none).Meets d (· = d) fun x d' => ∃ e, x = .error e ∧ d' = d := by
  unfold openJournal
  refine meets_ask_bind rfl ?_
  simp only [has_eq_false h.unprovisioned.foreign rfl, Bool.false_eq_true, if_false]
  refine Meets.bind_error ?_
  unfold takeLock
  refine meets_ask_bind rfl ?_
  simp only [has_eq_false h.lock rfl, Option.isSome_none, Bool.not_false, if_true,
    Bool.false_eq_true, if_false]
  exact ⟨by simp [fail], ⟨_, rfl, _, rfl, rfl⟩⟩

theorem Fresh.stored {layout : FileLayout} {j : Journal} (h : Fresh P d)
    (hs : Settled P j.manifest [] [] [] ((openJournal P (some layout)).last d)) :
    Stored P B ((openJournal P (some layout)).last d) j.manifest [] State.empty := by
  have haside : Aside d ((openJournal P (some layout)).last d) :=
    ((openJournal_keeps _).last d).toAside
  have hnone : ∀ id, ((openJournal P (some layout)).last d).read (.object id) = none := fun id =>
    (haside.content _ rfl).trans (h.content _ rfl)
  constructor
  · exact hs.drawn
  · exact ⟨[], [], hs.committed⟩
  · exact journaled_nil
  · rfl
  · exact ⟨fun e he => (nomatch he), List.nodup_nil⟩
  · intro k b hb
    simp [State.empty] at hb
  · intro id hid
    rw [hnone] at hid
    contradiction
  · intro id hid
    rw [hnone] at hid
    contradiction

/-- Opening a fresh root leaves it fresh, or creates a store without history. -/
theorem openStore_of_fresh (hd : Fresh P d) (layout : Option FileLayout) (permit : Nat) :
    openStore P layout permit d = ((openStore P layout permit d).1, d) ∧
        (∃ e, (openStore P layout permit d).1 = .error e) ∨
      ∃ m, Stored P B (openStore P layout permit d).2 m [] State.empty ∧
        d.drawn ≤ (openStore P layout permit d).2.drawn ∧
        ∀ h, (openStore P layout permit d).1 = .ok h → h.Sound P B m [] := by
  by_cases hlayout : layout = some (.Segmented 0)
  · refine .inl ?_
    unfold openStore
    rw [if_pos hlayout]
    exact ⟨rfl, _, rfl⟩
  · cases layout with
    | none =>
        obtain ⟨-, e, he, hlast⟩ := hd.open_existing
        refine .inl ?_
        unfold openStore
        simp only [if_neg hlayout, he, hlast]
        exact ⟨trivial, e, rfl⟩
    | some l =>
        have hstart : ∃ format segments, l.start = .ok (format, segments) := by
          cases l with
          | Single => exact ⟨_, _, rfl⟩
          | Segmented n =>
              cases n with
              | zero => exact absurd rfl hlayout
              | succ n => exact ⟨_, _, rfl⟩
        obtain ⟨format, segments, hstart⟩ := hstart
        obtain ⟨j, hj, -, hts, hsettled⟩ := (open_mints l hstart hd.drawn hd.unprovisioned).2
        exact .inr ⟨j.manifest, openStore_of_opened hlayout hj (hd.stored hsettled)
          (.inr fun t ht => nomatch ht) rfl hts⟩

/-! ## A wedged directory -/

namespace Wedged

theorem openJournal (h : Wedged P d) (layout : Option FileLayout) :
    (openJournal P layout).Meets d (· = d) fun x d' => ∃ e, x = .error e ∧ d' = d := by
  obtain ⟨-, r, hunreadable, hstaged⟩ := h
  exact r.open_refused layout hunreadable hstaged

theorem pendingIntent (h : Wedged P d) : pendingIntent d = true := by
  obtain ⟨-, r, -, hstaged⟩ := h
  simp [File.pendingIntent, has_eq_true hstaged.privacy]

theorem enterComplete (h : Wedged P d) (observed : Option Manifest) :
    (enterComplete P observed).Meets d (· = d) fun x d' => ∃ e, x = .error e ∧ d' = d :=
  Meets.bind_error ((h.openJournal none).mono (fun _ h => h) fun _ _ ⟨e, hx, hd⟩ =>
    ⟨e, hx, e, rfl, hd⟩)

/-- Nobody enters a wedged directory. -/
theorem enter (h : Wedged P d) (observed : Option Manifest) (verified : Option Verified) :
    (enter P observed verified).Meets d (· = d) fun x d' => ∃ e, x = .error e ∧ d' = d := by
  unfold File.enter
  split
  · refine Meets.bind ?_
    obtain ⟨-, r, -, hstaged⟩ := id h
    obtain ⟨lock, hlock⟩ := Option.isSome_iff_exists.mp hstaged.lock
    unfold resume
    refine meets_ask_bind (a := ()) (by simp [has_eq_true hlock]) ?_
    refine meets_ask_bind (a := none) (by simp [resumedCommitted, h.pendingIntent]) ?_
    exact meets_done rfl ⟨none, rfl, h.enterComplete _⟩
  · exact h.enterComplete _

theorem transaction (h : Wedged P d) (handle : Handle) (w : Work α) :
    (handle.transaction P w d).disk = d := by
  obtain ⟨-, e, he, hlast⟩ := h.enter handle.observed handle.current
  unfold Handle.transaction
  simp only [he, hlast]

theorem openStrict (h : Wedged P d) : ∃ e, openStrict P d = .error e := by
  unfold File.openStrict
  split_ifs
  · exact ⟨_, rfl⟩
  · exact ⟨_, rfl⟩
  all_goals exact absurd h.pendingIntent ‹_›

theorem strict (h : Wedged P d) (handle : Handle) (p : Projector) :
    ∃ e, handle.strict P p d = .error e := by
  obtain ⟨e, he⟩ := h.openStrict
  exact ⟨e, by simp [Handle.strict, he, bind, Except.bind]⟩

end Wedged

/-! ## Worlds -/

/-- What is asked of the bodies and callbacks an action hands in. -/
def Action.Carries (B : Bodies) : Action → Prop
  | .Call _ request => request.Carries B
  | .RegisterInline _ p | .AttachInlineExisting _ p => p.Writes B.row
  | _ => True

/-- **A live world**: the directory holds the history `ts` under `m`, and what every handle
    knows of it is true. -/
structure World.Live (P : Primitives) (B : Bodies) (m : Manifest) (ts : List Json) (s : State)
    (w : World) : Prop where
  stored : Stored P B w.disk m ts s
  sealed : Sealed ts
  handles : ∀ h ∈ w.handles, h.Sound P B m ts

/-- What an action can change the committed state by. -/
def Action.Causes (P : Primitives) (w : World) : Action → Cause → Prop
  | .Call _ request, c => c = .request request ∧ request.precheck P = .ok ()
  | .RegisterInline _ p, c => c = .register p
  | .RebuildInlineProjection i name tenant, c => ∃ h p, w.handles[i]? = some h ∧ p ∈ h.inline ∧
      p.name = name ∧ c = .rebuild p tenant
  | _, _ => False

/-- What a live world has become after changes that `C` allows. -/
def World.Continues (P : Primitives) (B : Bodies) (m : Manifest) (ts : List Json) (s : State)
    (n : Nat) (C : Cause → Prop) (w : World) : Prop :=
  (∃ m' ts' s' c, w.Live P B m' ts' s' ∧ Later m ts m' ts' ∧ (c = .none ∨ C c) ∧
    Changes P B s n c s' w.disk.drawn) ∨ Wedged P w.disk

theorem World.Live.stays {w : World} {n : Nat} {C : Cause → Prop} (h : w.Live P B m ts s)
    (hdrawn : n ≤ w.disk.drawn) : w.Continues P B m ts s n C :=
  .inl ⟨m, ts, s, .none, h, .refl m ts, .inl rfl, .same hdrawn⟩

theorem World.Live.serve {w : World} {C : Cause → Prop} (hw : w.Live P B m ts s) (i : Nat)
    (answer : Except EventLogError α → Answer) (call : Handle → Disk → Served α)
    (hcall : ∀ h, w.handles[i]? = some h → h.Sound P B m ts →
      (∃ c m' ts' s', (c = .none ∨ C c) ∧ Moved P B m ts s w.disk c (call h w.disk).handle
        (call h w.disk).disk m' ts' s') ∨ Wedged P (call h w.disk).disk) :
    (w.serve i answer call).2.Continues P B m ts s w.disk.drawn C := by
  unfold World.serve
  cases hi : w.handles[i]? with
  | none => exact hw.stays (le_refl _)
  | some h =>
      rcases hcall h hi (hw.handles h (List.mem_of_getElem? hi)) with
        ⟨c, m', ts', s', hc, hmoved⟩ | hwedged
      · refine .inl ⟨m', ts', s', c, ⟨hmoved.stored, hmoved.sealed, fun h' hh' => ?_⟩,
          hmoved.later, hc, hmoved.changes⟩
        rcases List.mem_or_eq_of_mem_set hh' with hold | rfl
        · exact (hw.handles h' hold).later hmoved.later
        · exact hmoved.sound
      · exact .inr hwedged

theorem World.act_open (w : World) (layout : Option FileLayout) :
    (w.act P (.Open layout)).2 = ⟨(openStore P layout w.handles.length w.disk).2,
      w.handles ++ (openStore P layout w.handles.length w.disk).1.toOption.toList⟩ := by
  simp only [World.act]
  rcases openStore P layout w.handles.length w.disk with ⟨r, d'⟩
  cases r <;> simp [Except.toOption]

theorem mem_toList_toOption {x : Except EventLogError Handle} {h : Handle} :
    h ∈ x.toOption.toList ↔ x = .ok h := by
  cases x <;> simp [Except.toOption, eq_comm]

theorem Stored.tick (hst : Stored P B d m ts s) (now : Int) :
    Stored P B { d with clock := now } m ts s :=
  hst.of_agree (fun _ _ => rfl) rfl (le_refl _) hst.holds hst.named hst.placed

section

variable (hsha : Function.Injective P.sha256) (hB : ∀ reason, B.data (redactionTombstone reason))

include hsha hB

/-- **Every action** keeps a live world live, or wedges its directory. -/
theorem World.Live.act {w : World} {a : Action} (hw : w.Live P B m ts s) (ha : a.Carries B) :
    (w.act P a).2.Continues P B m ts s w.disk.drawn (a.Causes P w) := by
  have hts : Genuine P ts := .inl hsha
  cases a with
  | Open layout =>
      obtain ⟨hstored, hdrawn, hsound⟩ := openStore_of_stored hw.stored hts
      rw [World.act_open]
      refine World.Live.stays ⟨hstored, hw.sealed, fun h hh => ?_⟩ hdrawn
      rcases List.mem_append.mp hh with hold | hnew
      · exact hw.handles h hold
      · exact hsound h (mem_toList_toOption.mp hnew)
  | Call i request =>
      refine hw.serve i _ _ fun h hi hsound => ?_
      rcases call_turn hw.stored hsound hsha hB ha with ⟨e, -, heq⟩ | ⟨hchecked, hturn⟩
      · rw [heq]
        exact .inl ⟨.none, m, ts, s, .inl rfl, .refl m ts, .same (le_refl _), hw.stored, hw.sealed,
          hsound⟩
      · exact (hturn.moved hw.sealed (serving_sound hsound)).imp_left
          fun ⟨m', ts', s', hmoved⟩ =>
            ⟨.request request, m', ts', s', .inr ⟨rfl, hchecked⟩, hmoved⟩
  | RegisterInline i p =>
      refine hw.serve i _ _ fun h hi hsound => .inl ?_
      obtain ⟨m', ts', s', hmoved⟩ := (registerInline_administered hw.stored hts hsound p).moved
        (c := .register p) hw.sealed hsound (by simpa [Action.Carries] using ha)
        (registerSpecs_eventless [] p.projections) fun _ _ _ hwork => hwork
      exact ⟨.register p, m', ts', s', .inr rfl, hmoved⟩
  | AttachInlineExisting i p =>
      refine hw.serve i _ _ fun h hi hsound => .inl ?_
      obtain ⟨m', ts', s', hmoved⟩ := (attachInlineExisting_administered hw.stored hts hsound p).moved
        (c := .none) hw.sealed hsound (by simpa [Action.Carries] using ha)
        (Session.obeys_pure eventless_composes ()) fun _ _ _ hwork => (Prod.mk.inj hwork).2.symm
      exact ⟨.none, m', ts', s', .inl rfl, hmoved⟩
  | RebuildInlineProjection i name tenant =>
      refine hw.serve i _ _ fun h hi hsound => .inl ?_
      rcases rebuildInlineProjection_administered hw.stored hts hsound name tenant with
        ⟨e, heq⟩ | ⟨p, hp, hname, hadmin⟩
      · rw [heq]
        exact ⟨.none, m, ts, s, .inl rfl, .refl m ts, .same (le_refl _), hw.stored, hw.sealed,
          hsound⟩
      · obtain ⟨m', ts', s', hmoved⟩ := hadmin.moved (c := .rebuild p tenant) hw.sealed hsound
          (by simp) (rebuildInline_eventless p tenant) fun _ a _ hwork => ⟨a, hwork⟩
        exact ⟨_, m', ts', s', .inr ⟨h, p, hi, hp, hname, rfl⟩, hmoved⟩
  | Tick now => exact World.Live.stays ⟨hw.stored.tick now, hw.sealed, hw.handles⟩ (le_refl _)

end

/-! ## Runs -/

/-- Where a world stands: nothing was created, or it is live with the state `s`. -/
def World.Stands (P : Primitives) (B : Bodies) (s : State) (w : World) : Prop :=
  Fresh P w.disk ∧ w.handles = [] ∧ s = .empty ∨ ∃ m ts, w.Live P B m ts s

theorem World.empty_stands : World.empty.Stands P B .empty := by
  refine .inl ⟨⟨emptyDisk_drawn, emptyDisk_unprovisioned, rfl, fun p _ => rfl⟩, rfl, rfl⟩

/-- On a root without a store, only an open does anything. -/
theorem Fresh.act (hd : Fresh P d) (a : Action) :
    Fresh P (World.act P ⟨d, []⟩ a).2.disk ∧ (World.act P ⟨d, []⟩ a).2.handles = [] ∨
      ∃ m, (World.act P ⟨d, []⟩ a).2.Live P B m [] .empty := by
  cases a with
  | Open layout =>
      rw [World.act_open]
      rcases openStore_of_fresh (B := B) hd layout 0 with ⟨heq, e, he⟩ | ⟨m, hstored, -, hsound⟩
      · left
        change Fresh P (openStore P layout 0 d).2 ∧ [] ++ (openStore P layout 0 d).1.toOption.toList = []
        rw [heq, he]
        exact ⟨hd, rfl⟩
      · right
        exact ⟨m, hstored, sealed_nil, fun h hh => hsound h (mem_toList_toOption.mp hh)⟩
  | Tick now => exact .inl ⟨⟨hd.drawn, hd.unprovisioned, hd.lock, hd.content⟩, rfl⟩
  | _ => exact .inl ⟨hd, rfl⟩

/-- Nothing changes a wedged directory. -/
theorem Wedged.act {w : World} (h : Wedged P w.disk) (a : Action) :
    Wedged P (w.act P a).2.disk := by
  have hserve {α : Type} (i : Nat) (answer : Except EventLogError α → Answer)
      (call : Handle → Disk → Served α) (hcall : ∀ handle, (call handle w.disk).disk = w.disk) :
      Wedged P (w.serve i answer call).2.disk := by
    unfold World.serve
    cases w.handles[i]? with
    | none => exact h
    | some handle =>
        change Wedged P (call handle w.disk).disk
        rw [hcall handle]
        exact h
  cases a with
  | Open layout =>
      obtain ⟨-, e, he, hlast⟩ := h.openJournal layout
      rw [World.act_open]
      unfold openStore
      split_ifs
      · exact h
      · simp only [he, hlast]
        exact h
  | Call i request =>
      refine hserve i _ _ fun handle => ?_
      unfold Handle.call
      cases request.precheck P with
      | error e => rfl
      | ok u => exact h.transaction _ _
  | RegisterInline i p =>
      refine hserve i _ _ fun handle => ?_
      obtain ⟨-, e, he, hlast⟩ := h.openJournal (some .Single)
      unfold Handle.registerInline
      cases handle.admits p with
      | error e => rfl
      | ok u => simp only [he, hlast]
  | AttachInlineExisting i p =>
      refine hserve i _ _ fun handle => ?_
      unfold Handle.attachInlineExisting
      split <;> rfl
  | RebuildInlineProjection i name tenant =>
      refine hserve i _ _ fun handle => ?_
      unfold Handle.rebuildInlineProjection
      cases validateIdentifier "projector name" name with
      | error e => rfl
      | ok u =>
          cases handle.inline.find? fun p => p.name == name with
          | none => rfl
          | some p =>
              obtain ⟨e, he⟩ := h.strict handle p
              simp only [he]
              cases Projector.validate p <;> rfl
  | Tick now => exact ⟨h.1, h.2⟩

theorem Wedged.run {w : World} (h : Wedged P w.disk) (actions : List Action) :
    Wedged P (w.run P actions).disk := by
  induction actions generalizing w with
  | nil => exact h
  | cons a actions ih => exact ih (h.act a)

/-! ## Entering a run -/

/-- A handle of the world enters, and is given the journal `j` and the state `s`. -/
def World.Enters (P : Primitives) (w : World) (h : Handle) (j : Journal) (s : State) : Prop :=
  h ∈ w.handles ∧ (enter P h.observed h.current w.disk).result = .ok (j, s)

/-- Whoever enters is given the committed history. -/
theorem World.Stands.entered {w : World} {j : Journal} (hw : w.Stands P B s₀)
    (hsha : Function.Injective P.sha256) (hin : w.Enters P h j s) :
    w.Live P B j.manifest j.transactions s₀ ∧
      Entered P B j.manifest j.transactions s₀ h.observed w.disk (.ok (j, s))
        ((enter P h.observed h.current).last w.disk) := by
  obtain ⟨hh, hresult⟩ := hin
  rcases hw with ⟨-, hnone, -⟩ | ⟨m, ts, hlive⟩
  · rw [hnone] at hh
    contradiction
  · have hentered := (enter_meets hlive.stored (.inl hsha) (hlive.handles h hh)).2
    rw [hresult] at hentered
    obtain ⟨-, -, rfl, rfl, -⟩ := id hentered
    exact ⟨hlive, hentered⟩

theorem Wedged.not_enters {w : World} {j : Journal} (hw : Wedged P w.disk) :
    ¬ w.Enters P h j s := by
  rintro ⟨-, hresult⟩
  obtain ⟨-, e, he, -⟩ := hw.enter h.observed h.current
  rw [he] at hresult
  contradiction

/-! ## Any bodies -/

/-- Nothing is asked of bodies and rows. -/
def Bodies.any : Bodies := ⟨fun _ => True, fun _ => True⟩

theorem writes_any (c : Callback) : c.Writes Bodies.any.row := by
  induction c with
  | done result => trivial
  | upsert spec tenant key body next ih => exact ⟨trivial, ih⟩
  | _ => assumption

theorem carries_any (a : Action) : a.Carries Bodies.any := by
  cases a with
  | Call i request =>
      cases request <;> simp only [Action.Carries, Request.Carries, Projector.Writes] <;>
        first | trivial | exact ⟨fun _ _ => trivial, writes_any _⟩ |
          exact ⟨fun _ _ _ _ => trivial, writes_any _⟩ | exact fun _ => writes_any _
  | RegisterInline i p => exact fun _ => writes_any _
  | AttachInlineExisting i p => exact fun _ => writes_any _
  | _ => trivial

theorem World.run_append (w : World) (actions later : List Action) :
    w.run P (actions ++ later) = (w.run P actions).run P later :=
  List.foldl_append

/-- **Every run** ends where it stands, or wedged.  What holds of every change, and composes, holds
    of the run. -/
theorem World.Stands.run {R : State → State → Prop} (hrefl : ∀ s, R s s)
    (htrans : ∀ {s₁ s₂ s₃}, R s₁ s₂ → R s₂ s₃ → R s₁ s₃) (hsha : Function.Injective P.sha256)
    {w : World} (hw : w.Stands P .any s) (actions : List Action)
    (hR : ∀ a ∈ actions, ∀ {w m ts s c n s' n'}, World.Live P .any m ts s w →
      c = .none ∨ a.Causes P w c → Changes P .any s n c s' n' → R s s') :
    (∃ s', (w.run P actions).Stands P .any s' ∧ R s s') ∨ Wedged P (w.run P actions).disk := by
  induction actions generalizing w s with
  | nil => exact .inl ⟨s, hw, hrefl s⟩
  | cons a actions ih =>
      have hact : (∃ s', (w.act P a).2.Stands P .any s' ∧ R s s') ∨ Wedged P (w.act P a).2.disk := by
        rcases hw with ⟨hfresh, hnone, rfl⟩ | ⟨m, ts, hlive⟩
        · obtain ⟨d, handles⟩ := w
          obtain rfl : handles = [] := hnone
          exact .inl ⟨.empty, (hfresh.act a).imp (fun h => ⟨h.1, h.2, rfl⟩)
            fun ⟨m, hlive⟩ => ⟨m, [], hlive⟩, hrefl _⟩
        · refine (hlive.act hsha (fun _ => trivial) (carries_any a)).imp_left ?_
          rintro ⟨m', ts', s', c, hlive', -, hc, hchanges⟩
          exact ⟨s', .inr ⟨m', ts', hlive'⟩, hR a List.mem_cons_self hlive hc hchanges⟩
      rcases hact with ⟨s₁, hstands, h₁⟩ | hwedged
      · refine (ih hstands fun a' ha' => hR a' (List.mem_cons_of_mem a ha')).imp_left ?_
        exact fun ⟨s₂, hstands₂, h₂⟩ => ⟨s₂, hstands₂, htrans h₁ h₂⟩
      · exact .inr (hwedged.run actions)

theorem run_any (hsha : Function.Injective P.sha256) {w : World} (hw : w.Stands P .any s)
    (actions : List Action) :
    (∃ s', (w.run P actions).Stands P .any s' ∧ Proceeds s s') ∨ Wedged P (w.run P actions).disk :=
  hw.run .refl .trans hsha actions fun _ _ _ _ _ _ _ _ _ _ _ _ hchanges => hchanges.proceeds

/-- **Whoever enters after a run** is given the committed history, and whatever is done then,
    whoever enters later is given one that moved on. -/
theorem run_entered (hsha : Function.Injective P.sha256) {actions : List Action} {j : Journal}
    (hin : (World.run P .empty actions).Enters P h j s) :
    ∃ s₀, (World.run P .empty actions).Live P .any j.manifest j.transactions s₀ ∧
      Entered P .any j.manifest j.transactions s₀ h.observed (World.run P .empty actions).disk
        (.ok (j, s)) ((enter P h.observed h.current).last (World.run P .empty actions).disk) ∧
      ∀ (later : List Action) (h' : Handle) (j' : Journal) (s' : State),
        (World.run P .empty (actions ++ later)).Enters P h' j' s' → Proceeds s₀ s' := by
  rcases run_any hsha World.empty_stands actions with ⟨s₀, hstands, -⟩ | hwedged
  · obtain ⟨hlive, hentered⟩ := hstands.entered hsha hin
    refine ⟨s₀, hlive, hentered, fun later h' j' s' hin' => ?_⟩
    rw [World.run_append] at hin'
    rcases run_any hsha hstands later with ⟨s₁, hstands', hproceeds⟩ | hwedged
    · obtain ⟨-, -, -, -, -, hstrip, -⟩ := hstands'.entered hsha hin'
      rw [← hstrip] at hproceeds
      exact ⟨hproceeds.position, hproceeds.events⟩
    · exact absurd hin' hwedged.not_enters
  · exact absurd hin hwedged.not_enters

end Eventlog.File
