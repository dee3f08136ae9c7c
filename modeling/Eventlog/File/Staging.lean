import Eventlog.File.Requests

/-!
# Eventlog.File.Staging

What work inside a transaction can do, said once.

However a call ends, it has appended operations to those staged, applied to the state
exactly those it appended, and created objects that the transaction remembers
(`Ran`).  Every function of a transaction obeys this, except redaction and erasure, which
rewrite the history instead.
-/

namespace Eventlog.File

open Durable Session

variable {P : Primitives}

/-! ## Operations and objects -/

/-- What is asked of the bodies a transaction stages: of events, and of rows. -/
structure Bodies where
  data : Json → Prop
  row : Json → Prop

/-- The directory holds the object of a binding, intact. -/
def Disk.Holds (P : Primitives) (d : Disk) (b : Blob) : Prop :=
  P.isEventId b.id ∧ ∃ bytes, d.read (.object b.id) = some bytes ∧ P.sha256 bytes = b.hash

theorem Disk.Holds.object_eq {d : Disk} {b : Blob} (h : d.Holds P b) :
    ∃ bytes, d.object P b = .ok bytes ∧ d.read (.object b.id) = some bytes := by
  obtain ⟨hid, bytes, hread, hhash⟩ := h
  exact ⟨bytes, by simp [Disk.object, validateObject, hid, Disk.readFile, hread, hhash, bind,
    Except.bind], hread⟩

/-- A coordinate that is the one of a scope of this owner. -/
def Counted (tenant : Option TenantId) (coordinate : String) : Prop :=
  ∃ scope : AdmissionScope, scope.coordinate = .ok coordinate ∧ scope.tenant? = tenant

/-- An operation whose bodies are good, whose counter is its owner's and whose object, if it
    binds one, is there. -/
def Op.Good (P : Primitives) (B : Bodies) (d : Disk) : Op → Prop
  | .Counter tenant coordinate _ => Counted tenant coordinate
  | .Event event => B.data event.data
  | .Row _ _ _ (some body) => B.row body
  | .Blob _ _ (some b) => d.Holds P b
  | _ => True

/-- The event an operation records. -/
def Op.event? : Op → Option RecordedEvent
  | .Event event => some event
  | _ => none

/-- The identifier of the event an operation records. -/
def Op.eventId? (op : Op) : Option String :=
  op.event?.map RecordedEvent.eventId

/-- The identifiers of the events among `ops` were drawn, each for itself, from `low` on and
    before `high`. -/
structure Minted (P : Primitives) (low high : Nat) (ops : List Op) : Prop where
  drawn : ∀ id ∈ ops.filterMap Op.eventId?, ∃ n, low ≤ n ∧ n < high ∧ id = P.eventId n
  nodup : (ops.filterMap Op.eventId?).Nodup

theorem minted_of_no_event {low high : Nat} {ops : List Op}
    (h : ∀ op ∈ ops, op.eventId? = none) : Minted P low high ops := by
  have hnil : ops.filterMap Op.eventId? = [] := List.filterMap_eq_nil_iff.mpr h
  exact ⟨by simp [hnil], by simp [hnil]⟩

theorem Minted.append {low mid high : Nat} {ops ops' : List Op} (h : Minted P low mid ops)
    (h' : Minted P mid high ops') (hlow : low ≤ mid) (hhigh : mid ≤ high) :
    Minted P low high (ops ++ ops') := by
  refine ⟨fun id hid => ?_, ?_⟩
  · rw [List.filterMap_append, List.mem_append] at hid
    rcases hid with hid | hid
    · obtain ⟨n, hn, hlt, heq⟩ := h.drawn id hid
      exact ⟨n, hn, by omega, heq⟩
    · obtain ⟨n, hn, hlt, heq⟩ := h'.drawn id hid
      exact ⟨n, by omega, hlt, heq⟩
  · rw [List.filterMap_append, List.nodup_append]
    refine ⟨h.nodup, h'.nodup, fun id hid id' hid' heq => ?_⟩
    -- what was drawn before and what was drawn after are different numbers
    obtain ⟨n, -, hlt, hn⟩ := h.drawn id hid
    obtain ⟨n', hle, -, hn'⟩ := h'.drawn id' hid'
    have : n = n' := P.eventId_injective (by rw [← hn, ← hn', heq])
    omega

/-! ## The relation -/

/-- The objects a transaction created. -/
def Tx.created (tx : Tx) : List String :=
  tx.written ++ tx.stagedBlobs

/-- How the directory may differ after some work: by objects that were not there before,
    under names drawn meanwhile, which the transaction remembers. -/
structure Grew (P : Primitives) (tx tx' : Tx) : Prop where
  kept : ∀ p bytes, tx.disk.read p = some bytes → tx'.disk.read p = some bytes
  only : ∀ p, tx'.disk.read p = tx.disk.read p ∨ ∃ id ∈ tx'.created, p = .object id
  remembered : ∀ id ∈ tx.created, id ∈ tx'.created
  fresh : ∀ id ∈ tx'.created, id ∈ tx.created ∨ tx.disk.read (.object id) = none ∧
    P.isEventId id ∧ tx'.disk.blobs = true
  named : ∀ id, (tx'.disk.read (.object id)).isSome → (tx.disk.read (.object id)).isSome ∨
    ∃ n, n < tx'.disk.drawn ∧ id = P.eventId n
  drawn : tx.disk.drawn ≤ tx'.disk.drawn
  segments : tx'.disk.segments = tx.disk.segments
  blobs : tx.disk.blobs = true → tx'.disk.blobs = true
  clock : tx'.disk.clock = tx.disk.clock

/-- The operations some work staged: their bodies are good, their objects are there, their
    identifiers are new, and the state is what they make of it. -/
structure Staged (P : Primitives) (B : Bodies) (tx : Tx) (ok : Bool) (tx' : Tx) (ops : List Op) :
    Prop where
  good : ∀ op ∈ ops, op.Good P B tx'.disk
  minted : Minted P tx.disk.drawn tx'.disk.drawn ops
  untouched : ops = [] → tx'.state = tx.state
  applied : ok = true → tx.state.applyAll ops = .ok tx'.state

/-- Staging nothing. -/
theorem staged_nil {tx tx' : Tx} {ok : Bool} {B : Bodies} (h : tx'.state = tx.state) :
    Staged P B tx ok tx' [] where
  good := by simp
  minted := minted_of_no_event (by simp)
  untouched _ := h
  applied _ := by rw [h]; rfl

/-- What some work has done, and whether it succeeded. -/
structure Ran (P : Primitives) (B : Bodies) (tx : Tx) (ok : Bool) (tx' : Tx) : Prop where
  journal : tx'.journal = tx.journal
  inline : tx'.inline = tx.inline
  permit : tx'.permit = tx.permit
  privacy : tx'.privacy = tx.privacy
  grew : Grew P tx tx'
  staged : ∃ ops, tx'.pending = tx.pending ++ ops ∧ Staged P B tx ok tx' ops

theorem Grew.refl (tx : Tx) : Grew P tx tx where
  kept _ _ h := h
  only _ := .inl rfl
  remembered _ h := h
  fresh _ h := .inl h
  named _ h := .inl h
  drawn := le_refl _
  segments := rfl
  blobs h := h
  clock := rfl

theorem Grew.trans {tx₁ tx₂ tx₃ : Tx} (h : Grew P tx₁ tx₂) (h' : Grew P tx₂ tx₃) :
    Grew P tx₁ tx₃ where
  kept p bytes hp := h'.kept p bytes (h.kept p bytes hp)
  only p := by
    rcases h'.only p with heq | hnew
    · rcases h.only p with heq' | ⟨id, hid, rfl⟩
      · exact .inl (heq.trans heq')
      · exact .inr ⟨id, h'.remembered id hid, rfl⟩
    · exact .inr hnew
  remembered id hid := h'.remembered id (h.remembered id hid)
  fresh id hid := by
    have hearlier : id ∈ tx₂.created → id ∈ tx₁.created ∨ tx₁.disk.read (.object id) = none ∧
        P.isEventId id ∧ tx₃.disk.blobs = true := fun hmem =>
      (h.fresh id hmem).imp_right fun ⟨hnone, hname, hblobs⟩ => ⟨hnone, hname, h'.blobs hblobs⟩
    rcases h'.fresh id hid with hold | ⟨hnone, hname, hblobs⟩
    · exact hearlier hold
    · -- an object absent in between was absent before: what existed was kept
      cases hread : tx₁.disk.read (.object id) with
      | none => exact .inr ⟨rfl, hname, hblobs⟩
      | some bytes => rw [h.kept _ _ hread] at hnone; contradiction
  named id hid := by
    rcases h'.named id hid with hold | ⟨n, hn, heq⟩
    · exact (h.named id hold).imp_right fun ⟨n, hn, heq⟩ => ⟨n, lt_of_lt_of_le hn h'.drawn, heq⟩
    · exact .inr ⟨n, hn, heq⟩
  drawn := le_trans h.drawn h'.drawn
  segments := h'.segments.trans h.segments
  blobs hb := h'.blobs (h.blobs hb)
  clock := h'.clock.trans h.clock

theorem Disk.Holds.grew {tx tx' : Tx} {b : Blob} (h : tx.disk.Holds P b) (hg : Grew P tx tx') :
    tx'.disk.Holds P b := by
  obtain ⟨hid, bytes, hread, hhash⟩ := h
  exact ⟨hid, bytes, hg.kept _ _ hread, hhash⟩

theorem Op.Good.grew {tx tx' : Tx} {B : Bodies} {op : Op} (h : op.Good P B tx.disk)
    (hg : Grew P tx tx') : op.Good P B tx'.disk := by
  cases op with
  | Blob tenant digest object =>
      cases object with
      | none => trivial
      | some b => exact Disk.Holds.grew h hg
  | Row tenant name key body => cases body <;> exact h
  | _ => exact h

theorem ran_composes (B : Bodies) : Composes (Ran P B) where
  refl tx _ :=
    ⟨rfl, rfl, rfl, rfl, .refl tx, [], by simp, staged_nil rfl⟩
  trans tx₁ tx₂ tx₃ ok h h' := by
    obtain ⟨ops, hpending, hs⟩ := h.staged
    obtain ⟨ops', hpending', hs'⟩ := h'.staged
    refine ⟨h'.journal.trans h.journal, h'.inline.trans h.inline, h'.permit.trans h.permit,
      h'.privacy.trans h.privacy, h.grew.trans h'.grew, ops ++ ops', ?_, ?_, ?_, ?_, ?_⟩
    · rw [hpending', hpending, List.append_assoc]
    · intro op hop
      rcases List.mem_append.mp hop with hop | hop
      · exact (hs.good op hop).grew h'.grew
      · exact hs'.good op hop
    · exact hs.minted.append hs'.minted h.grew.drawn h'.grew.drawn
    · intro hnil
      obtain ⟨rfl, rfl⟩ := List.append_eq_nil_iff.mp hnil
      exact (hs'.untouched rfl).trans (hs.untouched rfl)
    · intro hok
      rw [State.applyAll_append, hs.applied rfl]
      exact hs'.applied hok

/-! ## Recording -/

variable {B : Bodies}

theorem applyAll_singleton (s : State) (op : Op) : s.applyAll [op] = s.apply op := by
  simp [State.applyAll]

theorem grew_of_disk_eq {tx tx' : Tx} (hdisk : tx'.disk = tx.disk)
    (hwritten : tx'.written = tx.written) (hstaged : tx'.stagedBlobs = tx.stagedBlobs) :
    Grew P tx tx' := by
  have hcreated : tx'.created = tx.created := by simp [Tx.created, hwritten, hstaged]
  exact ⟨by simp [hdisk], by simp [hdisk], by simp [hcreated], fun id hid => .inl (hcreated ▸ hid),
    fun id hid => .inl (hdisk ▸ hid), by simp [hdisk], by simp [hdisk], by simp [hdisk],
    by simp [hdisk]⟩

/-- Recording an operation after work that staged nothing: it alone is staged. -/
theorem record_ran_after {tx tx₁ : Tx} {op : Op} (h : Ran P B tx true tx₁)
    (hpending : tx₁.pending = tx.pending) (hstate : tx₁.state = tx.state)
    (hgood : op.Good P B tx₁.disk) (hminted : Minted P tx.disk.drawn tx₁.disk.drawn [op]) :
    Ran P B tx (Work.record op tx₁).1.isOk (Work.record op tx₁).2 := by
  unfold Work.record
  cases happly : tx₁.state.apply op with
  | ok state =>
      refine ⟨h.journal, h.inline, h.permit, h.privacy,
        h.grew.trans (grew_of_disk_eq rfl rfl rfl), [op], by rw [hpending],
        by simpa using hgood, hminted, by simp, fun _ => ?_⟩
      rw [applyAll_singleton, ← hstate, happly]
  | error e =>
      exact ⟨h.journal, h.inline, h.permit, h.privacy,
        h.grew.trans (grew_of_disk_eq rfl rfl rfl), [op], by rw [hpending],
        by simpa using hgood, hminted, by simp, fun hok => by contradiction⟩

/-- Recording an operation stages that operation and nothing else. -/
theorem record_ran {tx : Tx} {op : Op} (h : op.Good P B tx.disk) (hevent : op.eventId? = none) :
    Ran P B tx (Work.record op tx).1.isOk (Work.record op tx).2 :=
  record_ran_after ((ran_composes B).refl tx true) rfl rfl h
    (minted_of_no_event (by simpa using hevent))

theorem record_obeys {op : Op} (h : ∀ d, op.Good P B d) (hevent : op.eventId? = none) :
    Obeys (Ran P B) (Work.record op) :=
  fun tx => record_ran (h tx.disk) hevent

theorem check_obeys (r : Except EventLogError α) : Obeys (Ran P B) (Work.check r) :=
  obeys_ask (ran_composes B) _

/-! ## Identifiers and objects -/

/-- Work that only changes the directory, in a way that keeps every file. -/
theorem ran_of_disk {tx : Tx} {d : Disk} {ok : Bool} (hread : d.read = tx.disk.read)
    (hdrawn : tx.disk.drawn ≤ d.drawn) (hsegments : d.segments = tx.disk.segments)
    (hblobs : tx.disk.blobs = true → d.blobs = true) (hclock : d.clock = tx.disk.clock) :
    Ran P B tx ok { tx with disk := d } where
  journal := rfl
  inline := rfl
  permit := rfl
  privacy := rfl
  grew := ⟨by simp [hread], by simp [hread], fun _ h => h, fun _ h => .inl h,
    fun id hid => .inl (by rw [← hread]; exact hid), hdrawn, hsegments, hblobs, hclock⟩
  staged := ⟨[], by simp, staged_nil rfl⟩

/-- A transaction that has drawn one more identifier. -/
def Tx.drew (tx : Tx) : Tx :=
  { tx with disk := { tx.disk with drawn := tx.disk.drawn + 1 } }

theorem newEventId_eq (tx : Tx) :
    Work.newEventId P tx = (.ok (P.eventId tx.disk.drawn), tx.drew) := by
  simp [Work.newEventId, Work.run, File.newEventId, Bind.bind, Program.andThen, Program.perform,
    Program.ask, Program.last, Tx.drew]

theorem drew_ran (tx : Tx) (ok : Bool) : Ran P B tx ok tx.drew :=
  ran_of_disk rfl (Nat.le_succ _) rfl (fun h => h) rfl

/-- A drawn identifier is one, and is drawn from then on. -/
theorem newEventId_delivers (tx : Tx) :
    Delivers (Ran P B) (Work.newEventId P) tx fun id tx' =>
      ∃ n, n < tx'.disk.drawn ∧ id = P.eventId n := by
  rw [Delivers, newEventId_eq]
  refine ⟨drew_ran tx _, fun id hid => ⟨tx.disk.drawn, Nat.lt_succ_self _, ?_⟩⟩
  cases hid
  rfl

theorem newEventId_obeys : Obeys (Ran P B) (Work.newEventId P) :=
  fun tx => (newEventId_delivers tx).1

theorem run_perform_ok {f : Disk → Except EventLogError Disk} {tx : Tx} {d : Disk}
    (h : f tx.disk = .ok d) : Work.run (Program.perform f) tx = (.ok (), { tx with disk := d }) := by
  simp [Work.run, Program.perform, Program.last, h]

theorem run_perform_error {f : Disk → Except EventLogError Disk} {tx : Tx} {e : EventLogError}
    (h : f tx.disk = .error e) : Work.run (Program.perform f) tx = (.error e, tx) := by
  simp [Work.run, Program.perform, Program.last, h]

/-- Creating the directory of objects. -/
theorem createBlobs_delivers (tx : Tx) :
    Delivers (Ran P B) (Work.run (Program.perform Disk.createBlobs)) tx fun _ tx' =>
      tx'.disk.blobs = true :=
  ⟨ran_of_disk rfl (le_refl _) rfl (fun _ => rfl) rfl, fun _ _ => rfl⟩

/-- A way of remembering a created object. -/
structure Notes (note : String → Tx → Tx) : Prop where
  journal : ∀ id tx, (note id tx).journal = tx.journal
  inline : ∀ id tx, (note id tx).inline = tx.inline
  permit : ∀ id tx, (note id tx).permit = tx.permit
  privacy : ∀ id tx, (note id tx).privacy = tx.privacy
  state : ∀ id tx, (note id tx).state = tx.state
  pending : ∀ id tx, (note id tx).pending = tx.pending
  disk : ∀ id tx, (note id tx).disk = tx.disk
  created : ∀ id tx x, x ∈ (note id tx).created ↔ x ∈ tx.created ∨ x = id

theorem notes_staged : Notes fun id tx => { tx with stagedBlobs := tx.stagedBlobs ++ [id] } := by
  constructor <;> intros <;> simp [Tx.created, or_assoc]

theorem notes_written : Notes fun id tx => { tx with written := tx.written ++ [id] } := by
  constructor <;> intros <;> simp [Tx.created]
  tauto

/-- Both operations on an object that was not there. -/
theorem write_new_object {d : Disk} {id : String} (bytes : Bytes)
    (h : d.read (.object id) = none) :
    ∃ d₁ d₂, Disk.createNew (.object id) d = .ok d₁ ∧
      Disk.writeAt (.object id) 0 bytes d₁ = .ok d₂ ∧
      d.Became d₂ (Function.update d.read (.object id) (some bytes)) := by
  obtain ⟨d₁, hcreate, hb₁⟩ := Disk.createNew_eq_ok h
  have hread : d₁.read (.object id) = some [] := by rw [hb₁.read, Function.update_self]
  obtain ⟨d₂, hwrite, hb₂⟩ := Disk.writeAt_eq_ok hread 0 bytes
  refine ⟨d₁, d₂, hcreate, hwrite, ?_, hb₂.segments.trans hb₁.segments,
    hb₂.drawn.trans hb₁.drawn, hb₂.blobs.trans hb₁.blobs, hb₂.clock.trans hb₁.clock⟩
  rw [hb₂.read, hb₁.read, Function.update_idem]
  simp

/-- **Writing an object**: it is there when the call succeeds, and remembered either way. -/
theorem writeObject_delivers {note : String → Tx → Tx} (hnote : Notes note) {tx : Tx}
    {id : String} (bytes : Bytes) (hid : ∃ n, n < tx.disk.drawn ∧ id = P.eventId n)
    (hblobs : tx.disk.blobs = true) :
    Delivers (Ran P B) (Work.writeObject note id bytes) tx fun _ tx' =>
      tx'.disk.read (.object id) = some bytes := by
  have hname : P.isEventId id := by
    obtain ⟨n, -, rfl⟩ := hid
    exact P.isEventId_eventId n
  cases hread : tx.disk.read (.object id) with
  | some old =>
      have hcreate : Disk.createNew (.object id) tx.disk = .error Disk.alreadyExists := by
        simp [Disk.createNew, Disk.has, hread]
      have hrun : Work.writeObject note id bytes tx = (.error Disk.alreadyExists, tx) := by
        unfold Work.writeObject
        exact bind_of_error (run_perform_error hcreate)
      rw [Delivers, hrun]
      exact ⟨(ran_composes B).refl tx false, fun _ h => by contradiction⟩
  | none =>
      obtain ⟨d₁, d₂, hcreate, hwrite, hread₂, hsegments, hdrawn, hblobs₂, hclock⟩ :=
        write_new_object bytes hread
      have hrun : Work.writeObject note id bytes tx =
          (.ok (), { note id { tx with disk := d₁ } with disk := d₂ }) := by
        have hwrite' : Disk.writeAt (.object id) 0 bytes (note id { tx with disk := d₁ }).disk =
            .ok d₂ := by rw [hnote.disk]; exact hwrite
        unfold Work.writeObject
        exact (bind_of_ok (run_perform_ok hcreate)).trans (run_perform_ok hwrite')
      have hcreated : ∀ x, x ∈ ({ note id { tx with disk := d₁ } with disk := d₂ } : Tx).created ↔
          x ∈ tx.created ∨ x = id := hnote.created id { tx with disk := d₁ }
      rw [Delivers, hrun]
      refine ⟨⟨?_, ?_, ?_, ?_, ?_, ?_⟩, fun _ _ => by simp [hread₂]⟩
      · exact hnote.journal _ _
      · exact hnote.inline _ _
      · exact hnote.permit _ _
      · exact hnote.privacy _ _
      · constructor
        · intro p old hold
          have hne : p ≠ .object id := by rintro rfl; rw [hread] at hold; contradiction
          simp [hread₂, Function.update_of_ne hne, hold]
        · intro p
          by_cases hp : p = .object id
          · exact .inr ⟨id, (hcreated id).mpr (.inr rfl), hp⟩
          · exact .inl (by simp [hread₂, Function.update_of_ne hp])
        · exact fun x hx => (hcreated x).mpr (.inl hx)
        · intro x hx
          rcases (hcreated x).mp hx with hx | rfl
          · exact .inl hx
          · exact .inr ⟨hread, hname, hblobs₂.trans hblobs⟩
        · intro x hx
          by_cases hxid : x = id
          · subst hxid
            obtain ⟨n, hn, rfl⟩ := hid
            exact .inr ⟨n, hdrawn ▸ hn, rfl⟩
          · left
            simpa [hread₂, Function.update_of_ne, hxid] using hx
        · exact le_of_eq hdrawn.symm
        · exact hsegments
        · exact fun h => hblobs₂.trans h
        · exact hclock
      · have hstate : (note id { tx with disk := d₁ }).state = tx.state := hnote.state _ _
        exact ⟨[], by simp [hnote.pending], staged_nil hstate⟩

/-! ## Bindings -/

theorem bindBlob_obeys (tenant : TenantId) (b : BlobWrite) :
    Obeys (Ran P B) (Work.bindBlob P tenant b) := by
  refine obeys_of_delivers fun tx => ?_
  unfold Work.bindBlob
  refine Delivers.bind (ran_composes B) (delivers_ask (ran_composes B) fun old _ => ?_)
  cases old with
  | some old =>
      exact delivers_ite (fun _ => delivers_refuse (ran_composes B) _)
        fun _ => delivers_pure (ran_composes B) trivial
  | none =>
      refine Delivers.bind (ran_composes B) ((newEventId_delivers tx).mono ?_)
      rintro id tx₁ ⟨n, hn, rfl⟩
      refine Delivers.bind (ran_composes B) ((createBlobs_delivers tx₁).related.mono ?_)
      rintro _ tx₂ ⟨hblobs, hran⟩
      refine Delivers.bind (ran_composes B) ((writeObject_delivers notes_staged b.bytes
        ⟨n, lt_of_lt_of_le hn hran.grew.drawn, rfl⟩ hblobs).mono fun _ tx₃ hread => ?_)
      exact ⟨record_ran ⟨P.isEventId_eventId n, b.bytes, hread, rfl⟩ rfl, fun _ _ => trivial⟩

/-- What of a batch is planned to be written: names drawn here, hashes of the bytes. -/
def Planned.Sound (P : Primitives) (tx : Tx) (fresh : List (Blob × BlobWrite)) : Prop :=
  ∀ f ∈ fresh, (∃ n, n < tx.disk.drawn ∧ f.1.id = P.eventId n) ∧ f.1.hash = P.sha256 f.2.bytes

theorem Planned.Sound.mono {tx tx' : Tx} {fresh : List (Blob × BlobWrite)}
    (h : Planned.Sound P tx fresh) (hdrawn : tx.disk.drawn ≤ tx'.disk.drawn) :
    Planned.Sound P tx' fresh := fun f hf => by
  obtain ⟨⟨n, hn, hid⟩, hhash⟩ := h f hf
  exact ⟨⟨n, lt_of_lt_of_le hn hdrawn, hid⟩, hhash⟩

theorem planBatch_delivers (tenant : TenantId) (blobs : List BlobWrite)
    (fresh : List (Blob × BlobWrite)) (tx : Tx) (h : Planned.Sound P tx fresh) :
    Delivers (Ran P B) (Work.planBatch P tenant fresh blobs) tx fun fresh' tx' =>
      Planned.Sound P tx' fresh' := by
  have hR := ran_composes (P := P) B
  induction blobs generalizing fresh tx with
  | nil => exact delivers_pure hR h
  | cons b rest ih =>
      unfold Work.planBatch
      refine Delivers.bind hR (delivers_ask hR fun _ _ => ?_)
      cases fresh.find? fun f => f.2.digest == b.digest with
      | some earlier => exact delivers_ite (fun _ => delivers_refuse hR _) fun _ => ih fresh tx h
      | none =>
          refine Delivers.bind hR (delivers_ask hR fun old _ => ?_)
          cases old with
          | some old => exact delivers_ite (fun _ => delivers_refuse hR _) fun _ => ih fresh tx h
          | none =>
              refine Delivers.bind hR ((newEventId_delivers tx).related.mono ?_)
              rintro id tx₁ ⟨hid, hran⟩
              refine ih _ tx₁ fun f hf => ?_
              rcases List.mem_append.mp hf with hf | hf
              · exact h.mono hran.grew.drawn f hf
              · rw [List.mem_singleton.mp hf]
                exact ⟨hid, rfl⟩

theorem writeObjects_delivers (fresh : List (Blob × BlobWrite)) (tx : Tx)
    (h : Planned.Sound P tx fresh) (hblobs : tx.disk.blobs = true) :
    Delivers (Ran P B) (fresh.forM fun f => Work.writeObject
        (fun id tx => { tx with written := tx.written ++ [id] }) f.1.id f.2.bytes) tx
      fun _ tx' => ∀ f ∈ fresh, tx'.disk.read (.object f.1.id) = some f.2.bytes := by
  have hR := ran_composes (P := P) B
  induction fresh generalizing tx with
  | nil => exact delivers_pure hR (by simp)
  | cons f rest ih =>
      refine Delivers.bind hR ((writeObject_delivers notes_written f.2.bytes
        (h f (by simp)).1 hblobs).related.mono ?_)
      rintro _ tx₁ ⟨hread, hran⟩
      have hrest : Planned.Sound P tx₁ rest := Planned.Sound.mono
        (fun g hg => h g (by simp [hg])) hran.grew.drawn
      refine (ih tx₁ hrest (hran.grew.blobs hblobs)).related.mono ?_
      rintro _ tx₂ ⟨hreads, hran₂⟩ g hg
      rcases List.mem_cons.mp hg with rfl | hg
      · exact hran₂.grew.kept _ _ hread
      · exact hreads g hg

theorem bindBlobs_obeys (tenant : TenantId) (blobs : List BlobWrite) :
    Obeys (Ran P B) (Work.bindBlobs P tenant blobs) := by
  have hR := ran_composes (P := P) B
  refine obeys_of_delivers fun tx => ?_
  unfold Work.bindBlobs
  refine Delivers.bind hR ((planBatch_delivers tenant blobs [] tx (by simp [Planned.Sound])).mono ?_)
  intro fresh tx₁ hsound
  refine delivers_ite (fun _ => delivers_pure hR trivial) fun _ => ?_
  refine Delivers.bind hR ((createBlobs_delivers tx₁).related.mono ?_)
  rintro _ tx₂ ⟨hblobs, hran₂⟩
  refine Delivers.bind hR ((writeObjects_delivers fresh tx₂ (hsound.mono hran₂.grew.drawn)
    hblobs).mono fun _ tx₃ hreads => ?_)
  have hholds : ∀ f ∈ fresh, tx₃.disk.Holds P f.1 := fun f hf => by
    obtain ⟨⟨n, -, hid⟩, hhash⟩ := hsound f hf
    exact ⟨hid ▸ P.isEventId_eventId n, f.2.bytes, hreads f hf, hhash.symm⟩
  refine Delivers.mono (delivers_forM hR (I := fun tx => ∀ f ∈ fresh, tx.disk.Holds P f.1) ?_
    hholds) fun _ _ _ => trivial
  intro f hf tx₄ hholds₄
  have hgood : (Op.Blob tenant f.2.digest (some f.1)).Good P B tx₄.disk := hholds₄ f hf
  have hran := record_ran hgood rfl
  exact ⟨hran, fun _ _ g hg => (hholds₄ g hg).grew hran.grew⟩

/-! ## Callbacks -/

/-- An operation that the state never refuses. -/
def Op.Plain : Op → Prop
  | .Event _ | .Projection _ _ => False
  | _ => True

theorem State.apply_of_plain {op : Op} (h : op.Plain) (s : State) :
    s.apply op = .ok (s.update op) := by
  cases op <;> first | rfl | exact absurd h id

theorem record_of_plain {op : Op} (h : op.Plain) (tx : Tx) :
    (Work.record op tx).1 = .ok () := by
  simp [Work.record, State.apply_of_plain h]

theorem recordAll_ok {f : γ → Op} (xs : List γ) (h : ∀ x ∈ xs, (f x).Plain) (tx : Tx) :
    ((xs.forM fun x => Work.record (f x)) tx).1 = .ok () := by
  induction xs generalizing tx with
  | nil => rfl
  | cons x xs ih =>
      have hx := record_of_plain (h x (by simp)) tx
      rcases hrun : Work.record (f x) tx with ⟨r, tx'⟩
      rw [hrun] at hx
      subst hx
      exact (congrArg Prod.fst (bind_of_ok hrun)).trans (ih (fun y hy => h y (by simp [hy])) tx')

theorem State.reserved_counter {s : State} {located : String × Reservation} {w : Op × Int}
    (h : s.reserved located = .ok w) :
    w.1 = .Counter located.2.scope.tenant? located.1 w.2 := by
  unfold State.reserved at h
  split at h
  · contradiction
  · split_ifs at h
    cases h
    rfl

/-- What a reservation writes is counters of their owners. -/
theorem planReserve_counter {v : ProjectionView} {tx : Tx} {permit : Nat} {rs : List Reservation}
    {writes : List (Op × Int)} (h : v.planReserve tx permit rs = .ok writes) :
    ∀ w ∈ writes, ∃ tenant coordinate, w.1 = .Counter tenant coordinate w.2 ∧
      Counted tenant coordinate := by
  unfold ProjectionView.planReserve at h
  simp only [bind, Except.bind, throw, throwThe, MonadExceptOf.throw] at h
  split at h
  · contradiction
  · split at h
    · contradiction
    · rename_i ordered hordered
      intro w hw
      obtain ⟨located, hmem, hl⟩ := Checks.exists_of_mem_mapM h hw
      exact ⟨_, _, State.reserved_counter hl, _, coordinate_of_ordered hordered located hmem, rfl⟩

/-- A reservation either writes its counters or, refused, leaves the transaction alone. -/
theorem reserve_ran (v : ProjectionView) (permit : Nat) (rs : List Reservation) (tx : Tx) :
    Ran P B tx true (v.reserve permit rs tx).2 := by
  have hR := ran_composes (P := P) B
  unfold ProjectionView.reserve
  cases hplan : v.planReserve tx permit rs with
  | error e =>
      have hask : Session.ask (fun tx => v.planReserve tx permit rs) tx = (.error e, tx) :=
        ask_eq hplan
      rw [bind_of_error hask]
      exact hR.refl tx true
  | ok writes =>
      have hcounter := planReserve_counter hplan
      have hask : Session.ask (fun tx => v.planReserve tx permit rs) tx = (.ok writes, tx) :=
        ask_eq hplan
      rw [bind_of_ok hask]
      have hobeys : Obeys (Ran P B) (writes.forM fun w => Work.record w.1) :=
        obeys_forM hR fun w hw => by
          obtain ⟨tenant, coordinate, hw', hcounted⟩ := hcounter w hw
          rw [hw']
          exact record_obeys (fun _ => hcounted) rfl
      have hok := recordAll_ok (f := Prod.fst) writes (fun w hw => by
        obtain ⟨tenant, coordinate, hw', -⟩ := hcounter w hw
        rw [hw']; trivial) tx
      have hran := hobeys tx
      rcases hrun : (writes.forM fun w => Work.record w.1) tx with ⟨r, tx'⟩
      rw [hrun] at hok hran
      subst hok
      rw [bind_of_ok hrun]
      exact hran

theorem row_ran (v : ProjectionView) (spec : ProjectionSpec) (tenant : TenantId) (key : String)
    (body : Option Json) (hbody : ∀ b, body = some b → B.row b) (tx : Tx) :
    Ran P B tx true ((Session.ask (fun tx => v.validate tx.state spec tenant) >>= fun _ =>
      Work.record (.Row tenant spec.name key body)) tx).2 := by
  cases hvalid : v.validate tx.state spec tenant with
  | error e =>
      have hask : Session.ask (fun tx : Tx => v.validate tx.state spec tenant) tx =
          (.error e, tx) := ask_eq hvalid
      rw [bind_of_error hask]
      exact (ran_composes B).refl tx true
  | ok u =>
      have hask : Session.ask (fun tx : Tx => v.validate tx.state spec tenant) tx =
          (.ok u, tx) := ask_eq hvalid
      rw [bind_of_ok hask]
      have hgood : (Op.Row tenant spec.name key body).Good P B tx.disk := by
        cases body with
        | none => trivial
        | some b => exact hbody b rfl
      have hran := record_ran hgood rfl
      have hplain : (Op.Row tenant spec.name key body).Plain := trivial
      rwa [record_of_plain hplain tx] at hran

/-- **Whatever a callback asks**, it only stages rows it writes and counters. -/
theorem call_obeys (v : ProjectionView) (c : Callback) (h : c.Writes B.row) :
    Obeys (Ran P B) (v.call P c) := by
  have hR := ran_composes (P := P) B
  induction c with
  | done result => exact check_obeys result
  | reserve permit rs next ih =>
      exact fun tx => hR.trans _ _ _ _ (reserve_ran v permit rs tx) (ih _ (h _) _)
  | upsert spec tenant key body next ih =>
      exact fun tx => hR.trans _ _ _ _ (row_ran v spec tenant key (some body)
        (fun b hb => by cases hb; exact h.1) tx) (ih _ (h.2 _) _)
  | delete spec tenant key next ih =>
      exact fun tx => hR.trans _ _ _ _ (row_ran v spec tenant key none (by simp) tx)
        (ih _ (h _) _)
  | getBlob digest next ih => exact fun tx => ih _ (h _) tx
  | get spec tenant key next ih => exact fun tx => ih _ (h _) tx
  | getForUpdate spec tenant key next ih => exact fun tx => ih _ (h _) tx
  | find spec tenant field value limit next ih => exact fun tx => ih _ (h _) tx

end Eventlog.File
