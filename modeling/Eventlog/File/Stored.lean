import Eventlog.File.Content
import Eventlog.File.Replay
import Eventlog.File.Resuming

/-!
# Eventlog.File.Stored

What holds of a store's directory and of its handles between calls.

`Stored` is the invariant of the directory: it holds a committed history, the history
replays, and the objects its state refers to are there.  `Handle.Sound` is the invariant of
a handle: the head it observed is behind the committed one, or of a retired epoch, and the
view it keeps is of that head.  `Tended` is what disposal may do without anybody noticing.
-/

namespace Eventlog.File

open Durable Program

variable {P : Primitives} {B : Bodies} {d d' : Disk} {m : Manifest} {ts : List Json} {s₀ : State}

/-! ## The directory -/

/-- The identifiers of a state's events were drawn, each for itself. -/
def State.Minted (P : Primitives) (drawn : Nat) (s : State) : Prop :=
  (∀ e ∈ s.events, ∃ n < drawn, e.eventId = P.eventId n) ∧ (s.events.map RecordedEvent.eventId).Nodup

/-- A directory that holds the history `ts` under `m`, which replays to `s₀`. -/
structure Stored (P : Primitives) (B : Bodies) (d : Disk) (m : Manifest) (ts : List Json)
    (s₀ : State) : Prop where
  drawn : d.Drawn P
  committed : ∃ parts active, Committed P d.view m ts parts active
  journaled : Journaled B ts
  replayed : State.replay ts = .ok s₀
  minted : s₀.Minted P d.drawn
  holds : ∀ (k : List String) b, s₀.blobs[k]? = some b → d.Holds P b
  named : ∀ id, (d.read (.object id)).isSome → ∃ n < d.drawn, id = P.eventId n
  placed : ∀ id, (d.read (.object id)).isSome → d.blobs = true

theorem Committed.of_agree {v v' : View} (h : Committed P v m ts parts active)
    (hcontent : ∀ p : Path, p.isContent = false → v'.content p = v.content p)
    (hsegments : v'.segments = v.segments) : Committed P v' m ts parts active where
  foreign := (hcontent _ rfl).trans h.foreign
  lock := by rw [hcontent _ rfl]; exact h.lock
  append := (hcontent _ rfl).trans h.append
  privacy := (hcontent _ rfl).trans h.privacy
  manifest := (hcontent _ rfl).trans h.manifest
  cut := h.cut
  sealedAs := ⟨fun i => (hcontent _ rfl).trans (h.sealedAs.content i),
    fun hne => hsegments.trans (h.sealedAs.directory hne)⟩
  events := (hcontent _ rfl).trans h.events

theorem Disk.Drawn.of_agree (h : d.Drawn P)
    (hread : ∀ p : Path, p.isContent = false → d'.read p = d.read p)
    (hdrawn : d.drawn ≤ d'.drawn) : d'.Drawn P := by
  intro id hid
  rw [hread _ rfl] at hid
  obtain ⟨n, hn, heq⟩ := h id hid
  exact ⟨n, lt_of_lt_of_le hn hdrawn, heq⟩

theorem State.Minted.mono {s : State} {low high : Nat} (h : s.Minted P low) (hle : low ≤ high) :
    s.Minted P high :=
  ⟨fun e he => (h.1 e he).imp fun _ hn => ⟨lt_of_lt_of_le hn.1 hle, hn.2⟩, h.2⟩

/-- Changing content only, in a way that keeps what the state refers to. -/
theorem Stored.of_agree (h : Stored P B d m ts s₀)
    (hread : ∀ p : Path, p.isContent = false → d'.read p = d.read p)
    (hsegments : d'.segments = d.segments) (hdrawn : d.drawn ≤ d'.drawn)
    (hholds : ∀ (k : List String) b, s₀.blobs[k]? = some b → d'.Holds P b)
    (hnamed : ∀ id, (d'.read (.object id)).isSome → ∃ n < d'.drawn, id = P.eventId n)
    (hplaced : ∀ id, (d'.read (.object id)).isSome → d'.blobs = true) :
    Stored P B d' m ts s₀ where
  drawn := h.drawn.of_agree hread hdrawn
  committed := by
    obtain ⟨parts, active, hc⟩ := h.committed
    refine ⟨parts, active, hc.of_agree (fun p hp => ?_) hsegments⟩
    simp only [Disk.view]
    split_ifs
    · rfl
    · exact hread p hp
  journaled := h.journaled
  replayed := h.replayed
  minted := h.minted.mono hdrawn
  holds := hholds
  named := hnamed
  placed := hplaced

/-- The journal's own work leaves the rest of a stored directory alone. -/
theorem Stored.of_aside (h : Stored P B d m ts s₀) (ha : Aside d d') (hdrawn : d'.Drawn P)
    (hc : Committed P d'.view m ts parts active) : Stored P B d' m ts s₀ where
  drawn := hdrawn
  committed := ⟨parts, active, hc⟩
  journaled := h.journaled
  replayed := h.replayed
  minted := h.minted.mono ha.drawn
  holds k b hb := by
    obtain ⟨hid, bytes, hread, hhash⟩ := h.holds k b hb
    exact ⟨hid, bytes, (ha.content _ rfl).trans hread, hhash⟩
  named id hid := by
    rw [ha.content _ rfl] at hid
    obtain ⟨n, hn, heq⟩ := h.named id hid
    exact ⟨n, lt_of_lt_of_le hn ha.drawn, heq⟩
  placed id hid := by
    rw [ha.content _ rfl] at hid
    exact ha.blobs.trans (h.placed id hid)

/-- Disposal of what the state does not refer to. -/
theorem Stored.of_trimmed {A : Path → Prop} (h : Stored P B d m ts s₀) (ht : Trimmed A d d')
    (hA : ∀ p, A p → p.isContent ∧ ∀ (k : List String) b, s₀.blobs[k]? = some b → p ≠ .object b.id) :
    Stored P B d' m ts s₀ := by
  have hobject : ∀ id, (d'.read (.object id)).isSome → (d.read (.object id)).isSome := by
    intro id hid
    by_cases hgone : A (.object id)
    · rw [ht.gone _ hgone] at hid
      contradiction
    · rwa [ht.kept _ hgone] at hid
  refine h.of_agree (fun p hp => ht.kept p fun hgone => ?_) ht.segments (le_of_eq ht.drawn.symm)
    (fun k b hb => ?_) (fun id hid => ?_) fun id hid => ht.blobs.trans (h.placed id (hobject id hid))
  · rw [(hA p hgone).1] at hp
    contradiction
  · obtain ⟨hid, bytes, hread, hhash⟩ := h.holds k b hb
    exact ⟨hid, bytes, (ht.kept _ fun hgone => (hA _ hgone).2 k b hb rfl).trans hread, hhash⟩
  · obtain ⟨n, hn, heq⟩ := h.named id (hobject id hid)
    exact ⟨n, lt_of_lt_of_le hn (le_of_eq ht.drawn.symm), heq⟩

/-! ## What disposal may do -/

/-- The content a state refers to is as it was, and no content has been added. -/
structure Tended (P : Primitives) (s : State) (d d' : Disk) : Prop where
  objects : ∀ (k : List String) b, s.blobs[k]? = some b →
    d'.read (.object b.id) = d.read (.object b.id)
  snapshots : ∀ name, (d.read (.snapshot name)).any (s.keeps P) = true →
    d'.read (.snapshot name) = d.read (.snapshot name)
  fewer : ∀ p : Path, p.isContent → d'.read p = none ∨ d'.read p = d.read p
  blobs : d'.blobs = d.blobs
  clock : d'.clock = d.clock
  drawn : d.drawn ≤ d'.drawn

theorem tended_of_aside (s : State) (h : Aside d d') : Tended P s d d' where
  objects _ _ _ := h.content _ rfl
  snapshots _ _ := h.content _ rfl
  fewer p hp := .inr (h.content p hp)
  blobs := h.blobs
  clock := h.clock
  drawn := h.drawn

theorem Tended.trans {s : State} {d₁ d₂ d₃ : Disk} (h : Tended P s d₁ d₂)
    (h' : Tended P s d₂ d₃) : Tended P s d₁ d₃ where
  objects k b hb := (h'.objects k b hb).trans (h.objects k b hb)
  snapshots name hname := by
    have hsame := h.snapshots name hname
    exact (h'.snapshots name (by rw [hsame]; exact hname)).trans hsame
  fewer p hp := by
    rcases h'.fewer p hp with hnone | hsame
    · exact .inl hnone
    · rw [hsame]
      exact h.fewer p hp
  blobs := h'.blobs.trans h.blobs
  clock := h'.clock.trans h.clock
  drawn := le_trans h.drawn h'.drawn

theorem tended_of_trimmed {s : State} {A : Path → Prop} (h : Trimmed A d d')
    (hobjects : ∀ (k : List String) b, s.blobs[k]? = some b → ¬ A (.object b.id))
    (hsnapshots : ∀ name, (d.read (.snapshot name)).any (s.keeps P) = true → ¬ A (.snapshot name)) :
    Tended P s d d' where
  objects k b hb := h.kept _ (hobjects k b hb)
  snapshots name hname := h.kept _ (hsnapshots name hname)
  fewer p _ := by
    by_cases hA : A p
    · exact .inl (h.gone p hA)
    · exact .inr (h.kept p hA)
  blobs := h.blobs
  clock := h.clock
  drawn := le_of_eq h.drawn.symm

/-! ## Handles -/

/-- A head a handle observed: of an epoch that is over, or one that the committed history
    has grown from. -/
def Observed (P : Primitives) (o m : Manifest) (ts : List Json) : Prop :=
  o.store = m.store ∧ (o.epoch < m.epoch ∨ Behind P o m ts)

/-- What a handle keeps is true of the directory. -/
structure Handle.Sound (P : Primitives) (B : Bodies) (m : Manifest) (ts : List Json)
    (h : Handle) : Prop where
  observed : ∀ o, h.observed = some o → Observed P o m ts
  verified : ∀ v, h.verified = some v → Observed P v.manifest m ts ∧
    (Behind P v.manifest m ts → v.transactions = ts.take v.manifest.sequence ∧
      Folds v.transactions v.state ∧ v.state.Rows B.row)
  inline : ∀ p ∈ h.inline, p.Writes B.row

theorem Handle.current_eq_some {h : Handle} {v : Verified} (hv : h.current = some v) :
    h.verified = some v ∧ h.observed = some v.manifest := by
  simp only [Handle.current, Option.filter_eq_some_iff, decide_eq_true_eq] at hv
  exact ⟨hv.1, hv.2.symm⟩

end Eventlog.File
