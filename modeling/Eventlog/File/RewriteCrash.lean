import Eventlog.File.AppendCrash
import Eventlog.File.Rewriting

/-!
# Eventlog.File.RewriteCrash

Crash atomicity and irrevocability of `Journal::privacy`.

A directory that holds the old history keeps it until `privacy.json` is durable, and from
then on every complete open ends at the replacement: recovery keeps a `Chosen` state
chosen at each of its own points.  What a complete open leaves of a replaced history is
the replacement and nothing else.
-/

namespace Eventlog.File

open Durable Program

namespace Rewriting

variable {P : Primitives} {r : Rewriting P}

/-! ## Opening after a crash -/

/-- With a rewrite pending, recovery is that of the rewrite. -/
theorem recover_meets {d : Disk} {current : Manifest} {C : Disk → Prop}
    {Q : Except EventLogError Manifest → Disk → Prop} (hp : r.Prepared d.view)
    (h : (recoverPrivacy P current).Meets d C fun x d' =>
      (∃ e, x = .error e ∧ Q (.error e) d') ∨
      ∃ m', x = .ok m' ∧ C d' ∧ d'.view.content .appendIntent = none ∧ Q (.ok m') d') :
    (recover P current).Meets d C Q := by
  unfold recover
  refine meets_ask_bind rfl ?_
  simp only [has_eq_true hp.privacy, has_eq_false hp.append rfl, Bool.and_false,
    Bool.false_eq_true, if_false]
  refine meets_ask_bind rfl ?_
  rw [has_eq_true hp.privacy, if_pos rfl]
  rcases h.2 with ⟨e, he, hQ⟩ | ⟨m', hm, hC, happend, hQ⟩
  · exact Meets.bind_error ⟨h.1, e, he, hQ⟩
  · refine Meets.bind ⟨h.1, m', hm, meets_ask_bind rfl ?_⟩
    rw [has_eq_false happend rfl]
    exact Meets.bind (meets_done hC ⟨(), rfl, meets_done hC hQ⟩)

theorem recover_prepared {d : Disk} {current : Manifest} (hr : r.Readable) (hd : d.Drawn P)
    (hcurrent : current = r.m ∨ current = r.next) (hi : r.Staged d.view ∨ r.Installed d.view) :
    (recover P current).Meets d (Inv P r.Chosen) (Returns fun m' d' => m' = r.next ∧
      Inv P r.Chosen d' ∧ Committed P d'.view r.next r.us [] r.bytes) := by
  refine recover_meets (hi.elim Staged.toPrepared Installed.toPrepared)
    ((recoverPrivacy_meets hr hd hcurrent hi).mono (fun _ h => h) ?_)
  rintro x d' ⟨m', rfl, rfl, hd', hc'⟩
  have hinv : Inv P r.Chosen d' := ⟨hd', .inr (.inr hc')⟩
  exact .inr ⟨r.next, rfl, hinv, hc'.append, r.next, rfl, rfl, hinv, hc'⟩

/-- **Once the intent is durable**, an open ends at the replacement, and is chosen at each
    of its own points. -/
theorem open_chosen {d : Disk} (layout : Option FileLayout) (hr : r.Readable)
    (hd : Inv P r.Chosen d) :
    (openJournal P layout).Meets d (Inv P r.Chosen)
      (Reads P r.next r.us (Settled P r.next r.us [] r.bytes)) := by
  have hdone : ∀ v, Committed P v r.next r.us [] r.bytes → r.Chosen v := fun _ h => .inr (.inr h)
  obtain ⟨hdrawn, hs | hi | hc⟩ := hd
  · exact openJournal_settles layout ⟨hdrawn, .inl hs⟩ hs.toBase hs.manifest
      r.cut.describes.known hdone (recover_prepared hr hdrawn (.inl rfl) (.inl hs))
  · rcases hi.manifest with hm | hm
    · exact openJournal_settles layout ⟨hdrawn, .inr (.inl hi)⟩ hi.toBase hm
        r.cut.describes.known hdone (recover_prepared hr hdrawn (.inl rfl) (.inr hi))
    · exact openJournal_settles layout ⟨hdrawn, .inr (.inl hi)⟩ hi.toBase hm
        r.next_known hdone (recover_prepared hr hdrawn (.inr rfl) (.inr hi))
  · have hinv : Inv P r.Chosen d := ⟨hdrawn, .inr (.inr hc)⟩
    exact openJournal_settles layout hinv hc.toBase hc.manifest r.next_known hdone
      (hc.recover_meets hinv ⟨rfl, hinv, hc⟩)

/-! ## A rewrite that cannot be read back -/

/-- Where it cannot be read back, recovery stops before anything changes. -/
theorem recoverPrivacy_refused {d : Disk} (hr : ¬ r.Readable) (hs : r.Staged d.view) :
    (recoverPrivacy P r.m).Meets d (· = d) fun x d' => ∃ e, x = .error e ∧ d' = d := by
  have hknown : ¬ (r.m ≠ r.intent.before ∧ r.m ≠ r.intent.after) := fun h => h.1 rfl
  have hevents : d.readFile .events = .ok r.active := by
    simp [Disk.readFile, show d.read .events = some r.active from hs.events]
  have hinstall : (installReplacement P r.m r.next (P.sha256 r.bytes)).Meets d (· = d)
      fun x d' => ∃ e, x = .error e ∧ d' = d := by
    unfold installReplacement
    refine meets_ask_bind hevents ?_
    by_cases hsame : P.sha256 r.active = P.sha256 r.bytes
    · rw [if_pos hsame, r.distinct hsame]
      cases hread : decode P r.bytes r.next with
      | error e => exact ⟨by simp [ask], e, rfl, rfl⟩
      | ok ws => exact absurd ⟨⟨ws, hread⟩, .inl hsame⟩ hr
    · rw [if_neg hsame]
      have hcheck : ∃ e, checkReplacement P r.m r.next (P.sha256 r.bytes) d = .error e := by
        rw [checkReplacement_eq hs]
        cases hbefore : decode P (r.parts.flatten ++ r.active) r.m with
        | error e => exact ⟨e, rfl⟩
        | ok ts =>
            cases hread : decode P r.bytes r.next with
            | error e => exact ⟨e, rfl⟩
            | ok ws => exact absurd ⟨⟨ws, hread⟩, .inr ⟨ts, hbefore⟩⟩ hr
      obtain ⟨e, he⟩ := hcheck
      exact meets_ask_bind_error he rfl ⟨e, rfl, rfl⟩
  unfold recoverPrivacy
  refine meets_ask_bind (read_intent hs.toPrepared) ?_
  rw [if_neg hknown, r.intent_consistent]
  refine Meets.bind_error (hinstall.mono (fun _ h => h) ?_)
  rintro x d' ⟨e, rfl, rfl⟩
  exact ⟨e, rfl, e, rfl, rfl⟩

/-- Then every open fails, and the directory stays as it is. -/
theorem open_refused {d : Disk} (layout : Option FileLayout) (hr : ¬ r.Readable)
    (hs : r.Staged d.view) :
    (openJournal P layout).Meets d (· = d) fun x d' => ∃ e, x = .error e ∧ d' = d := by
  have hrecover : (recover P r.m).Meets d (· = d) fun x d' => ∃ e, x = .error e ∧ d' = d :=
    recover_meets hs.toPrepared ((recoverPrivacy_refused hr hs).mono (fun _ h => h)
      fun x d' ⟨e, hx, hd'⟩ => .inl ⟨e, hx, e, rfl, hd'⟩)
  unfold openJournal
  refine meets_ask_bind rfl ?_
  simp only [has_eq_false hs.foreign rfl, Bool.false_eq_true, if_false]
  refine Meets.bind (takeLock_meets rfl hs.toBase ⟨(), rfl, meets_ask_bind rfl ?_⟩)
  rw [has_eq_true hs.manifest]
  refine Meets.bind (meets_done rfl ⟨(), rfl, ?_⟩)
  unfold openProvisioned
  refine meets_ask_bind (readManifest_eq_ok hs.manifest r.cut.describes.known) ?_
  exact Meets.bind_error (hrecover.mono (fun _ h => h)
    fun x d' ⟨e, hx, hd'⟩ => ⟨e, hx, e, rfl, hd'⟩)

/-- The rewrite itself fails with the intent durable. -/
theorem privacy_refused {d : Disk} (j : Journal) (hj : j.manifest = r.m) (hr : ¬ r.Readable)
    (hd : d.Drawn P) (hc : Committed P d.view r.m r.ts r.parts r.active) :
    (j.privacy P r.us).Meets d (Inv P r.Passed) fun x d' =>
      x = .error .UnknownCommit ∧ d'.Drawn P ∧ r.Staged d'.view := by
  refine privacy_stages j hj hd hc fun d' hd' hs => ?_
  obtain ⟨hpassed, e, hresult, hlast⟩ := recoverPrivacy_refused hr hs
  refine Meets.bind_error ⟨fun s hmem => ?_, .UnknownCommit, ?_, rfl, ?_⟩
  · rw [hpassed s hmem]
    exact ⟨hd', .inr (.inl hs)⟩
  · simp [Program.mapError, hresult, Except.mapError]
  · change ((recoverPrivacy P r.m).last d').Drawn P ∧ r.Staged ((recoverPrivacy P r.m).last d').view
    rw [hlast]
    exact ⟨hd', hs⟩

end Rewriting

/-! ## Erasure -/

/-- The names under which frames are written: the active file, sealed segments, staging
    files and the two intents. -/
def Path.holdsFrames : Path → Bool
  | .events | .segment _ | .staging _ | .privacyNext | .appendIntent | .privacyIntent => true
  | _ => false

/-- Nothing is left under these names but an active file, and every frame in it carries a
    transaction of `us`. -/
structure Erased (P : Primitives) (us : List Json) (d : Disk) : Prop where
  only : ∀ p : Path, p.holdsFrames → (d.read p).isSome → p = .events
  frames : ∀ bytes line (f : Frame), d.read .events = some bytes → line ∈ splitInclusive bytes →
    fromBytes P.toFloatText line = some f → f.transaction ∈ us

variable {P : Primitives}

theorem Settled.erased {d : Disk} (h : Settled P m us [] bytes d)
    (hus : ∀ u ∈ us, Survives P u) : Erased P us d := by
  have hc := h.committed
  have hnone : ∀ p : Path, p.isStaging = false → d.view.content p = none →
      ¬ (d.read p).isSome := fun p hp hv => by
    have hread : d.read p = none := by simpa [Disk.view, hp] using hv
    simp [hread]
  refine ⟨fun p hp hsome => ?_, fun bs line f hbs hline hf => ?_⟩
  · cases p with
    | events => rfl
    | segment i => exact absurd hsome (hnone _ rfl (by rw [hc.sealedAs.content i]; simp))
    | staging id => rw [h.staging id] at hsome; contradiction
    | privacyNext => rw [h.replacement] at hsome; contradiction
    | appendIntent => exact absurd hsome (hnone _ rfl hc.append)
    | privacyIntent => exact absurd hsome (hnone _ rfl hc.privacy)
    | _ => simp [Path.holdsFrames] at hp
  · have hevents : d.read .events = some bytes := hc.events
    obtain rfl : bytes = bs := Option.some.inj (hevents.symm.trans hbs)
    have hbytes : bytes = (encodeChain P m 0 ZERO us).1 := hc.cut.bytes
    rw [hbytes] at hline
    exact transaction_mem_of_line P hus hline hf

/-! ## Crash atomicity -/

/-- The rewrite was decided: its intent is durable, or its manifest published. -/
def Decided (d d₁ : Disk) : Prop :=
  d₁.has .privacyIntent ∨ d₁.read .manifest ≠ d.read .manifest

instance (d d₁ : Disk) : Decidable (Decided d d₁) :=
  inferInstanceAs (Decidable (_ ∨ _))

/-- Wherever `Journal::privacy` is interrupted, and however often the recovery after it is,
    the next complete open yields the history before the rewrite, or, once the rewrite was
    decided, the replacement under the next epoch; what was replaced is then gone from
    every file. -/
def RewriteAtomic (P : Primitives) (layout : Option FileLayout) (j : Journal)
    (ts us : List Json) (d : Disk) : Prop :=
  ∀ d₁ d₂, (j.privacy P us).Interrupted d d₁ → (openJournal P layout).Restarts d₁ d₂ →
    if Decided d d₁ then
      Recovers P layout us d₂ ∧ Erased P us ((openJournal P layout).last d₂) ∧
        ∃ j', (openJournal P layout d₂).result = .ok j' ∧
          j'.manifest.epoch = j.manifest.epoch + 1
    else Recovers P layout ts d₂

/-- What a rewrite needs of its replacement: a digest that tells it from the active
    file. -/
def Replaceable (P : Primitives) (m : Manifest) (active : Bytes) (us : List Json) : Prop :=
  ∀ bytes next, m.rewrite P us = .ok (bytes, next) →
    P.sha256 active = P.sha256 bytes → active = bytes

theorem exists_rewriting {m : Manifest} (hc : Cut P m ts parts active)
    (hplan : m.rewrite P us = .ok (bytes, next)) (hus : Replaceable P m active us) :
    ∃ r : Rewriting P, r.m = m ∧ r.ts = ts ∧ r.parts = parts ∧ r.active = active ∧
      r.us = us ∧ r.bytes = bytes ∧ r.next = next :=
  ⟨⟨m, ts, parts, active, us, bytes, next, hc, hplan, hus _ _ hplan⟩,
    rfl, rfl, rfl, rfl, rfl, rfl, rfl⟩

theorem Rewriting.toBytes_next_ne (r : Rewriting P) :
    toBytes P.toFloatText r.next ≠ toBytes P.toFloatText r.m := by
  intro h
  have hvalue := congrArg (fromBytes P.toFloatText : Bytes → Option Manifest) h
  rw [fromBytes_toBytes, fromBytes_toBytes] at hvalue
  exact r.next_ne (Option.some.inj hvalue)

/-- A state the rewrite passes is decided exactly if it is chosen. -/
theorem Rewriting.decided_of_passed {r : Rewriting P} {d d₁ : Disk}
    (hm : d.read .manifest = some (toBytes P.toFloatText r.m)) (h : r.Passed d₁.view) :
    (Committed P d₁.view r.m r.ts r.parts r.active ∧ ¬ Decided d d₁) ∨
      (r.Chosen d₁.view ∧ Decided d d₁) := by
  rcases h with hc | hs | hi | hc
  · refine .inl ⟨hc, fun hdecided => ?_⟩
    have hm₁ : d₁.read .manifest = some (toBytes P.toFloatText r.m) := hc.manifest
    rcases hdecided with hintent | hne
    · rw [has_eq_false hc.privacy rfl] at hintent; contradiction
    · exact hne (hm₁.trans hm.symm)
  · exact .inr ⟨.inl hs, .inl (has_eq_true hs.privacy)⟩
  · exact .inr ⟨.inr (.inl hi), .inl (has_eq_true hi.privacy)⟩
  · refine .inr ⟨.inr (.inr hc), .inr ?_⟩
    have hm₁ : d₁.read .manifest = some (toBytes P.toFloatText r.next) := hc.manifest
    rw [hm, hm₁]
    exact fun heq => r.toBytes_next_ne (Option.some.inj heq)

theorem Committed.not_decided {d : Disk} (hc : Committed P d.view m ts parts active) :
    ¬ Decided d d := by
  intro h
  rcases h with hintent | hne
  · rw [has_eq_false hc.privacy rfl] at hintent; contradiction
  · exact hne rfl

/-- An open without a crash is among those that must yield the history before. -/
theorem RewriteAtomic.history_survives {d : Disk} {j : Journal} {layout : Option FileLayout}
    (h : RewriteAtomic P layout j ts us d) (hd : d.Drawn P)
    (hc : Committed P d.view j.manifest ts parts active) : ∀ t ∈ ts, Survives P t := by
  have hopen := h d d (by simp [Interrupted]) .refl
  rw [if_neg hc.not_decided] at hopen
  exact hopen.survives hd hc

/-- A rewrite that completes, or that fails for its replacement, is among those that must
    be readable. -/
theorem RewriteAtomic.replacement_survives {d : Disk} {j : Journal} {layout : Option FileLayout}
    (h : RewriteAtomic P layout j ts us d) (hd : d.Drawn P)
    (hc : Committed P d.view j.manifest ts parts active)
    (hus : Replaceable P j.manifest active us)
    (hplan : j.manifest.rewrite P us = .ok (bytes, next)) : ∀ u ∈ us, Survives P u := by
  have hts := h.history_survives hd hc
  obtain ⟨r, hm, rfl, rfl, rfl, rfl, rfl, rfl⟩ := exists_rewriting hc.cut hplan hus
  rw [← hm] at hc
  have hend := h _ _ ((j.privacy P r.us).last_mem d) .refl
  by_cases hr : r.Readable
  · obtain ⟨-, j', -, -, -, -, hd', hc'⟩ := r.privacy_meets j hm.symm hr hd hc
    rcases r.decided_of_passed (d := d) hc.manifest (.inr (.inr (.inr hc'))) with ⟨hold, -⟩ | ⟨-, hdecided⟩
    · have hbytes := hold.manifest.symm.trans hc'.manifest
      exact absurd (Option.some.inj hbytes).symm r.toBytes_next_ne
    · rw [if_pos hdecided] at hend
      exact hend.1.survives hd' hc'
  · -- the rewrite stops with its intent durable, and no open gets past it
    obtain ⟨-, -, -, hs⟩ := r.privacy_refused j hm.symm hr hd hc
    rw [if_pos (.inl (has_eq_true hs.privacy))] at hend
    obtain ⟨j', -, -, hj', -⟩ := hend.1
    obtain ⟨-, e, he, -⟩ := r.open_refused layout hr hs
    rw [he] at hj'
    contradiction

/-- **Crash atomicity of a rewrite** holds exactly when every transaction of the history
    survives its text, and so does every one of the replacement, unless there is no next
    epoch. -/
theorem privacy_rewriteAtomic_iff {d : Disk} {j : Journal} (layout : Option FileLayout)
    (hd : d.Drawn P) (hc : Committed P d.view j.manifest ts parts active)
    (hus : Replaceable P j.manifest active us) :
    RewriteAtomic P layout j ts us d ↔
      (∀ t ∈ ts, Survives P t) ∧
        ((∃ planned, j.manifest.rewrite P us = .ok planned) → ∀ u ∈ us, Survives P u) := by
  constructor
  · intro h
    exact ⟨h.history_survives hd hc, fun ⟨⟨bytes, next⟩, hplan⟩ =>
      h.replacement_survives hd hc hus hplan⟩
  · rintro ⟨hts, hnew⟩ d₁ d₂ hcut hr
    have hopen : ∀ d', Inv P (fun v => Committed P v j.manifest ts parts active) d' → _ :=
      fun d' h => h.2.open_meets h.1 layout
    cases hplan : j.manifest.rewrite P us with
    | error e =>
        -- nothing is written: all that can be interrupted is an open of the old history
        have hrun : (j.privacy P us).Meets d (· = d) fun _ _ => True :=
          meets_ask_bind_error hplan rfl trivial
        obtain rfl : d₁ = d := hrun.interrupted hcut
        rw [if_neg hc.not_decided]
        exact recovers_of_reads (meets_of_restarts hopen ⟨hd, hc⟩ hr) hc.cut.describes hts
    | ok planned =>
        obtain ⟨bytes, next⟩ := planned
        have husurvive := hnew ⟨_, hplan⟩
        obtain ⟨r, hm, rfl, rfl, rfl, rfl, rfl, rfl⟩ := exists_rewriting hc.cut hplan hus
        have hreadable : r.Readable := Rewriting.readable_of_survives hts husurvive
        rw [← hm] at hc hopen
        have hpassed := (r.privacy_meets j hm.symm hreadable hd hc).interrupted hcut
        rcases r.decided_of_passed hc.manifest hpassed.2 with ⟨hold, hnot⟩ | ⟨hchosen, hdecided⟩
        · rw [if_neg hnot]
          exact recovers_of_reads (meets_of_restarts hopen ⟨hpassed.1, hold⟩ hr)
            r.cut.describes hts
        · rw [if_pos hdecided]
          have hend := meets_of_restarts (fun d' h => r.open_chosen layout hreadable h)
            ⟨hpassed.1, hchosen⟩ hr
          obtain ⟨j', hj', hmanifest, -, -, hsettled⟩ :=
            hend.2.returns r.next_cut.describes husurvive
          exact ⟨recovers_of_reads hend r.next_cut.describes husurvive,
            hsettled.erased husurvive, j', hj', by rw [hmanifest, r.next_epoch, hm]⟩

theorem replaceable_of_injective (hsha : Function.Injective P.sha256) (m : Manifest)
    (active : Bytes) (us : List Json) : Replaceable P m active us :=
  fun _ _ _ h => hsha h

/-- Erasing the history of a store that was just minted. -/
theorem privacy_rewriteAtomic_iff_minted :
    ∃ j d, (openJournal samplePrimitives (some .Single) emptyDisk).result = .ok j ∧
      (RewriteAtomic samplePrimitives none j [] [] d ↔
        (∀ t ∈ [], Survives samplePrimitives t) ∧
          ((∃ planned, j.manifest.rewrite samplePrimitives [] = .ok planned) →
            ∀ u ∈ [], Survives samplePrimitives u)) := by
  obtain ⟨j, d, hj, -, -, -, hsettled⟩ := minted_settled (P := samplePrimitives) .Single rfl
  exact ⟨j, d, hj, privacy_rewriteAtomic_iff none hsettled.drawn hsettled.committed
    (replaceable_of_injective sampleDigest_injective _ _ _)⟩

/-- A number that its reader misses breaks it: once `950.5250979473323` is committed, a
    rewrite that erases everything cannot be completed. -/
theorem privacy_not_rewriteAtomic :
    ∃ j₀ j d₀ d, (openJournal samplePrimitives (some .Single) emptyDisk).result = .ok j₀ ∧
      d₀ = (openJournal samplePrimitives (some .Single)).last emptyDisk ∧
      (j₀.append samplePrimitives writtenTransaction d₀).result = .ok j ∧
      d = (j₀.append samplePrimitives writtenTransaction).last d₀ ∧
      ¬ RewriteAtomic samplePrimitives none j [writtenTransaction] [] d := by
  obtain ⟨j₀, d₀, hj₀, hd₀, hm, -, hsettled⟩ := minted_settled (P := samplePrimitives) .Single rfl
  obtain ⟨plan, hplan⟩ := minted_plan_written
  rw [← hm] at hplan
  obtain ⟨j, parts, active, hj, hmanifest, -, hd, hc⟩ :=
    hsettled.committed.append_returns hsettled.drawn hplan
  rw [← hmanifest] at hc
  refine ⟨j₀, j, d₀, _, hj₀, hd₀, hj, rfl, fun h => not_survives_writtenTransaction ?_⟩
  exact h.history_survives hd hc _ (by simp)

end Eventlog.File
