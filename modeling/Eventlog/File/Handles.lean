import Eventlog.File.Appending
import Eventlog.File.Kept

/-!
# Eventlog.File.Handles

Every handle keeps a history cut at the ends of lines, whatever happens to the files under it.

A handle gets what it keeps from a complete open, a resume, an append or a rewrite of its own
(`Observes`).  Nothing is assumed of the files: between its calls other handles may do anything and
bytes may be damaged.
-/

namespace Eventlog.File

open Durable Program

variable {P : Primitives} {d : Disk} {m o : Manifest}

/-! ## Opening -/

/-- The sealed segments that were read. -/
theorem parts_of_readSealedFrom {lengths : List Nat} {into into' : Bytes} {index : Nat}
    {stamps : List (Option Stamp)} (h : readSealedFrom d into index lengths = .ok (into', stamps))
    (hpos : ∀ n ∈ lengths, 0 < n) :
    ∃ parts : List Bytes, into' = into ++ parts.flatten ∧ lengths = parts.map List.length ∧
      ∀ part ∈ parts, EndsInLine part := by
  induction lengths generalizing into index stamps with
  | nil =>
      obtain ⟨rfl, -⟩ := Prod.mk.inj (Except.ok.inj h)
      exact ⟨[], by simp⟩
  | cons n lengths ih =>
      obtain ⟨bytes, -, h⟩ := Checks.bind_eq_ok_iff.mp h
      dsimp only at h
      split at h
      · cases h
      rename_i hends
      simp only [not_or, ne_eq, not_not] at hends
      obtain ⟨⟨into'', stamps'⟩, hrest, heq⟩ := Checks.map_eq_ok_iff.mp h
      obtain ⟨rfl, -⟩ := Prod.mk.inj heq
      obtain ⟨parts, rfl, rfl, hline⟩ := ih hrest fun k hk => hpos k (List.mem_cons_of_mem _ hk)
      have hne : bytes.take (n + 1) ≠ [] := by
        intro hnil
        have := hpos n List.mem_cons_self
        rw [hnil, List.length_nil] at hends
        omega
      refine ⟨bytes.take (n + 1) :: parts, by simp, by simp [hends.1], ?_⟩
      rintro part hpart
      rcases List.mem_cons.mp hpart with rfl | hmem
      · have := hends.2
        rwa [List.getLast?_append_of_ne_nil _ hne] at this
      · exact hline part hmem

theorem Manifest.sealed_pos (h : m.known) : ∀ n ∈ m.sealed, 0 < n := by
  intro n hn
  obtain ⟨i, hi, rfl⟩ := List.getElem_of_mem hn
  refine Manifest.files_pos h (.segment i, m.sealed[i], true) ?_ rfl
  refine List.mem_append_left _ (List.mem_map.mpr ⟨(m.sealed[i], i), ?_, rfl⟩)
  exact List.mk_mem_zipIdx_iff_getElem?.mpr (List.getElem?_eq_getElem hi)

/-- **A complete read** gives a handle something to keep, and it decodes. -/
theorem kept_of_readCommitted {ts : List Json} {c : Content} (hknown : m.known)
    (h : readCommitted P m d = .ok (ts, c)) : Kept ⟨m, ts, c⟩ ∧ decode P c.bytes m = .ok ts := by
  obtain ⟨events, -, h⟩ := Checks.bind_eq_ok_iff.mp h
  split at h
  · cases h
  rename_i hlong
  obtain ⟨⟨sealed, stamps⟩, hsealed, h⟩ := Checks.bind_eq_ok_iff.mp h
  dsimp only at h
  split at h
  · cases h
  obtain ⟨us, hdecode, h⟩ := Checks.bind_eq_ok_iff.mp h
  split at h
  · cases h
  rename_i hshort
  obtain ⟨rfl, rfl⟩ := Prod.mk.inj (Except.ok.inj h)
  have hactive : events.length = m.activeLength := by omega
  rw [List.take_of_length_le (Nat.le_of_eq hactive)] at hdecode
  obtain ⟨hlength, hwhole, -⟩ := decode_eq_ok_iff.mp hdecode
  obtain ⟨parts, rfl, hlengths, hline⟩ : ∃ parts : List Bytes, sealed = parts.flatten ∧
      m.sealed = parts.map List.length ∧ ∀ part ∈ parts, EndsInLine part := by
    unfold readSealed at hsealed
    split at hsealed
    · rename_i hnil
      obtain ⟨rfl, -⟩ := Prod.mk.inj (Except.ok.inj hsealed)
      exact ⟨[], by simp [hnil]⟩
    · split at hsealed
      · cases hsealed
      · simpa using parts_of_readSealedFrom hsealed (Manifest.sealed_pos hknown)
  have hflatten : (parts ++ [events]).flatten = parts.flatten ++ events := by simp
  rw [List.take_of_length_le (Nat.le_of_eq hactive)]
  refine ⟨⟨hknown, hlength, ?_, sequence_of_decode hdecode⟩, hdecode⟩
  dsimp only
  rw [← hflatten] at hwhole ⊢
  exact lined_of_parts hlengths hactive hline hwhole

/-- A recovery returns the manifest of the intent it found. -/
theorem recoverPrivacy_returns (h : (recoverPrivacy P m d).result = .ok o) :
    ∃ intent, readPrivacyIntent P d = .ok intent ∧ intent.consistent = true ∧ o = intent.after := by
  obtain ⟨intent, hintent, h⟩ := result_bind_eq_ok_iff.mp h
  split at h
  · cases h
  split at h
  · cases h
  rename_i hconsistent
  obtain ⟨_, -, h⟩ := result_bind_eq_ok_iff.mp h
  obtain ⟨_, -, h⟩ := result_bind_eq_ok_iff.mp h
  exact ⟨intent, hintent, by simpa using hconsistent, (Except.ok.inj h).symm⟩

/-- What recovery leaves is a manifest this release reads. -/
theorem known_of_recoverPrivacy (h : (recoverPrivacy P m d).result = .ok o) : o.known := by
  obtain ⟨intent, -, hconsistent, rfl⟩ := recoverPrivacy_returns h
  simp only [PrivacyIntent.consistent, Bool.and_eq_true] at hconsistent
  exact hconsistent.1.1.1.2

theorem known_of_recover (hknown : m.known) (h : (recover P m d).result = .ok o) : o.known := by
  obtain ⟨both, -, h⟩ := result_bind_eq_ok_iff.mp h
  split at h
  · cases h
  obtain ⟨rewriting, -, h⟩ := result_bind_eq_ok_iff.mp h
  have hrest (n : Manifest) (d : Disk) (h : ((do
      let appending ← ask fun d => .ok (d.has .appendIntent)
      when appending (recoverAppend P n)
      return n : Io Manifest) d).result = .ok o) : o = n := by
    obtain ⟨_, -, h⟩ := result_bind_eq_ok_iff.mp h
    obtain ⟨_, -, h⟩ := result_bind_eq_ok_iff.mp h
    exact (Except.ok.inj h).symm
  split at h
  · obtain ⟨n, hn, h⟩ := result_bind_eq_ok_iff.mp h
    rw [hrest n _ h]
    exact known_of_recoverPrivacy hn
  · obtain ⟨n, hn, h⟩ := result_bind_eq_ok_iff.mp h
    rw [hrest n _ h, ← Except.ok.inj hn]
    exact hknown

theorem kept_of_open {layout : Option FileLayout} {j : Journal}
    (h : (openJournal P layout d).result = .ok j) :
    Kept j ∧ decode P j.content.bytes j.manifest = .ok j.transactions := by
  obtain ⟨foreign, -, h⟩ := result_bind_eq_ok_iff.mp h
  split at h
  · cases h
  obtain ⟨_, -, h⟩ := result_bind_eq_ok_iff.mp h
  obtain ⟨_, -, h⟩ := result_bind_eq_ok_iff.mp h
  obtain ⟨_, -, h⟩ := result_bind_eq_ok_iff.mp h
  obtain ⟨m₀, hm₀, h⟩ := result_bind_eq_ok_iff.mp h
  obtain ⟨m, hm, h⟩ := result_bind_eq_ok_iff.mp h
  obtain ⟨⟨ts, c⟩, hread, h⟩ := result_bind_eq_ok_iff.mp h
  obtain ⟨_, -, h⟩ := result_bind_eq_ok_iff.mp h
  obtain rfl := Except.ok.inj h
  exact kept_of_readCommitted (known_of_recover (known_of_readManifest hm₀) hm) hread

/-! ## Resuming -/

/-- The history that a resume has found. -/
theorem Found.kept {ts : List Json} {c c' : Content} {fresh : List Json} {tail : Bytes}
    {parts : List Bytes} (h : Found P d o c m fresh c' tail parts) (hkept : Kept ⟨o, ts, c⟩) :
    Kept ⟨m, ts ++ fresh, c'⟩ where
  known := known_of_readManifest h.manifest
  length := by
    have hsum := congrArg List.sum (lengths_of_holds h.holds)
    rw [Manifest.sum_lengths (known_of_readManifest h.manifest), ← List.length_flatten, h.bytes] at hsum
    rw [h.content]
    exact hsum
  lined := by
    obtain ⟨hwhole, -⟩ := decodeChain_eq_ok_iff.mp h.chains
    have hall := hkept.whole.append hwhole
    rw [h.content]
    rw [← h.bytes] at hall ⊢
    exact lined_of_holds h.holds hall
  sequence := by
    obtain ⟨-, hlines⟩ := decodeChain_eq_ok_iff.mp h.chains
    have := length_of_decodeLines hlines
    have hseen := hkept.sequence
    simp only [List.length_append] at this hseen ⊢
    omega

/-! ## Appending -/

/-- What was lined stays so behind more of it. -/
theorem lined_append {lengths lengths' : List Nat} {bytes bytes' : Bytes} (h : Lined lengths bytes)
    (hsum : bytes.length = lengths.sum) (h' : Lined lengths' bytes') :
    Lined (lengths ++ lengths') (bytes ++ bytes') := by
  induction lengths generalizing bytes with
  | nil =>
      obtain rfl := List.eq_nil_of_length_eq_zero hsum
      exact h'
  | cons n lengths ih =>
      simp only [List.sum_cons] at hsum
      simp only [List.cons_append, Lined]
      rw [List.take_append_of_le_length (by omega), List.drop_append_of_le_length (by omega)]
      exact ⟨h.1, ih h.2 (by rw [List.length_drop]; omega)⟩

/-- The last file of a lined history gains a line. -/
theorem lined_grow {lengths : List Nat} {n : Nat} {bytes line : Bytes}
    (h : Lined (lengths ++ [n]) bytes) (hsum : bytes.length = lengths.sum + n)
    (hline : EndsInLine line) : Lined (lengths ++ [n + line.length]) (bytes ++ line) := by
  induction lengths generalizing bytes with
  | nil =>
      simp only [List.nil_append, List.sum_nil, Nat.zero_add] at hsum ⊢
      refine ⟨?_, trivial⟩
      rw [List.take_of_length_le (by rw [List.length_append]; omega)]
      exact .inr (hline.append bytes)
  | cons k lengths ih =>
      simp only [List.sum_cons] at hsum
      simp only [List.cons_append, Lined]
      rw [List.take_append_of_le_length (by omega), List.drop_append_of_le_length (by omega)]
      exact ⟨h.1, ih h.2 (by rw [List.length_drop]; omega)⟩

theorem plan_next_lengths {t : Json} {plan : Planned} (hknown : m.known)
    (h : m.plan P t = .ok plan) :
    plan.next.lengths = if m.seals then m.lengths ++ [plan.line.length]
      else m.sealed ++ [m.activeLength + plan.line.length] := by
  obtain ⟨-, -, rfl⟩ := (plan_eq_ok_iff P).mp h
  have hsum := sealed_sum_le hknown
  cases hs : m.segments with
  | none =>
      have hseals : m.seals = false := by simp [Manifest.seals, Manifest.sealAt, hs]
      simp [Manifest.lengths, Manifest.activeLength, Manifest.sealed, hs, hseals]
  | some s =>
      have hsealed : m.sealed = s.sealed := by simp [Manifest.sealed, hs]
      rw [hsealed] at hsum
      cases hseals : m.seals with
      | false =>
          simp only [Manifest.lengths, Manifest.activeLength, Manifest.sealed, hs, Option.map_some,
            Bool.false_eq_true, if_false]
          congr 2
          omega
      | true =>
          simp only [Manifest.lengths, Manifest.activeLength, Manifest.sealed, hs, Option.map_some,
            if_true, List.sum_append, List.sum_singleton]
          congr 2
          omega

/-- What an append returns, whatever it did to the files. -/
theorem append_returns {j j' : Journal} {t : Json} (h : (j.append P t d).result = .ok j') :
    ∃ plan, j.manifest.plan P t = .ok plan ∧ j'.manifest = plan.next ∧
      j'.transactions = j.transactions ++ [t] ∧ j'.content.bytes = j.content.bytes ++ plan.line ∧
      j'.content.stamp = none := by
  obtain ⟨plan, hplan, h⟩ := result_bind_eq_ok_iff.mp h
  unfold Journal.commitPlan at h
  obtain ⟨_, -, h⟩ := result_bind_eq_ok_iff.mp h
  obtain ⟨frame, -, h⟩ := result_bind_eq_ok_iff.mp h
  obtain ⟨_, -, h⟩ := result_bind_eq_ok_iff.mp h
  obtain ⟨_, -, h⟩ := result_bind_eq_ok_iff.mp h
  obtain ⟨_, -, h⟩ := result_bind_eq_ok_iff.mp h
  obtain ⟨_, -, h⟩ := result_bind_eq_ok_iff.mp h
  obtain ⟨_, -, h⟩ := result_bind_eq_ok_iff.mp h
  obtain ⟨_, -, h⟩ := result_bind_eq_ok_iff.mp h
  obtain rfl := Except.ok.inj h
  exact ⟨plan, hplan, rfl, rfl, rfl, rfl⟩

theorem Kept.append {j j' : Journal} {t : Json} (hkept : Kept j)
    (h : (j.append P t d).result = .ok j') : Kept j' := by
  obtain ⟨plan, hplan, hmanifest, htransactions, hbytes, -⟩ := append_returns h
  have hlengths := plan_next_lengths hkept.known hplan
  have hknown := plan_next_known hkept.known hplan
  obtain ⟨-, -, hnext⟩ := (plan_eq_ok_iff P).mp hplan
  have hline : EndsInLine plan.line := by
    rw [hnext]
    simp [EndsInLine, encode]
  have hsum : j.content.bytes.length = j.manifest.lengths.sum := by
    rw [hkept.length, Manifest.sum_lengths hkept.known]
  refine ⟨hmanifest ▸ hknown, ?_, ?_, ?_⟩
  · rw [hmanifest, hbytes, List.length_append, hkept.length, hnext]
  · rw [hmanifest, hbytes, hlengths]
    split
    · refine lined_append hkept.lined hsum ⟨?_, trivial⟩
      rw [List.take_length]
      exact .inr hline
    · exact lined_grow hkept.lined (by rw [hsum]; simp [Manifest.lengths]) hline
  · rw [hmanifest, htransactions, List.length_append, ← hkept.sequence, hnext]
    rfl

/-! ## Rewriting -/

theorem read_createNew {p : Path} {d' : Disk} (h : Disk.createNew p d = .ok d') :
    d'.read p = some [] := by
  cases hr : d.read p with
  | some b => simp [Disk.createNew, Disk.has, hr] at h
  | none =>
      obtain ⟨d₁, hok, hb⟩ := Disk.createNew_eq_ok hr
      obtain rfl := Except.ok.inj (hok.symm.trans h)
      simp [hb.read]

theorem read_writeAt {p : Path} {old bytes : Bytes} {d' : Disk} (hold : d.read p = some old)
    (h : Disk.writeAt p 0 bytes d = .ok d') : d'.read p = some (bytes ++ old.drop bytes.length) := by
  obtain ⟨d₁, hok, hb⟩ := Disk.writeAt_eq_ok hold 0 bytes
  obtain rfl := Except.ok.inj (hok.symm.trans h)
  simp [hb.read]

theorem read_rename {p q : Path} {old : Bytes} {d' : Disk} (hold : d.read p = some old)
    (h : Disk.rename p q d = .ok d') : d'.read q = some old := by
  obtain ⟨d₁, hok, hb⟩ := Disk.rename_eq_ok hold q
  obtain rfl := Except.ok.inj (hok.symm.trans h)
  simp [hb.read]

/-- An operation that succeeds leaves what it made. -/
theorem last_perform {f : Disk → Except EventLogError Disk}
    (h : (perform f d).result = .ok ()) : f d = .ok ((perform f).last d) := by
  cases hf : f d with
  | error e => simp [perform, hf] at h
  | ok d' => simp [perform, last, hf]

/-- A value that was published is there. -/
theorem read_atomicJson [Serde α] {p : Path} {value : α}
    (h : (atomicJson P p value d).result = .ok ()) :
    ((atomicJson P p value).last d).read p = some (toBytes P.toFloatText value) := by
  obtain ⟨id, hid, h⟩ := result_bind_eq_ok_iff.mp h
  rw [atomicJson, last_bind hid]
  generalize (newEventId P).last d = d at h ⊢
  obtain ⟨_, hsynced, h⟩ := result_bind_eq_ok_iff.mp h
  rw [last_bind hsynced]
  have hstaged : ((writeSynced (.staging id) (toBytes P.toFloatText value)).last d).read
      (.staging id) = some (toBytes P.toFloatText value) := by
    obtain ⟨_, hcreated, hwritten⟩ := result_bind_eq_ok_iff.mp hsynced
    rw [writeSynced, last_bind hcreated]
    have hempty := read_createNew (last_perform hcreated)
    simpa using read_writeAt hempty (last_perform hwritten)
  exact read_rename hstaged (last_perform h)

/-- What a rewrite returns, whatever it did to the files. -/
theorem privacy_returns {j j' : Journal} {us : List Json} (h : (j.privacy P us d).result = .ok j') :
    ∃ bytes, j.manifest.rewrite P us = .ok (bytes, j'.manifest) ∧ j'.manifest.known ∧
      j'.transactions = us ∧ j'.content.bytes = bytes := by
  obtain ⟨⟨bytes, next⟩, hrewrite, h⟩ := result_bind_eq_ok_iff.mp h
  obtain ⟨_, -, h⟩ := result_bind_eq_ok_iff.mp h
  obtain ⟨_, -, h⟩ := result_bind_eq_ok_iff.mp h
  obtain ⟨_, -, h⟩ := result_bind_eq_ok_iff.mp h
  obtain ⟨_, hintent, h⟩ := result_bind_eq_ok_iff.mp h
  obtain ⟨manifest, hrecovered, h⟩ := result_bind_eq_ok_iff.mp h
  obtain rfl := Except.ok.inj h
  have hread := read_atomicJson hintent
  generalize (atomicJson P .privacyIntent
    (⟨j.manifest, next, P.sha256 bytes⟩ : PrivacyIntent)).last _ = d' at hread hrecovered
  have hresult : (recoverPrivacy P j.manifest d').result = .ok manifest := by
    cases hr : (recoverPrivacy P j.manifest d').result with
    | error e => simp [mapError, hr, Except.mapError] at hrecovered
    | ok n => simpa [mapError, hr, Except.mapError] using hrecovered
  obtain ⟨intent, hfound, -, rfl⟩ := recoverPrivacy_returns hresult
  simp only [readPrivacyIntent, Disk.readFile, hread, fromBytes_toBytes, bind, Except.bind,
    Except.ok.injEq] at hfound
  subst hfound
  exact ⟨bytes, hrewrite, known_of_recoverPrivacy hresult, rfl, rfl⟩

theorem kept_of_privacy {j j' : Journal} {us : List Json} (h : (j.privacy P us d).result = .ok j') :
    Kept j' := by
  obtain ⟨bytes, hrewrite, hknown, htransactions, hbytes⟩ := privacy_returns h
  unfold Manifest.rewrite at hrewrite
  split at hrewrite
  · cases hrewrite
  rename_i epoch hepoch
  dsimp only at hrewrite
  split_ifs at hrewrite
  obtain ⟨rfl, hnext⟩ := Prod.mk.inj (Except.ok.inj hrewrite)
  have hsealed : j'.manifest.sealed = [] := by
    rw [← hnext]
    cases hs : j.manifest.segments <;> simp [Manifest.sealed, Manifest.retired, hs]
  have hlength : j'.manifest.length = j'.content.bytes.length := by
    rw [← hnext, hbytes]
  refine ⟨hknown, hlength.symm, ?_, ?_⟩
  · rw [Manifest.lengths, hsealed, Manifest.activeLength, hsealed, hlength]
    refine ⟨?_, trivial⟩
    simp only [List.sum_nil, Nat.sub_zero, List.take_length]
    rw [hbytes, whole_iff]
    exact fun hlast => hlast.2 (getLast?_encodeChain P _ _ _ _ hlast.1)
  · rw [← hnext, htransactions]

/-! ## Handles -/

/-- Something happens to the files of a root: an operation of a handle, to its end or cut off, or
    damage to bytes, which leaves the names that are there. -/
inductive Happens (P : Primitives) : Disk → Disk → Prop
  | opens {d d' : Disk} (layout : Option FileLayout)
      (h : (openJournal P layout).Interrupted d d') : Happens P d d'
  | resumes {d d' : Disk} (observed : Manifest) (content : Content)
      (h : (resume P observed content).Interrupted d d') : Happens P d d'
  | appends {d d' : Disk} (j : Journal) (t : Json)
      (h : (j.append P t).Interrupted d d') : Happens P d d'
  | rewrites {d d' : Disk} (j : Journal) (us : List Json)
      (h : (j.privacy P us).Interrupted d d') : Happens P d d'
  | damages {d d' : Disk} (h : ∀ p, d'.has p = d.has p) : Happens P d d'

/-- A handle, by what it keeps of the history it has seen, and the files as they are now. -/
inductive Observes (P : Primitives) : Journal → Disk → Prop
  | opens {j : Journal} {d : Disk} (layout : Option FileLayout)
      (h : (openJournal P layout d).result = .ok j) : Observes P j ((openJournal P layout).last d)
  | resumes {j : Journal} {d : Disk} {m : Manifest} {fresh : List Json} {content : Content}
      (hhandle : Observes P j d) (hvouched : Vouched d (observedFiles j.manifest j.content) j.content.bytes)
      (h : (resume P j.manifest j.content d).result = .ok (some (m, fresh, content))) :
      Observes P ⟨m, j.transactions ++ fresh, content⟩ ((resume P j.manifest j.content).last d)
  | appends {j j' : Journal} {d : Disk} (t : Json) (hhandle : Observes P j d)
      (h : (j.append P t d).result = .ok j') : Observes P j' ((j.append P t).last d)
  | rewrites {j j' : Journal} {d : Disk} (us : List Json) (hhandle : Observes P j d)
      (h : (j.privacy P us d).result = .ok j') : Observes P j' ((j.privacy P us).last d)
  | waits {j : Journal} {d d' : Disk} (hhandle : Observes P j d) (h : Happens P d d') : Observes P j d'

theorem resume_keeps (o : Manifest) (c : Content) : Keeps Beside (resume P o c) := by
  refine (keeps_ask _).bind fun _ => (keeps_ask _).bind fun r => ?_
  cases r with
  | none => exact keeps_done _
  | some r => exact sweepUnselected_keeps.bind fun _ => keeps_done _

/-- Nothing that happens makes a root that of a Tree store. -/
theorem Happens.foreign {d d' : Disk} (h : Happens P d d') : d'.has .storeJson = d.has .storeJson := by
  have hof (hb : Beside d d') : d'.has .storeJson = d.has .storeJson := by
    rw [Disk.has, Disk.has, hb.foreign]
  cases h with
  | opens layout h => exact hof (openJournal_keeps layout d d' h)
  | resumes o c h => exact hof (resume_keeps o c d d' h)
  | appends j t h => exact hof (append_keeps j t d d' h)
  | rewrites j us h => exact hof (privacy_keeps j us d d' h)
  | damages h => exact h _

theorem resumed_of_resume {c c' : Content} {fresh : List Json}
    (h : (resume P o c d).result = .ok (some (m, fresh, c'))) :
    resumedCommitted P o c d = .ok (some (m, fresh, c')) ∧ d.has .lock = true ∧
      ∃ swept, (sweepUnselected P d).result = .ok swept := by
  obtain ⟨_, hlock, h⟩ := result_bind_eq_ok_iff.mp h
  obtain ⟨r, hresumed, h⟩ := result_bind_eq_ok_iff.mp h
  cases r with
  | none => cases h
  | some r =>
      obtain ⟨swept, hswept, h⟩ := result_bind_eq_ok_iff.mp h
      obtain rfl := Option.some.inj (Except.ok.inj h)
      refine ⟨hresumed, ?_, swept, hswept⟩
      rw [result_ask] at hlock
      split_ifs at hlock with hpresent
      exact hpresent

/-- **What a handle keeps** is cut at the ends of lines, and its files are not those of a Tree
    store. -/
theorem Observes.kept {j : Journal} {d : Disk} (h : Observes P j d) :
    Kept j ∧ d.has .storeJson = false := by
  induction h with
  | @opens j d layout h =>
      refine ⟨(kept_of_open h).1, ?_⟩
      rw [(Happens.opens layout ((openJournal P layout).last_mem d)).foreign]
      obtain ⟨foreign, hforeign, h⟩ := result_bind_eq_ok_iff.mp h
      split at h
      · cases h
      · rename_i hno
        rw [← Except.ok.inj hforeign] at hno
        simpa using hno
  | resumes hhandle hvouched h ih =>
      obtain ⟨tail, parts, hfound⟩ := found_of_resumed ih.1 hvouched (resumed_of_resume h).1
      refine ⟨hfound.kept ih.1, ?_⟩
      rw [(Happens.resumes _ _ (last_mem _ _)).foreign]
      exact ih.2
  | appends t hhandle h ih =>
      refine ⟨ih.1.append h, ?_⟩
      rw [(Happens.appends _ t (last_mem _ _)).foreign]
      exact ih.2
  | rewrites us hhandle h ih =>
      refine ⟨kept_of_privacy h, ?_⟩
      rw [(Happens.rewrites _ us (last_mem _ _)).foreign]
      exact ih.2
  | waits hhandle h ih => exact ⟨ih.1, h.foreign.trans ih.2⟩

end Eventlog.File
