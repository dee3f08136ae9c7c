import Eventlog.File.Appending

/-!
# Eventlog.File.AppendCrash

Crash atomicity of `Journal::append`.

Recovery keeps the kind of state it finds: from an `Unpublished` state every point of it
is unpublished and it ends at the history before the append, from a `Published` one every
point is published and it ends at the history with the new frame.  So any number of
interrupted recoveries changes nothing about where the next complete open ends.
-/

namespace Eventlog.File

open Durable Program

namespace Appending

variable {P : Primitives} (a : Appending P)

/-! ## What recovery checks -/

theorem intent_consistent : a.intent.consistent := by
  have hb : a.m.known := a.cut.describes.known
  have ha : a.plan.next.known := a.next_known
  have hformat : a.plan.next.format = a.m.format := a.lineage.format
  have hat : a.plan.next.sealAt = a.m.sealAt := by
    rw [a.plan_eq]
    cases hs : a.m.segments with
    | none => simp [Manifest.sealAt, hs]
    | some s => simp only [Manifest.sealAt, hs, Option.map_some]; split_ifs <;> rfl
  have hlen : a.m.activeLength = a.active.length := a.cut.activeLength
  simp only [AppendIntent.consistent, intent_before, intent_after, hb, ha, hformat, hat, a.sealed_next, hlen]
  split_ifs with hseals <;> simp

theorem sealing_iff :
    a.plan.next.sealed.length = a.m.sealed.length + 1 ↔ a.plan.seals = true := by
  rw [a.sealed_next]
  split_ifs with hseals <;> simp [hseals]

theorem next_ne : a.plan.next ≠ a.m :=
  fun h => a.toBytes_next_ne (by rw [h])

theorem read_intent {d : Disk} (h : d.view.content .appendIntent = some a.intentBytes) :
    readAppendIntent P d = .ok a.intent := by
  have hread : d.read .appendIntent = some a.intentBytes := h
  simp [readAppendIntent, Disk.readFile, hread, intentBytes, fromBytes_toBytes, bind, Except.bind]

variable {a}

theorem decode_before (hts : ∀ u ∈ a.ts, Survives P u) :
    decode P (a.parts.flatten ++ a.active) a.m = .ok a.ts :=
  a.cut.describes.decode_eq_ok P hts a.cut.bytes

theorem decode_after (hts : ∀ u ∈ a.ts, Survives P u) (ht : Survives P a.t) :
    decode P (a.parts.flatten ++ a.active ++ a.plan.line) a.plan.next = .ok (a.ts ++ [a.t]) := by
  refine a.next_describes.decode_eq_ok P (fun u hu => ?_) ?_
  · rcases List.mem_append.mp hu with h | h
    · exact hts u h
    · rw [List.mem_singleton.mp h]; exact ht
  · rw [a.historyOf_next, a.cut.bytes]

/-! ## From an unpublished state -/

/-- With everything back in its place, removing the intent ends the recovery. -/
theorem Intended.settle_meets {d : Disk} (hdrawn : d.Drawn P) (hi : a.Intended d.view)
    (hs : SealedAs d.view a.parts) (he : d.view.content .events = some a.active) :
    (perform (Disk.remove .appendIntent)).Meets d (Inv P a.Unpublished) (Returns fun _ d' =>
      d'.Drawn P ∧ Committed P d'.view a.m a.ts a.parts a.active) := by
  have hpending : a.Pending d.view :=
    .inl ⟨[], List.nil_prefix, fun _ => rfl, hs, by rw [List.append_nil]; exact he⟩
  obtain ⟨d', hok, hb⟩ := Disk.remove_eq_ok (show d.read .appendIntent = some _ from hi.append)
  have hview := hb.view_put rfl
  have hdrawn' : d'.Drawn P := hdrawn.of_became hb (by simp)
  have hc : Committed P d'.view a.m a.ts a.parts a.active := by
    rw [hview]
    exact { toBase := hi.toBase.put _ (by simp) (by simp)
            append := by simp
            privacy := by simpa using hi.privacy
            manifest := by simpa using hi.manifest
            cut := a.cut
            sealedAs := hs.put _ (by simp)
            events := by simpa using he }
  exact meets_perform hok ⟨hdrawn, hi.unpublished hpending⟩
    ⟨hdrawn', a.unpublished_of_committed hc⟩ ⟨(), rfl, hdrawn', hc⟩

/-- Undoing a seal that was not published puts the active file back. -/
theorem undoSeal_meets {d : Disk} (hts : ∀ u ∈ a.ts, Survives P u) (ht : Survives P a.t)
    (hseals : a.plan.seals) (hdrawn : d.Drawn P) (hi : a.Intended d.view)
    (hp : a.Pending d.view) :
    (undoSeal P a.m a.plan.next a.frame a.parts.flatten).Meets d (Inv P a.Unpublished) (Returns fun _ d' =>
      d'.Drawn P ∧ a.Intended d'.view ∧ SealedAs d'.view a.parts ∧
      d'.view.content .events = some a.active) := by
  have hlen : a.m.sealed.length = a.parts.length := by rw [a.cut.sealed, List.length_map]
  have hinv : Inv P a.Unpublished d := ⟨hdrawn, hi.unpublished hp⟩
  -- the last check, once the active file is where the manifest says
  have hcheck : ∀ d' : Disk, d'.view.content .events = some a.active →
      (do let events ← d'.readFile .events
          let _ ← decode P (a.parts.flatten ++ events) a.m
          let _ ← decode P (a.parts.flatten ++ events ++ asBytes a.frame) a.plan.next
          .ok () : Except EventLogError Unit) = .ok () := by
    intro d' he
    have hread : d'.read .events = some a.active := he
    simp only [Disk.readFile, hread, a.asBytes_frame, bind, Except.bind, decode_before hts,
      decode_after hts ht]
  unfold undoSeal
  refine meets_ask_bind rfl (Meets.bind ?_)
  rcases hp with ⟨torn, -, hz, hs, he⟩ | ⟨-, hs, -⟩
  · -- the active file was not moved yet
    have htorn := hz hseals
    subst htorn
    rw [List.append_nil] at he
    have hfree : d.has (.segment a.m.sealed.length) = false := by
      rw [Disk.has, hlen, hs.read]; simp
    rw [hfree]
    exact meets_done hinv
      ⟨(), rfl, meets_ask (hcheck d he) hinv ⟨(), rfl, hdrawn, hi, hs, he⟩⟩
  · have hmoved : d.read (.segment a.m.sealed.length) = some a.active := by
      rw [hlen, hs.read]; simp
    have htaken : d.has (.segment a.m.sealed.length) = true := by
      rw [Disk.has, hmoved]; rfl
    have hactive : a.m.activeLength = a.active.length := a.cut.activeLength
    rw [htaken]
    refine meets_ask_bind (a := ()) ?_ ?_
    · simp [Disk.readFile, hmoved, hactive, bind, Except.bind, decode_before hts]
    obtain ⟨d₁, hok, hb⟩ := Disk.rename_eq_ok hmoved .events
    have hdrawn₁ : d₁.Drawn P := hdrawn.of_rename hb rfl
    have hview₁ := hb.view_rename rfl
    rw [hlen] at hview₁
    have hi₁ : a.Intended d₁.view := by
      rw [hview₁]; exact (hi.put none (.inr ⟨_, rfl⟩)).put _ (.inl rfl)
    have hs₁ : SealedAs d₁.view a.parts := by
      rw [hview₁]; exact hs.unseal.put _ (by simp)
    have he₁ : d₁.view.content .events = some a.active := by rw [hview₁]; simp
    have hpending₁ : a.Pending d₁.view :=
      .inl ⟨[], List.nil_prefix, fun _ => rfl, hs₁, by rw [List.append_nil]; exact he₁⟩
    have hinv₁ : Inv P a.Unpublished d₁ := ⟨hdrawn₁, hi₁.unpublished hpending₁⟩
    exact meets_perform hok hinv hinv₁
      ⟨(), rfl, meets_ask (hcheck d₁ he₁) hinv₁ ⟨(), rfl, hdrawn₁, hi₁, hs₁, he₁⟩⟩

/-- The check passes on an active file that some of the line was written behind. -/
theorem checkTail_eq_ok {d : Disk} {current : Manifest} (hts : ∀ u ∈ a.ts, Survives P u)
    (ht : Survives P a.t) (htorn : torn <+: a.plan.line)
    (he : d.view.content .events = some (a.active ++ torn))
    (hcurrent : current = a.plan.next → torn = a.plan.line) :
    checkTail P current a.m a.plan.next a.frame a.parts.flatten d = .ok () := by
  have hread : d.read .events = some (a.active ++ torn) := he
  have hlen : a.m.activeLength = a.active.length := a.cut.activeLength
  have hshort : ¬ (a.active ++ torn).length < a.active.length := by
    rw [List.length_append]; omega
  have hprefix : (!torn.isPrefixOf a.plan.line) = false := by
    simpa using htorn
  simp only [checkTail, Disk.readFile, hread, hlen, a.asBytes_frame, bind, Except.bind, hshort,
    if_false, List.take_left, List.drop_left, decode_before hts, decode_after hts ht, hprefix,
    Bool.false_eq_true]
  by_cases hcur : current = a.plan.next
  · rw [if_pos hcur, hcurrent hcur, hcur, ← List.append_assoc, decode_after hts ht]
  · rw [if_neg hcur]

/-- Cutting a torn line off again leaves the active file as it was. -/
theorem undoTail_meets {d : Disk} (hts : ∀ u ∈ a.ts, Survives P u) (ht : Survives P a.t)
    (hseals : a.plan.seals = false) (hdrawn : d.Drawn P) (hi : a.Intended d.view)
    (hp : a.Pending d.view) :
    (undoTail P a.m a.m a.plan.next a.frame a.parts.flatten).Meets d (Inv P a.Unpublished)
      (Returns fun _ d' => d'.Drawn P ∧ a.Intended d'.view ∧ SealedAs d'.view a.parts ∧
      d'.view.content .events = some a.active) := by
  have hinv : Inv P a.Unpublished d := ⟨hdrawn, hi.unpublished hp⟩
  have hlen : a.m.activeLength = a.active.length := a.cut.activeLength
  rcases hp with ⟨torn, htorn, -, hs, he⟩ | ⟨hz, -, -⟩
  · unfold undoTail
    refine meets_ask_bind
      (checkTail_eq_ok hts ht htorn he fun h => absurd h.symm a.next_ne) ?_
    refine meets_when hinv (fun _ => ?_) fun h => absurd a.next_ne.symm (of_decide_eq_false h)
    obtain ⟨d₁, hok, hb⟩ :=
      Disk.setLen_eq_ok (show d.read .events = some (a.active ++ torn) from he)
        a.m.activeLength
    rw [hlen, List.take_left] at hb
    have hview := hb.view_put rfl
    have hdrawn₁ : d₁.Drawn P := hdrawn.of_became hb (by simp)
    have hi₁ : a.Intended d₁.view := by rw [hview]; exact hi.put _ (.inl rfl)
    have hs₁ : SealedAs d₁.view a.parts := by rw [hview]; exact hs.put _ (by simp)
    have he₁ : d₁.view.content .events = some a.active := by rw [hview]; simp
    have hpending₁ : a.Pending d₁.view :=
      .inl ⟨[], List.nil_prefix, fun _ => rfl, hs₁, by rw [List.append_nil]; exact he₁⟩
    exact meets_perform hok hinv ⟨hdrawn₁, hi₁.unpublished hpending₁⟩
      ⟨(), rfl, hdrawn₁, hi₁, hs₁, he₁⟩
  · rw [hseals] at hz; contradiction

/-- The sealed segments of the history before are readable in every pending state. -/
theorem Pending.readSealed_before {d : Disk} (hp : a.Pending d.view) :
    ∃ stamps, readSealed d a.m = .ok (a.parts.flatten, stamps) := by
  rcases hp with ⟨_, _, _, hs, _⟩ | ⟨_, hs, _⟩
  · exact hs.readSealed_eq_ok a.cut.line a.cut.sealed
  · exact hs.readSealed_init a.cut.line a.cut.sealed

theorem recoverAppend_unpublished {d : Disk} (hts : ∀ u ∈ a.ts, Survives P u)
    (ht : Survives P a.t) (hdrawn : d.Drawn P) (hi : a.Intended d.view)
    (hp : a.Pending d.view) :
    (recoverAppend P a.m).Meets d (Inv P a.Unpublished) (Returns fun _ d' =>
      d'.Drawn P ∧ Committed P d'.view a.m a.ts a.parts a.active) := by
  have hbefore : ¬ (a.m ≠ a.intent.before ∧ a.m ≠ a.intent.after) := fun h => h.1 rfl
  obtain ⟨stamps, hsealed⟩ := hp.readSealed_before
  have hread : (readSealed d a.m).map Prod.fst = .ok a.parts.flatten := by
    rw [hsealed]; rfl
  have hfinish : (finishAppend P a.m a.m a.plan.next a.frame).Meets d (Inv P a.Unpublished)
      (Returns fun _ d' => d'.Drawn P ∧ Committed P d'.view a.m a.ts a.parts a.active) := by
    unfold finishAppend
    refine meets_ask_bind hread ?_
    by_cases hseals : a.plan.seals
    · rw [if_pos (a.sealing_iff.mpr hseals), if_pos rfl]
      refine Meets.bind ((undoSeal_meets hts ht hseals hdrawn hi hp).mono (fun _ h => h) ?_)
      rintro r d₁ ⟨u, rfl, hdrawn₁, hi₁, hs₁, he₁⟩
      exact ⟨u, rfl, hi₁.settle_meets hdrawn₁ hs₁ he₁⟩
    · rw [if_neg (fun h => hseals (a.sealing_iff.mp h))]
      refine Meets.bind
        ((undoTail_meets hts ht (by simpa using hseals) hdrawn hi hp).mono (fun _ h => h) ?_)
      rintro r d₁ ⟨u, rfl, hdrawn₁, hi₁, hs₁, he₁⟩
      exact ⟨u, rfl, hi₁.settle_meets hdrawn₁ hs₁ he₁⟩
  unfold recoverAppend
  refine meets_ask_bind (a.read_intent hi.append) ?_
  rw [if_neg hbefore, a.intent_consistent]
  exact hfinish

/-- Recovery from an unpublished state ends at the history before the append. -/
theorem recover_unpublished {d : Disk} (hts : ∀ u ∈ a.ts, Survives P u) (ht : Survives P a.t)
    (hd : Inv P a.Unpublished d) :
    (recover P a.m).Meets d (Inv P a.Unpublished) (Returns fun m' d' =>
      m' = a.m ∧ Inv P a.Unpublished d' ∧ Committed P d'.view a.m a.ts a.parts a.active) := by
  obtain ⟨hdrawn, hu⟩ := hd
  refine recover_meets ⟨hdrawn, hu⟩ hu.privacy
    (fun hnone => ⟨rfl, ⟨hdrawn, hu⟩, hu.committed hnone⟩) fun bytes hsome => ?_
  rcases hu.pending with ⟨hnone, -, -⟩ | ⟨hintent, hp⟩
  · rw [hsome] at hnone; contradiction
  · have hi : a.Intended d.view := ⟨hu.toBase, hu.privacy, hu.manifest, hintent⟩
    refine (recoverAppend_unpublished hts ht hdrawn hi hp).mono (fun _ h => h) ?_
    rintro r d₁ ⟨u, rfl, hdrawn₁, hc₁⟩
    have hinv₁ : Inv P a.Unpublished d₁ := ⟨hdrawn₁, a.unpublished_of_committed hc₁⟩
    exact ⟨u, rfl, hinv₁, rfl, hinv₁, hc₁⟩

/-! ## From a published state -/

/-- A published seal only has to be checked. -/
theorem checkSealed_eq_ok {d : Disk} (hts : ∀ u ∈ a.ts, Survives P u) (ht : Survives P a.t)
    (hseals : a.plan.seals) (hpub : a.Published d.view) :
    checkSealed P a.m a.plan.next d = .ok () := by
  have hlen : a.m.sealed.length = a.parts.length := by rw [a.cut.sealed, List.length_map]
  have hparts : a.nextParts = a.parts ++ [a.active] := by simp [nextParts, hseals]
  have htaken : d.has (.segment a.m.sealed.length) = true := by
    rw [Disk.has, hlen, hpub.sealedAs.read, hparts]; simp
  obtain ⟨stamps, hsealed⟩ := hpub.sealedAs.readSealed_eq_ok a.next_cut.line a.next_cut.sealed
  have hread : d.read .events = some a.nextActive := hpub.events
  have hdecode : decode P (a.nextParts.flatten ++ a.nextActive) a.plan.next =
      .ok (a.ts ++ [a.t]) := by
    rw [hparts, nextActive, if_pos hseals, List.flatten_append, List.flatten_singleton]
    exact decode_after hts ht
  simp [checkSealed, htaken, hsealed, Disk.readFile, hread, hdecode, bind, Except.bind]

theorem Published.readSealed_before {d : Disk} (h : a.Published d.view) :
    ∃ stamps, readSealed d a.m = .ok (a.parts.flatten, stamps) := by
  have hs := h.sealedAs
  rw [nextParts] at hs
  split_ifs at hs
  · exact hs.readSealed_init a.cut.line a.cut.sealed
  · exact hs.readSealed_eq_ok a.cut.line a.cut.sealed

/-- The intent of a published append is removed, and the longer history is what is left. -/
theorem recoverAppend_published {d : Disk} (hts : ∀ u ∈ a.ts, Survives P u)
    (ht : Survives P a.t) (hdrawn : d.Drawn P) (hpub : a.Published d.view)
    (hintent : d.view.content .appendIntent = some a.intentBytes) :
    (recoverAppend P a.plan.next).Meets d (Inv P a.Published) (Returns fun _ d' =>
      d'.Drawn P ∧ Committed P d'.view a.plan.next (a.ts ++ [a.t]) a.nextParts a.nextActive) := by
  have hafter : ¬ (a.plan.next ≠ a.intent.before ∧ a.plan.next ≠ a.intent.after) :=
    fun h => h.2 rfl
  have hinv : Inv P a.Published d := ⟨hdrawn, hpub⟩
  obtain ⟨stamps, hsealed⟩ := hpub.readSealed_before
  have hread : (readSealed d a.m).map Prod.fst = .ok a.parts.flatten := by
    rw [hsealed]; rfl
  have hremove : (perform (Disk.remove .appendIntent)).Meets d (Inv P a.Published)
      (Returns fun _ d' => d'.Drawn P ∧
        Committed P d'.view a.plan.next (a.ts ++ [a.t]) a.nextParts a.nextActive) := by
    obtain ⟨d', hok, hb⟩ := Disk.remove_eq_ok (show d.read .appendIntent = some _ from hintent)
    have hview := hb.view_put rfl
    have hdrawn' : d'.Drawn P := hdrawn.of_became hb (by simp)
    have hpub' : a.Published d'.view := by rw [hview]; exact hpub.settle
    have hgone : d'.view.content .appendIntent = none := by rw [hview]; simp
    exact meets_perform hok hinv ⟨hdrawn', hpub'⟩ ⟨(), rfl, hdrawn', hpub'.committed hgone⟩
  have hfinish : (finishAppend P a.plan.next a.m a.plan.next a.frame).Meets d
      (Inv P a.Published) (Returns fun _ d' => d'.Drawn P ∧
        Committed P d'.view a.plan.next (a.ts ++ [a.t]) a.nextParts a.nextActive) := by
    unfold finishAppend
    refine meets_ask_bind hread ?_
    by_cases hseals : a.plan.seals
    · rw [if_pos (a.sealing_iff.mpr hseals), if_neg a.next_ne]
      exact meets_ask_bind (checkSealed_eq_ok hts ht hseals hpub) hremove
    · rw [if_neg (fun h => hseals (a.sealing_iff.mp h))]
      have hevents : d.view.content .events = some (a.active ++ a.plan.line) := by
        rw [hpub.events, nextActive, if_neg hseals]
      unfold undoTail
      refine Meets.bind (meets_ask_bind
        (checkTail_eq_ok hts ht (List.prefix_refl _) hevents fun _ => rfl) ?_)
      exact meets_when hinv (fun h => absurd rfl (of_decide_eq_true h)) fun _ => ⟨(), rfl, hremove⟩
  unfold recoverAppend
  refine meets_ask_bind (a.read_intent hintent) ?_
  rw [if_neg hafter, a.intent_consistent]
  exact hfinish

/-- Recovery from a published state ends at the history with the new frame. -/
theorem recover_published {d : Disk} (hts : ∀ u ∈ a.ts, Survives P u) (ht : Survives P a.t)
    (hd : Inv P a.Published d) :
    (recover P a.plan.next).Meets d (Inv P a.Published) (Returns fun m' d' =>
      m' = a.plan.next ∧ Inv P a.Published d' ∧
      Committed P d'.view a.plan.next (a.ts ++ [a.t]) a.nextParts a.nextActive) := by
  obtain ⟨hdrawn, hpub⟩ := hd
  refine recover_meets ⟨hdrawn, hpub⟩ hpub.privacy
    (fun hnone => ⟨rfl, ⟨hdrawn, hpub⟩, hpub.committed hnone⟩) fun bytes hsome => ?_
  rcases hpub.append with hnone | hintent
  · rw [hsome] at hnone; contradiction
  · refine (recoverAppend_published hts ht hdrawn hpub hintent).mono (fun _ h => h) ?_
    rintro r d₁ ⟨u, rfl, hdrawn₁, hc₁⟩
    have hinv₁ : Inv P a.Published d₁ := ⟨hdrawn₁, a.published_of_committed hc₁⟩
    exact ⟨u, rfl, hinv₁, rfl, hinv₁, hc₁⟩

/-! ## Opening after a crash -/

theorem survives_next (hts : ∀ u ∈ a.ts, Survives P u) (ht : Survives P a.t) :
    ∀ u ∈ a.ts ++ [a.t], Survives P u := by
  intro u hu
  rcases List.mem_append.mp hu with h | h
  · exact hts u h
  · rw [List.mem_singleton.mp h]; exact ht

/-- An open from an unpublished state ends at the history before the append. -/
theorem open_unpublished {d : Disk} (layout : Option FileLayout)
    (hts : ∀ u ∈ a.ts, Survives P u) (ht : Survives P a.t) (hd : Inv P a.Unpublished d) :
    (openJournal P layout).Meets d (Inv P a.Unpublished)
      (Reads P a.m a.ts (Settled P a.m a.ts a.parts a.active)) :=
  openJournal_settles layout hd hd.2.toBase hd.2.manifest a.cut.describes.known
    (fun _ h => a.unpublished_of_committed h) (recover_unpublished hts ht hd)

/-- An open from a published state ends at the history with the new frame. -/
theorem open_published {d : Disk} (layout : Option FileLayout)
    (hts : ∀ u ∈ a.ts, Survives P u) (ht : Survives P a.t) (hd : Inv P a.Published d) :
    (openJournal P layout).Meets d (Inv P a.Published) (Reads P a.plan.next (a.ts ++ [a.t])
      (Settled P a.plan.next (a.ts ++ [a.t]) a.nextParts a.nextActive)) :=
  openJournal_settles layout hd hd.2.toBase hd.2.manifest a.next_known
    (fun _ h => a.published_of_committed h) (recover_published hts ht hd)

/-- After any number of interrupted recoveries the next complete one ends where the first
    one would have: what decides is whether the manifest was published. -/
theorem recovers_of_restarts {d d₁ d₂ : Disk} {layout : Option FileLayout}
    (hts : ∀ u ∈ a.ts, Survives P u) (ht : Survives P a.t)
    (hmanifest : d.read .manifest = some (toBytes P.toFloatText a.m))
    (hpassed : Inv P a.Passed d₁) (hr : (openJournal P layout).Restarts d₁ d₂) :
    Recovers P layout (if d₁.read .manifest = d.read .manifest then a.ts else a.ts ++ [a.t]) d₂ := by
  obtain ⟨hdrawn, hun | hpub⟩ := hpassed
  · have heq : d₁.read .manifest = d.read .manifest := by
      rw [hmanifest]; exact hun.manifest
    rw [if_pos heq]
    exact recovers_of_reads (meets_of_restarts (fun _ h => open_unpublished layout hts ht h)
      ⟨hdrawn, hun⟩ hr) a.cut.describes hts
  · have hread : d₁.read .manifest = some (toBytes P.toFloatText a.plan.next) := hpub.manifest
    have hne : ¬ d₁.read .manifest = d.read .manifest := by
      rw [hread, hmanifest]
      exact fun h => a.toBytes_next_ne (Option.some.inj h)
    rw [if_neg hne]
    exact recovers_of_reads (meets_of_restarts (fun _ h => open_published layout hts ht h)
      ⟨hdrawn, hpub⟩ hr) a.next_describes (survives_next hts ht)

end Appending

/-! ## Crash atomicity -/

variable {P : Primitives}

/-- Wherever `Journal::append` is interrupted, and however often the recovery after it is,
    the next complete open yields the history before the append, or that history with the
    new frame if the new manifest had been published; nothing pending or partial is left,
    and opening again changes nothing. -/
def CrashAtomic (P : Primitives) (layout : Option FileLayout) (j : Journal) (ts : List Json)
    (t : Json) (d : Disk) : Prop :=
  ∀ d₁ d₂, (j.append P t).Interrupted d d₁ → (openJournal P layout).Restarts d₁ d₂ →
    Recovers P layout (if d₁.read .manifest = d.read .manifest then ts else ts ++ [t]) d₂

theorem interrupted_refused {d d₁ : Disk} {j : Journal} {t : Json}
    (hplan : j.manifest.plan P t = .error e) (h : (j.append P t).Interrupted d d₁) : d₁ = d := by
  have hrun : (j.append P t).Meets d (· = d) fun _ _ => True :=
    meets_ask_bind_error hplan rfl trivial
  exact hrun.interrupted h

/-- An append the manifest has room for. -/
theorem exists_appending {m : Manifest} {t : Json} (hc : Cut P m ts parts active)
    (hplan : m.plan P t = .ok plan) : ∃ a : Appending P,
      a.m = m ∧ a.ts = ts ∧ a.parts = parts ∧ a.active = active ∧ a.t = t ∧ a.plan = plan := by
  obtain ⟨frame, hframe⟩ : ∃ frame, stringFromUtf8 plan.line = .ok frame := by
    rw [((plan_eq_ok_iff P).mp hplan).2.2]
    exact stringFromUtf8_encode P _ _ _ _
  exact ⟨⟨m, ts, parts, active, t, plan, frame, hc, hplan, hframe⟩, rfl, rfl, rfl, rfl, rfl, rfl⟩

/-- An append that is not interrupted commits the longer history. -/
theorem Committed.append_returns {d : Disk} {j : Journal} {t : Json} (hd : d.Drawn P)
    (hc : Committed P d.view j.manifest ts parts active)
    (hplan : j.manifest.plan P t = .ok plan) :
    ∃ j' parts' active', (j.append P t d).result = .ok j' ∧ j'.manifest = plan.next ∧
      j'.transactions = j.transactions ++ [t] ∧ ((j.append P t).last d).Drawn P ∧
      Committed P ((j.append P t).last d).view plan.next (ts ++ [t]) parts' active' := by
  obtain ⟨a, hm, rfl, rfl, rfl, rfl, rfl⟩ := exists_appending hc.cut hplan
  rw [← hm] at hc
  obtain ⟨j', hj', hmanifest, hts, -, hd', hc'⟩ := (a.append_meets j hm.symm hd hc).2
  exact ⟨j', a.nextParts, a.nextActive, hj', hmanifest, hts, hd', hc'⟩

/-- An open without a crash is among those that must yield the history before. -/
theorem CrashAtomic.history_survives {d : Disk} {j : Journal} {layout : Option FileLayout}
    {t : Json} (h : CrashAtomic P layout j ts t d) (hd : d.Drawn P)
    (hc : Committed P d.view j.manifest ts parts active) : ∀ u ∈ ts, Survives P u := by
  have hopen := h d d (by simp [Interrupted]) .refl
  rw [if_pos rfl] at hopen
  exact hopen.survives hd hc

/-- An append that completes is among those that must be readable. -/
theorem CrashAtomic.survives {d : Disk} {j : Journal} {layout : Option FileLayout} {t : Json}
    (h : CrashAtomic P layout j ts t d) (hd : d.Drawn P)
    (hc : Committed P d.view j.manifest ts parts active)
    (hplan : j.manifest.plan P t = .ok plan) : Survives P t := by
  obtain ⟨j', parts', active', -, -, -, hd', hc'⟩ := hc.append_returns hd hplan
  have hbefore : d.read .manifest = some (toBytes P.toFloatText j.manifest) := hc.manifest
  have hafter : ((j.append P t).last d).read .manifest = some (toBytes P.toFloatText plan.next) :=
    hc'.manifest
  have hne : ¬ ((j.append P t).last d).read .manifest = d.read .manifest := by
    obtain ⟨a, hm, -, -, -, -, rfl⟩ := exists_appending hc.cut hplan
    rw [hbefore, hafter, ← hm]
    exact fun heq => a.toBytes_next_ne (Option.some.inj heq)
  have hnext := h _ _ ((j.append P t).last_mem d) .refl
  rw [if_neg hne] at hnext
  exact hnext.survives hd' hc' t (by simp)

/-- **Crash atomicity of an append** holds exactly when every transaction of the history
    survives its text, and so does the new one, unless the append has no room for it. -/
theorem append_crashAtomic_iff {d : Disk} {j : Journal} (layout : Option FileLayout) (t : Json)
    (hd : d.Drawn P) (hc : Committed P d.view j.manifest ts parts active) :
    CrashAtomic P layout j ts t d ↔
      (∀ u ∈ ts, Survives P u) ∧ ((∃ plan, j.manifest.plan P t = .ok plan) → Survives P t) := by
  constructor
  · intro h
    exact ⟨h.history_survives hd hc, fun ⟨plan, hplan⟩ => h.survives hd hc hplan⟩
  · rintro ⟨hts, ht⟩ d₁ d₂ hcut hr
    cases hplan : j.manifest.plan P t with
    | error e =>
        -- nothing is written: all that can be interrupted is an open of the old history
        obtain rfl := interrupted_refused hplan hcut
        rw [if_pos rfl]
        have hstep : ∀ d', Inv P (fun v => Committed P v j.manifest ts parts active) d' → _ :=
          fun d' h => h.2.open_meets h.1 layout
        exact recovers_of_reads (meets_of_restarts hstep ⟨hd, hc⟩ hr) hc.cut.describes hts
    | ok plan =>
        obtain ⟨a, hm, rfl, rfl, rfl, rfl, rfl⟩ := exists_appending hc.cut hplan
        rw [← hm] at hc
        have hpassed := (a.append_meets j hm.symm hd hc).interrupted hcut
        exact a.recovers_of_restarts hts (ht ⟨_, hplan⟩) hc.manifest hpassed hr

/-- A store that was just minted has room for `writtenTransaction`. -/
theorem minted_plan_written :
    ∃ plan, (mintedManifest FORMAT (samplePrimitives.eventId 0) none).plan samplePrimitives
      writtenTransaction = .ok plan :=
  ⟨_, (plan_eq_ok_iff _).mpr ⟨by decide, by decide +kernel, rfl⟩⟩

/-- Appending the empty transaction to a store that was just minted. -/
theorem append_crashAtomic_iff_minted :
    ∃ j d, (openJournal samplePrimitives (some .Single) emptyDisk).result = .ok j ∧
      (CrashAtomic samplePrimitives none j [] (.arr []) d ↔
        (∀ u ∈ [], Survives samplePrimitives u) ∧
          ((∃ plan, j.manifest.plan samplePrimitives (.arr []) = .ok plan) →
            Survives samplePrimitives (.arr []))) := by
  obtain ⟨j, d, hj, -, -, -, hsettled⟩ := minted_settled (P := samplePrimitives) .Single rfl
  exact ⟨j, d, hj, append_crashAtomic_iff none (.arr []) hsettled.drawn hsettled.committed⟩

/-- A number that its reader misses breaks it: the store that was just minted cannot be
    opened after `950.5250979473323` was appended. -/
theorem append_not_crashAtomic :
    ∃ j d, (openJournal samplePrimitives (some .Single) emptyDisk).result = .ok j ∧
      d = (openJournal samplePrimitives (some .Single)).last emptyDisk ∧
      ¬ CrashAtomic samplePrimitives none j [] writtenTransaction d := by
  obtain ⟨j, d, hj, hd, hm, -, hsettled⟩ := minted_settled (P := samplePrimitives) .Single rfl
  obtain ⟨plan, hplan⟩ := minted_plan_written
  rw [← hm] at hplan
  refine ⟨j, d, hj, hd, fun h => not_survives_writtenTransaction ?_⟩
  exact h.survives hsettled.drawn hsettled.committed hplan

end Eventlog.File
