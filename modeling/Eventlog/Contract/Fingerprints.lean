import Eventlog.Tree.Commit

/-!
# Eventlog.Contract.Fingerprints

A fingerprint identifies a request.

The documents that are hashed are injective in what they are made of, member by member, and the
text of a document is injective in it.  So without a collision of SHA-256 two groups of one
fingerprint are one group.  A group with blobs hashes the fingerprint of its group and a list in
the order of the digests, so the order the caller listed its blobs in is gone and nothing else
is.  The two kinds of documents carry different formats.

A merge names the set of heads it joins by a digest of its own (`HeadSetDigest::of`), in which a
line feed ends each head: heads that are digests have none inside.
-/

namespace Eventlog

open Durable
open Eventlog.Tree (headSetDigest)

/-! ## Documents tell their members apart -/

section Documents

theorem NewEvent.toJson_injective : Function.Injective NewEvent.toJson := by
  intro a b h
  simp only [NewEvent.toJson, Json.obj.injEq, List.cons.injEq, Prod.mk.injEq, true_and, and_true] at h
  obtain ⟨hdata, hname, hversion⟩ := h
  cases a
  cases b
  simp_all [toValue_injective.eq_iff]

theorem Expected.toJson_injective : Function.Injective Expected.toJson := by
  intro a b h
  cases a <;> cases b <;> simp [Expected.toJson] at h ⊢
  · exact toValue_injective h
  · rename_i d d'
    cases d
    cases d'
    simpa using h

theorem StreamAppend.toJson_injective : Function.Injective StreamAppend.toJson := by
  intro a b h
  simp only [StreamAppend.toJson, Json.obj.injEq, List.cons.injEq, Prod.mk.injEq, true_and, and_true,
    Json.arr.injEq] at h
  obtain ⟨hevents, hexpected, hstream⟩ := h
  cases a
  cases b
  obtain rfl := List.map_injective_iff.mpr NewEvent.toJson_injective hevents
  obtain rfl := Expected.toJson_injective hexpected
  obtain rfl := toValue_injective hstream
  rfl

/-- A command is in its document but for the claim. -/
theorem CommandMeta.toJson_eq_iff {m m' : CommandMeta} (hclaim : m.claim = m'.claim) :
    m.toJson = m'.toJson ↔ m = m' := by
  refine ⟨fun h => ?_, congrArg _⟩
  simp only [CommandMeta.toJson, Json.obj.injEq, List.cons.injEq, Prod.mk.injEq, true_and, and_true,
    toValue_injective.eq_iff] at h
  cases m
  cases m'
  simp_all

theorem AppendGroup.toJson_eq_iff {g g' : AppendGroup} (hclaim : g.command.claim = g'.command.claim) :
    g.toJson = g'.toJson ↔ g.tenant = g'.tenant ∧ g.appends = g'.appends ∧ g.command = g'.command := by
  simp only [AppendGroup.toJson, Json.obj.injEq, List.cons.injEq, Prod.mk.injEq, true_and, and_true,
    Json.arr.injEq, (List.map_injective_iff.mpr StreamAppend.toJson_injective).eq_iff,
    CommandMeta.toJson_eq_iff hclaim, toValue_injective.eq_iff]
  tauto

theorem BlobWrite.toJson_injective {P : Primitives} (hsha : Function.Injective P.sha256) :
    Function.Injective (BlobWrite.toJson P) := by
  intro a b h
  simp only [BlobWrite.toJson, Json.obj.injEq, List.cons.injEq, Prod.mk.injEq, true_and, and_true,
    toValue_injective.eq_iff, hsha.eq_iff] at h
  cases a
  cases b
  simp_all

end Documents

/-! ## Blobs by their digest -/

/-- The bytes a request binds to a digest. -/
def BlobAppendGroup.content (g : BlobAppendGroup) (digest : String) : Option Bytes :=
  (g.blobs.find? fun b => b.digest == digest).map BlobWrite.bytes

section Blobs

variable {g g' : BlobAppendGroup}

theorem BlobAppendGroup.content_eq_some_iff (hnodup : (g.blobs.map BlobWrite.digest).Nodup)
    {digest : String} {bytes : Bytes} :
    g.content digest = some bytes ↔ ⟨digest, bytes⟩ ∈ g.blobs := by
  unfold content
  constructor
  · intro h
    obtain ⟨b, hfind, rfl⟩ := Option.map_eq_some_iff.mp h
    have hdigest : b.digest = digest := by simpa using List.find?_some hfind
    exact hdigest ▸ List.mem_of_find?_eq_some hfind
  · intro hmem
    obtain ⟨b, hfind⟩ : ∃ b, g.blobs.find? (fun b => b.digest == digest) = some b :=
      Option.isSome_iff_exists.mp (List.find?_isSome.mpr ⟨_, hmem, by simp⟩)
    have hdigest : b.digest = digest := by simpa using List.find?_some hfind
    have hone := List.inj_on_of_nodup_map hnodup (List.mem_of_find?_eq_some hfind) hmem hdigest
    rw [hfind, hone]
    rfl

/-- Lists in the order of their digests are equal exactly if they bind the same bytes. -/
theorem sortByDigest_eq_iff (hnodup : (g.blobs.map BlobWrite.digest).Nodup)
    (hnodup' : (g'.blobs.map BlobWrite.digest).Nodup) :
    sortByDigest g.blobs = sortByDigest g'.blobs ↔ g.content = g'.content := by
  have hmem : g.content = g'.content ↔ ∀ b, b ∈ g.blobs ↔ b ∈ g'.blobs := by
    constructor
    · intro heq b
      rw [← BlobAppendGroup.content_eq_some_iff hnodup, heq, BlobAppendGroup.content_eq_some_iff hnodup']
    · intro hmem
      funext digest
      refine Option.ext fun bytes => ?_
      rw [BlobAppendGroup.content_eq_some_iff hnodup, BlobAppendGroup.content_eq_some_iff hnodup', hmem]
  rw [hmem, ← List.perm_ext_iff_of_nodup hnodup.of_map hnodup'.of_map]
  have hsorted : ∀ l : List BlobWrite, (sortByDigest l).Perm l := List.perm_insertionSort _
  constructor
  · intro heq
    exact (hsorted g.blobs).symm.trans (heq ▸ hsorted g'.blobs)
  · intro hperm
    have hperm' := (hsorted g.blobs).trans (hperm.trans (hsorted g'.blobs).symm)
    have htotal : Std.Total fun a b : BlobWrite => a.digest ≤ b.digest := ⟨fun a b => le_total _ _⟩
    have htrans : IsTrans BlobWrite fun a b => a.digest ≤ b.digest := ⟨fun _ _ _ => le_trans⟩
    refine hperm'.eq_of_pairwise (fun a b ha hb hab hba => ?_) (List.pairwise_insertionSort _ _)
      (List.pairwise_insertionSort _ _)
    exact List.inj_on_of_nodup_map hnodup' ((hsorted _).mem_iff.mp (hperm'.mem_iff.mp ha))
      ((hsorted _).mem_iff.mp hb) (le_antisymm hab hba)

end Blobs

/-! ## Sets of heads -/

/-- Texts that a separator ends can be told apart if it is inside none of them. -/
theorem flatMap_ended_injective {α : Type} {sep : α} {xs ys : List (List α)}
    (hxs : ∀ x ∈ xs, sep ∉ x) (hys : ∀ y ∈ ys, sep ∉ y)
    (h : xs.flatMap (· ++ [sep]) = ys.flatMap (· ++ [sep])) : xs = ys := by
  induction xs generalizing ys with
  | nil =>
      cases ys with
      | nil => rfl
      | cons y ys => simp at h
  | cons x xs ih =>
      cases ys with
      | nil => simp at h
      | cons y ys =>
          simp only [List.flatMap_cons, List.append_assoc, List.singleton_append] at h
          -- the first separator is at the end of both first texts
          have hx := hxs x List.mem_cons_self
          have hy := hys y List.mem_cons_self
          obtain ⟨rfl, hrest⟩ : x = y ∧ xs.flatMap (· ++ [sep]) = ys.flatMap (· ++ [sep]) := by
            rcases List.append_eq_append_iff.mp h with ⟨c, rfl, hc⟩ | ⟨c, rfl, hc⟩
            · cases c with
              | nil => simpa using hc
              | cons d c =>
                  obtain ⟨rfl, -⟩ := List.cons.inj hc
                  exact absurd (by simp) hy
            · cases c with
              | nil => simpa [eq_comm] using hc
              | cons d c =>
                  obtain ⟨rfl, -⟩ := List.cons.inj hc
                  exact absurd (by simp) hx
          rw [ih (fun z hz => hxs z (List.mem_cons_of_mem _ hz))
            (fun z hz => hys z (List.mem_cons_of_mem _ hz)) hrest]

/-- **Two merges expect the same exactly if they join the same heads.** -/
theorem headSetDigest_eq_iff {P : Platform} (hsha : Function.Injective P.sha256) {heads heads' : List String}
    (hheads : ∀ head ∈ heads, '\n' ∉ head.toList) (hheads' : ∀ head ∈ heads', '\n' ∉ head.toList) :
    headSetDigest P heads = headSetDigest P heads' ↔ heads.toFinset = heads'.toFinset := by
  refine ⟨fun h => ?_, fun h => by rw [headSetDigest, headSetDigest, h]⟩
  have hbytes := hsha (HeadSetDigest.mk.inj h)
  have hlines : ∀ l : List String, (l.flatMap fun head => Json.utf8 head.toList ++ [Json.lineFeed]) =
      Json.utf8 ((l.map String.toList).flatMap (· ++ ['\n'])) := by
    intro l
    induction l with
    | nil => rfl
    | cons head l ih =>
        rw [List.flatMap_cons, ih]
        simp [Json.utf8]
        rfl
  rw [hlines, hlines] at hbytes
  have hfree : ∀ {l : List String}, (∀ head ∈ l, '\n' ∉ head.toList) →
      ∀ x ∈ (l.toFinset.sort (· ≤ ·)).map String.toList, '\n' ∉ x := by
    intro l hl x hx
    obtain ⟨head, hhead, rfl⟩ := List.mem_map.mp hx
    exact hl head (by simpa using hhead)
  have hlists := flatMap_ended_injective (hfree hheads) (hfree hheads') (Json.utf8_injective hbytes)
  have hsorted := List.map_injective_iff.mpr (fun _ _ => String.toList_injective) hlists
  rw [← Finset.sort_toFinset heads.toFinset (· ≤ ·), hsorted, Finset.sort_toFinset]

/-! ## Fingerprints -/

section Fingerprints

variable {P : Primitives}

theorem requestHash_eq_iff (hsha : Function.Injective P.sha256) {j j' : Json} :
    requestHash P j = requestHash P j' ↔ j = j' :=
  (hsha.comp (Json.toVec_injective P.toFloatText)).eq_iff

/-- Groups agree on their tenant, their ordered entries and their command. -/
def AppendGroup.Agrees (g g' : AppendGroup) : Prop :=
  g.tenant = g'.tenant ∧ g.appends = g'.appends ∧ g.command = g'.command

theorem AppendGroup.requestHash_eq_iff (hsha : Function.Injective P.sha256) {g g' : AppendGroup}
    (h : g.check = .ok ()) (h' : g'.check = .ok ()) :
    requestHash P g.toJson = requestHash P g'.toJson ↔ g.Agrees g' := by
  rw [Eventlog.requestHash_eq_iff hsha]
  exact AppendGroup.toJson_eq_iff (by rw [claim_of_check h, claim_of_check h'])

end Fingerprints

/-- **Fingerprints identify requests**: groups, groups with blobs in whatever order these are
    listed, and never one of the one kind with one of the other.  The expectation of a merge is
    a digest that identifies the heads joined. -/
theorem fingerprints_identify {P : Platform} (hsha : Function.Injective P.sha256) :
    (∀ (g g' : AppendGroup) (f f' : String), g.fingerprint P.toPrimitives = .ok f →
      g'.fingerprint P.toPrimitives = .ok f' → (f = f' ↔ g.Agrees g')) ∧
    (∀ (g g' : BlobAppendGroup) (f f' : String), g.fingerprint P.toPrimitives = .ok f →
      g'.fingerprint P.toPrimitives = .ok f' →
        (f = f' ↔ g.group.Agrees g'.group ∧ g.content = g'.content)) ∧
    (∀ (g : AppendGroup) (g' : BlobAppendGroup) (f f' : String), g.fingerprint P.toPrimitives = .ok f →
      g'.fingerprint P.toPrimitives = .ok f' → f ≠ f') ∧
    ∀ heads heads' : List String, (∀ head ∈ heads, '\n' ∉ head.toList) →
      (∀ head ∈ heads', '\n' ∉ head.toList) →
        (headSetDigest P heads = headSetDigest P heads' ↔ heads.toFinset = heads'.toFinset) := by
  refine ⟨fun g g' f f' hf hf' => ?_, fun g g' f f' hf hf' => ?_, fun g g' f f' hf hf' => ?_,
    fun heads heads' => headSetDigest_eq_iff hsha⟩
  · obtain ⟨hcheck, rfl⟩ := (AppendGroup.fingerprint_eq_ok_iff _).mp hf
    obtain ⟨hcheck', rfl⟩ := (AppendGroup.fingerprint_eq_ok_iff _).mp hf'
    exact AppendGroup.requestHash_eq_iff hsha hcheck hcheck'
  · obtain ⟨hcheck, -, hblobs, rfl⟩ := (BlobAppendGroup.fingerprint_eq_ok_iff _).mp hf
    obtain ⟨hcheck', -, hblobs', rfl⟩ := (BlobAppendGroup.fingerprint_eq_ok_iff _).mp hf'
    obtain ⟨-, hnodup, -⟩ := checkBlobs_eq_ok_iff.mp hblobs
    obtain ⟨-, hnodup', -⟩ := checkBlobs_eq_ok_iff.mp hblobs'
    rw [requestHash_eq_iff hsha, ← AppendGroup.requestHash_eq_iff hsha hcheck hcheck',
      ← sortByDigest_eq_iff hnodup hnodup']
    simp only [Json.obj.injEq, List.cons.injEq, Prod.mk.injEq, true_and, and_true, Json.arr.injEq,
      (List.map_injective_iff.mpr (BlobWrite.toJson_injective hsha)).eq_iff, toValue_injective.eq_iff]
    exact and_comm
  · obtain ⟨-, rfl⟩ := (AppendGroup.fingerprint_eq_ok_iff _).mp hf
    obtain ⟨-, -, -, rfl⟩ := (BlobAppendGroup.fingerprint_eq_ok_iff _).mp hf'
    rw [Ne, requestHash_eq_iff hsha]
    simp [AppendGroup.toJson]

/-- Requests that differ in their key. -/
theorem fingerprints_identify_keys :
    ∃ f f', (sampleGroup "k" (.obj [])).fingerprint samplePlatform.toPrimitives = .ok f ∧
      (sampleGroup "l" (.obj [])).fingerprint samplePlatform.toPrimitives = .ok f' ∧ f ≠ f' := by
  have hcheck : ∀ key, (sampleGroup key (.obj [])).check = .ok () →
      (sampleGroup key (.obj [])).fingerprint samplePlatform.toPrimitives =
        .ok (requestHash samplePlatform.toPrimitives (sampleGroup key (.obj [])).toJson) :=
    fun key h => (AppendGroup.fingerprint_eq_ok_iff _).mpr ⟨h, rfl⟩
  refine ⟨_, _, hcheck "k" (by decide +kernel), hcheck "l" (by decide +kernel), ?_⟩
  rw [Ne, (fingerprints_identify (P := samplePlatform) sampleDigest_injective).1 _ _ _ _
    (hcheck "k" (by decide +kernel)) (hcheck "l" (by decide +kernel))]
  rintro ⟨-, -, hcommand⟩
  exact absurd (congrArg CommandMeta.idempotencyKey hcommand) (by decide +kernel)

end Eventlog
