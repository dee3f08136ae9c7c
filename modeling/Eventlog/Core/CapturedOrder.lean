import Eventlog.Core.Capture
import Eventlog.Durable.Checks

/-!
# Eventlog.Core.CapturedOrder

What `validate_captured_order` accepts: the events of one tenant in the order of their positions,
each as a constructor would make it, and on every stream the versions 1, 2, …
(`capturedOrder_iff`).
-/

namespace Eventlog

open Durable

/-- What the checks of an append leave true of an event, apart from its identity and place. -/
structure RecordedEvent.Enveloped (e : RecordedEvent) : Prop where
  name : ValidField e.name
  requestId : ValidField e.requestId
  traceId : ValidField e.traceId
  subject : (validateIdentity "subject" e.subject).isOk
  actor : (validateIdentity "actor" e.actor).isOk
  causation : ∀ id, e.causationId = some id → ValidField id
  depth : e.causationDepth ≤ MAX_CAUSATION_DEPTH
  data : isObject e.data

theorem isOk_validateField (what value : String) :
    (validateField what value).isOk = true ↔ ValidField value := by
  rw [← validateField_eq_ok_iff what value]
  cases validateField what value <;> simp [Except.isOk, Except.toBool]

/-- The envelope rules. -/
theorem capturedEvent_iff {tenant : TenantId} {e : RecordedEvent} :
    capturedEvent tenant e = true ↔ e.tenant = tenant ∧ 0 < e.version ∧ 0 < e.globalSeq ∧
      e.stream.isOk ∧ ValidField e.eventId ∧ e.Enveloped := by
  have hcausation : e.causationId.all (fun id => (validateField "causation id" id).isOk) = true ↔
      ∀ id, e.causationId = some id → ValidField id := by
    cases e.causationId <;> simp [isOk_validateField]
  simp only [capturedEvent, Bool.and_eq_true, decide_eq_true_eq, bne_iff_ne, List.all_cons,
    List.all_nil, Bool.and_true, isOk_validateField, hcausation, ne_eq, ← Nat.pos_iff_ne_zero]
  constructor
  · rintro ⟨⟨⟨⟨⟨⟨⟨⟨ht, hv⟩, hg⟩, hs⟩, hname, hid, hrequest, htrace⟩, hsubject, hactor⟩, hc⟩, hd⟩, ho⟩
    exact ⟨ht, hv, hg, hs, hid, hname, hrequest, htrace, hsubject, hactor, hc, hd, ho⟩
  · rintro ⟨ht, hv, hg, hs, hid, hname, hrequest, htrace, hsubject, hactor, hc, hd, ho⟩
    exact ⟨⟨⟨⟨⟨⟨⟨⟨ht, hv⟩, hg⟩, hs⟩, hname, hid, hrequest, htrace⟩, hsubject, hactor⟩, hc⟩, hd⟩, ho⟩

/-- The events of a stream, among those of one tenant. -/
def eventsOn (streamType streamId : String) (events : List RecordedEvent) : List RecordedEvent :=
  events.filter fun o => o.streamType == streamType && o.streamId == streamId

/-- The version of the last of them. -/
def headOn (streamType streamId : String) (earlier : List RecordedEvent) : Nat :=
  ((eventsOn streamType streamId earlier).getLast?.map RecordedEvent.version).getD 0

theorem headOn_concat (streamType streamId : String) (earlier : List RecordedEvent)
    (e : RecordedEvent) :
    headOn streamType streamId (earlier ++ [e]) =
      if e.streamType = streamType ∧ e.streamId = streamId then e.version
      else headOn streamType streamId earlier := by
  by_cases h : e.streamType = streamType ∧ e.streamId = streamId
  · simp [headOn, eventsOn, List.filter_append, h.1, h.2]
  · have hoff : (e.streamType == streamType && e.streamId == streamId) = false := by simpa using h
    simp [headOn, eventsOn, List.filter_append, hoff, h]

/-- On every stream the versions go on from those read before. -/
def VersionsFrom (earlier events : List RecordedEvent) : Prop :=
  ∀ streamType streamId, (eventsOn streamType streamId events).map RecordedEvent.version =
    List.range' (headOn streamType streamId earlier + 1)
      (eventsOn streamType streamId events).length

theorem versionsFrom_cons {earlier : List RecordedEvent} {e : RecordedEvent}
    {rest : List RecordedEvent} :
    VersionsFrom earlier (e :: rest) ↔
      e.version = headOn e.streamType e.streamId earlier + 1 ∧
        VersionsFrom (earlier ++ [e]) rest := by
  have hon : ∀ t i, e.streamType = t ∧ e.streamId = i →
      eventsOn t i (e :: rest) = e :: eventsOn t i rest := by
    rintro t i ⟨rfl, rfl⟩
    simp [eventsOn]
  have hoff : ∀ t i, ¬(e.streamType = t ∧ e.streamId = i) →
      eventsOn t i (e :: rest) = eventsOn t i rest := by
    intro t i h
    have hno : (e.streamType == t && e.streamId == i) = false := by simpa using h
    simp [eventsOn, hno]
  constructor
  · intro h
    have hhead := h e.streamType e.streamId
    rw [hon _ _ ⟨rfl, rfl⟩, List.map_cons, List.length_cons, List.range'_succ,
      List.cons.injEq] at hhead
    refine ⟨hhead.1, fun t i => ?_⟩
    rw [headOn_concat]
    split_ifs with hti
    · obtain ⟨rfl, rfl⟩ := hti
      rw [hhead.1]
      exact hhead.2
    · rw [← hoff t i hti]
      exact h t i
  · rintro ⟨hversion, hrest⟩ t i
    have htail := hrest t i
    rw [headOn_concat] at htail
    by_cases hti : e.streamType = t ∧ e.streamId = i
    · rw [if_pos hti] at htail
      rw [hon t i hti, List.map_cons, htail, List.length_cons, List.range'_succ, hversion, hti.1,
        hti.2]
    · rw [if_neg hti] at htail
      rw [hoff t i hti, htail]

/-- **A linear history** of a tenant. -/
structure CapturedLinear (tenant : TenantId) (events : List RecordedEvent) : Prop where
  /-- Positions are positive and strictly increase. -/
  positions : (0 :: events.map RecordedEvent.globalSeq).Pairwise (· < ·)
  /-- Every event is the tenant's and satisfies the envelope rules. -/
  envelopes : ∀ e ∈ events, e.tenant = tenant ∧ e.stream.isOk ∧ ValidField e.eventId ∧ e.Enveloped
  /-- Every stream has the versions 1, 2, and so on. -/
  versions : VersionsFrom [] events
  /-- Versions are numbers of 64 bits. -/
  bounded : ∀ e ∈ events, e.version < u64Limit

theorem capturedFrom_iff {tenant : TenantId} {position : Nat} {earlier events : List RecordedEvent} :
    capturedFrom tenant position earlier events = true ↔
      (position :: events.map RecordedEvent.globalSeq).IsChain (· < ·) ∧
        (∀ e ∈ events, capturedEvent tenant e) ∧ VersionsFrom earlier events ∧
        ∀ e ∈ events, e.version < u64Limit := by
  induction events generalizing position earlier with
  | nil => simp [capturedFrom, VersionsFrom, eventsOn]
  | cons e rest ih =>
      have hadd : (checkedAdd (capturedHead earlier e) 1 == some e.version) = true ↔
          e.version = headOn e.streamType e.streamId earlier + 1 ∧ e.version < u64Limit := by
        have hhead : capturedHead earlier e = headOn e.streamType e.streamId earlier := rfl
        rw [hhead, checkedAdd, beq_iff_eq]
        split_ifs with hroom
        · rw [Option.some.injEq]
          omega
        · simp only [false_iff]
          omega
      rw [capturedFrom, Bool.and_eq_true, Bool.and_eq_true, Bool.and_eq_true, hadd, ih,
        decide_eq_true_eq, versionsFrom_cons, List.map_cons, List.isChain_cons_cons]
      simp only [List.forall_mem_cons]
      tauto

theorem VersionsFrom.pos {events : List RecordedEvent} (h : VersionsFrom [] events)
    {e : RecordedEvent} (he : e ∈ events) : 0 < e.version := by
  have hon : e ∈ eventsOn e.streamType e.streamId events := by simp [eventsOn, he]
  have hmem := List.mem_map_of_mem (f := RecordedEvent.version) hon
  rw [h, List.mem_range'_1] at hmem
  omega

/-- **What the check of a linear capture accepts.** -/
theorem capturedOrder_iff {tenant : TenantId} {events : List RecordedEvent} :
    capturedOrder tenant events = true ↔ CapturedLinear tenant events := by
  rw [capturedOrder, capturedFrom_iff, List.isChain_iff_pairwise]
  constructor
  · rintro ⟨hpositions, henvelopes, hversions, hbounded⟩
    refine ⟨hpositions, fun e he => ?_, hversions, hbounded⟩
    obtain ⟨htenant, -, -, hrest⟩ := capturedEvent_iff.mp (henvelopes e he)
    exact ⟨htenant, hrest⟩
  · rintro ⟨hpositions, henvelopes, hversions, hbounded⟩
    refine ⟨hpositions, fun e he => ?_, hversions, hbounded⟩
    obtain ⟨htenant, hrest⟩ := henvelopes e he
    have hposition : 0 < e.globalSeq :=
      List.rel_of_pairwise_cons hpositions (List.mem_map_of_mem he)
    exact capturedEvent_iff.mpr ⟨htenant, hversions.pos he, hposition, hrest⟩

end Eventlog
