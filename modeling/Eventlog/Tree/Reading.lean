import Eventlog.Tree.Store

/-!
# Eventlog.Tree.Reading

What is read back of a record that was written.

A record comes back from its value (`EventRecord.fromValue_toValue`,
`GroupRecord.fromValue_toValue`), and its value from its bytes if the body does: nothing else in
a record is a float.  A redaction changes neither an event's digest nor its place.
-/

namespace Eventlog.Tree

open Durable

variable (P : Platform)

/-! ## Members -/

theorem formatTime_eq_ok_iff {t : OffsetDateTime} {s : String} :
    formatTime P t = .ok s ↔ P.formatTime t = some s := by
  unfold formatTime
  cases P.formatTime t <;> simp

theorem parseTime_formatTime {t : OffsetDateTime} {s what : String} (h : formatTime P t = .ok s) :
    parseTime P (.str s) what = .ok t := by
  simp [parseTime, text, bind, Except.bind, P.parseTime_formatTime ((formatTime_eq_ok_iff P).mp h)]

theorem strings_toValue (xs : List String) (what : String) : strings (toValue xs) what = .ok xs := by
  refine Checks.bind_eq_ok_iff.mpr ⟨_, rfl, Checks.mapM_eq_ok_iff.mpr ?_⟩
  rw [List.forall₂_map_left_iff]
  exact List.forall₂_same.mpr fun _ _ => rfl

theorem number_toValue (n : Nat) (what : String) : number (toValue n) what = .ok n := by
  simp [number]

/-! ## Events -/

namespace EventRecord

variable {P} in
theorem digest_eq_ok_iff {r : EventRecord} {digest : String} : r.digest P = .ok digest ↔
    ∃ recordedAt, P.formatTime r.recordedAt = some recordedAt ∧
      digest = P.sha256 (canonical P (.obj (r.envelopeFields recordedAt))) := by
  simp only [EventRecord.digest, Checks.bind_eq_ok_iff, formatTime_eq_ok_iff, Checks.pure_eq_ok_iff,
    eq_comm (a := digest)]

/-- A record without its body. -/
def envelope (r : EventRecord) : EventRecord := { r with data := .null, redacted := none }

theorem envelopeFields_injective {r r' : EventRecord} {s s' : String}
    (h : r.envelopeFields s = r'.envelopeFields s') :
    s = s' ∧ { r.envelope with recordedAt := r'.recordedAt } = r'.envelope := by
  simp only [envelopeFields, List.cons.injEq, Prod.mk.injEq, Json.str.injEq, true_and, and_true] at h
  obtain ⟨h₁, h₂, h₃, h₄, h₅, h₆, h₇, h₈, h₉, h₁₀, h₁₁⟩ := h
  have hindex := congrArg (Serde.fromValue : Json → Option Nat) h₄
  have hparents := congrArg (Serde.fromValue : Json → Option (List String)) h₆
  have hversion := congrArg (Serde.fromValue : Json → Option Nat) h₈
  simp only [LawfulSerde.fromValue_toValue, Option.some.injEq] at hindex hparents hversion
  refine ⟨h₇, ?_⟩
  simp [envelope, h₁, h₂, h₃, h₅, h₉, h₁₀, h₁₁, hindex, hparents, hversion]

variable {P} in
/-- Records of one digest differ in their bodies only. -/
theorem envelope_eq_of_digest (hsha : Function.Injective P.sha256) {r r' : EventRecord} {d : String}
    (h : r.digest P = .ok d) (h' : r'.digest P = .ok d) : r.envelope = r'.envelope := by
  obtain ⟨s, hs, hd⟩ := digest_eq_ok_iff.mp h
  obtain ⟨s', hs', hd'⟩ := digest_eq_ok_iff.mp h'
  have hfields := Json.obj.inj (Json.toVec_injective P.toFloatText (hsha (hd.symm.trans hd')))
  obtain ⟨rfl, henvelope⟩ := envelopeFields_injective hfields
  have htime : r.recordedAt = r'.recordedAt :=
    Option.some.inj ((P.parseTime_formatTime hs).symm.trans (P.parseTime_formatTime hs'))
  rw [← henvelope, ← htime]
  rfl

/-- A record is what its value says, next to its digest. -/
theorem fromValue_toValue {r : EventRecord} {value : Json} (h : r.toValue P = .ok value) :
    ∃ digest, r.digest P = .ok digest ∧ fromValue P value = .ok (r, digest) := by
  obtain ⟨recordedAt, hformat, h⟩ := Checks.bind_eq_ok_iff.mp h
  obtain ⟨digest, hdigest, h⟩ := Checks.bind_eq_ok_iff.mp h
  obtain rfl := Checks.pure_eq_ok_iff.mp h
  refine ⟨digest, hdigest, ?_⟩
  have htime : ∀ what, parseTime P (.str recordedAt) what = .ok r.recordedAt := fun _ =>
    parseTime_formatTime P hformat
  obtain ⟨tenant, streamType, streamId, eventId, name, schemaVersion, moment, parents, group, index,
    dataDigest, data, redacted⟩ := r
  generalize hfs : EventRecord.fields _ recordedAt digest = fs
  have hclosed : closed fs allowed "an event file" = .ok () := by subst hfs; cases redacted <;> rfl
  have h₁ : field fs "format" = .ok (.str EVENT_FORMAT) := by subst hfs; cases redacted <;> rfl
  have h₂ : parseRedacted (get? fs "redacted") = .ok redacted := by subst hfs; cases redacted <;> rfl
  have h₃ : field fs "tenant" = .ok (.str tenant) := by subst hfs; cases redacted <;> rfl
  have h₄ : field fs "stream_type" = .ok (.str streamType) := by subst hfs; cases redacted <;> rfl
  have h₅ : field fs "stream_id" = .ok (.str streamId) := by subst hfs; cases redacted <;> rfl
  have h₆ : field fs "event_id" = .ok (.str eventId) := by subst hfs; cases redacted <;> rfl
  have h₇ : field fs "name" = .ok (.str name) := by subst hfs; cases redacted <;> rfl
  have h₈ : field fs "schema_version" = .ok (Serde.toValue schemaVersion) := by
    subst hfs; cases redacted <;> rfl
  have h₉ : field fs "recorded_at" = .ok (.str recordedAt) := by subst hfs; cases redacted <;> rfl
  have h₁₀ : field fs "parents" = .ok (Serde.toValue parents) := by subst hfs; cases redacted <;> rfl
  have h₁₁ : field fs "group" = .ok (.str group) := by subst hfs; cases redacted <;> rfl
  have h₁₂ : field fs "index" = .ok (Serde.toValue index) := by subst hfs; cases redacted <;> rfl
  have h₁₃ : field fs "data_digest" = .ok (.str dataDigest) := by subst hfs; cases redacted <;> rfl
  have h₁₄ : field fs "data" = .ok data := by subst hfs; cases redacted <;> rfl
  have h₁₅ : field fs "digest" = .ok (.str digest) := by subst hfs; cases redacted <;> rfl
  simp only [fromValue, object, Checks.ok_bind, hclosed, h₁, h₂, h₃, h₄, h₅, h₆, h₇, h₈, h₉, h₁₀, h₁₁, h₁₂,
    h₁₃, h₁₄, h₁₅, text, htime, number_toValue, strings_toValue, ne_eq, not_true_eq_false, if_false]
  rfl

end EventRecord

/-! ## Groups -/

theorem parseExpected_expectedValue {e : Expected} {value : Json} (h : expectedValue e = .ok value) :
    parseExpected value = .ok e := by
  cases e with
  | Any => cases h; rfl
  | NoStream => cases h; rfl
  | Exact version => cases h; rfl
  | Merge heads => exact nomatch h

namespace GroupRecord

theorem parseMember_memberValue {m : Member} {value : Json} (h : memberValue m = .ok value) :
    parseMember value = .ok m := by
  obtain ⟨expected, hexpected, h⟩ := Checks.bind_eq_ok_iff.mp h
  obtain rfl := Checks.pure_eq_ok_iff.mp h
  have hparse := parseExpected_expectedValue hexpected
  obtain ⟨streamType, streamId, e, events⟩ := m
  generalize hfs : [("events", Serde.toValue events), ("expected", expected),
    ("stream_id", Serde.toValue streamId), ("stream_type", Serde.toValue streamType)] = fs
  have hclosed : closed fs ["stream_type", "stream_id", "expected", "events"] "a group member" =
      .ok () := by subst hfs; rfl
  have h₁ : field fs "stream_type" = .ok (.str streamType) := by subst hfs; rfl
  have h₂ : field fs "stream_id" = .ok (.str streamId) := by subst hfs; rfl
  have h₃ : field fs "expected" = .ok expected := by subst hfs; rfl
  have h₄ : field fs "events" = .ok (Serde.toValue events) := by subst hfs; rfl
  simp only [parseMember, object, Checks.ok_bind, hclosed, h₁, h₂, h₃, h₄, text, hparse,
    strings_toValue]
  rfl

/-- A group as a commit writes it: it has members, one of them if it is an append, and no
    claim. -/
structure Written (g : GroupRecord) : Prop where
  members : g.members ≠ []
  single : g.kind = .Append → g.members.length = 1
  claim : g.command.claim = none

theorem fromValue_toValue {g : GroupRecord} {value : Json} (h : g.toValue P = .ok value)
    (hw : g.Written) : fromValue P value = .ok g := by
  obtain ⟨occurredAt, hoccurred, h⟩ := Checks.bind_eq_ok_iff.mp h
  obtain ⟨members, hmembers, h⟩ := Checks.bind_eq_ok_iff.mp h
  obtain ⟨recordedAt, hrecorded, h⟩ := Checks.bind_eq_ok_iff.mp h
  obtain rfl := Checks.pure_eq_ok_iff.mp h
  have hparsed : members.mapM parseMember = .ok g.members := by
    rw [Checks.mapM_eq_ok_iff] at hmembers ⊢
    exact hmembers.flip.imp fun _ _ hm => parseMember_memberValue hm
  have hcheck : (g.members.isEmpty || (g.kind == .Append && g.members.length != 1)) = false := by
    have hsingle := hw.single
    rw [Bool.or_eq_false_iff]
    refine ⟨by simpa using hw.members, ?_⟩
    cases hkind : g.kind with
    | Append => simp [hsingle hkind]
    | Group => rfl
  have htime₁ : ∀ what, parseTime P (.str occurredAt) what = .ok g.command.occurredAt := fun _ =>
    parseTime_formatTime P hoccurred
  have htime₂ : ∀ what, parseTime P (.str recordedAt) what = .ok g.recordedAt := fun _ =>
    parseTime_formatTime P hrecorded
  have hclaim := hw.claim
  obtain ⟨tenant, kind, ⟨key, hash, subject, actor, requestId, traceId, causationId, causationDepth,
    occurred, claim⟩, _, blobs, recorded⟩ := g
  obtain rfl : claim = none := hclaim
  generalize hfs : GroupRecord.fields _ occurredAt recordedAt members = fs
  have hclosed : closed fs allowed "a group file" = .ok () := by subst hfs; rfl
  have h₁ : field fs "format" = .ok (.str GROUP_FORMAT) := by subst hfs; rfl
  have h₂ : field fs "kind" = .ok (.str kind.asStr) := by subst hfs; rfl
  have h₃ : field fs "tenant" = .ok (.str tenant) := by subst hfs; rfl
  have h₄ : field fs "idempotency_key" = .ok (.str key) := by subst hfs; rfl
  have h₅ : field fs "request_hash" = .ok (.str hash) := by subst hfs; rfl
  have h₆ : field fs "subject" = .ok (.str subject) := by subst hfs; rfl
  have h₇ : field fs "actor" = .ok (.str actor) := by subst hfs; rfl
  have h₈ : field fs "request_id" = .ok (.str requestId) := by subst hfs; rfl
  have h₉ : field fs "trace_id" = .ok (.str traceId) := by subst hfs; rfl
  have h₁₀ : field fs "causation_id" = .ok (Serde.toValue causationId) := by subst hfs; rfl
  have h₁₁ : field fs "causation_depth" = .ok (Serde.toValue causationDepth) := by subst hfs; rfl
  have h₁₂ : field fs "occurred_at" = .ok (.str occurredAt) := by subst hfs; rfl
  have h₁₃ : field fs "members" = .ok (.arr members) := by subst hfs; rfl
  have h₁₄ : field fs "blobs" = .ok (Serde.toValue blobs) := by subst hfs; rfl
  have h₁₅ : field fs "recorded_at" = .ok (.str recordedAt) := by subst hfs; rfl
  have hkind : parseKind (.str kind.asStr) = .ok kind := by cases kind <;> rfl
  have hcausation : parseCausation (Serde.toValue causationId) = .ok causationId := by
    cases causationId <;> rfl
  have hcommand : parseCommand P fs = .ok ⟨key, hash, subject, actor, requestId, traceId, causationId,
      causationDepth, occurred, none⟩ := by
    simp only [parseCommand, Checks.ok_bind, h₄, h₅, h₆, h₇, h₈, h₉, h₁₀, h₁₁, h₁₂, text, htime₁,
      number_toValue, hcausation]
    rfl
  simp only [fromValue, object, array, Checks.ok_bind, hclosed, h₁, h₂, h₃, h₁₃, h₁₄, h₁₅, text, hkind,
    hcommand, hparsed, hcheck, htime₂, strings_toValue, ne_eq, not_true_eq_false, if_false,
    Bool.false_eq_true]
  rfl

theorem claim_of_parseCommand {fs : List (String × Json)} {command : CommandMeta}
    (h : parseCommand P fs = .ok command) : command.claim = none := by
  simp only [parseCommand, Checks.bind_eq_ok_iff, Checks.pure_eq_ok_iff] at h
  obtain ⟨_, -, _, -, _, -, _, -, _, -, _, -, _, -, _, -, _, -, _, -, _, -, _, -, _, -, _, -, _, -, _,
    -, _, -, _, -, rfl⟩ := h
  rfl

/-- What is read from a group file is a group as a commit writes it. -/
theorem written_of_fromValue {g : GroupRecord} {value : Json} (h : fromValue P value = .ok g) :
    g.Written := by
  unfold fromValue at h
  obtain ⟨fs, -, h⟩ := Checks.bind_eq_ok_iff.mp h
  obtain ⟨_, -, h⟩ := Checks.bind_eq_ok_iff.mp h
  obtain ⟨_, -, h⟩ := Checks.bind_eq_ok_iff.mp h
  obtain ⟨format, -, h⟩ := Checks.bind_eq_ok_iff.mp h
  split at h
  · exact nomatch h
  obtain ⟨_, -, h⟩ := Checks.bind_eq_ok_iff.mp h
  obtain ⟨kind, -, h⟩ := Checks.bind_eq_ok_iff.mp h
  obtain ⟨command, hcommand, h⟩ := Checks.bind_eq_ok_iff.mp h
  obtain ⟨_, -, h⟩ := Checks.bind_eq_ok_iff.mp h
  obtain ⟨_, -, h⟩ := Checks.bind_eq_ok_iff.mp h
  obtain ⟨members, -, h⟩ := Checks.bind_eq_ok_iff.mp h
  split at h
  · exact nomatch h
  next hmembers =>
  simp only [Checks.bind_eq_ok_iff, Checks.pure_eq_ok_iff] at h
  obtain ⟨_, -, _, -, _, -, _, -, _, -, _, -, rfl⟩ := h
  simp only [Bool.or_eq_true, List.isEmpty_iff, Bool.and_eq_true, beq_iff_eq, bne_iff_ne, ne_eq,
    not_or, not_and, not_not] at hmembers
  exact ⟨hmembers.1, hmembers.2, claim_of_parseCommand P hcommand⟩

end GroupRecord

end Eventlog.Tree
