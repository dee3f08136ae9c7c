import Eventlog.Core.Platform
import Eventlog.File.Numbering
import Eventlog.File.Running

/-!
# Eventlog.Contract.Forgetting

What `forget_tenant` makes of a File store.

Erasure rewrites the history without the tenant's operations and replays it.  The watermark
every transaction ends with stays behind, so the feed does not fall back to a position that was
handed out (`Forgotten.position`, `Forgotten.unique`).
-/

namespace Eventlog.File

open Durable

variable {P : Primitives}

/-- The history `ts` of a run, which amounted to `s₀`, amounts to `s` once `tenant` is forgotten:
    exactly what was the tenant's is gone. -/
structure Forgotten (P : Primitives) (actions : List Action) (ts : List Json) (s₀ : State)
    (tenant : TenantId) (s : State) : Prop where
  replayed : State.replay (rewritten (forgetOps tenant) ts) = .ok s
  without : Without tenant s₀ s
  position : s.nextPosition = s₀.nextPosition
  /-- Whatever is recorded next, the tenant's streams start at version 1. -/
  restarts : ∀ stream : StreamId, stream.tenant = tenant → s.ofStream stream = [] ∧
    ∀ ops s', s.applyAll ops = .ok s' → (s'.ofStream stream).map RecordedEvent.version =
      List.range' 1 (s'.ofStream stream).length
  /-- A position is never issued to another event, however the run goes on. -/
  unique : ∀ later h j s', (World.run P .empty (actions ++ later)).Enters P h j s' →
    ∀ e ∈ s₀.events, ∀ e' ∈ s'.events, e'.globalSeq = e.globalSeq → e'.eventId = e.eventId

theorem Without.ofStream_eq_nil {tenant : TenantId} {s s' : State} (h : Without tenant s s')
    {stream : StreamId} (hstream : stream.tenant = tenant) : s'.ofStream stream = [] := by
  rw [State.ofStream, h.events, List.filter_filter, List.filter_eq_nil_iff]
  intro e _ hon
  simp only [RecordedEvent.isOn, Bool.and_eq_true, beq_iff_eq, decide_eq_true_eq] at hon
  exact hon.2 (hon.1.1.1.trans hstream)

/-- At a position that was handed out there is no other event. -/
theorem Proceeds.eventId_eq {s s' : State} (h : Proceeds s s') (hs : s.Numbered)
    {e e' : RecordedEvent} (he : e ∈ s.events) (he' : e' ∈ s'.events)
    (hposition : e'.globalSeq = e.globalSeq) : e'.eventId = e.eventId := by
  rcases h.events e' he' with hnew | ⟨e₀, he₀, hid, hplace⟩
  · exact absurd (hs.issued e he) (by omega)
  · have hsame : e₀ = e := by
      have hnodup : (s.events.map RecordedEvent.globalSeq).Nodup :=
        hs.positions.imp fun hlt => ne_of_lt hlt
      exact List.inj_on_of_nodup_map hnodup he₀ he (hplace.globalSeq.symm.trans hposition)
    rw [← hid, hsame]

/-- The handle of a store that was just opened enters it. -/
theorem exists_enters_opened :
    ∃ h j s, (World.run samplePrimitives .empty [.Open (some .Single)]).Enters
      samplePrimitives h j s := by
  have hany : ((World.run samplePrimitives .empty [.Open (some .Single)]).handles.any fun h =>
      (enter samplePrimitives h.observed h.current
        (World.run samplePrimitives .empty [.Open (some .Single)]).disk).result.isOk) = true := by
    decide +kernel
  obtain ⟨h, hh, hok⟩ := List.any_eq_true.mp hany
  obtain ⟨⟨j, s⟩, hresult⟩ := Checks.isOk_iff.mp hok
  exact ⟨h, j, s, hh, hresult⟩

end Eventlog.File
