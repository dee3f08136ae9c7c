import Eventlog.File.InlineAdmin
import Eventlog.File.Staging

/-!
# Eventlog.File.Recording

Callbacks, registrations and inline rebuilds record no event.
-/

namespace Eventlog.File

open Durable Session

variable {P : Primitives}

/-- Nothing recorded between two states of a transaction is an event. -/
def Eventless (tx : Tx) (_ : Bool) (tx' : Tx) : Prop :=
  ∃ ops, tx'.pending = tx.pending ++ ops ∧ ∀ op ∈ ops, ∀ e, op ≠ .Event e

theorem eventless_composes : Composes Eventless where
  refl tx _ := ⟨[], by simp, by simp⟩
  trans tx₁ tx₂ tx₃ ok h h' := by
    obtain ⟨ops, hpending, hops⟩ := h
    obtain ⟨ops', hpending', hops'⟩ := h'
    refine ⟨ops ++ ops', by rw [hpending', hpending, List.append_assoc], fun op hop => ?_⟩
    exact (List.mem_append.mp hop).elim (hops op) (hops' op)

theorem record_eventless {op : Op} (h : ∀ e, op ≠ .Event e) : Obeys Eventless (Work.record op) := by
  intro tx
  refine ⟨[op], ?_, by simpa using h⟩
  unfold Work.record
  split <;> rfl

/-! ## Callbacks -/

theorem reserve_eventless (v : ProjectionView) (permit : Nat) (rs : List Reservation) :
    Obeys Eventless (v.reserve permit rs) := by
  have hR := eventless_composes
  refine obeys_of_delivers fun tx => Delivers.bind hR (delivers_ask hR fun writes hwrites => ?_)
  have hcounters : ∀ w ∈ writes, ∀ e, w.1 ≠ .Event e := fun w hw => by
    obtain ⟨tenant, coordinate, heq, -⟩ := planReserve_counter hwrites w hw
    simp [heq]
  exact (Obeys.bind hR (obeys_forM hR fun w hw => record_eventless (hcounters w hw)) fun _ =>
    obeys_pure hR _).delivers

theorem call_eventless (v : ProjectionView) (c : Callback) : Obeys Eventless (v.call P c) := by
  have hR := eventless_composes
  have hrow (spec : ProjectionSpec) (tenant : TenantId) (key : String) (body : Option Json) :
      Obeys Eventless (Session.ask (fun tx => v.validate tx.state spec tenant) >>= fun _ =>
        Work.record (.Row tenant spec.name key body)) :=
    (obeys_ask hR _).bind hR fun _ => record_eventless (by simp)
  induction c with
  | done result => exact obeys_ask hR _
  | reserve permit rs next ih =>
      exact fun tx => hR.trans _ _ _ _ (reserve_eventless v permit rs tx) (ih _ _)
  | upsert spec tenant key body next ih =>
      exact fun tx => hR.trans _ _ _ _ (hrow spec tenant key (some body) tx) (ih _ _)
  | delete spec tenant key next ih =>
      exact fun tx => hR.trans _ _ _ _ (hrow spec tenant key none tx) (ih _ _)
  | getBlob digest next ih => exact fun tx => ih _ tx
  | get spec tenant key next ih => exact fun tx => ih _ tx
  | getForUpdate spec tenant key next ih => exact fun tx => ih _ tx
  | find spec tenant field value limit next ih => exact fun tx => ih _ tx

/-! ## Administration -/

theorem registerSpecs_eventless (names : List String) (specs : List ProjectionSpec) :
    Obeys Eventless (Work.registerSpecs names specs) := by
  have hR := eventless_composes
  induction specs generalizing names with
  | nil => exact obeys_pure hR _
  | cons spec rest ih =>
      refine (obeys_ask hR _).bind hR fun _ => ?_
      split
      · exact obeys_refuse hR _
      · refine (obeys_ask hR _).bind hR fun old => ?_
        cases old with
        | none => exact Obeys.bind hR (record_eventless (by simp)) fun _ => ih _
        | some old =>
            simp only
            split
            · exact obeys_refuse hR _
            · exact ih _

theorem rebuildInline_eventless (p : Projector) (tenant : TenantId) :
    Obeys Eventless (Work.rebuildInline P p tenant) := by
  have hR := eventless_composes
  refine Obeys.bind hR (obeys_forM hR fun spec _ => ?_) fun _ => ?_
  · exact Obeys.bind hR (record_eventless (by simp)) fun _ => record_eventless (by simp)
  · refine (obeys_ask hR _).bind hR fun events => (obeys_ask hR _).bind hR fun _ => ?_
    refine (obeys_forM hR fun event _ => call_eventless _ _).bind hR fun _ => ?_
    exact Obeys.bind hR (record_eventless (by simp)) fun _ => obeys_pure hR _

end Eventlog.File
