import Eventlog.File.Chaining
import Eventlog.File.Running

/-!
# Eventlog.File.Answering

What a call answers, together with where it leaves the store.

A directory holds one history (`Stored.unique`), so whatever two results say about the state a call
leaves, they say about the same state.

* `call_answered` — a call that only adds to the history is refused and leaves the committed state
  as it was, or answers what its work answered on exactly that state and commits the state its work
  reached.
-/

namespace Eventlog.File

open Durable Program

variable {P : Primitives} {B : Bodies} {d d' : Disk} {m m' : Manifest} {ts ts' : List Json}
  {s s' s₀ : State} {h : Handle}

/-- **A directory holds one history.** -/
theorem Stored.unique (hsha : Function.Injective P.sha256) (hst : Stored P B d m ts s)
    (hst' : Stored P B d m' ts' s') : m = m' ∧ ts = ts' ∧ s = s' := by
  obtain ⟨parts, active, hc⟩ := hst.committed
  obtain ⟨parts', active', hc'⟩ := hst'.committed
  have hm : m = m' := by
    have hbytes := Option.some.inj (hc.manifest.symm.trans hc'.manifest)
    have hread := congrArg (fun b => (fromBytes P.toFloatText b : Option Manifest)) hbytes
    simpa [fromBytes_toBytes] using hread
  subst hm
  have hdigest : (historyOf P m ts).2 = (historyOf P m ts').2 :=
    hc.cut.describes.digest.symm.trans hc'.cut.describes.digest
  have hlength : ts.length = ts'.length :=
    hc.cut.describes.sequence.symm.trans hc'.cut.describes.sequence
  obtain ⟨rfl, -⟩ := eq_of_historyOf_digest hsha hlength hdigest
  exact ⟨rfl, rfl, Except.ok.inj (hst.replayed.symm.trans hst'.replayed)⟩

/-- The transaction a call is given, if it is let in. -/
def Handle.given (P : Primitives) (h : Handle) (r : Request) (d : Disk) : Option Tx :=
  match (enter P h.observed h.current d).result with
  | .error _ => none
  | .ok (j, s) => some ((h.serving r).begin j s ((enter P h.observed h.current).last d))

theorem Handle.serving_observed (h : Handle) (r : Request) : (h.serving r).observed = h.observed := by
  unfold Handle.serving
  split_ifs <;> rfl

theorem Handle.serving_current (h : Handle) (r : Request) : (h.serving r).current = h.current := by
  unfold Handle.serving
  split_ifs <;> rfl

/-- A call is answered by its checks, at its entry, or by what its work comes to. -/
theorem call_eq (h : Handle) (r : Request) (d : Disk) :
    (∃ e, h.call P r d = ⟨.error e, h, d⟩) ∨
      (∃ e, (enter P h.observed h.current d).result = .error e ∧
        h.call P r d = ⟨.error e, (h.serving r).forget, (enter P h.observed h.current).last d⟩) ∨
      ∃ j s, (enter P h.observed h.current d).result = .ok (j, s) ∧
        h.call P r d = match r.work P ((h.serving r).begin j s
            ((enter P h.observed h.current).last d)) with
          | (.ok a, tx) => (h.serving r).finish P a tx
          | (.error e, tx) => (h.serving r).refused P e tx := by
  cases hcheck : r.precheck P with
  | error e => exact .inl ⟨e, by simp only [Handle.call, hcheck]⟩
  | ok u =>
      right
      have hcall : h.call P r d = (h.serving r).transaction P (r.work P) d := by
        simp only [Handle.call, hcheck, Handle.serving]
      rw [hcall, Handle.transaction, Handle.serving_observed, Handle.serving_current]
      cases hresult : (enter P h.observed h.current d).result with
      | error e => exact .inl ⟨e, rfl, rfl⟩
      | ok js =>
          obtain ⟨j, s⟩ := js
          refine .inr ⟨j, s, rfl, ?_⟩
          dsimp only
          rcases r.work P ((h.serving r).begin j s ((enter P h.observed h.current).last d)) with ⟨x, tx⟩
          cases x <;> rfl

/-- Work that only adds to the history is committed, or there is no room for it. -/
theorem finish_answered {tx₀ tx : Tx} (a : Response) (hstart : tx₀.Starts P B m ts s₀)
    (hran : Ran P B tx₀ true tx) :
    (∃ e, (h.finish P a tx).result = .error e ∧ Stored P B (h.finish P a tx).disk m ts s₀) ∨
      (h.finish P a tx).result = .ok a ∧
        ∃ m' ts', Stored P B (h.finish P a tx).disk m' ts' tx.state.strip := by
  by_cases hpending : tx.pending = []
  · obtain ⟨ops, hops, hstaged⟩ := hran.staged
    have hnone : ops = [] := by
      rw [hpending, hstart.pending, List.nil_append] at hops
      exact hops.symm
    rw [finish_of_nothing (hran.privacy.trans hstart.privacy) hpending, hstaged.untouched hnone,
      hstart.strip]
    exact .inr ⟨rfl, m, ts, hstart.grew hran.grew⟩
  · cases hplan : m.plan P (toValue tx.sealed) with
    | error e =>
        obtain ⟨e', he'⟩ := finish_of_no_room (h := h) (a := a) hstart hran hpending hplan
        rw [he']
        exact .inl ⟨e', rfl, hstart.grew hran.grew⟩
    | ok plan =>
        obtain ⟨j, -, -, hresult, -, hstored, -⟩ :=
          finish_of_staged (h := h) (a := a) hstart hran hpending hplan
        exact .inr ⟨hresult, _, _, hstored⟩

/-- **A call that only adds to the history.** -/
theorem call_answered {r : Request} (hst : Stored P B d m ts s₀) (hh : h.Sound P B m ts)
    (hsha : Function.Injective P.sha256) (hstages : r.stages = true) (hr : r.Carries B) :
    (∃ e, (h.call P r d).result = .error e ∧ ∃ m' ts', Stored P B (h.call P r d).disk m' ts' s₀) ∨
      ∃ a tx₀ tx, (h.call P r d).result = .ok a ∧ h.given P r d = some tx₀ ∧
        tx₀.Starts P B m ts s₀ ∧ r.work P tx₀ = (.ok a, tx) ∧ Ran P B tx₀ true tx ∧
        ∃ m' ts', Stored P B (h.call P r d).disk m' ts' tx.state.strip := by
  have hh' : (h.serving r).Sound P B m ts := serving_sound hh
  have hentered := (enter_meets hst (.inl hsha) hh').2
  rw [Handle.serving_observed, Handle.serving_current] at hentered
  rcases call_eq (P := P) h r d with ⟨e, heq⟩ | ⟨e, hresult, heq⟩ | ⟨j, s, hresult, heq⟩
  · rw [heq]
    exact .inl ⟨e, rfl, m, ts, hst⟩
  · rw [hresult] at hentered
    rw [heq]
    exact .inl ⟨e, rfl, m, ts, hentered.1⟩
  · rw [hresult] at hentered
    have hgiven : h.given P r d =
        some ((h.serving r).begin j s ((enter P h.observed h.current).last d)) := by
      rw [Handle.given, hresult]
    have hg : Given P B m ts s₀ (h.serving r) d
        ((h.serving r).begin j s ((enter P h.observed h.current).last d)) := by
      have hentered' : Entered P B m ts s₀ (h.serving r).observed d (.ok (j, s))
          ((enter P h.observed h.current).last d) := by
        rw [Handle.serving_observed]
        exact hentered
      exact ⟨hentered'.starts, hentered'.2.2.2.2.2.2.1, hentered'.2.1, rfl, rfl,
        hentered'.2.2.2.2.2.2.2⟩
    generalize (h.serving r).begin j s ((enter P h.observed h.current).last d) = tx₀ at *
    have hran := hg.runs hh' hstages hr
    rcases hwork : r.work P tx₀ with ⟨x, tx⟩
    rw [hwork] at hran heq
    rw [heq]
    cases x with
    | error e =>
        obtain ⟨hrefused, hunmoved, -, -⟩ :=
          refused_spec (α := Response) (e := e) hg.starts hran hh'
        exact .inl ⟨e, hrefused, m, ts, hg.starts.stored.unmoved hunmoved⟩
    | ok a =>
        rcases finish_answered (h := h.serving r) a hg.starts hran with
          ⟨e, hfull, hstored⟩ | ⟨hok, hstored⟩
        · exact .inl ⟨e, hfull, m, ts, hstored⟩
        · exact .inr ⟨a, tx₀, tx, hok, hgiven, hg.starts, hwork, hran, hstored⟩

/-- **An erasure** is refused and leaves the committed state as it was, or commits one without the
    tenant; or the journal is stuck. -/
theorem call_forgot (hst : Stored P B d m ts s₀) (hh : h.Sound P B m ts)
    (hsha : Function.Injective P.sha256) (hB : ∀ reason, B.data (redactionTombstone reason))
    (tenant : TenantId) :
    (∃ e, (h.call P (.forgetTenant tenant) d).result = .error e ∧
      (Wedged P (h.call P (.forgetTenant tenant) d).disk ∨
        ∃ m' ts', Stored P B (h.call P (.forgetTenant tenant) d).disk m' ts' s₀)) ∨
      ∃ a s', (h.call P (.forgetTenant tenant) d).result = .ok a ∧ Without tenant s₀ s' ∧
        ∃ m' ts', Stored P B (h.call P (.forgetTenant tenant) d).disk m' ts' s' := by
  rcases call_turn (r := .forgetTenant tenant) hst hh hsha hB trivial with ⟨e, -, heq⟩ | ⟨-, hturn⟩
  · rw [heq]
    exact .inl ⟨e, rfl, .inr ⟨m, ts, hst⟩⟩
  · generalize h.call P (.forgetTenant tenant) d = served at hturn
    cases hturn with
    | shut entered => exact .inl ⟨_, rfl, .inr ⟨m, ts, entered.1⟩⟩
    | refused given work unmoved sound observed =>
        exact .inl ⟨_, rfl, .inr ⟨m, ts, given.starts.stored.unmoved unmoved⟩⟩
    | quiet given rewrites work ran pending state stored => cases rewrites
    | saved given request current became stored => cases request
    | full given work grew stored => exact .inl ⟨_, rfl, .inr ⟨m, ts, stored⟩⟩
    | committed given rewrites work ran pending lineage transactions stored tended => cases rewrites
    | replaced given work replaced epoch store stored tended =>
        cases replaced with
        | forgot replayed without => exact .inr ⟨_, _, rfl, without, _, _, stored⟩
    | stuck given work replaced wedged => exact .inl ⟨_, rfl, .inl wedged⟩

end Eventlog.File
