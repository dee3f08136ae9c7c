import Eventlog.Tree.Reading
import Eventlog.Tree.World

/-!
# Eventlog.Tree.Publishing

What the file operations of a tree store leave of the files that were there.

Everything but a redaction, a deletion and an erasure only adds files (`Disk.Adds`): a published
file is immutable, and a writer that finds other bytes in its place stops.
-/

namespace Eventlog.Tree

open Durable
open File (Table)

variable (P : Platform)

/-- Every file is as it was, but for those that came to be at one of the paths `A`. -/
def Disk.Adds (A : Path → Prop) (d d' : Disk) : Prop :=
  ∀ path : Path, d'.files[path]? = d.files[path]? ∨ (A path ∧ d.files[path]? = none)

section Frames

variable {A B : Path → Prop} {d d' : Disk}

instance : Std.Refl (Disk.Adds A) := ⟨fun _ _ => .inl rfl⟩

instance : IsTrans Disk (Disk.Adds A) where
  trans d₁ d₂ d₃ h₁ h₂ path := by
    rcases h₂ path with heq | ⟨hA, hnone⟩
    · rcases h₁ path with heq' | hnew
      · exact .inl (heq.trans heq')
      · exact .inr hnew
    · rcases h₁ path with heq' | hnew
      · exact .inr ⟨hA, heq' ▸ hnone⟩
      · exact .inr hnew

/-- No file comes to be elsewhere. -/
theorem Disk.Adds.same (h : Disk.Adds A d d') {path : Path} (hpath : ¬A path) :
    d'.files[path]? = d.files[path]? :=
  (h path).resolve_right fun hnew => hpath hnew.1

/-- `write_atomic` always succeeds. -/
theorem writeAtomic_run (path : Path) (bytes : Bytes) (d : Disk) :
    writeAtomic path bytes d =
      ⟨[{ d with staged := d.staged.insert path bytes },
        ⟨d.files.insert path bytes, (d.staged.insert path bytes).erase path⟩], .ok ()⟩ := by
  have hrename : Disk.rename path { d with staged := d.staged.insert path bytes } =
      .ok ⟨d.files.insert path bytes, (d.staged.insert path bytes).erase path⟩ := by
    unfold Disk.rename
    simp
  unfold writeAtomic
  rw [Program.bind_of_ok (a := ()) rfl]
  simp [Program.perform, Program.last, Disk.stage, hrename]

/-- `write_once` at a name that is free. -/
theorem writeOnce_run {path : Path} (bytes : Bytes) (h : d.files[path]? = none) :
    writeOnce path bytes d = writeAtomic path bytes d := by
  unfold writeOnce
  rw [Program.bind_of_ok (a := none) (congrArg Except.ok h)]
  rfl

theorem keeps_writeOnce {path : Path} (bytes : Bytes) (hpath : A path) :
    Program.Keeps (Disk.Adds A) (writeOnce path bytes) := by
  intro d d' hd'
  cases hheld : d.files[path]? with
  | none =>
      rw [writeOnce_run bytes hheld, writeAtomic_run] at hd'
      simp only [List.mem_cons, List.not_mem_nil, or_false] at hd'
      rcases hd' with rfl | rfl | rfl
      · exact Std.Refl.refl d'
      · exact fun _ => .inl rfl
      · intro other
        rw [table_insert]
        split
        · next heq => exact .inr ⟨heq ▸ hpath, heq ▸ hheld⟩
        · exact .inl rfl
  | some held =>
      have hunmoved : (writeOnce path bytes d).passed = [] := by
        unfold writeOnce
        rw [Program.bind_of_ok (a := some held) (congrArg Except.ok hheld)]
        by_cases hsame : held = bytes <;> simp [hsame, Program.ask, pure, Program.done, Program.fail]
      rw [hunmoved, List.mem_singleton] at hd'
      exact hd' ▸ Std.Refl.refl d'

/-! ## Commits -/

/-- A path of a tenant's groups, streams or blobs. -/
def InTenant (path : Path) : Prop :=
  ∃ tenant kind rest, path = "tenants" :: tenant :: kind :: rest ∧ kind ≠ "identity.json"

theorem keeps_writeBlob (tenant digest : String) (bytes : Bytes) (splitAllowed : Bool) :
    Program.Keeps (Disk.Adds InTenant) (writeBlob P tenant digest bytes splitAllowed) := by
  have hraw : Program.Keeps (Disk.Adds InTenant) (writeOnce (blobPath tenant digest) bytes) :=
    keeps_writeOnce bytes ⟨tenant, "blobs", [digest], rfl, by decide⟩
  refine (Program.keeps_ask _).bind fun files => ?_
  split
  · exact hraw
  · split
    · cases readBlob P files tenant digest with
      | error error => exact Program.keeps_fail error
      | ok held =>
          dsimp only
          split
          · exact Program.keeps_done ()
          · exact Program.keeps_fail _
    · rcases split P digest bytes with _ | _ | ⟨manifest, texts⟩
      · exact Program.keeps_fail _
      · exact hraw
      · refine Program.Keeps.bind (Program.keeps_forM fun text _ => ?_) fun _ => ?_
        · exact keeps_writeOnce text.2 ⟨tenant, "texts", [text.1.headD ""], rfl, by decide⟩
        · exact keeps_writeOnce manifest ⟨tenant, "split-blobs", [digest], rfl, by decide⟩

theorem keeps_writeEvent (format : StoreFormat) (record : EventRecord) (digest : String) :
    Program.Keeps (Disk.Adds InTenant) (writeEvent P format record digest) :=
  (Program.keeps_ask _).bind fun _ =>
    keeps_writeOnce _ ⟨record.tenant, "streams", _, rfl, by decide⟩

theorem Plan.keeps_persist (p : Plan) (tenant : TenantId) (blobs : List (String × Bytes)) :
    Program.Keeps (Disk.Adds InTenant) (p.persist P tenant blobs) := by
  refine (Program.keeps_ask _).bind fun format => ?_
  refine Program.Keeps.bind
    (Program.keeps_forM fun b _ => keeps_writeBlob P tenant.value b.1 b.2 format.splits) fun _ => ?_
  refine Program.Keeps.bind
    (Program.keeps_forM fun r _ => keeps_writeEvent P format r.1 r.2) fun _ => ?_
  refine (Program.keeps_ask _).bind fun value => ?_
  refine Program.Keeps.bind ?_ fun _ => Program.keeps_done _
  exact keeps_writeOnce _ ⟨tenant.value, "groups", _, rfl, by decide⟩

theorem keeps_prepare (layout : TreeLayout) (identity : String) :
    Program.Keeps (Disk.Adds (· = storePath)) (prepare P layout identity) := by
  refine (Program.keeps_ask _).bind fun files => ?_
  split
  · exact (Program.keeps_ask _).bind fun _ => Program.keeps_done ()
  · exact keeps_writeOnce _ rfl

end Frames

/-! ## What a commit can do -/

section Commit

variable {P} {c : Commit} {s s' : Store} {expected : List Expected} {results : List AppendResult}
  {answer : Except EventLogError (List AppendResult × Bool)}

/-- The files a plan leaves. -/
def Plan.persisted (P : Platform) (p : Plan) (tenant : TenantId) (blobs : List (String × Bytes))
    (root : Root) : Root :=
  { root with disk := (p.persist P tenant blobs).last root.disk }

theorem Commit.publish_cases (h : c.publish P expected results s = (answer, s')) :
    (∃ error, c.plan P s.state expected results = .error error ∧ answer = .error error ∧ s' = s) ∨
    ∃ plan, c.plan P s.state expected results = .ok plan ∧
      s'.root = plan.persisted P c.tenant c.blobs s.root ∧
      ((∃ error, (plan.persist P c.tenant c.blobs s.root.disk).result = .error error ∧
          answer = .error error ∧ s'.state = { s.state with poisoned := true }) ∨
        ∃ path, (plan.persist P c.tenant c.blobs s.root.disk).result = .ok path ∧
          answer = .ok (plan.results results, false) ∧
          s'.state = s.state.committed plan path (c.members.map Prod.fst)) := by
  unfold Commit.publish at h
  cases hplan : c.plan P s.state expected results with
  | error error =>
      rw [hplan] at h
      obtain ⟨rfl, rfl⟩ := Prod.mk.inj h
      exact .inl ⟨error, rfl, rfl, rfl⟩
  | ok plan =>
      rw [hplan] at h
      dsimp only at h
      refine .inr ⟨plan, rfl, ?_⟩
      cases hresult : (plan.persist P c.tenant c.blobs s.root.disk).result with
      | error error =>
          rw [hresult] at h
          obtain ⟨rfl, rfl⟩ := Prod.mk.inj h
          exact ⟨rfl, .inl ⟨error, rfl, rfl, rfl⟩⟩
      | ok path =>
          rw [hresult] at h
          obtain ⟨rfl, rfl⟩ := Prod.mk.inj h
          exact ⟨rfl, .inr ⟨path, rfl, rfl, rfl⟩⟩

theorem Commit.append_cases (h : c.append P s = (answer, s')) :
    (∃ error, s.state.checkHeads P c.members = .error error ∧ answer = .error error ∧ s' = s) ∨
    ∃ expected engine, s.state.checkHeads P c.members = .ok expected ∧
      ((∃ error, c.call s.state.engine expected = (.error error, engine) ∧
          answer = .error error ∧ s' = s.withEngine engine) ∨
        (∃ results, c.call s.state.engine expected = (.ok (results, true), engine) ∧
          answer = .ok (results.map s.state.decorated, true) ∧ s' = s.withEngine engine) ∨
        ∃ results, c.call s.state.engine expected = (.ok (results, false), engine) ∧
          c.publish P expected results (s.withEngine engine) = (answer, s')) := by
  unfold Commit.append at h
  cases hheads : s.state.checkHeads P c.members with
  | error error =>
      rw [hheads] at h
      obtain ⟨rfl, rfl⟩ := Prod.mk.inj h
      exact .inl ⟨error, rfl, rfl, rfl⟩
  | ok expected =>
      simp only [hheads] at h
      rcases hcall : c.call s.state.engine expected with ⟨error | ⟨results, _ | _⟩, engine⟩ <;>
        simp only [hcall] at h <;> refine .inr ⟨expected, engine, rfl, ?_⟩
      · obtain ⟨rfl, rfl⟩ := Prod.mk.inj h
        exact .inl ⟨error, hcall, rfl, rfl⟩
      · exact .inr (.inr ⟨results, hcall, h⟩)
      · obtain ⟨rfl, rfl⟩ := Prod.mk.inj h
        exact .inr (.inl ⟨results, hcall, rfl, rfl⟩)

/-- A commit that runs at all refreshes its handle first. -/
theorem Commit.run_cases {E : Env} (h : c.run P E s = (answer, s')) :
    (s' = s ∧ ∃ error, answer = .error error) ∨
    (s.state.poisoned = false ∧ c.command.claim = none ∧
      ((∃ error, s.refresh P E = (.error error, s') ∧ answer = .error error) ∨
        ∃ s₁, s.refresh P E = (.ok (), s₁) ∧ c.append P s₁ = (answer, s'))) := by
  unfold Commit.run at h
  cases hclaim : c.command.claim with
  | some claim =>
      rw [hclaim] at h
      obtain ⟨rfl, rfl⟩ := Prod.mk.inj h
      exact .inl ⟨rfl, _, rfl⟩
  | none =>
      rw [hclaim] at h
      cases hpoisoned : s.state.poisoned with
      | true =>
          rw [hpoisoned] at h
          obtain ⟨rfl, rfl⟩ := Prod.mk.inj h
          exact .inl ⟨rfl, _, rfl⟩
      | false =>
          rw [hpoisoned] at h
          refine .inr ⟨rfl, rfl, ?_⟩
          rcases hrefresh : s.refresh P E with ⟨error | _, s₁⟩
          · rw [hrefresh] at h
            obtain ⟨rfl, rfl⟩ := Prod.mk.inj h
            exact .inl ⟨error, rfl, rfl⟩
          · rw [hrefresh] at h
            exact .inr ⟨s₁, rfl, h⟩

end Commit

end Eventlog.Tree
