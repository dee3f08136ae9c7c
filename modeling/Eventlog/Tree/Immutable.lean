import Eventlog.Tree.Loading

/-!
# Eventlog.Tree.Immutable

Published files are immutable: whatever handles open, commit, name, register, rebuild or read, a
file that was there keeps its bytes, so no commit is lost (`files_append_only`).  Only a redaction,
an erasure, the deletion of a blob and a repair do otherwise.
-/

namespace Eventlog.Tree

open Durable

variable {P : Platform} {E : Env}

/-- Every file is as it was, but for new ones. -/
abbrev Gains (d d' : Disk) : Prop := Disk.Adds (fun _ => True) d d'

theorem Disk.Adds.gains {A : Path → Prop} {d d' : Disk} (h : Disk.Adds A d d') : Gains d d' :=
  fun path => (h path).imp_right fun hnew => ⟨trivial, hnew.2⟩

theorem build_disk (D : Draws) (settled : Bool) (inline catchUp : List Projector) (root : Root) :
    (build P D settled inline catchUp root).2.disk = root.disk := by
  unfold build
  split <;> [rfl; split <;> [rfl; skip]]
  dsimp only
  split_ifs <;> rfl

namespace Store

variable {s : Store}

theorem refresh_disk : (s.refresh P E).2.root.disk = s.root.disk := by
  have hbuild := build_disk (P := P) E.rebuilding E.settled s.state.inline s.state.catchUp s.root
  unfold refresh
  split <;> [rfl; split] <;> simpa [*] using hbuild

theorem persist_gains {io : Io α} {A : Path → Prop} (h : Program.Keeps (Disk.Adds A) io) :
    Gains s.root.disk (s.persist io).2.root.disk := by
  unfold persist
  dsimp only
  split <;> exact (h.last _).gains

/-- A commit adds files, and stops at one that is there with other bytes. -/
theorem commit_gains (c : Commit) : Gains s.root.disk (c.run P E s).2.root.disk := by
  rcases hrun : c.run P E s with ⟨answer, s'⟩
  have hrefresh := refresh_disk (P := P) (E := E) (s := s)
  rcases Commit.run_cases hrun with ⟨rfl, -⟩ | ⟨-, -, ⟨_, heq, -⟩ | ⟨s₁, heq, happend⟩⟩
  · exact Std.Refl.refl _
  all_goals
    rw [heq] at hrefresh
    dsimp only at hrefresh ⊢
    rw [← hrefresh]
  · exact Std.Refl.refl _
  · rcases Commit.append_cases happend with ⟨_, -, -, rfl⟩ | ⟨_, engine, -, ⟨_, -, -, rfl⟩ |
      ⟨_, -, -, rfl⟩ | ⟨results, -, hpublish⟩⟩
    · exact Std.Refl.refl _
    · exact Std.Refl.refl _
    · exact Std.Refl.refl _
    · rcases Commit.publish_cases hpublish with ⟨_, -, -, rfl⟩ | ⟨plan, -, hroot, -⟩
      · exact Std.Refl.refl _
      · rw [hroot]
        exact ((plan.keeps_persist P c.tenant c.blobs).last _).gains

theorem streamIdentity_gains (tenant : TenantId) :
    Gains s.root.disk (s.streamIdentity P E tenant).2.root.disk := by
  have hfile (s : Store) (identity : String) :
      Gains s.root.disk (s.identityFile P tenant identity).2.root.disk := by
    unfold identityFile
    dsimp only
    split
    · split <;> [skip; split_ifs] <;> exact Std.Refl.refl _
    · have hkeeps : Program.Keeps Gains (writeOnce (identityPath tenant.value)
          (canonical P (.obj [("stream_identity", .str identity)]))) := keeps_writeOnce _ trivial
      split <;> exact hkeeps.last _
  unfold streamIdentity
  split
  · exact Std.Refl.refl _
  · dsimp only
    split
    · exact Std.Refl.refl _
    · split_ifs
      · exact Std.Refl.refl _
      · exact hfile _ _

theorem rebuildWith_disk (projector : Projector) :
    (s.rebuildWith P E projector).2.root.disk = s.root.disk := by
  have hbuild := build_disk (P := P) E.rebuilding E.settled (s.state.inline ++ [projector])
    s.state.catchUp s.root
  unfold rebuildWith
  split <;> simpa [*] using hbuild

theorem registerInline_disk (projector : Projector) :
    (s.registerInline P E projector).2.root.disk = s.root.disk := by
  unfold registerInline
  split
  · rfl
  · split <;> [rfl; split_ifs <;> [rfl; exact rebuildWith_disk projector]; rfl]

theorem onEngine_disk (call : Sqlite.Engine → Sqlite.Answer α) :
    (s.onEngine call).2.root.disk = s.root.disk := by
  unfold onEngine
  split <;> rfl

end Store

/-- The call takes files away or replaces them. -/
def Request.rewrites : Request → Bool
  | .Redact .. | .ForgetTenant .. | .DeleteBlob .. | .Repair => true
  | _ => false

/-- **One call** that does neither. -/
theorem Request.run_gains (s : Store) {request : Request} (h : request.rewrites = false) :
    Gains s.root.disk (request.run P E s).2.root.disk := by
  have same {d d' : Disk} (h : d' = d) : Gains d d' := fun _ => .inl (by rw [h])
  cases request with
  | Append stream expected events command guard =>
      simp only [run, answered, Store.appendGuarded]
      split
      · exact same rfl
      · have hcommit := Store.commit_gains (P := P) (E := E) (s := s)
          (appendCommit P E.draws stream expected events command guard)
        split <;> simpa [*] using hcommit
  | Group group guard blobs =>
      simp only [run, answered, Store.group]
      split
      · exact same rfl
      · exact Store.commit_gains _
  | PutBlob tenant digest bytes =>
      simp only [run, answered, Store.putBlob]
      split
      · exact same rfl
      · split
        · exact same rfl
        · exact Store.persist_gains ((Program.keeps_ask _).bind fun format =>
            keeps_writeBlob P tenant.value digest bytes format.splits)
  | StreamIdentity tenant => exact Store.streamIdentity_gains tenant
  | RegisterInline projector => exact same (Store.registerInline_disk projector)
  | CreateProjections projector =>
      simp only [run, answered, Store.createProjections]
      split <;> exact same rfl
  | AttachInlineExisting projector =>
      simp only [run, answered, Store.attachInlineExisting]
      split <;> [exact same rfl; exact same (Store.rebuildWith_disk projector)]
  | RunCatchUp | RebuildProjection | RebuildInlineProjection | SnapshotGeneration
  | SaveSnapshotChecked => exact same (Store.onEngine_disk _)
  | Redact | ForgetTenant | DeleteBlob | Repair => contradiction
  | _ => exact same rfl

/-- The action is such a call. -/
def Action.rewrites : Action → Bool
  | .Call _ _ request => request.rewrites
  | _ => false

theorem openStore_gains (layout : TreeLayout) (inline : List Projector) (root : Root) :
    Gains root.disk (openStore P E layout inline root).2.disk := by
  have hprepared := ((keeps_prepare P layout (E.draws.id 0)).last root.disk).gains
  unfold openStore
  dsimp only
  split
  · exact hprepared
  · have hbuild := build_disk (P := P) E.rebuilding E.settled inline []
      { root with disk := (prepare P layout (E.draws.id 0)).last root.disk }
    split <;> rename_i h <;> rw [h] at hbuild <;> exact hbuild ▸ hprepared

theorem World.act_gains (w : World) {a : Action} (h : a.rewrites = false) :
    Gains w.root.disk (w.act P a).2.root.disk := by
  cases a with
  | Open E layout inline =>
      have hopen := openStore_gains (P := P) (E := E) layout inline w.root
      simp only [World.act]
      split <;> simpa [*] using hopen
  | Call i E request =>
      simp only [World.act]
      split
      · exact fun _ => .inl rfl
      · exact Request.run_gains ⟨_, w.root⟩ h

/-- **Every run.** -/
theorem World.run_gains (w : World) {actions : List Action} (h : ∀ a ∈ actions, a.rewrites = false) :
    Gains w.root.disk (w.run P actions).root.disk := by
  induction actions generalizing w with
  | nil => exact Std.Refl.refl _
  | cons a rest ih =>
      have hrest := ih (w.act P a).2 fun b hb => h b (List.mem_cons_of_mem a hb)
      exact trans_of Gains (w.act_gains (h a List.mem_cons_self)) hrest

end Eventlog.Tree
