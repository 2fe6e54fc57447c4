import Lakehouse.Proofs.Log.Stranded
import Lakehouse.Proofs.Run.Readable

/- Writers that meet commits which were left behind.

   Where the log is read as a table, and commits were left behind it, a writer that has just read the
   table comes to one of three ends (`Met`). It loses to the first of these commits, which then is
   current; or there is none to lose to; or it fails before it comes to the log, and then the
   commits are left as they were. -/
namespace Lakehouse

open Calendar (Instant)
open Contract Log Script

variable {root : Location} {files : Tree} {t u : Table} {rest : List Commit}

/-- Accesses below a root, of which nothing is asked. -/
def Contract.free (root : Location) : Contract := ⟨root, fun _ => True, fun _ _ => True⟩

theorem Contract.ensures_run {α : Type} (root : Location) (s : Script α) (files : Tree) :
    (free root).Ensures s files fun a files' => s.run root files = (a, files') := by
  induction s generalizing files with
  | done a => exact rfl
  | ask r next ih => exact fun _ => ⟨trivial, ih _ _⟩

/-- What an operation came to, and the files that it left, where the log was read as a table and
these commits were left behind it; there is a fault if it failed. -/
inductive Met (root : Location) (t : Table) : List Commit → Option TableError → Tree → Prop where
  /-- It has lost to the first of the commits, which is now current. -/
  | lost {c : Commit} {rest : List Commit} {u : Table} {base found : Option SnapshotId}
      {files' : Tree} (applied : t.applyAll c.actions = .ok u)
      (pending : Pending root { u with version := t.version + 1 } rest files') :
      Met root t (c :: rest) (some (.commitConflict base found)) files'
  /-- There was none to lose to. -/
  | decided {fault : Option TableError} {files' : Tree}
      (kept : ∀ base found, fault ≠ some (.commitConflict base found)) : Met root t [] fault files'
  /-- It failed before it came to the log. -/
  | early {rest : List Commit} {e : TableError} {files' : Tree} (beside : e.concernsLog = false)
      (pending : Pending root t rest files') : Met root t rest (some e) files'

namespace Met

variable {fault : Option TableError}

/-- Who has lost has lost to the first commit that was left. -/
theorem of_conflict {base found : Option SnapshotId}
    (h : Met root t rest (some (.commitConflict base found)) files) : ∃ c rest' u,
      rest = c :: rest' ∧ t.applyAll c.actions = .ok u ∧
      Pending root { u with version := t.version + 1 } rest' files := by
  cases h with
  | lost happlied hpending => exact ⟨_, _, _, rfl, happlied, hpending⟩
  | decided hkept => exact absurd rfl (hkept base found)
  | early hbeside => exact absurd hbeside (by simp [TableError.concernsLog])

/-- Otherwise there was none, or the log was not come to. -/
theorem of_kept (h : Met root t rest fault files)
    (hkept : ∀ base found, fault ≠ some (.commitConflict base found)) :
    rest = [] ∨ ∃ e, fault = some e ∧ e.concernsLog = false ∧ Pending root t rest files := by
  cases h with
  | lost => exact absurd rfl (hkept _ _)
  | decided => exact .inl rfl
  | early hbeside hpending => exact .inr ⟨_, rfl, hbeside, hpending⟩

end Met

/-- Up to the log, the commits that were left stay as they are. -/
theorem Log.files_pending (root : Location) (t : Table) (rest : List Commit) :
    (free root).Files (Pending root t rest) fun e => e.concernsLog = false :=
  ⟨fun _ _ => trivial, fun _ _ _ _ h hname => ⟨trivial, h.filed hname⟩, fun _ _ _ _ _ _ _ _ _ => rfl⟩

namespace Table

open TableM

/-- An access beside the log fails early, or the log is as it was. -/
theorem ofFiles_meets {α β : Type} {access : FileM α} {next : α → TableM β} {copy : Table}
    (h : Pending root t rest files)
    (haccess : FileM.Beside (free root) (Pending root t rest) (fun e => e.concernsLog = false) access)
    (hnext : ∀ a files', Pending root t rest files' →
      (free root).Performs (next a) copy files' (fun _ _ files'' => Met root t rest none files'')
        (fun e _ files'' => Met root t rest (some e) files'')) :
    (free root).Performs (ofFiles access >>= next) copy files
      (fun _ _ files' => Met root t rest none files')
      (fun e _ files' => Met root t rest (some e) files') :=
  Performs.bind (Performs.ofFiles ((haccess files h).mono (fun a files' => hnext a files')
    fun _ _ he => .early he.1 he.2))

theorem commitActions_meets (h : Pending root t rest files) (base : Option SnapshotId)
    (actions : List Action) (now : Instant) :
    (free root).Performs (commitActions base actions now) t files
      (fun _ _ files' => Met root t rest none files')
      (fun e _ files' => Met root t rest (some e) files') := by
  refine Performs.bind (Performs.get (Performs.bind (Performs.ofScript
    ((ensures_run root _ files).mono fun r files' hrun => ?_))))
  change perform root (Log.append t.version actions now) files = (r, files') at hrun
  cases rest with
  | nil =>
    cases r with
    | ok v =>
      dsimp only
      split
      · exact Performs.set (.decided (by simp))
      · exact Performs.throw (.decided (by simp))
    | error e =>
      have hno := h.append_decides actions now hrun
      simp only [hno, Bool.false_eq_true, if_false]
      exact Performs.throw (.decided (by simp))
  | cons c rest =>
    obtain ⟨u, files₁, hlost, happlied, hpending⟩ := h.append_loses actions now
    obtain ⟨rfl, rfl⟩ := Prod.mk.inj (hrun.symm.trans hlost)
    simp only [LogError.isConflict, if_true]
    refine Performs.bind (Performs.ofScript ((ensures_of_reads (c := free root)
      reads_latestCurrentId trivial).mono ?_))
    rintro found files' ⟨-, rfl⟩
    exact Performs.throw (.lost happlied hpending)

/-- A change that is meant for the current snapshot cannot lose but in the log. -/
theorem commit_meets (h : Pending root t rest files) (operation : Operation) (changes : FileChanges)
    (copy : Table) (now : Instant) :
    (free root).Performs (commit t.currentId operation changes now) copy files
      (fun _ _ files' => Met root t rest none files')
      (fun e _ files' => Met root t rest (some e) files') := by
  refine ofFiles_loadLatest h.read trivial ?_
  rw [if_neg (by simp)]
  refine Performs.bind (Performs.set (ofFiles_meets h
    (beside_plan (fun _ _ => trivial) (fun _ => id) t operation changes) fun p files₁ h₁ => ?_))
  refine ofFiles_meets h₁ (beside_writeSnapshot (files_pending root t rest) t.spec _ p)
    fun list files₂ h₂ => ?_
  exact Performs.bind ((commitActions_meets h₂ _ _ now).mono (fun _ _ _ hmet => Performs.pure hmet)
    fun _ _ _ hmet => hmet)

theorem intake_meets (h : Pending root t rest files) (directory : String) (now : Instant) :
    (free root).Performs (intake directory now) t files
      (fun _ _ files' => Met root t rest none files')
      (fun e _ files' => Met root t rest (some e) files') := by
  refine ofFiles_meets h (beside_findImportable (fun _ _ => trivial) (fun _ => id) directory)
    fun found files₁ h₁ => Performs.bind (Performs.get ?_)
  refine ofFiles_meets h₁ (.mapM (beside_loadFile (fun _ _ => trivial) (fun _ => id) t.schema t.spec
    directory) found) fun added files₂ h₂ => Performs.bind (Performs.bind (Performs.get ?_))
  refine Performs.ofFiles (((FileM.beside_writeOnce (files_pending root t rest) .staged).map _ files₂
    h₂).mono (fun path files₃ h₃ => ?_) fun _ _ he => .early he.1 he.2)
  exact Performs.bind (Performs.get (commit_meets h₃ .append _ t now))

end Table

end Lakehouse
