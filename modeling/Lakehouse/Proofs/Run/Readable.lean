import Lakehouse.Proofs.Log.Readable
import Lakehouse.Proofs.Run.Progress
import Lakehouse.Proofs.Table.Filing

/- Calls and readable logs.

   What an operation does before it comes to the log leaves a safe log as it is (`files_safe`). The
   actions that it then writes can be applied to the table that it has just read, or to any table.
   So no call makes a safe log unreadable, whatever the copy is through which it comes, and wherever
   it stops (`Call.stays_readable`). That the log is safe cannot be left out: a commit that was left
   behind the last one and goes on from it by its numbers alone is made current by the next writer
   that meets it (`Call.leftover_breaks_log`). -/
namespace Lakehouse

open Log Script Contract

variable {root : Location} {files : Tree} {t u : Table}

/-- Filing contents leaves a safe log as it is. -/
theorem Log.files_safe (root : Location) (t : Table) :
    (steady root).Files (Safe root t) fun _ => True := by
  refine ⟨fun _ _ => id, fun files content kind path hsafe hname => ?_, fun _ _ _ _ _ _ _ _ _ => trivial⟩
  obtain ⟨directory, name, hne, hp, hbeside⟩ := hname.beside_commits
  obtain ⟨hkeep, hwrote, -⟩ := Tree.create_wrote files root hp hne content
  have hafter := hsafe.of_wroteAt hkeep hwrote fun _ => hbeside _
  exact ⟨fun _ => ⟨t, hafter.read⟩, hafter⟩

/-! ### Operations -/

namespace Table

open TableM

/-- Reading the table again gives the one that the log has. -/
theorem ofFiles_loadLatest {c : Contract} (hread : perform c.root rebuild files = (.ok t, files))
    (hrefl : c.keeps files files) {α : Type} {next : Table → TableM α}
    {post : α → Table → Tree → Prop} {fail : TableError → Table → Tree → Prop}
    (hnext : c.Performs (next t) u files post fail) :
    c.Performs (ofFiles loadLatest >>= next) u files post fail := by
  have hlatest := perform_loadLatest_of_rebuild hread
  refine Performs.bind (Performs.ofFiles ((attempts_of_reads reads_loadLatest hrefl).mono ?_ ?_))
  · rintro t' files' ⟨hread', rfl⟩
    obtain rfl := Except.ok.inj (Prod.mk.inj (hlatest.symm.trans hread')).1
    exact hnext
  · rintro e files' ⟨hread', rfl⟩
    exact absurd (hlatest.symm.trans hread') (by simp)

/-- Whatever copy is kept: actions that are meant for the table of a safe log and can be applied to
it keep the log readable. -/
theorem commitActions_steady (hsafe : Safe root t files) {actions : List Action}
    (hvalid : u.version = t.version → ∃ w, t.applyAll actions = .ok w)
    (expected : Option SnapshotId) (now : Calendar.Instant) :
    (steady root).Performs (commitActions expected actions now) u files (fun _ _ _ => True)
      (fun _ _ _ => True) := by
  refine Performs.bind (Performs.get (Performs.bind (Performs.ofScript
    (Ensures.mono (append_steady hsafe hvalid now) fun r files' _ => ?_))))
  cases r with
  | ok v =>
    dsimp only
    split
    · exact Performs.set trivial
    · exact Performs.throw trivial
  | error e =>
    dsimp only
    split
    · refine Performs.bind (Performs.ofScript ((ensures_of_reads (c := steady root)
        reads_latestCurrentId id).mono fun _ _ _ => ?_))
      exact Performs.throw trivial
    · exact Performs.throw trivial

/-- A commit writes to the log, and nothing else. -/
theorem files_of_commitActions (root : Location) (t : Table) (files : Tree)
    (expected : Option SnapshotId) (actions : List Action) (now : Calendar.Instant) :
    ((commitActions expected actions now).perform root t files).2 =
      (perform root (Log.append t.version actions now) files).2 := by
  rw [commitActions, TableM.perform_bind]
  simp only [TableM.perform_get]
  rw [TableM.perform_bind]
  simp only [TableM.perform_ofScript]
  rw [show (Log.append t.version actions now).run.run root files =
    perform root (Log.append t.version actions now) files from rfl]
  generalize perform root (Log.append t.version actions now) files = outcome
  obtain ⟨result, files'⟩ := outcome
  cases result with
  | ok v =>
    dsimp only
    split <;> rfl
  | error e =>
    dsimp only
    split
    · rw [TableM.perform_bind]
      simp only [TableM.perform_ofScript, TableM.perform_throw]
      exact reads_latestCurrentId.run_snd root files'
    · rfl

theorem commit_steady (hsafe : Safe root t files) (base : Option SnapshotId) (operation : Operation)
    (changes : FileChanges) (now : Calendar.Instant) :
    (steady root).Performs (commit base operation changes now) u files (fun _ _ _ => True)
      (fun _ _ _ => True) := by
  refine ofFiles_loadLatest hsafe.read id ?_
  split
  next => exact Performs.throw trivial
  next =>
    refine Performs.bind (Performs.set (Performs.bind (Performs.ofFiles ((attempts_of_reads
      (c := steady root) (t.reads_plan operation changes) id).mono ?_ fun _ _ _ => trivial))))
    rintro p files' ⟨hplan, rfl⟩
    have hfresh : ∀ s : Snapshot, s.id = p.id → t.snapshots.contains s.id = false :=
      fun s hs => hs ▸ nextId_fresh (perform_plan_iff.1 hplan).next
    refine Performs.bind (Performs.ofFiles ((beside_writeSnapshot (files_safe root t) t.spec _ p
      files' hsafe).mono (fun list files'' hsafe' => ?_) fun _ _ _ => trivial))
    have hregister := applyAll_register (hfresh (p.snapshot base operation list now) rfl) base now
    exact Performs.bind ((commitActions_steady hsafe' (fun _ => ⟨_, hregister⟩) base now).mono
      (fun _ _ _ _ => Performs.pure trivial) fun _ _ _ _ => trivial)

theorem setCurrent_steady (hsafe : Safe root t files) (target : SnapshotId) (now : Calendar.Instant) :
    (steady root).Performs (setCurrent target now) u files (fun _ _ _ => True)
      (fun _ _ _ => True) := by
  refine Performs.bind (ofFiles_loadLatest hsafe.read id (Performs.set (Performs.bind
    (Performs.get ?_))))
  dsimp only
  refine Performs.guard (fun _ => trivial) fun hsome => Performs.bind (Performs.get ?_)
  exact commitActions_steady hsafe (fun _ => ⟨_, applyAll_move (contains_of_snapshot? hsome) none now⟩)
    _ now

theorem rollback_steady (hsafe : Safe root t files) (target : SnapshotId) (now : Calendar.Instant) :
    (steady root).Performs (rollback target now) u files (fun _ _ _ => True)
      (fun _ _ _ => True) := by
  refine Performs.bind (ofFiles_loadLatest hsafe.read id (Performs.set (Performs.bind
    (Performs.get ?_))))
  dsimp only
  refine Performs.guard (fun _ => trivial) fun hsome => ?_
  refine Performs.guard (fun _ => trivial) fun _ => Performs.bind (Performs.get ?_)
  exact commitActions_steady hsafe (fun _ => ⟨_, applyAll_move (contains_of_snapshot? hsome) none now⟩)
    _ now

theorem stage_steady (hsafe : Safe root t files) (added : List DataFile) :
    (steady root).Performs (stage added) u files (fun _ u' files' => u' = u ∧ Safe root t files')
      (fun _ _ _ => True) := by
  refine Performs.bind (Performs.get (Performs.ofFiles (Attempts.map
    ((FileM.beside_writeOnce (files_safe root t) .staged files hsafe).mono ?_ fun _ _ _ => trivial))))
  exact fun _ _ hsafe' => ⟨rfl, hsafe'⟩

theorem intake_steady (hsafe : Safe root t files) (directory : String) (now : Calendar.Instant) :
    (steady root).Performs (intake directory now) u files (fun _ _ _ => True)
      (fun _ _ _ => True) := by
  refine Performs.bind (Performs.ofFiles ((attempts_of_reads (c := steady root)
    (reads_findImportable directory) id).mono ?_ fun _ _ _ => trivial))
  rintro found files' ⟨-, rfl⟩
  refine Performs.bind (Performs.get (Performs.bind (Performs.ofFiles ((attempts_of_reads
    (c := steady root) (Reads.mapM (reads_loadFile u.schema u.spec directory) found) id).mono ?_
      fun _ _ _ => trivial))))
  rintro added files'' ⟨-, rfl⟩
  refine Performs.bind ((stage_steady hsafe added).mono ?_ fun _ _ _ _ => trivial)
  rintro path u' files' ⟨rfl, hsafe'⟩
  exact Performs.bind (Performs.get (commit_steady hsafe' _ .append _ now))

end Table

namespace Call

theorem steady_of_change {call : Call} {change : Change} (hsafe : Safe root t files)
    (hchange : call.change? u = some change) (now : Calendar.Instant) :
    (steady root).Performs (call.run now) u files (fun _ _ _ => True) (fun _ _ _ => True) := by
  rw [Performs, run_of_change hchange]
  exact Performs.map (Table.commit_steady hsafe change.base change.operation change.changes now)

/-- Each access of a call keeps a safe log readable. -/
theorem steady (hsafe : Safe root t files) (call : Call) (now : Calendar.Instant) :
    (Log.steady root).Performs (call.run now) u files (fun _ _ _ => True) (fun _ _ _ => True) := by
  cases call with
  | refresh => exact Performs.map (Table.ofFiles_loadLatest hsafe.read id (Performs.set trivial))
  | stage added =>
    exact Performs.map ((Table.stage_steady hsafe added).mono (fun _ _ _ _ => trivial)
      fun _ _ _ _ => trivial)
  | rollback target => exact Performs.map (Table.rollback_steady hsafe target now)
  | setCurrent target => exact Performs.map (Table.setCurrent_steady hsafe target now)
  | updateProperties set remove =>
    refine Performs.map (Performs.bind (Performs.get ?_))
    exact Table.commitActions_steady hsafe (fun _ => ⟨_, rfl⟩) _ now
  | intake directory => exact Performs.map (Table.intake_steady hsafe directory now)
  | commit => exact steady_of_change hsafe rfl now
  | append => exact steady_of_change hsafe rfl now
  | appendManifests => exact steady_of_change hsafe rfl now
  | deleteFiles => exact steady_of_change hsafe rfl now
  | deleteWhere => exact steady_of_change hsafe rfl now
  | overwrite => exact steady_of_change hsafe rfl now

/-- Whatever the files are, as long as the log can be read: it can be read after every call,
through whatever copy the call comes, and also if the call stops for good after some number of
accesses. The only condition is that a commit file behind the last commit, if there is one that
goes on from it by its numbers, has actions that can be applied to the table. -/
theorem stays_readable (root : Location) (files : Tree) (t : Table)
    (hread : perform root rebuild files = (.ok t, files))
    (hnext : ∀ c, Holds root files (t.version + 1) c → c.version = t.version + 1 →
      c.base = t.version → ∃ u, t.applyAll c.actions = .ok u)
    (call : Call) (now : Calendar.Instant) (copy : Table) :
    Readable root ((call.run now).perform root copy files).2 ∧
      ∀ limit, Readable root (((call.run now).run.run copy).runFor root limit files).2 := by
  have hsteady := steady (u := copy) ⟨hread, hnext⟩ call now
  have hadmits : ∀ r ∈ ((call.run now).run.run copy).requests (Log.steady root).root files,
      (Log.steady root).admits r := fun _ _ => trivial
  have hrun := Ensures.runFor hsteady hadmits (fun _ h => h) fun _ _ _ h h' => h' ∘ h
  refine ⟨?_, fun limit => (hrun limit).1 ⟨t, hread⟩⟩
  exact (hrun 0).2 ((hrun 0).1 ⟨t, hread⟩)

/-- A new table without columns, and a second commit with these actions that a writer has left
behind the first one. -/
def leftBehind (actions : List Action) : Tree :=
  ((oneCommit ⟨1, 0, default, [.create World.columnless]⟩).create
    (Path.join "." (Layout.commitPath 2)) (commitContent ⟨2, 1, default, actions⟩)).2

theorem leftBehind_spec (actions : List Action) : (leftBehind actions).Hosts ⟨"."⟩ ∧
    perform ⟨"."⟩ rebuild (leftBehind actions) =
      (.ok (.new 1 World.columnless), leftBehind actions) ∧
    Holds ⟨"."⟩ (leftBehind actions) 2 ⟨2, 1, default, actions⟩ := by
  have hcommit := Layout.isTablePath_commit 2
  obtain ⟨hosts, -, hcommits⟩ := content_oneCommit ⟨1, 0, default, [.create World.columnless]⟩
  have hlogged : Logged ⟨"."⟩ (oneCommit ⟨1, 0, default, [.create World.columnless]⟩) 1 _ :=
    logged_oneCommit rfl
  obtain ⟨hosts', hkeep, -⟩ := Tree.create_outcome hosts hcommit (commitContent ⟨2, 1, default, actions⟩)
  obtain ⟨-, hcreated⟩ := Tree.create_of_takes hosts hcommit (roomy_here.commit 2) (hcommits 2)
    (commitContent ⟨2, 1, default, actions⟩)
  exact ⟨hosts', perform_rebuild_iff.2 ⟨rfl, 1, _, hlogged.keeps hkeep,
    tableAfter?_create 0 default World.columnless⟩, .of_content hcreated.here⟩

/-- The properties were changed by a writer that did not come to name its commit. -/
theorem stays_readable_leftover :
    let files := leftBehind [.updateProperties .empty []]
    perform ⟨"."⟩ rebuild files = (.ok (.new 1 World.columnless), files) ∧
      (∃ c, Holds ⟨"."⟩ files 2 c ∧ c.version = 2 ∧ c.base = 1) ∧
      Readable ⟨"."⟩ (((updateProperties .empty []).run default).perform ⟨"."⟩
        (.new 1 World.columnless) files).2 := by
  intro files
  obtain ⟨-, hread, hsecond⟩ := leftBehind_spec [.updateProperties .empty []]
  refine ⟨hread, ⟨_, hsecond, rfl, rfl⟩, ?_⟩
  refine (stays_readable ⟨"."⟩ files (.new 1 World.columnless) hread (fun c hc _ _ => ?_)
    (updateProperties .empty []) default (.new 1 World.columnless)).1
  obtain rfl := hsecond.unique hc
  exact ⟨_, rfl⟩

/-- Changing properties writes to the log, and nothing else. -/
theorem files_of_updateProperties (root : Location) (t : Table) (files : Tree) (set : Properties)
    (remove : List String) (now : Calendar.Instant) :
    (((updateProperties set remove).run now).perform root t files).2 =
      (perform root (Log.append t.version [.updateProperties set remove] now) files).2 := by
  rw [← Table.files_of_commitActions root t files t.currentId, run, Table.updateProperties,
    TableM.perform, run_map_get, ← TableM.perform, ← bind_pure_comp, TableM.perform_bind]
  split
  next h => rw [h]; rfl
  next h => rw [h]

/-- A commit that moves the pointer to a snapshot that was never registered goes on from the first
commit by its numbers. The call that meets it only loses, but nobody can read the log any more. -/
theorem leftover_breaks_log :
    let files := leftBehind [.moveCurrent 7 none default]
    Readable ⟨"."⟩ files ∧
      ¬ Readable ⟨"."⟩ (((updateProperties .empty []).run default).perform ⟨"."⟩
        (.new 1 World.columnless) files).2 := by
  intro files
  obtain ⟨hosts, hread, hsecond⟩ := leftBehind_spec [.moveCurrent 7 none default]
  have hmeets := append_meets_leftover hosts roomy_here hread hsecond rfl rfl (by decide)
    [.updateProperties .empty []] default
  have hunknown : (Table.new 1 World.columnless).applyAll [.moveCurrent 7 none default] =
      .error (.unknownCurrent 7) := rfl
  refine ⟨⟨_, hread⟩, fun hafter => ?_⟩
  rw [files_of_updateProperties] at hafter
  obtain ⟨u, hu⟩ := hmeets.2.1 hafter
  exact absurd (hunknown.symm.trans hu) (by simp)

end Call

end Lakehouse
