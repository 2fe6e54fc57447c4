import Lakehouse.Proofs.Table.Loading
import Lakehouse.Table.Intake

/- What operations come to.

   Each operation that writes has one lemma for all its outcomes. A change that succeeds
   was planned for the table as the log had it, has filed its manifests and their list, and
   has added one commit (`Committed`); the other operations add one commit and nothing else
   (`Wrote`). A failure of any of them leaves the commits of the log as they were, and the
   copy too, unless the table could be read again (`Failed`). A change of the current snapshot
   for which there is a plan fails only if something stands in the way of the next commit. -/
namespace Lakehouse.Table

open Contract Log Script

variable {asked : Request → Prop} {root : Location} {files : Tree} {commits : List Commit}
  {current : Nat} {t : Table}

/-- Reading for an operation comes to what the reading is performed to. -/
theorem ofFiles_performs {α : Type} {access : FileM α} (h : access.run.Reads)
    {post : α → Table → Tree → Prop} {fail : TableError → Table → Tree → Prop}
    (hok : ∀ a, perform root access files = (.ok a, files) → post a t files)
    (herror : ∀ e, perform root access files = (.error e, files) → fail e t files) :
    (contract asked root).Performs (TableM.ofFiles access) t files post fail := by
  refine Performs.ofFiles ((reads_attempts h).mono ?_ ?_)
  · rintro a files' ⟨ha, rfl⟩
    exact hok a ha
  · rintro e files' ⟨he, rfl⟩
    exact herror e he

theorem perform_loadLatest {t : Table} (h : perform root loadLatest files = (.ok t, files)) :
    perform root rebuild files = (.ok t, files) := by
  rw [loadLatest, FileM.ofLog, perform_adapt] at h
  have hresult := (Prod.mk.inj h).1
  have hfiles := (Prod.mk.inj h).2
  cases hr : (perform root rebuild files).1 with
  | error e =>
    rw [hr] at hresult
    exact absurd hresult (by simp)
  | ok u =>
    rw [hr] at hresult
    obtain rfl := Except.ok.inj hresult
    exact Prod.ext hr hfiles

theorem perform_loadLatest_of_rebuild {t : Table} (h : perform root rebuild files = (.ok t, files)) :
    perform root loadLatest files = (.ok t, files) := by
  rw [loadLatest, FileM.ofLog, perform_adapt, h]
  rfl

/-- The log has the same commits, and the same version as current unless the operation lost to
another one; the copy is the one before or was read again. -/
structure Failed (root : Location) (commits : List Commit) (current : Nat) (files : Tree)
    (t : Table) (e : TableError) (t' : Table) (files' : Tree) : Prop where
  copy : t' = t ∨ perform root loadLatest files = (.ok t', files)
  settled : Settled root commits current files'
  still : (∃ expected found, e = .commitConflict expected found) ∨ Chain root files' commits current

theorem Failed.of_chain {e : TableError} {t' : Table} {files' : Tree}
    (hcopy : t' = t ∨ perform root loadLatest files = (.ok t', files))
    (h : Chain root files' commits current) : Failed root commits current files t e t' files' :=
  ⟨hcopy, h.settled, .inr h⟩

theorem Failed.of_unwritten {e : TableError} {t' : Table} {files' : Tree} {version : Version}
    (hcopy : t' = t ∨ perform root loadLatest files = (.ok t', files))
    (h : Unwritten root commits current version e files') :
    Failed root commits current files t e t' files' :=
  ⟨hcopy, h.settled, h.still⟩

/-- Reading the table again gives the copy that is read, or leaves the one before. -/
theorem refresh_performs : (contract asked root).Performs refresh t files
      (fun _ t' files' => perform root loadLatest files = (.ok t', files) ∧ files' = files)
      (fun _ t' files' => t' = t ∧ files' = files) := by
  refine Performs.bind (ofFiles_performs reads_loadLatest ?_ ?_)
  · intro u hread
    exact Performs.set ⟨hread, rfl⟩
  · intro e _
    exact ⟨rfl, rfl⟩

/-- What a change that succeeds has done. The table `u` was read from the log, and `p` was
planned for it. -/
structure Committed (asked : Request → Prop) (root : Location) (commits : List Commit)
    (current : Nat) (base : Option SnapshotId) (operation : Operation) (changes : FileChanges)
    (now : Calendar.Instant) (files : Tree) (u : Table) (p : Plan) (s : Snapshot) (t' : Table)
    (files' : Tree) : Prop where
  read : perform root loadLatest files = (.ok u, files)
  based : u.currentId = base
  planned : Planned root files u operation changes p
  snapshot : s = p.snapshot base operation
    (p.listPath u.spec u.metadata.properties.inheritsSnapshotIds) now
  filed : p.Filed u.spec u.metadata.properties.inheritsSnapshotIds asked root files'
  wrote : Wrote root commits current [.addSnapshot s, .moveCurrent s.id base now] u t' files'

/-- A snapshot with a new id can be registered and made current. -/
theorem applyAll_register {s : Snapshot} (hfresh : t.snapshots.contains s.id = false)
    (base : Option SnapshotId) (now : Calendar.Instant) :
    t.applyAll [.addSnapshot s, .moveCurrent s.id base now] =
      .ok (moveCurrent { t with snapshots := t.snapshots.insert s.id s } ⟨now, s.id, base, false⟩) := by
  have hin : (t.snapshots.insert s.id s).contains s.id = true := by
    rw [SortedMap.contains, SortedMap.find?_insert_self]
    rfl
  simp [applyAll, apply, hfresh, hin, bind, Except.bind, pure, Except.pure]

theorem applyAll_move {target : SnapshotId} (h : t.snapshots.contains target = true)
    (parentId : Option SnapshotId) (now : Calendar.Instant) :
    t.applyAll [.moveCurrent target parentId now] =
      .ok (t.moveCurrent ⟨now, target, parentId, false⟩) := by
  simp [applyAll, apply, h, bind, Except.bind, pure, Except.pure]

theorem movePointer_performs (h : Chain root files commits current)
    (hreplica : Replica commits current t) {target : SnapshotId}
    (htarget : t.snapshots.contains target = true) (now : Calendar.Instant) :
    (contract asked root).Performs (movePointer target now) t files
      (fun _ t' files' => Wrote root commits current [.moveCurrent target none now] t t' files')
      (fun e t' files' => t' = t ∧ Unwritten root commits current t.version e files') :=
  Performs.bind (Performs.get (commitActions_performs h hreplica
    ⟨_, applyAll_move htarget none now, fun _ hstored => hstored⟩ t.currentId now))

theorem updateProperties_performs (h : Chain root files commits current)
    (hreplica : Replica commits current t) (set : Properties) (remove : List String)
    (now : Calendar.Instant) :
    (contract asked root).Performs (updateProperties set remove now) t files
      (fun _ t' files' => Wrote root commits current [.updateProperties set remove] t t' files')
      (fun e t' files' => t' = t ∧ Unwritten root commits current t.version e files') := by
  have hupdate : t.applyAll [.updateProperties set remove] = .ok { t with metadata :=
      { t.metadata with properties := t.metadata.properties.update set remove } } := rfl
  exact Performs.bind (Performs.get (commitActions_performs h hreplica
    ⟨_, hupdate, fun _ hstored => hstored⟩ t.currentId now))

theorem contains_of_snapshot? {id : SnapshotId} (h : ¬ (t.snapshot? id).isNone = true) :
    t.snapshots.contains id = true := by
  simpa [snapshot?, SortedMap.contains, Option.isSome_iff_ne_none] using h

theorem setCurrent_performs (h : Chain root files commits current) (target : SnapshotId)
    (now : Calendar.Instant) :
    (contract asked root).Performs (setCurrent target now) t files
      (fun _ t' files' => ∃ u, perform root loadLatest files = (.ok u, files) ∧
        u.snapshots.contains target = true ∧
        Wrote root commits current [.moveCurrent target none now] u t' files')
      (fun e t' files' => Failed root commits current files t e t' files') := by
  rw [setCurrent]
  refine Performs.bind (refresh_performs.mono ?_ ?_)
  · rintro _ u files' ⟨hread, rfl⟩
    refine Performs.bind (Performs.get ?_)
    dsimp only
    refine Performs.guard (fun _ => .of_chain (.inr hread) h) fun hsome => ?_
    have hin := contains_of_snapshot? hsome
    have hreplica := (h.replica_of_rebuild (perform_loadLatest hread)).1
    refine (movePointer_performs h hreplica hin now).mono ?_ ?_
    · intro _ t' files' hwrote
      exact ⟨u, hread, hin, hwrote⟩
    · rintro e t' files' ⟨rfl, hunwritten⟩
      exact .of_unwritten (.inr hread) hunwritten
  · rintro e t' files' ⟨rfl, rfl⟩
    exact .of_chain (.inl rfl) h

/-- Where nothing is in the way, a registered snapshot can be made current. -/
theorem setCurrent_succeeds (h : Chain root files commits current) (hopen : Open root commits current)
    {u : Table} (hread : perform root loadLatest files = (.ok u, files)) {target : SnapshotId}
    (hin : u.snapshots.contains target = true) (now : Calendar.Instant) :
    (contract asked root).Performs (setCurrent target now) t files
      (fun _ t' files' => Wrote root commits current [.moveCurrent target none now] u t' files')
      (fun _ _ _ => False) := by
  rw [setCurrent, refresh]
  refine Performs.bind (Performs.bind (ofFiles_performs reads_loadLatest ?_ ?_))
  · intro u' hread'
    obtain rfl := Except.ok.inj (Prod.mk.inj (hread.symm.trans hread')).1
    obtain ⟨hreplica, hversion⟩ := h.replica_of_rebuild (perform_loadLatest hread)
    refine Performs.set (Performs.bind (Performs.get ?_))
    dsimp only
    refine Performs.guard (fun hnone => ?_) fun _ => ?_
    · rw [snapshot?, Option.isNone_iff_eq_none] at hnone
      rw [SortedMap.contains, hnone] at hin
      exact absurd hin (by simp)
    · refine (movePointer_performs h hreplica hin now).mono (fun _ _ _ hwrote => hwrote) ?_
      intro e t' files' hfailed
      exact hfailed.2.late hopen hversion
  · intro e hread'
    rw [hread] at hread'
    exact absurd hread' (by simp)

theorem rollback_performs (h : Chain root files commits current) (target : SnapshotId)
    (now : Calendar.Instant) :
    (contract asked root).Performs (rollback target now) t files
      (fun _ t' files' => ∃ u, perform root loadLatest files = (.ok u, files) ∧
        u.snapshots.contains target = true ∧ u.isCurrentAncestor target = true ∧
        Wrote root commits current [.moveCurrent target none now] u t' files')
      (fun e t' files' => Failed root commits current files t e t' files') := by
  rw [rollback]
  refine Performs.bind (refresh_performs.mono ?_ ?_)
  · rintro _ u files' ⟨hread, rfl⟩
    refine Performs.bind (Performs.get ?_)
    dsimp only
    refine Performs.guard (fun _ => .of_chain (.inr hread) h) fun hsome => ?_
    refine Performs.guard (fun _ => .of_chain (.inr hread) h) fun hancestor => ?_
    have hin := contains_of_snapshot? hsome
    have hreplica := (h.replica_of_rebuild (perform_loadLatest hread)).1
    refine (movePointer_performs h hreplica hin now).mono ?_ ?_
    · intro _ t' files' hwrote
      exact ⟨u, hread, hin, by simpa using hancestor, hwrote⟩
    · rintro e t' files' ⟨rfl, hunwritten⟩
      exact .of_unwritten (.inr hread) hunwritten
  · rintro e t' files' ⟨rfl, rfl⟩
    exact .of_chain (.inl rfl) h

/-- A new snapshot with a list that can be read is stored, and so are the others still. -/
theorem IsStored.register {s : Snapshot} (h : t.IsStored root files)
    (hlist : files.HasList root s.manifestList) (m : PointerMove) :
    (moveCurrent { t with snapshots := t.snapshots.insert s.id s } m).IsStored root files := by
  intro id r hr
  rcases SortedMap.find?_insert_cases hr with ⟨-, rfl⟩ | ⟨-, hr⟩
  · exact hlist
  · exact h id r hr

/-- What was planned on the last table is written and committed, unless something stands in the
way. -/
theorem commitPlanned_performs (h : Chain root files commits current)
    (hread : perform root loadLatest files = (.ok u, files)) {operation : Operation}
    {changes : FileChanges} {p : Plan} (hplanned : Planned root files u operation changes p)
    (base : Option SnapshotId) (hbase : u.currentId = base) (now : Calendar.Instant) :
    (contract asked root).Performs (do
      let list ← TableM.ofFiles (writeSnapshot u.spec u.metadata.properties.inheritsSnapshotIds p)
      let s := p.snapshot base operation list now
      commitActions base [.addSnapshot s, .moveCurrent s.id base now] now
      return s) u files
      (fun s t' files' =>
        Committed asked root commits current base operation changes now files u p s t' files')
      (fun e t' files' => Failed root commits current files t e t' files' ∧
        ¬ Open root commits current) := by
  have hreplica := (h.replica_of_rebuild (perform_loadLatest hread)).1
  refine Performs.bind (Performs.ofFiles ((writeSnapshot_attempts u.spec p h _
    (fun _ => hplanned.hasManifest.1) fun b hb =>
      hplanned.hasManifest.2 b (List.mem_of_mem_filter hb)).mono ?_ ?_))
  · rintro list files₁ ⟨rfl, h₁, hfiled⟩
    generalize hs : p.snapshot base operation (p.listPath u.spec
      u.metadata.properties.inheritsSnapshotIds) now = s
    -- The id is the next one of the table that was read.
    have hfresh : u.snapshots.contains s.id = false := by
      rw [← hs]
      exact nextId_fresh hplanned.next
    have hlist : Shelved root files₁ → files₁.HasList root s.manifestList := by
      intro hshelved
      rw [← hs]
      exact (hshelved.shelf _ _ _ (.list p.id) hfiled.list.there).hasList
    refine Performs.bind ((commitActions_performs h₁ hreplica
      ⟨_, applyAll_register hfresh base now, fun hshelved hstored =>
        hstored.register (hlist hshelved) _⟩ base now).proceeds.mono ?_ ?_)
    · rintro _ t' files₂ ⟨hwrote, hproceeds⟩
      exact Performs.pure ⟨hread, hbase, hplanned, hs.symm, hfiled.grows hproceeds.grows, hwrote⟩
    · rintro e t' files₂ ⟨⟨rfl, hunwritten⟩, -⟩
      refine ⟨.of_unwritten (.inr hread) hunwritten, fun hopen => ?_⟩
      -- The table has just been read, so it is not behind.
      have hversion := (h.replica_of_rebuild (perform_loadLatest hread)).2
      exact absurd hversion (hunwritten.late hopen)
  · rintro e files₁ ⟨h₁, hnoRoom⟩
    exact ⟨.of_chain (.inr hread) h₁, fun hopen => absurd hopen.room hnoRoom⟩

/-- A change that fails did so for lack of a plan, or because it could not be the next commit. -/
theorem commit_performs (h : Chain root files commits current) (base : Option SnapshotId)
    (operation : Operation) (changes : FileChanges) (now : Calendar.Instant) :
    (contract asked root).Performs (commit base operation changes now) t files
      (fun s t' files' => ∃ u p,
        Committed asked root commits current base operation changes now files u p s t' files')
      (fun e t' files' => Failed root commits current files t e t' files' ∧
        (Open root commits current → ∀ u p, perform root loadLatest files = (.ok u, files) →
          u.currentId = base → ¬ Planned root files u operation changes p)) := by
  rw [commit]
  refine Performs.bind (ofFiles_performs reads_loadLatest ?_ ?_)
  · intro u hread
    -- The same files give the same table.
    have honly : ∀ u', perform root loadLatest files = (.ok u', files) → u' = u := by
      intro u' hread'
      rw [hread] at hread'
      exact (Except.ok.inj (Prod.mk.inj hread').1).symm
    split
    next hbase =>
      refine Performs.throw ⟨.of_chain (.inl rfl) h, fun _ u' p hread' hbase' => ?_⟩
      exact absurd (honly u' hread' ▸ hbase') hbase
    next hbase =>
      refine Performs.bind (Performs.set (Performs.bind (ofFiles_performs (u.reads_plan _ _) ?_ ?_)))
      · intro p hplan
        refine (commitPlanned_performs (t := t) h hread (perform_plan_iff.1 hplan) base
          (Decidable.not_not.1 hbase) now).mono ?_ ?_
        · exact fun s t' files' hcommit => ⟨u, p, hcommit⟩
        · exact fun e t' files' hfailed => ⟨hfailed.1, fun hopen => absurd hopen hfailed.2⟩
      · intro e hplan
        refine ⟨.of_chain (.inr hread) h, fun _ u' p hread' _ hplanned => ?_⟩
        rw [honly u' hread', ← perform_plan_iff, hplan] at hplanned
        exact absurd hplanned (by simp)
  · intro e hread
    refine ⟨.of_chain (.inl rfl) h, fun _ u p hread' => ?_⟩
    rw [hread] at hread'
    exact absurd hread' (by simp)

/-! ### New tables, staged manifests and whole directories -/

/-- What a creation that failed has left: the same commits, and the same version as current
unless it lost to another writer. Where it was the next to come there are commits. -/
structure Uncreated (root : Location) (commits : List Commit) (current : Nat) (e : TableError)
    (files : Tree) : Prop where
  settled : Settled root commits current files
  still : (∃ v w, e = .log (.conflict v w)) ∨ Chain root files commits current
  late : Open root commits current → commits ≠ []

/-- A table is made where there are no commits, and its log then has one. -/
theorem create_attempts (h : Chain root files commits current) (metadata : Metadata)
    (now : Calendar.Instant) :
    (contract asked root).Attempts (create metadata now) files
      (fun t files' => commits = [] ∧ t = .new 1 metadata ∧ ∃ c, c.actions = [.create metadata] ∧
        Chain root files' [c] 1 ∧ tableAfter? [c] = some t)
      (fun e files' => Uncreated root commits current e files') := by
  refine Attempts.bind (Attempts.adapt ((reads_attempts reads_currentVersion).mono ?_ ?_))
  · rintro v files' ⟨hread, rfl⟩
    split
    next hne =>
      refine Attempts.throw ⟨h.settled, .inr h, fun hopen hnil => hne ?_⟩
      rw [h.eq_of_perform_currentVersion hread, hopen.last, hnil]
      rfl
    next =>
      have hnil : (0 : Version).toNat = commits.length → commits = [] := fun he =>
        List.length_eq_zero_iff.1 he.symm
      refine Attempts.bind (Attempts.adapt ((append_attempts h 0 [.create metadata] now
        fun he => ⟨.new 1 metadata, ?_, ?_⟩).mono ?_ ?_))
      · rw [hnil he]
        exact tableAfter?_create 0 now metadata
      · intro _ id s hs
        exact absurd hs (by simp [Table.new, SortedMap.find?_empty])
      · rintro version files'' ⟨he, -, rfl, h'⟩
        obtain rfl := hnil he
        exact Attempts.pure ⟨rfl, rfl, _, rfl, h', tableAfter?_create 0 now metadata⟩
      · intro e files'' hlost
        refine ⟨hlost.settled, hlost.still.imp_left ?_, fun hopen hnil => hlost.late hopen ?_⟩
        · rintro ⟨v, w, rfl⟩
          exact ⟨v, w, rfl⟩
        · rw [hopen.last, hnil]
          rfl
  · rintro e files' ⟨hread, rfl⟩
    refine ⟨h.settled, .inr h, fun hopen => ?_⟩
    rw [h.perform_currentVersion_of_room hopen.room] at hread
    exact absurd hread (by simp)

theorem reads_openLatest : openLatest.run.Reads := by
  refine Reads.bindE (Reads.adapt reads_currentVersion) fun v => ?_
  split
  · exact Reads.pure _
  · exact reads_loadLatest

theorem perform_openLatest {t : Table} (h : perform root openLatest files = (.ok t, files)) :
    perform root loadLatest files = (.ok t, files) := by
  obtain ⟨v, files₁, hv, h⟩ := perform_bind_ok.1 h
  obtain rfl := (Reads.adapt reads_currentVersion).eq_of_perform hv
  split at h
  · exact absurd h (by simp)
  · exact h

/-- The manifest that is staged for files. -/
def stagedManifest (spec : PartitionSpec) (added : List DataFile) : Manifest :=
  ⟨spec.specId, added.map fun f => ⟨.added, none, f⟩⟩

theorem files_stagedManifest (spec : PartitionSpec) (added : List DataFile) :
    (stagedManifest spec added).entries.map (·.file) = added := by
  rw [stagedManifest, List.map_map]
  exact List.map_id' added

/-- What is staged has no ids yet. -/
theorem unnamed_of_mem_stagedManifest {spec : PartitionSpec} {added : List DataFile}
    {e : ManifestEntry} (he : e ∈ (stagedManifest spec added).entries) : e.snapshotId = none := by
  obtain ⟨f, -, rfl⟩ := List.mem_map.1 he
  rfl

theorem stage_performs (h : Chain root files commits current) (added : List DataFile) :
    (contract asked root).Performs (stage added) t files
      (fun path t' files' => t' = t ∧ Chain root files' commits current ∧
        path = Layout.stagedPath (FileM.manifestContent (stagedManifest t.spec added)) ∧
        files'.Filed asked root (FileM.manifestContent (stagedManifest t.spec added)) path)
      (fun _ t' files' => t' = t ∧ Chain root files' commits current ∧ ¬ root.Roomy) := by
  refine Performs.bind (Performs.get (Performs.ofFiles (Attempts.map
    ((FileM.writeOnce_attempts h .staged ?_).mono ?_ ?_))))
  · intro _ files' _ _ hcontent
    exact .manifest (Tree.hasManifest_of_content hcontent)
  · rintro r files' ⟨rfl, h', hfiled⟩
    exact ⟨rfl, h', rfl, hfiled⟩
  · intro e files' h'
    exact ⟨rfl, h'⟩

/-- Beside the log, writing does not change what is read from the log. -/
theorem perform_loadLatest_of_chain {files' : Tree} (h : Chain root files commits current)
    (h' : Chain root files' commits current) {u : Table}
    (hread : perform root loadLatest files' = (.ok u, files')) :
    perform root loadLatest files = (.ok u, files) := by
  obtain ⟨hpos, ht⟩ := table_of_rebuild h' (perform_loadLatest hread)
  exact perform_loadLatest_of_rebuild (perform_rebuild h hpos ht)

theorem reads_findImportable (directory : String) : (findImportable directory).run.Reads := by
  refine Reads.bindE (Reads.lift (Reads.request trivial)) fun reply => ?_
  cases reply with
  | error e => exact Reads.pure _
  | ok found =>
    dsimp only
    split <;> exact Reads.pure _

theorem reads_loadFile (schema : Schema) (spec : PartitionSpec) (directory : String)
    (names : Place) : (loadFile schema spec directory names).run.Reads := by
  refine Reads.bindE (Reads.lift (Reads.request trivial)) fun reply => ?_
  cases reply with
  | error e => exact Reads.pure _
  | ok bytes =>
    dsimp only
    split <;> exact Reads.pure _

/-- All files below a directory are described, staged, and added in one change. -/
theorem intake_performs (h : Chain root files commits current) (directory : String)
    (now : Calendar.Instant) :
    (contract asked root).Performs (intake directory now) t files
      (fun s t' files' => ∃ found added files₁ path u p,
        perform root (findImportable directory) files = (.ok found, files) ∧
        perform root (found.mapM (loadFile t.schema t.spec directory)) files = (.ok added, files) ∧
        Proceeds asked root files files₁ ∧ Chain root files₁ commits current ∧
        path = Layout.stagedPath (FileM.manifestContent (stagedManifest t.spec added)) ∧
        files₁.Filed asked root (FileM.manifestContent (stagedManifest t.spec added)) path ∧
        Committed asked root commits current t.currentId .append (.adopting [path]) now files₁ u p s
          t' files' ∧ Proceeds asked root files₁ files')
      (fun e t' files' => Failed root commits current files t e t' files') := by
  rw [intake]
  have hfailed : ∀ e, Failed root commits current files t e t files := fun _ =>
    .of_chain (.inl rfl) h
  refine Performs.bind (ofFiles_performs (reads_findImportable directory) ?_ fun e _ => hfailed e)
  intro found hfound
  refine Performs.bind (Performs.get (Performs.bind (ofFiles_performs
    (Reads.mapM (reads_loadFile t.schema t.spec directory) found) ?_ fun e _ => hfailed e)))
  intro added hadded
  refine Performs.bind ((stage_performs h added).proceeds.mono ?_ ?_)
  · rintro path t₁ files₁ ⟨⟨rfl, h₁, hpath, hfiled⟩, hproceeds⟩
    refine Performs.bind (Performs.get ((commit_performs h₁ t₁.currentId .append (.adopting [path])
      now).proceeds.mono ?_ ?_))
    · rintro s t' files' ⟨⟨u, p, hcommitted⟩, hproceeds'⟩
      exact ⟨found, added, files₁, path, u, p, hfound, hadded, hproceeds, h₁, hpath, hfiled,
        hcommitted, hproceeds'⟩
    · rintro e t' files' ⟨⟨hfailed', -⟩, -⟩
      exact ⟨hfailed'.copy.imp_right (perform_loadLatest_of_chain h h₁), hfailed'.settled,
        hfailed'.still⟩
  · rintro e t' files' ⟨⟨rfl, h', -⟩, -⟩
    exact .of_chain (.inl rfl) h'

end Lakehouse.Table
