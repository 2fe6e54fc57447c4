import Lakehouse.Proofs.Log.Extension
import Lakehouse.Proofs.Run.Replay
import Lakehouse.Proofs.Run.Stopping

/- Failures that nobody sees.

   An event may fail when it has already written manifests, or when it has made another
   writer's commit current. What it leaves is nothing that the log refers to
   (`Log.Refers`): every snapshot that is registered had its list and its manifests before,
   so a file that is new belongs to none of them (`not_refers_of_new`). All files are as
   they were, except that the file for the current version may name the next commit,
   which was there (`Log.Invisible`). So whoever reads the table after a failure reads what
   was there before it, and the handle of the event has its old copy or one that was read
   when it began (`failures_are_invisible`). -/
namespace Lakehouse

open Contract Log Script

variable {asked : Request → Prop} {root : Location} {files files' : Tree} {commits : List Commit}
  {current current' : Nat}

namespace Log

/-! ### What a log refers to -/

/-- A commit of the log registers a snapshot, of which the list or one of the manifests in it
is at the place. -/
inductive Refers (root : Location) (files : Tree) (place : Place) : Prop where
  | list {v : Version} {c : Commit} {s : Snapshot}
      (commit : perform root (loadCommit v) files = (.ok c, files))
      (registers : .addSnapshot s ∈ c.actions)
      (there : files.follow (Path.join root.path s.manifestList) = .ok place) :
      Refers root files place
  | manifest {v : Version} {c : Commit} {s : Snapshot} {l : ManifestList} {r : ManifestRecord}
      (commit : perform root (loadCommit v) files = (.ok c, files))
      (registers : .addSnapshot s ∈ c.actions)
      (list : perform root (FileM.loadManifestList s.manifestList) files = (.ok l, files))
      (lists : r ∈ l.manifests)
      (there : files.follow (Path.join root.path r.path) = .ok place) :
      Refers root files place

theorem Chain.mem_of_loadCommit (h : Chain root files commits current) {v : Version} {c : Commit}
    (hread : perform root (loadCommit v) files = (.ok c, files)) : c ∈ commits := by
  obtain ⟨content, hcontent⟩ := Option.isSome_iff_exists.1 (content_of_loadCommit hread)
  obtain ⟨d, hd, rfl⟩ := Option.map_eq_some_iff.1 ((h.file v).symm.trans hcontent)
  have hsame := (perform_loadCommit hcontent).symm.trans hread
  obtain rfl := Except.ok.inj (Prod.mk.inj hsame).1
  exact List.mem_of_getElem? (commitAt?_eq_some hd).2

/-- A snapshot that a commit registers has its list and its manifests. -/
theorem Shelved.hasList_of_registered (hshelved : Shelved root files)
    (h : Chain root files commits current) {c : Commit} {s : Snapshot} (hc : c ∈ commits)
    (hs : .addSnapshot s ∈ c.actions) : files.HasList root s.manifestList := by
  obtain ⟨t, ht⟩ := h.replays commits.length (List.length_pos_of_mem hc) (Nat.le_refl _)
  rw [List.take_length] at ht
  exact hshelved.registered commits current t h ht s.id s (find?_of_registered ht hc hs)

/-- Files may grow with no new commit; then the log refers to none of the new ones. -/
theorem not_refers_of_new (h : Chain root files commits current) (hshelved : Shelved root files)
    (h' : Chain root files' commits current') (hgrows : files.Grows asked root files')
    {place : Place} (hnew : files.node? place = none) : ¬ Refers root files' place := by
  -- What was under the path to the place would have been at the place.
  have hnot : ∀ path c, files.content? root path = some c →
      files'.follow (Path.join root.path path) ≠ .ok place := by
    intro path c hcontent hfollow
    have hthere := hgrows.node_of_follow hcontent hfollow
    exact absurd (hnew.symm.trans hthere) (by simp)
  intro hrefers
  cases hrefers with
  | list commit registers there =>
    obtain ⟨content, -, hcontent, -⟩ :=
      hshelved.hasList_of_registered h (h'.mem_of_loadCommit commit) registers
    exact hnot _ content hcontent there
  | @manifest v c s l r commit registers list lists there =>
    obtain ⟨content, l₀, hcontent, hrun, hall⟩ :=
      hshelved.hasList_of_registered h (h'.mem_of_loadCommit commit) registers
    have hkept := h.content_grows Form.isRecord_manifestList hgrows hcontent hrun
    obtain ⟨n, hread⟩ := FileM.perform_loadManifestList_iff.1 list
    obtain ⟨content', hcontent', hrun', -⟩ := FileM.perform_readJson_iff.1 hread
    obtain rfl := Option.some.inj (hkept.symm.trans hcontent')
    obtain rfl := Except.ok.inj (hrun.symm.trans hrun')
    obtain ⟨content₁, -, hcontent₁, -⟩ := hall r lists
    exact hnot _ content₁ hcontent₁ there

/-! ### What a failure leaves -/

/-- The file for the current version is there, and what it is, if the version is the same. -/
theorem Chain.same_current (h : Chain root files commits current)
    (h' : Chain root files' commits current) :
    files'.node? root.currentPlace = files.node? root.currentPlace := by
  have hnone : current = 0 → ∀ {t : Tree}, Chain root t commits current →
      t.node? root.currentPlace = none := by
    intro hzero t ht
    rw [Option.eq_none_iff_forall_ne_some]
    intro n hn
    cases n with
    | directory => exact ht.hosts.files _ Layout.currentPath_isFile.2 hn
    | file c => exact ht.unnamed hzero c hn
  by_cases hzero : current = 0
  · rw [hnone hzero h, hnone hzero h']
  · rw [h.node_current (by omega), h'.node_current (by omega)]

/-- A new file that is not a commit's is below the directory for metadata. -/
theorem below_metadata_of_new (h : Chain root files commits current)
    (h' : Chain root files' commits current') {place : Place}
    (hnew : files.NewAt root files' place) :
    ∃ names, place = root.place ++ Layout.metadataDirectory :: names := by
  obtain ⟨hnone, path, names, content, hp, rfl, hcreation, hsome⟩ := hnew
  cases hcreation with
  | commit v =>
    rw [h'.file, ← h.file] at hsome
    obtain ⟨c, hc⟩ := Option.isSome_iff_exists.1 hsome
    have hthere := ((Tree.content?_eq_some h.hosts hp).1 hc).2
    exact absurd (hnone.symm.trans hthere) (by simp)
  | named hname =>
    obtain ⟨rest, hrest⟩ := hname.below_metadata
    exact ⟨rest, by rw [hp.names_eq hrest]⟩

/-- The files of all commits are the same, and so are all others that were there. The file for
the current version may have moved to the next commit, which was there, if another writer was
first. New files are below the directory for metadata, and the log does not refer to them. -/
structure Invisible (root : Location) (files files' : Tree) (lost : Prop) : Prop where
  commits : ∀ v, files'.content? root (Layout.commitPath v) =
    files.content? root (Layout.commitPath v)
  kept : files.KeepsBut root.currentPlace files'
  current : files'.node? root.currentPlace = files.node? root.currentPlace ∨
    lost ∧ ∃ n, PointsTo root files n ∧ PointsTo root files' (n + 1) ∧
      (files.content? root (Layout.commitPath (UInt64.ofNat (n + 1)))).isSome
  fresh : ∀ place c, files'.node? place = some (.file c) →
    files.node? place = some (.file c) ∨ place = root.currentPlace ∨
      files.node? place = none ∧
        (∃ names, place = root.place ++ Layout.metadataDirectory :: names) ∧
        ¬ Refers root files' place

theorem Chain.invisible (h : Chain root files commits current) (hshelved : Shelved root files)
    (hgrows : files.Grows asked root files') (hsettled : Settled root commits current files')
    {lost : Prop} (hstill : lost ∨ Chain root files' commits current) :
    Invisible root files files' lost := by
  obtain ⟨current', h', hle⟩ := hsettled
  refine ⟨fun v => ?_, hgrows.nodes, ?_, fun place c hc => ?_⟩
  · rw [h'.file, h.file]
  · by_cases hsame : current' = current
    · subst hsame
      exact .inl (h.same_current h')
    · -- As the version has moved, it was the last but one, and is the last.
      have hbefore := h.named
      have hafter := h'.named
      obtain rfl : current' = current + 1 := by omega
      have hlost : lost := hstill.resolve_right fun hchain => hsame (h'.unique hchain).2
      refine .inr ⟨hlost, current, h.pointer, h'.pointer, (h.commit_isSome _).2 ?_⟩
      rw [h'.toNat_current]
      exact ⟨by omega, h'.current_le⟩
  · rcases hgrows.made place c hc with hold | hcurrent | hnew
    · exact .inl hold
    · exact .inr (.inl hcurrent)
    · exact .inr (.inr ⟨hnew.1, below_metadata_of_new h h' hnew,
        not_refers_of_new h hshelved h' hgrows hnew.1⟩)

end Log

/-! ### Failures in runs -/

namespace World

variable {w : World} {turn : Turn}

theorem Ordered.failure (h : w.Ordered root commits current) {r : Record} {e : TableError}
    (hdone : (w.step root turn).history = r :: w.history) (herror : r.result = .error e) :
    turn.event.Failure root commits current w.handles w.files e
        ((w.step root turn).handles turn.event.handle) (w.step root turn).files ∧
      Proceeds everything root w.files (w.step root turn).files := by
  obtain ⟨script, files', hscript, hrun, hevent, hfiles, hhandle⟩ := done_of_history hdone
  obtain ⟨hdeed, hproceeds⟩ := h.deed hscript (fun _ _ => (trivial : everything _))
  rw [Script.run_of_runWithin hrun] at hdeed hproceeds
  rw [hevent] at hhandle
  rw [hfiles, hhandle]
  rw [herror] at hdeed
  dsimp only at hdeed hproceeds
  generalize r.after = after at hdeed ⊢
  generalize turn.event = event at hdeed ⊢
  cases hdeed with
  | failed hfailure => exact ⟨hfailure, hproceeds⟩

/-- In every run, what is on the shelves of the table can be read. -/
theorem shelved_run (hvacant : files.Vacant root) (turns : List Turn) :
    ∃ commits current, (run root (start files) turns).Ordered root commits current ∧
      Shelved root (run root (start files) turns).files := by
  obtain ⟨commits, current, hw, -, -, hproceeds⟩ :=
    (Ordered.start (Chain.of_vacant hvacant)).run turns
  exact ⟨commits, current, hw, hproceeds.shelves (.of_vacant hvacant)⟩

/-- In every run, whatever ran or stopped before, an event that fails is invisible: it leaves
the log and all files as they are, and only if another writer was first, that writer's commit
may have become current. All handles are as before, or that of the event has the table as it
was read when the event began. -/
theorem failures_are_invisible (hvacant : files.Vacant root) (turns : List Turn) (turn : Turn)
    {r : Record} {e : TableError}
    (hdone : ((run root (start files) turns).step root turn).history =
      r :: (run root (start files) turns).history)
    (herror : r.result = .error e) :
    Invisible root (run root (start files) turns).files
        ((run root (start files) turns).step root turn).files (turn.event.LostTo e) ∧
      ∀ handle, ((run root (start files) turns).step root turn).handles handle =
          (run root (start files) turns).handles handle ∨
        handle = turn.event.handle ∧
          ∃ t, ((run root (start files) turns).step root turn).handles handle = some t ∧
            perform root Table.loadLatest (run root (start files) turns).files =
              (.ok t, (run root (start files) turns).files) := by
  obtain ⟨commits, current, hordered, hshelved⟩ := shelved_run hvacant turns
  generalize run root (start files) turns = w at *
  obtain ⟨hfailure, hproceeds⟩ := hordered.failure hdone herror
  constructor
  · exact hordered.chain.invisible hshelved hproceeds.grows hfailure.settled hfailure.still
  · intro handle
    by_cases hhandle : handle = turn.event.handle
    · subst hhandle
      exact hfailure.copy.imp_right fun hcopy => ⟨rfl, hcopy⟩
    · exact .inl (step_handles_of_ne hhandle)

/-- A second writer makes a table where the first has stopped before its commit was current. -/
def lateCreation : Turn :=
  ⟨.create 1 ⟨⟨[], .nil⟩, .unpartitioned, .empty, default, 1⟩, default, none⟩

theorem failures_are_invisible_lateCreation : Tree.empty.Vacant ⟨"."⟩ ∧
    ∃ r e, ((run ⟨"."⟩ (start .empty) stoppedCreation).step ⟨"."⟩ lateCreation).history =
        r :: (run ⟨"."⟩ (start .empty) stoppedCreation).history ∧ r.result = .error e ∧
      Invisible ⟨"."⟩ (run ⟨"."⟩ (start .empty) stoppedCreation).files
        ((run ⟨"."⟩ (start .empty) stoppedCreation).step ⟨"."⟩ lateCreation).files
        (lateCreation.event.LostTo e) := by
  obtain ⟨commits, current, hordered⟩ := ordered_run Tree.vacant_empty stoppedCreation
  have hfirst : ((run ⟨"."⟩ (start .empty) stoppedCreation).files.content? ⟨"."⟩
      (Layout.commitPath 1)).isSome = true := by decide +kernel
  obtain ⟨script, hscript⟩ : ∃ script, lateCreation.event.script? lateCreation.now
      (run ⟨"."⟩ (start .empty) stoppedCreation).handles = some script := ⟨_, rfl⟩
  have hdeed := (hordered.deed hscript fun _ _ => (trivial : everything _)).1
  -- There is a commit, so no table is made.
  rcases hrun : script.run ⟨"."⟩ (run ⟨"."⟩ (start .empty) stoppedCreation).files with
    ⟨⟨result, after⟩, files'⟩
  obtain ⟨e, rfl⟩ : ∃ e, result = .error e := by
    rw [hrun] at hdeed
    cases hdeed with
    | created first =>
      subst first
      have hnone := ((hordered.chain.commit_isSome 1).1 hfirst).2
      exact absurd hnone (by decide)
    | opened opens => exact absurd opens (by decide)
    | failed => exact ⟨_, rfl⟩
  have hdone := congrArg World.history (step_of_end rfl hscript hrun)
  exact ⟨Tree.vacant_empty, _, e, hdone, rfl,
    (failures_are_invisible Tree.vacant_empty stoppedCreation lateCreation hdone rfl).1⟩

end World

end Lakehouse
