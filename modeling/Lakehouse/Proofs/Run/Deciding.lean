import Lakehouse.Proofs.Run.Course
import Lakehouse.Proofs.Run.Meeting
import Lakehouse.Proofs.Table.Catalog
import Lakehouse.Proofs.Table.Rules
import Lakehouse.Proofs.Table.Twins

/- Which changes of files are done.

   Besides the rules for its plan, a change of files has to find the snapshot that it is meant
   for as the current one, and behind the current version one that is free
   (`Table.commitRules`). In every run that is all. The table can be read, and so can the
   manifests that a plan builds on; below a root with room its files can be written; and as ids
   are fresh, the actions of the commit can be applied. So a change is done just if it keeps all
   rules, whatever copy of the table its handle has, and otherwise the error reports the first
   that it violates (`World.commit_decided`).

   Two limits are needed (`World.commit_decided_fails`). The rows of a replacement are added up in
   64 bits, so one that adds too many is done if the totals agree. And a commit that somebody else
   has put behind the current one, and that does not go on from it, is no lost race: the error says
   that the log is corrupt. -/
namespace Lakehouse

open Contract Log Script

variable {root : Location} {files : Tree} {commits : List Commit} {current : Nat}

/-! ### The rules for commits -/

namespace Rule

/-- Versions have not run out. -/
def versionLeft (t : Table) : Rule where
  kept := t.version.toNat + 1 < UInt64.size
  reported e := e = .log (.corrupt (.lastVersion t.version))

/-- Nobody has left a commit for the next version. -/
def versionFree (root : Location) (files : Tree) (t : Table) (base : Option SnapshotId) : Rule where
  kept := files.content? root (Layout.commitPath (t.version + 1)) = none
  reported e := ∃ found, e = .commitConflict base found

theorem versionFree_kept (h : Chain root files commits current) {t : Table}
    (hversion : t.version.toNat = current) (hleft : (versionLeft t).kept)
    (base : Option SnapshotId) :
    (versionFree root files t base).kept ↔ current = commits.length := by
  have hlt : current + 1 < UInt64.size := hversion ▸ hleft
  have hnext : (t.version + 1).toNat = current + 1 := by
    rw [← UInt64.ofNat_toNat (x := t.version), hversion, ← ofNat_succ,
      UInt64.toNat_ofNat_of_lt' hlt]
  have hnamed := h.named
  rw [versionFree, ← Option.not_isSome_iff_eq_none, h.commit_isSome, hnext]
  omega

end Rule

namespace Table

variable {t u : Table} {operation : Operation} {changes : FileChanges} {staged : List Staged}

/-- The rules for a change of the files of the table that is latest, in their order. -/
def commitRules (u : Table) (root : Location) (files : Tree) (base : Option SnapshotId)
    (operation : Operation) (c : FileChanges) (live : LiveFiles) (staged : List Staged) :
    List Rule :=
  .isBase u base :: (u.fileRules operation c live staged ++
    [.keepsRows operation live c (c.arriving staged), .versionLeft u,
      .versionFree root files u base])

/-- While totals of 64 bits tell the numbers of rows, these are the rules for plans, after the one
for the base and before those for the log. -/
theorem commitRules_eq {live : LiveFiles}
    (h : Rule.RowsFit operation live changes (changes.arriving staged)) (u : Table)
    (root : Location) (files : Tree) (base : Option SnapshotId) :
    u.commitRules root files base operation changes live staged = .isBase u base ::
      (u.planRules operation changes live staged ++
        [.versionLeft u, .versionFree root files u base]) := by
  rw [commitRules, planRules, Rule.keepsTotals_eq h, List.append_assoc]
  rfl

/-! ### What a commit reads -/

theorem exists_staged {paths : List String} (h : ∀ path ∈ paths, files.HasManifest root path) :
    ∃ staged, List.Forall₂ (Staged.IsRead root files) paths staged := by
  refine exists_forall₂ fun path hpath => ?_
  obtain ⟨content, m, hcontent, hrun⟩ := h path hpath
  exact ⟨⟨path, m, UInt64.ofNat content.size⟩, rfl,
    FileM.perform_readJson_iff.2 ⟨content, hcontent, hrun, rfl⟩⟩

/-- A plan keeps all rules for plans. -/
theorem Planned.kept {p : Plan} (h : Planned root files t operation changes p) :
    ∀ r ∈ t.planRules operation changes (.ofManifests (p.manifests.map Prod.snd)) p.staged,
      r.kept := by
  have hstaged : List.Forall₂ (Staged.IsRead root files) changes.stagedPaths p.staged := by
    refine (forall₂_readStaged_iff.2 ⟨h.stagedPaths, h.staged⟩).imp fun path s hs => ?_
    obtain ⟨hread, hpath, -⟩ := perform_readStaged_iff.1 hs
    exact ⟨hpath.symm, hread⟩
  have hdecides := decides_plan h.manifests hstaged operation
  rw [perform_plan_iff.2 h] at hdecides
  exact hdecides.kept

/-! ### What a commit decides -/

theorem decides_commitActions (h : Chain root files commits current) (hroom : root.Roomy)
    (hreplica : Replica commits current t) (hversion : t.version.toNat = current)
    {actions : List Action}
    (hvalid : ∃ u, t.applyAll actions = .ok u ∧
      (Shelved root files → t.IsStored root files → u.IsStored root files))
    (base : Option SnapshotId) (now : Calendar.Instant) :
    Decides [.versionLeft t, .versionFree root files t base]
      ((commitActions base actions now).perform root t files).1.1 := by
  by_cases hleft : (Rule.versionLeft t).kept
  swap
  · have hlast : current + 1 = UInt64.size := by
      have hlt := t.version.toNat_lt
      have hsize : UInt64.size = 2 ^ 64 := rfl
      simp only [Rule.versionLeft] at hleft
      omega
    rw [perform_commitActions_last h hroom hversion hlast]
    exact .of_reports (.head hleft rfl _)
  refine .cons_of_kept hleft ?_
  have hfree := Rule.versionFree_kept h hversion hleft base
  rcases h.named with hall | hbehind
  · -- Nothing is in the way.
    have hopen : Open root commits current := ⟨hroom, hall, hversion ▸ hleft⟩
    obtain ⟨_, t', files', hperform, -⟩ := (@commitActions_performs World.everything _ _ _ _ _ h
      hreplica _ hvalid base now).succeeds (fun _ _ => trivial) fun _ _ _ hfailed =>
        hfailed.2.late hopen hversion
    simp only [contract] at hperform
    rw [hperform]
    exact .of_kept (by simpa using hfree.2 hall) _
  · -- Another writer has been first.
    obtain ⟨last, hlast⟩ := h.replays commits.length (by omega) (Nat.le_refl _)
    rw [List.take_length] at hlast
    obtain ⟨e, t', files', hperform, rfl, -⟩ := (@commitActions_performs_behind World.everything _ _
      _ _ _ _ h hroom hversion hbehind hlast base actions now).fails (fun _ _ => trivial)
        fun _ _ _ => id
    simp only [contract] at hperform
    rw [hperform]
    have htaken : ¬ (Rule.versionFree root files t base).kept := by
      rw [hfree]
      omega
    exact .of_reports (.head htaken ⟨last.currentId, rfl⟩ _)

/-- Where a request can be read, it is decided by the rules for plans and those for the log. -/
theorem decides_commit (h : Chain root files commits current) (hroom : root.Roomy)
    (hread : perform root loadLatest files = (.ok u, files))
    {manifests : List (ManifestRecord × Manifest)}
    (hmanifests : perform root u.loadCurrent files = (.ok manifests, files))
    (hstaged : List.Forall₂ (Staged.IsRead root files) changes.stagedPaths staged) (t : Table)
    (base : Option SnapshotId) (operation : Operation) (now : Calendar.Instant) :
    Decides (.isBase u base :: (u.planRules operation changes
        (.ofManifests (manifests.map Prod.snd)) staged ++
          [.versionLeft u, .versionFree root files u base]))
      ((commit base operation changes now).perform root t files).1.1 := by
  rw [commit, TableM.perform_bind, TableM.perform_ofFiles, hread]
  dsimp only
  by_cases hbase : u.currentId = base
  swap
  · rw [if_pos hbase]
    exact .of_reports (.head hbase rfl _)
  rw [if_neg (not_not_intro hbase), TableM.perform_bind, TableM.perform_set]
  refine .cons_of_kept hbase (.bindPerform ?_ fun p u' files₁ hplan => ?_)
  · rw [TableM.perform_ofFiles]
    exact decides_plan hmanifests hstaged operation
  rw [TableM.perform_ofFiles] at hplan
  obtain ⟨hresult, hfiles⟩ := Prod.mk.inj hplan
  obtain ⟨hok, rfl⟩ := Prod.mk.inj hresult
  obtain rfl : files = files₁ :=
    ((u.reads_plan operation changes).eq_of_perform (Prod.ext hok hfiles)).symm
  have hplanned : Planned root files u operation changes p :=
    perform_plan_iff.1 (Prod.ext hok hfiles)
  -- Writing does not fail, and leaves the log as it is.
  obtain ⟨list, u', files₁, hwritten, rfl, hlist, h₁, hfiled⟩ := (@writeSnapshot_performs
    World.everything _ _ _ _ _ h hroom _ _ _ hplanned
      u.metadata.properties.inheritsSnapshotIds).succeeds (fun _ _ => trivial) fun _ _ _ => id
  simp only [contract] at hwritten
  rw [TableM.perform_bind, hwritten]
  dsimp only
  obtain ⟨hreplica, hversion⟩ := h.replica_of_rebuild (perform_loadLatest hread)
  have hprepared : Prepared World.everything root files files₁ u p
      (p.snapshot base operation list now) := ⟨⟨operation, changes, hplanned⟩, hfiled, rfl, hlist⟩
  have hsame : Rule.versionFree root files u base = Rule.versionFree root files₁ u base := by
    rw [Rule.versionFree, Rule.versionFree, h.file, h₁.file]
  rw [hsame]
  refine .bindOk ?_ ?_
  · exact decides_commitActions h₁ hroom hreplica hversion (hprepared.registers base now) base now
  · intro _ t' files'
    rw [TableM.perform_pure]
    exact ⟨_, rfl⟩

end Table

namespace World

/-- In every run, whatever ran or stopped before, a change of files for which the staged manifests
can be read is decided by the rules for commits, through whatever handle, if totals of 64 bits tell
how many rows a replacement adds and removes: it is done just if all of them are kept, and otherwise
it fails for the first that is not. They are rules about the table that the log has, the files that
are live in it, and the manifests that are staged. -/
theorem commit_decided (hvacant : files.Vacant root) (hroom : root.Roomy) (turns : List Turn)
    {w : World} (hrun : run root (start files) turns = w) {handle : Nat} {t : Table}
    (hhandle : w.handles handle = some t) (changes : FileChanges)
    (hstaged : ∀ path ∈ changes.stagedPaths, w.files.HasManifest root path)
    (base : Option SnapshotId) (operation : Operation) (now : Calendar.Instant) :
    ∃ u manifests staged, perform root Table.loadLatest w.files = (.ok u, w.files) ∧
      perform root u.loadCurrent w.files = (.ok manifests, w.files) ∧
      List.Forall₂ (Table.Staged.IsRead root w.files) changes.stagedPaths staged ∧
      (Rule.RowsFit operation (.ofManifests (manifests.map Prod.snd)) changes
          (changes.arriving staged) →
        Decides (u.commitRules root w.files base operation changes
            (.ofManifests (manifests.map Prod.snd)) staged)
          ((Table.commit base operation changes now).perform root t w.files).1.1) := by
  obtain ⟨commits, current, hordered, hshelved⟩ := shelved_run hvacant turns
  rw [hrun] at hordered hshelved
  have hchain := hordered.chain
  have hpos := (hordered.replicas handle t hhandle).current_pos
  obtain ⟨u, hu⟩ := hchain.replays current hpos hchain.current_le
  have hread := hchain.perform_loadLatest hpos hu
  obtain ⟨last, hlast, hextends⟩ := hchain.exists_last hu
  have hstored : u.IsStored root w.files := fun id s hs =>
    hshelved.registered commits current last hchain hlast id s (hextends.kept id s hs)
  obtain ⟨manifests, hmanifests⟩ := hstored.exists_current
  obtain ⟨staged, hfound⟩ := Table.exists_staged hstaged
  refine ⟨u, manifests, staged, hread, hmanifests, hfound, fun hfit => ?_⟩
  rw [Table.commitRules_eq hfit]
  exact Table.decides_commit hchain hroom hread hmanifests hfound t base operation now

end World

/-! ### Replacements of two rows -/

namespace Days

/-- The files that are live after both were added. -/
def live : LiveFiles := .ofManifests ((begun.manifestsAfter (adding 2)).map Prod.snd)

/-- The file of two rows, whose path is listed twice, is replaced by others. -/
def replacing (added : List DataFile) : FileChanges :=
  { FileChanges.adding added with deletedPaths := [dated.path, dated.path] }

/-- A file of so many rows without a day. -/
def rowsAt (path : String) (n : UInt64) : DataFile := .withoutMetrics path [none] n 50

def twoFiles : List DataFile := [rowsAt "data/c.parquet" 1, rowsAt "data/d.parquet" 1]

/-- Files of more rows than can be counted in 64 bits. -/
def overflowing : List DataFile :=
  [rowsAt "data/c.parquet" (.ofNat (2 ^ 63)), rowsAt "data/d.parquet" (.ofNat (2 ^ 63)),
    rowsAt "data/e.parquet" 2]

/-- Whatever fits can be planned in place of the file, if the totals agree. -/
theorem planned_replacing {added : List DataFile} (hne : added ≠ [])
    (hfits : checkAdded filled.spec live .empty added = .ok ())
    (htotal : DataFile.totalRecords added = 2) :
    Table.Planned ⟨"."⟩ (world 4).files filled .replace (replacing added)
      ⟨3, begun.manifestsAfter (adding 2), pathSet [dated.path, dated.path], added, []⟩ := by
  have harriving : Table.Plan.arriving
      ⟨3, begun.manifestsAfter (adding 2), pathSet [dated.path, dated.path], added, []⟩ = added :=
    List.append_nil added
  refine ⟨FileChanges.fit_eq_ok.2 ⟨rfl, .inl hne, by simp [replacing]⟩, rfl,
    known_filled.stands.loads, rfl, rfl, rfl, fun _ hs => absurd hs List.not_mem_nil, ?_, ?_⟩
  · rw [harriving]
    exact hfits
  · rw [harriving, htotal]
    rfl

theorem logRules_filled : ∀ r ∈ [Rule.versionLeft filled,
    Rule.versionFree ⟨"."⟩ (world 4).files filled filled.currentId], r.kept := by
  obtain ⟨commits, hlength, hlatest⟩ := known_filled.stands.latest
  have hleft : (Rule.versionLeft filled).kept := (by decide : 3 + 1 < UInt64.size)
  have hversion : filled.version.toNat = commits.length := by rw [hlength]; rfl
  have hfree := (Rule.versionFree_kept hlatest.chain hversion hleft filled.currentId).2 rfl
  simp only [List.forall_mem_cons, List.not_mem_nil, false_imp_iff, implies_true, and_true]
  exact ⟨hleft, hfree⟩

theorem replaces {added : List DataFile} (hne : added ≠ [])
    (hfits : checkAdded filled.spec live .empty added = .ok ())
    (htotal : DataFile.totalRecords added = 2) :
    ∃ s, ((Table.commit filled.currentId .replace (replacing added) default).perform ⟨"."⟩ filled
      (world 4).files).1.1 = .ok s := by
  obtain ⟨_, -, hlatest⟩ := known_filled.stands.latest
  have hnone : List.Forall₂ (Table.Staged.IsRead ⟨"."⟩ (world 4).files)
      (replacing added).stagedPaths [] := .nil
  have hdecides := Table.decides_commit hlatest.chain roomy_here hlatest.read
    known_filled.stands.loads hnone filled filled.currentId .replace default
  refine hdecides.granted.2 (List.forall_mem_cons.2 ⟨rfl, fun r hr => ?_⟩)
  exact (List.mem_append.1 hr).elim ((planned_replacing hne hfits htotal).kept r) (logRules_filled r)

end Days

open Days in
/-- One file is replaced by two. -/
theorem World.commit_decided_twoForOne : Tree.empty.Vacant ⟨"."⟩ ∧ Location.Roomy ⟨"."⟩ ∧
    ∃ w t, run ⟨"."⟩ (start .empty) (turns.take 4) = w ∧ w.handles 0 = some t ∧
      (∀ path ∈ (replacing twoFiles).stagedPaths, w.files.HasManifest ⟨"."⟩ path) ∧
      ∃ u manifests staged, perform ⟨"."⟩ Table.loadLatest w.files = (.ok u, w.files) ∧
        perform ⟨"."⟩ u.loadCurrent w.files = (.ok manifests, w.files) ∧
        Rule.RowsFit .replace (.ofManifests (manifests.map Prod.snd)) (replacing twoFiles)
          ((replacing twoFiles).arriving staged) ∧
        Decides (u.commitRules ⟨"."⟩ w.files u.currentId .replace (replacing twoFiles)
            (.ofManifests (manifests.map Prod.snd)) staged)
          ((Table.commit u.currentId .replace (replacing twoFiles) default).perform ⟨"."⟩ t
            w.files).1.1 ∧
        ∃ s, ((Table.commit u.currentId .replace (replacing twoFiles) default).perform ⟨"."⟩ t
          w.files).1.1 = .ok s := by
  have h := known_filled.stands
  have hrun : run ⟨"."⟩ (start .empty) (turns.take 4) = world 4 := by rw [world]
  have hstaged : ∀ path ∈ (replacing twoFiles).stagedPaths,
      (world 4).files.HasManifest ⟨"."⟩ path := fun path hpath => absurd hpath List.not_mem_nil
  obtain ⟨u, manifests, staged, hread, hmanifests, hfound, hdecides⟩ :=
    commit_decided Tree.vacant_empty roomy_here (turns.take 4) hrun h.copy (replacing twoFiles)
      hstaged filled.currentId .replace default
  obtain ⟨_, -, hlatest⟩ := h.latest
  obtain rfl := Except.ok.inj (Prod.mk.inj (hlatest.read.symm.trans hread)).1
  obtain rfl := Except.ok.inj (Prod.mk.inj (h.loads.symm.trans hmanifests)).1
  obtain rfl : staged = [] := by cases hfound; rfl
  have hfit : Rule.RowsFit .replace live (replacing twoFiles) ((replacing twoFiles).arriving []) := by
    intro _
    decide
  exact ⟨Tree.vacant_empty, roomy_here, world 4, filled, hrun, h.copy, hstaged, filled, _, [], hread,
    hmanifests, hfit, hdecides hfit, replaces (by simp [twoFiles]) rfl rfl⟩

/-! ### Limits -/

namespace Days

/-- Behind the first commit of the table, somebody else has put one that does not go on from it. -/
def strayed : Tree := ((world 1).files.create (Path.join "." (Layout.commitPath 2))
  (commitContent ⟨2, 0, default, []⟩)).2

theorem pending_strayed : Pending ⟨"."⟩ (.new 1 metadata) [] strayed ∧
    Holds ⟨"."⟩ strayed 2 ⟨2, 0, default, []⟩ := by
  obtain ⟨commits, hlength, hlatest⟩ := known_made.stands.latest
  have hgrounded : (world 1).files.Grounded := by
    rw [world]
    exact World.grounded_run Tree.vacant_empty.grounded (turns.take 1)
  have hversion : (Table.new 1 metadata).version.toNat = commits.length := by rw [hlength]; rfl
  have hleft : (Rule.versionLeft (.new 1 metadata)).kept := (by decide : 1 + 1 < UInt64.size)
  have hfree := (Rule.versionFree_kept hlatest.chain hversion hleft none).2 rfl
  have hforeign : (0 : Version) ≠ 1 := by decide
  have hnext : (Table.new 1 metadata).version + 1 = 2 := by decide
  refine Pending.of_foreign known_made.stands.rebuilt hlatest.chain.hosts roomy_here hgrounded hfree
    (fun _ => hforeign) ?_
  rw [hnext, strayed]

/-- Though the totals agree, the replacement adds more rows than it removes. -/
theorem not_decides_overflowing : ¬ Decides
    (filled.commitRules ⟨"."⟩ (world 4).files filled.currentId .replace (replacing overflowing) live [])
    ((Table.commit filled.currentId .replace (replacing overflowing) default).perform ⟨"."⟩ filled
      (world 4).files).1.1 := by
  intro hdecides
  have hrows : DataFile.rows overflowing = 2 ^ 64 + 2 := by decide
  have hremoved : DataFile.rows (live.deleted (replacing overflowing)) = 2 := by decide
  have htotal : DataFile.totalRecords overflowing = 2 := by
    rw [← UInt64.toNat_inj, DataFile.toNat_totalRecords, hrows]
    rfl
  have hkept : (Rule.keepsRows .replace live (replacing overflowing)
      ((replacing overflowing).arriving [])).kept :=
    hdecides.granted.1 (replaces (by simp [overflowing]) rfl htotal) _ (by simp [Table.commitRules])
  exact absurd ((hrows.symm.trans (hkept rfl)).trans hremoved) (by decide)

/-- The version is taken, but no race for it was lost. -/
theorem not_decides_strayed : ¬ Decides
    ((Table.new 1 metadata).commitRules ⟨"."⟩ strayed none .append .none (.ofManifests []) [])
    ((Table.commit none .append .none default).perform ⟨"."⟩ (.new 1 metadata) strayed).1.1 := by
  intro hdecides
  obtain ⟨hpending, hstray⟩ := pending_strayed
  have hplanned : Table.Planned ⟨"."⟩ strayed (.new 1 metadata) .append .none (.first []) :=
    .first rfl Operation.noConfusion rfl rfl rfl
  have htaken : ¬ (Rule.versionFree ⟨"."⟩ strayed (.new 1 metadata) none).kept := by
    obtain ⟨bytes, hbytes⟩ := hstray.content?
    exact fun hfree => absurd (hbytes.symm.trans hfree) (by simp)
  have hothers : ∀ r ∈ (Table.new 1 metadata).commitRules ⟨"."⟩ strayed none .append .none
      (.ofManifests []) [], r.kept ∨ r = .versionFree ⟨"."⟩ strayed (.new 1 metadata) none := by
    refine List.forall_mem_cons.2 ⟨.inl rfl, fun r hr => ?_⟩
    rcases List.mem_append.1 hr with hr | hr
    · exact .inl (hplanned.kept r (List.mem_append_left _ hr))
    · simp only [List.mem_cons, List.not_mem_nil, or_false] at hr
      rcases hr with rfl | rfl | rfl
      · exact .inl Operation.noConfusion
      · exact .inl (by decide : 1 + 1 < UInt64.size)
      · exact .inr rfl
  have hnone : (Table.new 1 metadata).currentId = none := rfl
  rcases (Table.commit_meets hpending .append .none (.new 1 metadata) default).outcome
    fun _ _ => trivial with ⟨s, t', files', hrun, hmet⟩ | ⟨e, t', files', hrun, hmet⟩
  · simp only [free, hnone] at hrun
    rw [hrun] at hdecides
    exact htaken (hdecides.kept _ (by simp [Table.commitRules]))
  · simp only [free, hnone] at hrun
    rw [hrun] at hdecides
    -- The error would have to report the last rule, for the others are kept.
    obtain ⟨before, rule, after, hrules, -, hrule, hreported⟩ := hdecides.refused e rfl
    obtain rfl := (hothers rule (by simp [hrules])).resolve_left hrule
    obtain ⟨found, rfl⟩ := hreported
    obtain ⟨c, rest, u, hcons, -⟩ := hmet.of_conflict
    exact absurd hcons (by simp)

end Days

open Days in
/-- Neither limit can be left out. -/
theorem World.commit_decided_fails :
    ¬ Decides (filled.commitRules ⟨"."⟩ (world 4).files filled.currentId .replace
        (replacing overflowing) live [])
      ((Table.commit filled.currentId .replace (replacing overflowing) default).perform ⟨"."⟩ filled
        (world 4).files).1.1 ∧
    ¬ Decides ((Table.new 1 metadata).commitRules ⟨"."⟩ strayed none .append .none (.ofManifests [])
        [])
      ((Table.commit none .append .none default).perform ⟨"."⟩ (.new 1 metadata) strayed).1.1 :=
  ⟨not_decides_overflowing, not_decides_strayed⟩

end Lakehouse
