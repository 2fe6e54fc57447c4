import Lakehouse.Proofs.Run.Records
import Lakehouse.Proofs.Run.Viewing
import Lakehouse.Proofs.Table.Counting

/- Counters in runs.

   No path is live twice in a snapshot of a log, since this holds of its parent, which is older
   (`made_once_of_registered`). So the summary of every snapshot counts what the change did to
   the files of its parent (`Table.Made.counts`), and its totals are the sums over its files,
   over its partitions and over the records of its manifests, each of which is counted on its
   own; and they are those of the parent with what came and without what went
   (`counters_agree`). -/
namespace Lakehouse

open Contract Log Script DataFile Summary

variable {asked : Request → Prop} {root : Location} {files : Tree} {commits : List Commit}
  {current : Nat} {t u : Table} {s : Snapshot} {id : SnapshotId}

/-! ### Counts of one snapshot -/

/-- An exact record counts the live files of its manifest. -/
theorem ManifestRecord.IsExact.counts {spec : PartitionSpec} {b : ManifestRecord × Manifest}
    (h : b.1.IsExact root files spec)
    (hload : perform root (FileM.loadManifest b.1) files = (.ok b, files)) :
    (b.2.liveFiles.length < 2 ^ 32 → b.1.liveCount = b.2.liveFiles.length) ∧
      (rows b.2.liveFiles < 2 ^ 64 → b.1.liveRows = rows b.2.liveFiles) := by
  obtain ⟨m, hread, hrecord⟩ := h
  obtain ⟨m', n, hread', hb⟩ := FileM.perform_loadManifest_iff.1 hload
  obtain ⟨rfl, -⟩ := Prod.mk.inj (Except.ok.inj (Prod.mk.inj (hread.symm.trans hread')).1)
  have hlive : b.2.liveFiles = m.liveFiles := by
    rw [hb]
    exact m.liveFiles_inherit _
  rw [hlive, hrecord]
  exact ⟨liveCount_summarize, liveRows_summarize⟩

namespace Table

variable {p : Plan}

theorem Made.counts (h : Made root files u p s) (hbase : OncePerPath p.base) :
    s.summary.Counts (beyond (liveFiles ((p.results u).map Prod.snd)) p.base)
      (beyond p.base (liveFiles ((p.results u).map Prod.snd)))
      (liveFiles ((p.results u).map Prod.snd)) := by
  obtain ⟨_, _, _, _, hplanned, hs⟩ := h.makes
  rw [hs]
  exact hplanned.counts hbase _ _ _ _

theorem Made.abides (h : Made root files u p s) (hbase : OncePerPath p.base) :
    Abides s.operation p.base (liveFiles ((p.results u).map Prod.snd)) := by
  obtain ⟨_, _, _, _, hplanned, hs⟩ := h.makes
  rw [hs]
  exact hplanned.abides hbase _

theorem Made.balance (h : Made root files u p s) :
    (liveFiles ((p.results u).map Prod.snd) ++
      beyond p.base (liveFiles ((p.results u).map Prod.snd))).Perm
      (p.base ++ beyond (liveFiles ((p.results u).map Prod.snd)) p.base) := by
  obtain ⟨_, _, _, _, hplanned, -⟩ := h.makes
  exact hplanned.balance _

theorem Made.oncePerPath (h : Made root files u p s) (hbase : OncePerPath p.base) :
    OncePerPath (liveFiles ((p.results u).map Prod.snd)) := by
  obtain ⟨_, _, _, _, hplanned, -⟩ := h.makes
  exact hplanned.oncePerPath_after hbase _

/-- The files of the parent of a snapshot as they are listed, none without a parent. -/
def ParentFiles (root : Location) (files : Tree) (t : Table) (s : Snapshot)
    (before : List DataFile) : Prop :=
  s.parentId = none ∧ before = [] ∨
    ∃ id, s.parentId = some id ∧ perform root (t.files (some id)) files = (.ok before, files)

/-- A number in the summary of the parent of a snapshot, zero without a parent. -/
def parentCount (t : Table) (s : Snapshot) (name : String) : Nat :=
  (s.parentId.bind t.snapshots.find?).elim 0 fun parent => parent.summary.count name

/-- The live files and rows of a snapshot are those that its summary, its partitions and the
records of its manifests count. Records count files in 32 bits, so the sum of their files is claimed
only if no manifest has 2³² live files or more. -/
structure Totals (root : Location) (files : Tree) (t : Table) (id : SnapshotId) (s : Snapshot)
    (listed : List DataFile) : Prop where
  totalRows : s.summary.count totalRecords = rows listed
  partitions : ∃ parts, perform root (t.partitions (some id)) files = (.ok parts, files) ∧
    (parts.map fun p => p.fileCount.toNat).sum = listed.length ∧
    (parts.map fun p => p.recordCount.toNat).sum = rows listed
  records : ∃ ms, s.Loads root files ms ∧
    ((∀ b ∈ ms, b.2.liveFiles.length < 2 ^ 32) →
      (ms.map fun b => b.1.liveCount).sum = listed.length) ∧
    (ms.map fun b => b.1.liveRows).sum = rows listed

/-- What a snapshot with the files `listed` counts against its parent with the files `before`. -/
structure Balances (t : Table) (s : Snapshot) (before listed : List DataFile) : Prop where
  totalFiles : s.summary.count totalDataFiles + s.summary.count deletedDataFiles =
    t.parentCount s totalDataFiles + s.summary.count addedDataFiles
  totalRows : s.summary.count totalRecords + s.summary.count deletedRecords =
    t.parentCount s totalRecords + s.summary.count addedRecords
  added : s.summary.count addedDataFiles = (beyond listed before).length ∧
    s.summary.count addedRecords = rows (beyond listed before)
  deleted : s.summary.count deletedDataFiles = (beyond before listed).length ∧
    s.summary.count deletedRecords = rows (beyond before listed)
  partitions : s.summary.count changedPartitionCount =
    ((beyond listed before ++ beyond before listed).map DataFile.partition).dedup.length
  appends : s.operation = .append → beyond before listed = []
  deletes : s.operation = .delete → beyond listed before = []
  replaces : s.operation = .replace →
    s.summary.count totalRecords = t.parentCount s totalRecords

variable {listed before : List DataFile} {ms : List (ManifestRecord × Manifest)}

/-- Where the sums fit, the files are counted alike by partition and by manifest. -/
theorem Totals.of_exact (hs : t.snapshots.find? id = some s) (hloads : s.Loads root files ms)
    (hlisted : liveFiles (ms.map Prod.snd) = listed)
    (hexact : ∀ b ∈ ms, b.1.IsExact root files t.spec)
    (hcounts : s.summary.Counts (beyond listed before) (beyond before listed) listed)
    (hlength : listed.length < 2 ^ 64) (hrows : rows listed < 2 ^ 64) :
    t.Totals root files id s listed := by
  have hcounted := fun b hb =>
    (hexact b hb).counts ((FileM.perform_loadManifests_iff.1 hloads).2 b hb)
  obtain ⟨hpartitionRows, hpartitionFiles⟩ := sum_groupByPartition hrows hlength
  have hpartitions := (hloads.shown hs).partitions
  rw [SnapshotView.ofManifests, hlisted] at hpartitions
  refine ⟨?_, ⟨_, hpartitions, hpartitionFiles, hpartitionRows⟩, ms, hloads,
    fun hfit => ?_, ?_⟩
  · rw [hcounts.rows, Nat.mod_eq_of_lt hrows]
  · rw [← hlisted, length_liveFiles, List.map_map]
    exact congrArg List.sum (List.map_congr_left fun b hb => (hcounted b hb).1 (hfit b hb))
  · have hall : rows listed = (ms.map fun b => rows b.2.liveFiles).sum := by
      rw [← hlisted, rows_liveFiles, List.map_map]
      rfl
    rw [hall]
    refine congrArg List.sum (List.map_congr_left fun b hb => (hcounted b hb).2 ?_)
    have hpart := List.le_sum_of_mem (List.mem_map.2 ⟨b, hb, rfl⟩ :
      rows b.2.liveFiles ∈ ms.map fun b => rows b.2.liveFiles)
    omega

/-- Where the sums fit, the summary counts the change from the parent. -/
theorem Balances.of_counts
    (hcounts : s.summary.Counts (beyond listed before) (beyond before listed) listed)
    (hbalance : (listed ++ beyond before listed).Perm (before ++ beyond listed before))
    (habides : Abides s.operation before listed)
    (hfiles : t.parentCount s totalDataFiles = before.length)
    (hparent : t.parentCount s totalRecords = rows before)
    (hbefore : rows before < 2 ^ 64) (hlisted : rows listed < 2 ^ 64) :
    t.Balances s before listed := by
  have hadded : rows (beyond listed before) ≤ rows listed := rows_filter_le _ _
  have hdeleted : rows (beyond before listed) ≤ rows before := rows_filter_le _ _
  have haddedRows := hcounts.addedRows
  have hdeletedRows := hcounts.deletedRows
  have htotalRows := hcounts.rows
  rw [Nat.mod_eq_of_lt (by omega)] at haddedRows hdeletedRows htotalRows
  have hlengths := hbalance.length_eq
  have hsums := rows_perm hbalance
  rw [List.length_append, List.length_append] at hlengths
  rw [rows_append, rows_append] at hsums
  refine ⟨?_, ?_, ⟨hcounts.addedFiles, haddedRows⟩, ⟨hcounts.deletedFiles, hdeletedRows⟩,
    hcounts.partitions, fun happend => ?_, fun hdelete => ?_, fun hreplace => ?_⟩
  · rw [hcounts.files, hcounts.deletedFiles, hcounts.addedFiles, hfiles, hlengths]
  · rw [htotalRows, hdeletedRows, haddedRows, hparent, hsums]
  · rw [happend] at habides
    exact habides
  · rw [hdelete] at habides
    exact habides
  · rw [hreplace] at habides
    have hsame : rows before % 2 ^ 64 = rows listed % 2 ^ 64 := habides
    rw [Nat.mod_eq_of_lt hbefore, Nat.mod_eq_of_lt hlisted] at hsame
    rw [htotalRows, hparent, hsame]

end Table

namespace World

variable {w w₀ : World} {turns : List Turn}

/-- If all commits can be traced, no path is live twice in what the plan of a snapshot builds on. -/
theorem made_once_of_registered (hclear : Unambiguous asked)
    (htraces : ∀ commits₁ c, commits₁ ++ [c] <+: commits →
      Traces asked root w₀ turns commits₁ c files) (n : Nat) :
    ∀ t, tableAfter? (commits.take n) = some t → ∀ id s, t.snapshots.find? id = some s →
      ∃ k u p, k < n ∧ tableAfter? (commits.take k) = some u ∧ s.parentId = u.currentId ∧
        Table.Made root files u p s ∧ OncePerPath p.base := by
  induction n using Nat.strongRecOn with
  | _ n ih =>
    intro t ht id s hs
    obtain ⟨k, u, p, hk, hu, -, hparent, -, hmade⟩ :=
      made_of_registered hclear htraces n t ht id s hs
    refine ⟨k, u, p, hk, hu, hparent, hmade, ?_⟩
    rcases hmade.base with ⟨-, hnil⟩ | ⟨b, hcurrent, hloads⟩
    · rw [Table.Plan.base, hnil]
      exact List.nodup_nil
    · obtain ⟨pid, -, hfind⟩ := Option.bind_eq_some_iff.1 hcurrent
      obtain ⟨_, v, q, -, -, -, hmade', honce⟩ := ih k hk u hu pid b hfind
      rw [Table.Plan.base, ← hmade'.loads.unique hloads]
      exact hmade'.oncePerPath honce

/-- If all commits can be traced, the totals of the parent of a snapshot are those of the files that
can be read as its own. -/
theorem parent_of_registered (hclear : Unambiguous asked)
    (htraces : ∀ commits₁ c, commits₁ ++ [c] <+: commits →
      Traces asked root w₀ turns commits₁ c files) {n : Nat}
    (ht : tableAfter? (commits.take n) = some t) {ms : List (ManifestRecord × Manifest)}
    (hparent : t.ParentLoads root files s ms) :
    t.ParentFiles root files s (liveFiles (ms.map Prod.snd)) ∧
      t.parentCount s totalDataFiles = (liveFiles (ms.map Prod.snd)).length ∧
      t.parentCount s totalRecords = rows (liveFiles (ms.map Prod.snd)) % 2 ^ 64 := by
  rcases hparent with ⟨hnone, rfl⟩ | ⟨pid, b, hsome, hfind, hloads⟩
  · refine ⟨.inl ⟨hnone, rfl⟩, ?_, ?_⟩
    · rw [Table.parentCount, hnone]
      rfl
    · rw [Table.parentCount, hnone]
      rfl
  · obtain ⟨_, v, q, -, -, -, hmade, honce⟩ :=
      made_once_of_registered hclear htraces n t ht pid b hfind
    obtain rfl := hmade.loads.unique hloads
    have hcounts := hmade.counts honce
    refine ⟨.inr ⟨pid, hsome, Table.perform_files hfind hloads⟩, ?_, ?_⟩
    · rw [Table.parentCount, hsome, Option.bind_some, hfind]
      exact hcounts.files
    · rw [Table.parentCount, hsome, Option.bind_some, hfind]
      exact hcounts.rows

/-- In every run, with any number of handles, failures and stops, the counters of every snapshot
agree in every table that is kept or replayed, unless they overflow: its summary, its partitions
and the records of its manifests count the live files and their rows, and the totals are those of
the parent with what the snapshot added and without what it deleted. Records count files in 32 bits:
of the files that they count nothing is said unless each manifest has less than 2³² that are live.
It is assumed that the contents which the turns ask to be stored can be told apart by their names. -/
theorem counters_agree (hvacant : files.Vacant root) (turns : List Turn)
    (hclear : Unambiguous asked)
    (hasked : ∀ before turn, before ++ [turn] <+: turns →
      ∀ r ∈ (run root (start files) before).wants root turn, asked r) :
    ∀ t, (run root (start files) turns).Has root t → ∀ id s, t.snapshots.find? id = some s →
      ∃ listed before,
        perform root (t.files (some id)) (run root (start files) turns).files =
          (.ok listed, (run root (start files) turns).files) ∧
        t.ParentFiles root (run root (start files) turns).files s before ∧
        s.summary.count totalDataFiles = listed.length ∧
        (listed.length < 2 ^ 64 → rows listed < 2 ^ 64 → rows before < 2 ^ 64 →
          t.Totals root (run root (start files) turns).files id s listed ∧
            t.Balances s before listed) := by
  intro t ht id s hs
  obtain ⟨commits, current, hordered, -, -, htraces⟩ := traced_run hvacant turns hasked
  have htable := (hordered.table_of_has ht).2
  obtain ⟨k, u, p, hk, hu, hcurrent, hmade, honce⟩ :=
    made_once_of_registered hclear htraces _ t htable id s hs
  obtain ⟨ms, hloads, hexact⟩ := exact_of_registered hclear htraces _ t htable id s hs
  obtain rfl := hloads.unique hmade.loads
  have hlineage := traced_induction htraces Table.HasLineage.new
    (fun _ _ h hfollows => h.of_follows hfollows) k u hu
  have hextends := extends_of_begins (List.take_prefix_take_left (Nat.le_of_lt hk)) hu htable
  obtain ⟨hfiles, hparentFiles, hparentRows⟩ := parent_of_registered hclear htraces htable
    (hmade.base.parentLoads hlineage.current hcurrent hextends)
  refine ⟨_, _, Table.perform_files hs hloads, hfiles, (hmade.counts honce).files,
    fun hlength hrows hbefore => ⟨?_, ?_⟩⟩
  · exact .of_exact hs hloads rfl (fun b hb => (hexact b hb).1) (hmade.counts honce) hlength hrows
  · rw [Nat.mod_eq_of_lt hbefore] at hparentRows
    exact .of_counts (hmade.counts honce) hmade.balance (hmade.abides honce) hparentFiles
      hparentRows hbefore hrows

end World

open Days World in
/-- One of two files is deleted, and two of three rows with it. -/
theorem Days.counters_agree_thinned : Tree.empty.Vacant ⟨"."⟩ ∧
    run ⟨"."⟩ (start .empty) (turns.take 5) = world 5 ∧
    Unambiguous (· ∈ (world 5).requests) ∧ (world 5).handles 0 = some thinned ∧
    ∃ s, thinned.snapshots.find? 3 = some s ∧ s.parentId = some 2 ∧
      rows [dated, undated] = 3 ∧ rows [undated] = 1 ∧
      thinned.ParentFiles ⟨"."⟩ (world 5).files s [dated, undated] ∧
      thinned.Totals ⟨"."⟩ (world 5).files 3 s [undated] ∧
      thinned.Balances s [dated, undated] [undated] := by
  have hcopy := known_thinned.stands.copy
  have hclear := known_thinned.stands.unambiguous unambiguous
  have hrun : run ⟨"."⟩ (start .empty) (turns.take 5) = world 5 := world_eq 5
  have hfilled : (begun.snapshotOf (adding 2) .append default).Loads ⟨"."⟩ (world 4).files _ :=
    known_filled.loads rfl rfl
  have hthinned : (filled.snapshotOf deleting .delete default).Loads ⟨"."⟩ (world 5).files _ :=
    known_thinned.loads rfl rfl
  have hbefore : perform ⟨"."⟩ (thinned.files (some 2)) (world 5).files =
      (.ok [dated, undated], (world 5).files) := Table.perform_files rfl (loads_later hfilled 1)
  have hlisted : perform ⟨"."⟩ (thinned.files (some 3)) (world 5).files =
      (.ok [undated], (world 5).files) := Table.perform_files rfl hthinned
  have hfind : thinned.snapshots.find? 3 = some (filled.snapshotOf deleting .delete default) := rfl
  have hcounters := @counters_agree (· ∈ (world 5).requests) ⟨"."⟩ .empty Tree.vacant_empty
    (turns.take 5) hclear
    (fun before turn hprefix => by rw [← hrun]; exact wants_mem_requests (ends 5) hprefix)
  rw [hrun] at hcounters
  obtain ⟨listed, before, hlisted', hparent, -, hcounted⟩ := hcounters thinned (.kept hcopy) 3 _ hfind
  obtain rfl := Except.ok.inj (Prod.mk.inj (hlisted.symm.trans hlisted')).1
  have hparentId : (filled.snapshotOf deleting .delete default).parentId = some 2 := rfl
  obtain ⟨hnone, -⟩ | ⟨id, hid, hbefore'⟩ := hparent
  · exact absurd (hparentId.symm.trans hnone) (by simp)
  obtain rfl := Option.some.inj (hparentId.symm.trans hid)
  obtain rfl := Except.ok.inj (Prod.mk.inj (hbefore.symm.trans hbefore')).1
  have hthree : rows [dated, undated] = 3 := by decide
  have hone : rows [undated] = 1 := by decide
  obtain ⟨htotals, hbalances⟩ := hcounted (by decide) (by rw [hone]; decide) (by rw [hthree]; decide)
  exact ⟨Tree.vacant_empty, hrun, hclear, hcopy, _, hfind, hparentId, hthree, hone,
    .inr ⟨2, hparentId, hbefore⟩, htotals, hbalances⟩

end Lakehouse
