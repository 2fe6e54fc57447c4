import Lakehouse.Proofs.Run.Lineage
import Lakehouse.Proofs.Run.Viewing
import Lakehouse.Proofs.Table.Grouping

/- Partitions in runs.

   Whatever runs, fails or stops, the list and the manifests of each registered snapshot can be
   read (`loads_of_has`). So of every table that is kept or replayed, and for each snapshot of it or
   for the current one, the entries are listed, the files are those of the live ones, and the
   partitions are the groups of these files (`Table.Partitions`). Where the same files are listed
   in another order, of whatever table, the partitions are the same
   (`partitions_group_live_files`). -/
namespace Lakehouse

open Contract Log Script DataFile

variable {root : Location} {files files' : Tree} {commits : List Commit} {current : Nat} {t : Table}
  {id : Option SnapshotId}

namespace Table

/-- A snapshot of the table is asked for, or the current one. -/
def Asks (t : Table) (id : Option SnapshotId) : Prop :=
  ∀ k, id = some k → t.snapshots.contains k = true

/-- The snapshot that is asked for has these entries. Its files are those of the live entries, and
its partitions are the groups of its files. -/
structure Partitions (root : Location) (tree : Tree) (t : Table) (id : Option SnapshotId)
    (entries : List ManifestEntry) (groups : List PartitionRow) : Prop where
  listsEntries : perform root (t.entries id) tree = (.ok entries, tree)
  listsFiles : perform root (t.files id) tree =
    (.ok ((entries.filter (·.isLive)).map (·.file)), tree)
  listsGroups : perform root (t.partitions id) tree = (.ok groups, tree)
  groups : Groups ((entries.filter (·.isLive)).map (·.file)) groups

/-- Wherever files are listed, the partitions are their groups. -/
theorem perform_partitions {listed : List DataFile}
    (h : perform root (t.files id) files = (.ok listed, files')) :
    perform root (t.partitions id) files = (.ok (groupByPartition listed), files') := by
  rw [Table.partitions, ← bind_pure_comp]
  exact perform_bind_ok.2 ⟨listed, files', h, rfl⟩

/-- If all snapshots can be read, the one that is asked for has entries, of which the live ones have
its files. -/
theorem exists_entries
    (hloads : ∀ k s, t.snapshots.find? k = some s → ∃ ms, s.Loads root files ms)
    (hasks : t.Asks id) :
    ∃ entries, perform root (t.entries id) files = (.ok entries, files) ∧
      perform root (t.files id) files =
        (.ok ((entries.filter (·.isLive)).map (·.file)), files) := by
  have hrows : ∀ {s : Snapshot} {k : SnapshotId}, t.resolve id = .ok (some s) →
      t.snapshots.find? k = some s →
      ∃ entries, perform root (t.entries id) files = (.ok entries, files) ∧
        perform root (t.files id) files =
          (.ok ((entries.filter (·.isLive)).map (·.file)), files) := by
    intro s k hresolve hs
    obtain ⟨ms, hms⟩ := hloads k s hs
    have hentries := perform_entriesOf hms
    have hfiles : perform root (filesOf s) files = (.ok (((ms.flatMap fun m => m.2.entries).filter
        (·.isLive)).map (·.file)), files) := perform_bind_ok.2 ⟨_, files, hentries, rfl⟩
    refine ⟨ms.flatMap fun m => m.2.entries, ?_, ?_⟩
    · rw [entries, rowsOf, hresolve]
      exact hentries
    · rw [Table.files, rowsOf, hresolve]
      exact hfiles
  cases id with
  | some k =>
    obtain ⟨s, hs⟩ := SortedMap.contains_iff.1 (hasks k rfl)
    have hresolve : t.resolve (some k) = .ok (some s) := by
      rw [resolve, snapshot?, hs]
    exact hrows hresolve hs
  | none =>
    cases hcurrent : t.current? with
    | some s =>
      obtain ⟨k, -, hs⟩ := Option.bind_eq_some_iff.1 hcurrent
      have hresolve : t.resolve none = .ok (some s) := by
        rw [resolve, hcurrent]
      exact hrows hresolve hs
    | none =>
      -- Before the first snapshot there is nothing to list.
      have hresolve : t.resolve none = .ok none := by
        rw [resolve, hcurrent]
      refine ⟨[], ?_, ?_⟩
      · rw [entries, rowsOf, hresolve]
        rfl
      · rw [Table.files, rowsOf, hresolve]
        rfl

end Table

namespace World

/-- In every run, the snapshots of a table that is kept or replayed can be read. -/
theorem loads_of_has (hvacant : files.Vacant root) (turns : List Turn)
    (ht : (run root (start files) turns).Has root t) {k : SnapshotId} {s : Snapshot}
    (hs : t.snapshots.find? k = some s) :
    ∃ ms, s.Loads root (run root (start files) turns).files ms := by
  obtain ⟨commits, current, hordered, hshelved⟩ := shelved_run hvacant turns
  obtain ⟨u, hu, hextends⟩ := hordered.chain.exists_last (hordered.table_of_has ht).2
  have hstored := hshelved.registered commits current u hordered.chain hu
  exact (hstored k s (hextends.kept k s hs)).loads

/-- In every run, with any number of handles, failures and stops, of every table that is kept or
replayed, the partitions of each snapshot, or of the current one, are the groups of its live
files. They depend on nothing else: whatever table lists these files in whatever order, from
whatever manifests, has the same partitions. -/
theorem partitions_group_live_files (hvacant : files.Vacant root) (turns : List Turn) :
    ∀ t, (run root (start files) turns).Has root t → ∀ id, t.Asks id →
      ∃ entries groups,
        t.Partitions root (run root (start files) turns).files id entries groups ∧
        ∀ root' tree tree' t' id' listed,
          perform root' (Table.files t' id') tree = (.ok listed, tree') →
          ((entries.filter (·.isLive)).map (·.file)).Perm listed →
          perform root' (t'.partitions id') tree = (.ok groups, tree') := by
  intro t ht id hasks
  obtain ⟨entries, hentries, hfiles⟩ :=
    Table.exists_entries (fun k s hs => loads_of_has hvacant turns ht hs) hasks
  refine ⟨entries, groupByPartition ((entries.filter (·.isLive)).map (·.file)), ?_, ?_⟩
  · exact ⟨hentries, hfiles, Table.perform_partitions hfiles, groups_groupByPartition _⟩
  · intro root' tree tree' t' id' listed hlisted hperm
    rw [groupByPartition_perm hperm]
    exact Table.perform_partitions hlisted

end World

open Days World in
/-- One group has the file of the day, and the other has the file without a day; its tuple is null. -/
theorem Days.partitions_group_live_files_filled : Tree.empty.Vacant ⟨"."⟩ ∧
    run ⟨"."⟩ (start .empty) (turns.take 4) = world 4 ∧ (world 4).handles 0 = some filled ∧
    filled.Asks (some 2) ∧
    ∃ entries, filled.Partitions ⟨"."⟩ (world 4).files (some 2) entries
        [⟨[none], 1, 1⟩, ⟨[some (.int 1)], 2, 1⟩] ∧
      (entries.filter (·.isLive)).map (·.file) = [dated, undated] := by
  have hcopy := known_filled.stands.copy
  have hrun : run ⟨"."⟩ (start .empty) (turns.take 4) = world 4 := world_eq 4
  have hloads : (begun.snapshotOf (adding 2) .append default).Loads ⟨"."⟩ (world 4).files _ :=
    known_filled.loads rfl rfl
  have hlisted : perform ⟨"."⟩ (filled.files (some 2)) (world 4).files =
      (.ok [dated, undated], (world 4).files) := Table.perform_files rfl hloads
  have hasks : filled.Asks (some 2) := by
    intro k hk
    obtain rfl := Option.some.inj hk
    decide
  have hgroups := @partitions_group_live_files ⟨"."⟩ .empty Tree.vacant_empty (turns.take 4)
  rw [hrun] at hgroups
  obtain ⟨entries, groups, hpartitions, -⟩ := hgroups filled (.kept hcopy) (some 2) hasks
  have hfiles : (entries.filter (·.isLive)).map (·.file) = [dated, undated] :=
    Except.ok.inj (Prod.mk.inj (hpartitions.listsFiles.symm.trans hlisted)).1
  obtain rfl : groups = [⟨[none], 1, 1⟩, ⟨[some (.int 1)], 2, 1⟩] :=
    Except.ok.inj (Prod.mk.inj (hpartitions.listsGroups.symm.trans
      (Table.perform_partitions hlisted))).1
  exact ⟨Tree.vacant_empty, hrun, hcopy, hasks, entries, hpartitions, hfiles⟩

end Lakehouse
