import Lakehouse.Proofs.Run.Course

/- Looking at snapshots.

   A snapshot is looked at through a handle whose copy has it: its record, its entries, the
   files among them that are live, its manifests, and its files by partition
   (`Table.Shown`). All of this is made of the record and of the manifests that its list
   names, and these can be read from the time on when the snapshot is registered. As no
   action takes a snapshot away or registers another under its id, and as its files stay,
   it looks the same at every later time and through every handle
   (`snapshots_look_the_same`). -/
namespace Lakehouse

open Contract Log Script

variable {asked : Request → Prop} {root : Location} {files files' : Tree} {commits : List Commit}
  {current : Nat} {t : Table} {id : SnapshotId}

/-! ### Views -/

/-- What a snapshot looks like. The manifests depend on how bounds are written. -/
structure SnapshotView where
  snapshot : Snapshot
  entries : List ManifestEntry
  files : List DataFile
  manifests : BoundText → List ManifestRow
  partitions : List PartitionRow

/-- The look of a snapshot with these manifests. -/
def SnapshotView.ofManifests (s : Snapshot) (ms : List (ManifestRecord × Manifest)) :
    SnapshotView where
  snapshot := s
  entries := ms.flatMap fun m => m.2.entries
  files := liveFiles (ms.map Prod.snd)
  manifests := fun write => (ms.map Prod.fst).map (.ofRecord write)
  partitions := groupByPartition (liveFiles (ms.map Prod.snd))

/-- The snapshot with this id looks like this, seen through the copy `t`. -/
structure Table.Shown (root : Location) (tree : Tree) (t : Table) (id : SnapshotId)
    (v : SnapshotView) : Prop where
  snapshot : t.snapshot? id = some v.snapshot
  entries : perform root (t.entries (some id)) tree = (.ok v.entries, tree)
  files : perform root (t.files (some id)) tree = (.ok v.files, tree)
  manifests : ∀ write,
    perform root (t.manifests write (some id)) tree = (.ok (v.manifests write), tree)
  partitions : perform root (t.partitions (some id)) tree = (.ok v.partitions, tree)

theorem Snapshot.Loads.shown {s : Snapshot} {ms : List (ManifestRecord × Manifest)}
    (h : s.Loads root files ms) (hs : t.snapshot? id = some s) :
    t.Shown root files id (.ofManifests s ms) := by
  refine ⟨hs, ?_, Table.perform_files hs h, fun write => ?_, ?_⟩
  · rw [Table.entries, Table.rowsOf_some hs]
    exact Table.perform_entriesOf h
  · rw [Table.manifests, Table.rowsOf_some hs]
    exact Table.perform_manifestsOf h write
  · rw [Table.partitions, ← bind_pure_comp]
    exact perform_bind_ok.2 ⟨_, files, Table.perform_files hs h, rfl⟩

/-! ### Copies of one log -/

/-- Two copies of a log that goes on have the same snapshot under an id that both have. -/
theorem Log.Replica.same_snapshot {commits' : List Commit} {current' : Nat} {t' : Table}
    {s s' : Snapshot} (hreplica : Replica commits current t)
    (h : Chain root files commits current) (hreplica' : Replica commits' current' t')
    (h' : Chain root files' commits' current') (hbegins : commits <+: commits')
    (hs : t.snapshot? id = some s) (hs' : t'.snapshot? id = some s') : s' = s := by
  obtain ⟨u, hu, hextends⟩ := h.exists_last hreplica.table
  obtain ⟨u', hu', hextends'⟩ := h'.exists_last hreplica'.table
  have hkept := (extends_of_begins hbegins hu hu').kept id s (hextends.kept id s hs)
  exact Option.some.inj ((hextends'.kept id s' hs').symm.trans hkept)

namespace World

/-- In every run, whatever ran, failed or stopped, a snapshot that some handle has looks the
same at every later time and through every handle that has it. -/
theorem snapshots_look_the_same (hvacant : files.Vacant root) (turns : List Turn) {handle : Nat}
    (ht : (run root (start files) turns).handles handle = some t)
    (hin : t.snapshots.contains id = true) :
    ∃ v, t.Shown root (run root (start files) turns).files id v ∧
      ∀ later handle' t', (run root (start files) (turns ++ later)).handles handle' = some t' →
        t'.snapshots.contains id = true →
        t'.Shown root (run root (start files) (turns ++ later)).files id v := by
  obtain ⟨commits, current, hordered, hshelved⟩ := shelved_run hvacant turns
  simp only [run_append]
  generalize run root (start files) turns = w at *
  obtain ⟨s, hs⟩ := SortedMap.contains_iff.1 hin
  have hreplica := hordered.replicas handle t ht
  obtain ⟨u, hu, hextends⟩ := hordered.chain.exists_last hreplica.table
  have hlist := hshelved.registered commits current u hordered.chain hu id s
    (hextends.kept id s hs)
  obtain ⟨ms, hloads⟩ := hlist.loads
  refine ⟨.ofManifests s ms, hloads.shown hs, ?_⟩
  intro later handle' t' ht' hin'
  obtain ⟨commits', current', hordered', hbegins, -, hproceeds⟩ := hordered.run later
  obtain ⟨s', hs'⟩ := SortedMap.contains_iff.1 hin'
  obtain rfl := hreplica.same_snapshot hordered.chain (hordered'.replicas handle' t' ht')
    hordered'.chain hbegins hs hs'
  have hlater : s'.Loads root (World.run root w later).files ms :=
    FileM.loadManifests_grows hordered.chain hproceeds.grows hloads
  exact hlater.shown hs'

end World

open Days World in
/-- The snapshot with both files looks as before after one of them was deleted, an older snapshot was
made current again, and both were added once more. -/
theorem Days.snapshots_look_the_same_filled : Tree.empty.Vacant ⟨"."⟩ ∧
    run ⟨"."⟩ (start .empty) (turns.take 4) = world 4 ∧ (world 4).handles 0 = some filled ∧
    filled.snapshots.contains 2 = true ∧
    run ⟨"."⟩ (start .empty) (turns.take 4 ++ (turns.drop 4).take 4) = world 8 ∧
    (world 8).handles 0 = some refilled ∧ refilled.snapshots.contains 2 = true ∧
    ∃ v, v.files = [dated, undated] ∧ filled.Shown ⟨"."⟩ (world 4).files 2 v ∧
      refilled.Shown ⟨"."⟩ (world 8).files 2 v := by
  have hcopy := known_filled.stands.copy
  have hcopy' := known_refilled.stands.copy
  have hin : filled.snapshots.contains 2 = true := by decide
  have hin' : refilled.snapshots.contains 2 = true := by decide
  have hfind : filled.snapshots.find? 2 = some (begun.snapshotOf (adding 2) .append default) := rfl
  have hid : filled.currentId = some 2 := rfl
  have hlists := Table.perform_files hfind (known_filled.loads hid hfind)
  have hrun : run ⟨"."⟩ (start .empty) (turns.take 4) = world 4 := world_eq 4
  have hrun' : run ⟨"."⟩ (start .empty) (turns.take 4 ++ (turns.drop 4).take 4) = world 8 :=
    world_add 4 4
  obtain ⟨v, hshown, hlater⟩ := @snapshots_look_the_same ⟨"."⟩ .empty filled 2 Tree.vacant_empty
    (turns.take 4) 0 (by rw [hrun]; exact hcopy) hin
  have hshown' := hlater ((turns.drop 4).take 4) 0 refilled (by rw [hrun']; exact hcopy') hin'
  rw [hrun] at hshown
  rw [hrun'] at hshown'
  have hfiles : v.files = [dated, undated] :=
    Except.ok.inj (Prod.mk.inj (hshown.files.symm.trans hlists)).1
  exact ⟨Tree.vacant_empty, hrun, hcopy, hin, hrun', hcopy', hin', v, hfiles, hshown, hshown'⟩

end Lakehouse
