import Lakehouse.Table.Session

/- Tables about a table.

   The metadata of a table can be looked at as tables of their own: the entries and
   files of a snapshot or of all snapshots, the manifests, the partitions with their
   files counted, the history, and the snapshots. Some of them show one snapshot, the
   current one unless another is asked for; a table without a current snapshot then
   has no rows. -/
namespace Lakehouse

/-- The tables about a table. -/
inductive Inspection where
  | entries
  | allEntries
  | files
  | allDataFiles
  | manifests
  | allManifests
  | history
  | snapshots
  | partitions
  deriving DecidableEq, Repr

namespace Inspection

def every : List Inspection :=
  [entries, allEntries, files, allDataFiles, manifests, allManifests, history, snapshots,
    partitions]

def name : Inspection → String
  | entries => "entries"
  | allEntries => "all_entries"
  | files => "files"
  | allDataFiles => "all_data_files"
  | manifests => "manifests"
  | allManifests => "all_manifests"
  | history => "history"
  | snapshots => "snapshots"
  | partitions => "partitions"

/-- The table shows one snapshot, which may be an earlier one. -/
def showsSnapshot : Inspection → Bool
  | entries => true
  | files => true
  | manifests => true
  | partitions => true
  | _ => false

/-- The table with a name, in which ASCII letters of either case count the same. -/
def ofName (text : String) : Except TableError Inspection :=
  let lowered := text.toList.map Char.toLower
  match every.find? fun k => k.name.toList = lowered with
  | some k => .ok k
  | none => .error (.unknownTable text)

end Inspection

/-- A way to write bounds. -/
abbrev BoundText := Datum → String

/-- A slot's summary with its bounds written. -/
structure SlotRow where
  containsNull : Bool
  lower : Option String
  upper : Option String
  deriving DecidableEq, Repr

/-- A manifest's record with the bounds of its slots written. -/
structure ManifestRow where
  record : ManifestRecord
  slots : List SlotRow
  deriving DecidableEq

def ManifestRow.ofRecord (write : BoundText) (r : ManifestRecord) : ManifestRow :=
  ⟨r, r.slots.map fun s => ⟨s.containsNull, s.lower.map write, s.upper.map write⟩⟩

/-- The live files of one partition, counted. -/
structure PartitionRow where
  partition : PartitionTuple
  recordCount : UInt64
  fileCount : UInt64
  deriving DecidableEq

/-- Counts one more file under its partition. -/
def countFile (groups : SortedMap PartitionTuple (UInt64 × UInt64)) (f : DataFile) :
    SortedMap PartitionTuple (UInt64 × UInt64) :=
  let (records, files) := (groups.find? f.partition).getD (0, 0)
  groups.insert f.partition (records + f.recordCount, files + 1)

/-- The partitions of the files in ascending order. -/
def groupByPartition (files : List DataFile) : List PartitionRow :=
  (files.foldl countFile .empty).toList.map fun (p, records, files) => ⟨p, records, files⟩

namespace Table

/-- The snapshot that is asked for, or the current one. -/
def resolve (t : Table) : Option SnapshotId → Except TableError (Option Snapshot)
  | none => .ok t.current?
  | some id =>
    match t.snapshot? id with
    | some s => .ok (some s)
    | none => .error (.snapshotNotFound id)

/-- The rows about the snapshot that is asked for, or the current one. -/
def rowsOf {α : Type} (t : Table) (id : Option SnapshotId) (rows : Snapshot → FileM (List α)) :
    FileM (List α) :=
  match t.resolve id with
  | .error e => throw e
  | .ok none => return []
  | .ok (some s) => rows s

/-- The rows about each snapshot, in ascending order of the ids. -/
def rowsOfAll {α : Type} (t : Table) (rows : Snapshot → FileM (List α)) : FileM (List α) :=
  List.flatten <$> t.snapshots.values.mapM rows

/-- All entries of a snapshot's manifests. -/
def entriesOf (s : Snapshot) : FileM (List ManifestEntry) := do
  return (← FileM.loadManifests s).flatMap fun m => m.2.entries

/-- The files of a snapshot. -/
def filesOf (s : Snapshot) : FileM (List DataFile) := do
  return ((← entriesOf s).filter (·.isLive)).map (·.file)

/-- The manifests of a snapshot. -/
def manifestsOf (write : BoundText) (s : Snapshot) : FileM (List ManifestRow) := do
  return (← FileM.loadManifestList s.manifestList).manifests.map (.ofRecord write)

def entries (t : Table) (id : Option SnapshotId) : FileM (List ManifestEntry) :=
  t.rowsOf id entriesOf

def allEntries (t : Table) : FileM (List ManifestEntry) := t.rowsOfAll entriesOf

def files (t : Table) (id : Option SnapshotId) : FileM (List DataFile) := t.rowsOf id filesOf

def allDataFiles (t : Table) : FileM (List DataFile) := t.rowsOfAll filesOf

def manifests (t : Table) (write : BoundText) (id : Option SnapshotId) :
    FileM (List ManifestRow) :=
  t.rowsOf id (manifestsOf write)

def allManifests (t : Table) : FileM (List ManifestRow) :=
  t.rowsOfAll (manifestsOf Datum.display)

def partitions (t : Table) (id : Option SnapshotId) : FileM (List PartitionRow) :=
  groupByPartition <$> t.files id

/-- The target of the last of the moves that are listed before the first one later
than the given time. -/
def idAsOf (t : Table) (time : Calendar.Instant) : Except TableError SnapshotId :=
  match (t.history.takeWhile fun m => m.madeCurrentAt ≤ time).getLast? with
  | some m => .ok m.snapshotId
  | none => .error (.noSnapshotAsOf time)

end Table

end Lakehouse
