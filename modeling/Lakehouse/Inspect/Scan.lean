import Lakehouse.Inspect.Columns
import Lakehouse.Inspect.Rows

/- Tables about a table, column by column.

   Counts are kept as signed integers and stop at the greatest one, times are
   rounded down to microseconds, bounds are kept as text, and a map of metrics
   without entries is null. The slots of partitioned files stand together in a
   column, which an unpartitioned table does not have. The slots of all manifests
   stand in one array behind each other, with offsets for the manifests. -/
namespace Lakehouse

/-- The greatest signed integer stands for all counts above it. -/
def saturate64 (n : UInt64) : Int64 :=
  if n.toNat < 1 <<< 63 then Int64.ofNat n.toNat else Int64.maxValue

def saturate32 (n : UInt64) : Int32 :=
  if n.toNat < 1 <<< 31 then Int32.ofNat n.toNat else Int32.maxValue

namespace CellArray

/-- The values of a slot that have the type of the slot's column. -/
def ofDatums (type : ColumnType) (values : List (Option Datum)) : CellArray :=
  match type with
  | .boolean => boolean (values.map fun | some (.boolean b) => some b | _ => none)
  | .int => int32 (values.map fun | some (.int i) => some i | _ => none)
  | .long => int64 (values.map fun | some (.long l) => some l | _ => none)
  | .string => text (values.map fun | some (.string s) => some s | _ => none)

/-- Maps from columns to what is known about them, null where nothing is known. -/
def metrics {α β : Type} (write : α → β) (values : List (Option β) → CellArray)
    (maps : List (SortedMap FieldId α)) : CellArray :=
  ofMaps int32 values (maps.map fun m =>
    if m.isEmpty then none else some (m.toList.map fun e => (e.1, write e.2)))

end CellArray

namespace Inspection

def text (name : String) (values : List String) : Column := ⟨name, .text (values.map some), false⟩

def optionalText (name : String) (values : List (Option String)) : Column :=
  ⟨name, .text values, true⟩

def count (name : String) (values : List UInt64) : Column :=
  ⟨name, .int64 (values.map fun n => some (saturate64 n)), false⟩

def smallCount (name : String) (values : List UInt64) : Column :=
  ⟨name, .int32 (values.map fun n => some (saturate32 n)), false⟩

def number (name : String) (values : List Int32) : Column := ⟨name, .int32 (values.map some), false⟩

def snapshotId (name : String) (values : List SnapshotId) : Column :=
  ⟨name, .int64 (values.map some), false⟩

def optionalId (name : String) (values : List (Option SnapshotId)) : Column :=
  ⟨name, .int64 values, true⟩

def time (name : String) (values : List Calendar.Instant) : Column :=
  ⟨name, .timestamp (values.map fun t => some (Int64.ofInt t.microseconds)), false⟩

def flag (name : String) (values : List Bool) : Column := ⟨name, .boolean (values.map some), false⟩

def counts (name : String) (maps : List (SortedMap FieldId UInt64)) : Column :=
  ⟨name, .metrics saturate64 .int64 maps, true⟩

def bounds (name : String) (maps : List (SortedMap FieldId Datum)) : Column :=
  ⟨name, .metrics Datum.display .text maps, true⟩

/-- The columns for the slots of the tuples from `slot` on. -/
def slots (schema : Schema) (tuples : List PartitionTuple) (slot : Nat) :
    List PartitionField → Except TableError (List Column)
  | [] => .ok []
  | field :: rest =>
    match schema.byId? field.sourceId with
    | none => .error (.missingSource field.name field.sourceId)
    | some source => do
      let values := tuples.map fun t => t.value? slot
      return ⟨field.name, .ofDatums source.type values, true⟩ ::
        (← slots schema tuples (slot + 1) rest)

/-- The column for all slots together, if there are any. -/
def partition (m : Metadata) (tuples : List PartitionTuple) : Except TableError (List Column) :=
  if m.spec.isUnpartitioned then
    .ok []
  else do
    return [⟨"partition", .ofColumns (← slots m.schema tuples 0 m.spec.fields), false⟩]

def ofDataFiles (m : Metadata) (files : List DataFile) : Except TableError (List Column) := do
  let partition ← partition m (files.map (·.partition))
  return [text "file_path" (files.map (·.path)), text "file_format" (files.map fun _ => fileFormat)] ++
    partition ++
    [count "record_count" (files.map (·.recordCount)),
      count "file_size_in_bytes" (files.map (·.sizeInBytes)),
      counts "column_sizes" (files.map (·.columnSizes)),
      counts "value_counts" (files.map (·.valueCounts)),
      counts "null_value_counts" (files.map (·.nullCounts)),
      bounds "lower_bounds" (files.map (·.lowerBounds)),
      bounds "upper_bounds" (files.map (·.upperBounds))]

def ofEntries (m : Metadata) (entries : List ManifestEntry) : Except TableError (List Column) := do
  let file ← ofDataFiles m (entries.map (·.file))
  return [number "status" (entries.map fun e => Int32.ofNat e.status.code),
    optionalId "snapshot_id" (entries.map (·.snapshotId)), ⟨"data_file", .ofColumns file, false⟩]

/-- The summaries of all manifests' slots, each manifest's in a list of its own. -/
def summaries (rows : List ManifestRow) : Column :=
  let slots := rows.flatMap (·.slots)
  let items := CellArray.ofColumns [flag "contains_null" (slots.map (·.containsNull)),
    optionalText "lower_bound" (slots.map (·.lower)), optionalText "upper_bound" (slots.map (·.upper))]
  ⟨"partition_summaries",
    .list (offsetsFrom 0 (rows.map (·.slots.length))) "element" items false, false⟩

def ofManifests (rows : List ManifestRow) : List Column :=
  [text "path" (rows.map (·.record.path)), count "length" (rows.map (·.record.length)),
    number "partition_spec_id" (rows.map (·.record.specId)),
    snapshotId "added_snapshot_id" (rows.map (·.record.addedSnapshotId)),
    smallCount "added_data_files_count" (rows.map (·.record.added.files.toUInt64)),
    smallCount "existing_data_files_count" (rows.map (·.record.existing.files.toUInt64)),
    smallCount "deleted_data_files_count" (rows.map (·.record.deleted.files.toUInt64)),
    summaries rows]

def ofMoves (moves : List PointerMove) : List Column :=
  [time "made_current_at" (moves.map (·.madeCurrentAt)),
    snapshotId "snapshot_id" (moves.map (·.snapshotId)),
    optionalId "parent_id" (moves.map (·.parentId)),
    flag "is_current_ancestor" (moves.map (·.isCurrentAncestor))]

def ofSnapshots (snapshots : List Snapshot) : List Column :=
  [time "committed_at" (snapshots.map (·.timestamp)), snapshotId "snapshot_id" (snapshots.map (·.id)),
    optionalId "parent_id" (snapshots.map (·.parentId)),
    text "operation" (snapshots.map (·.operation.name)),
    text "manifest_list" (snapshots.map (·.manifestList)),
    ⟨"summary", .ofMaps .text .text (snapshots.map fun s => some s.summary.toList), false⟩]

def ofPartitions (m : Metadata) (rows : List PartitionRow) : Except TableError (List Column) := do
  let partition ← partition m (rows.map (·.partition))
  return partition ++
    [count "record_count" (rows.map (·.recordCount)), smallCount "file_count" (rows.map (·.fileCount))]

end Inspection

namespace Table

/-- The batch of rows, once they are read. -/
def batchOf {α : Type} (columns : List α → Except TableError (List Column))
    (rows : FileM (List α)) : FileM Batch := do
  match columns (← rows) with
  | .error e => throw e
  | .ok columns => return ⟨columns⟩

/-- A table about the table as a batch. The snapshot that is asked for must exist even
if the batch does not depend on it. -/
def scan (t : Table) (kind : Inspection) (id : Option SnapshotId) : FileM Batch :=
  match t.resolve id with
  | .error e => throw e
  | .ok pinned =>
    let id := pinned.map Snapshot.id
    let m := t.metadata
    match kind with
    | .entries => batchOf (Inspection.ofEntries m) (t.entries id)
    | .allEntries => batchOf (Inspection.ofEntries m) t.allEntries
    | .files => batchOf (Inspection.ofDataFiles m) (t.files id)
    | .allDataFiles => batchOf (Inspection.ofDataFiles m) t.allDataFiles
    | .manifests => batchOf (fun rows => .ok (Inspection.ofManifests rows)) (t.manifests Datum.display id)
    | .allManifests => batchOf (fun rows => .ok (Inspection.ofManifests rows)) t.allManifests
    | .history => batchOf (fun rows => .ok (Inspection.ofMoves rows)) (pure t.history)
    | .snapshots => batchOf (fun rows => .ok (Inspection.ofSnapshots rows)) (pure t.snapshots.values)
    | .partitions => batchOf (Inspection.ofPartitions m) (t.partitions id)

end Table

end Lakehouse
