import Lakehouse.Form.Table
import Lakehouse.Manifest

/- The JSON forms of data files, manifests and manifest lists. -/
namespace Lakehouse.Form

/-- The fields of an object, where one that has no value is left out. -/
def presentFields (fields : List (String × Option Json)) : Json :=
  object (fields.filterMap fun (name, j) => j.map fun j => (name, j))

def dataFile (f : DataFile) : Json :=
  object
    [("file_path", .ofText f.path), ("file_format", .ofText fileFormat),
      ("partition", partitionTuple f.partition), ("record_count", uint64 f.recordCount),
      ("file_size_in_bytes", uint64 f.sizeInBytes),
      ("column_sizes", columnMap uint64 f.columnSizes),
      ("value_counts", columnMap uint64 f.valueCounts),
      ("null_value_counts", columnMap uint64 f.nullCounts),
      ("lower_bounds", columnMap datum f.lowerBounds),
      ("upper_bounds", columnMap datum f.upperBounds)]

def readDataFile : Decoder DataFile :=
  RecordOf.decode <|
    (fun path (_ : Unit) => DataFile.mk path) <$>
      .field "file_path" .text <*> .fieldOr "file_format" (some ()) (.named [(fileFormat, ())]) <*>
      .fieldOr "partition" (some []) readPartitionTuple <*> .field "record_count" .uint64 <*>
      .field "file_size_in_bytes" .uint64 <*>
      .fieldOr "column_sizes" (some .empty) (readColumnMap .uint64) <*>
      .fieldOr "value_counts" (some .empty) (readColumnMap .uint64) <*>
      .fieldOr "null_value_counts" (some .empty) (readColumnMap .uint64) <*>
      .fieldOr "lower_bounds" (some .empty) (readColumnMap readDatum) <*>
      .fieldOr "upper_bounds" (some .empty) (readColumnMap readDatum)

def entryStatus (s : EntryStatus) : Json := .ofText s.name

def readEntryStatus : Decoder EntryStatus :=
  .named ([.existing, .added, .deleted].map fun s : EntryStatus => (s.name, s))

def manifestEntry (e : ManifestEntry) : Json :=
  presentFields
    [("status", some (entryStatus e.status)), ("snapshot_id", e.snapshotId.map int64),
      ("data_file", some (dataFile e.file))]

def readManifestEntry : Decoder ManifestEntry :=
  RecordOf.decode <|
    ManifestEntry.mk <$> .field "status" readEntryStatus <*>
      .fieldOr "snapshot_id" (some none) (.option .int64) <*> .field "data_file" readDataFile

def manifest (m : Manifest) : Json :=
  object [("spec_id", int32 m.specId), ("entries", list manifestEntry m.entries)]

def readManifest : Decoder Manifest :=
  RecordOf.decode <|
    Manifest.mk <$> .field "spec_id" .int32 <*> .field "entries" (.list readManifestEntry)

def slotSummary (s : SlotSummary) : Json :=
  object
    [("contains_null", .bool s.containsNull), ("lower_bound", option datum s.lower),
      ("upper_bound", option datum s.upper)]

def readSlotSummary : Decoder SlotSummary :=
  RecordOf.decode <|
    SlotSummary.mk <$> .field "contains_null" .bool <*>
      .fieldOr "lower_bound" (some none) (.option readDatum) <*>
      .fieldOr "upper_bound" (some none) (.option readDatum)

def manifestRecord (r : ManifestRecord) : Json :=
  object
    [("path", .ofText r.path), ("length", uint64 r.length),
      ("partition_spec_id", int32 r.specId), ("added_snapshot_id", int64 r.addedSnapshotId),
      ("added_data_files_count", uint32 r.added.files),
      ("existing_data_files_count", uint32 r.existing.files),
      ("deleted_data_files_count", uint32 r.deleted.files),
      ("added_rows_count", uint64 r.added.rows),
      ("existing_rows_count", uint64 r.existing.rows),
      ("deleted_rows_count", uint64 r.deleted.rows),
      ("partitions", list slotSummary r.slots)]

/-- A record from its fields in the order of the form. -/
def manifestRecordOf (path : String) (length : UInt64) (specId : Int32) (added : SnapshotId)
    (addedFiles existingFiles deletedFiles : UInt32)
    (addedRows existingRows deletedRows : UInt64) (slots : List SlotSummary) : ManifestRecord :=
  ⟨path, length, specId, added, ⟨addedFiles, addedRows⟩, ⟨existingFiles, existingRows⟩,
    ⟨deletedFiles, deletedRows⟩, slots⟩

def readManifestRecord : Decoder ManifestRecord :=
  RecordOf.decode <|
    manifestRecordOf <$> .field "path" .text <*> .field "length" .uint64 <*>
      .field "partition_spec_id" .int32 <*> .field "added_snapshot_id" .int64 <*>
      .field "added_data_files_count" .uint32 <*> .field "existing_data_files_count" .uint32 <*>
      .field "deleted_data_files_count" .uint32 <*> .field "added_rows_count" .uint64 <*>
      .field "existing_rows_count" .uint64 <*> .field "deleted_rows_count" .uint64 <*>
      .fieldOr "partitions" (some []) (.list readSlotSummary)

def manifestList (l : ManifestList) : Json :=
  object [("snapshot_id", int64 l.snapshotId), ("manifests", list manifestRecord l.manifests)]

def readManifestList : Decoder ManifestList :=
  RecordOf.decode <|
    ManifestList.mk <$> .field "snapshot_id" .int64 <*>
      .field "manifests" (.list readManifestRecord)

end Lakehouse.Form
