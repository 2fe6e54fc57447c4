import Lakehouse.Partition
import Lakehouse.SortedMap

/- Data files and their metrics.

   A data file is described by its path, its partition slots, its size and a few
   metrics per column: bytes, values, nulls, and bounds of the non-null values.
   Any metric may be missing. -/
namespace Lakehouse

/-- What the metadata knows about one file of rows. -/
structure DataFile where
  path : String
  partition : PartitionTuple
  recordCount : UInt64
  sizeInBytes : UInt64
  columnSizes : SortedMap FieldId UInt64
  valueCounts : SortedMap FieldId UInt64
  nullCounts : SortedMap FieldId UInt64
  lowerBounds : SortedMap FieldId Datum
  upperBounds : SortedMap FieldId Datum
  deriving DecidableEq, Inhabited

/-- Every data file has this format. -/
def fileFormat : String := "parquet"

namespace DataFile

/-- A file without column metrics. -/
def withoutMetrics (path : String) (partition : PartitionTuple)
    (recordCount sizeInBytes : UInt64) : DataFile :=
  ⟨path, partition, recordCount, sizeInBytes, .empty, .empty, .empty, .empty, .empty⟩

/-- Records counts for a column, and its bounds if they are known. -/
def addMetrics (f : DataFile) (column : FieldId) (values nulls : UInt64)
    (bounds : Option (Datum × Datum)) : DataFile :=
  let counted := { f with
    valueCounts := f.valueCounts.insert column values
    nullCounts := f.nullCounts.insert column nulls }
  match bounds with
  | some (lower, upper) => { counted with
      lowerBounds := f.lowerBounds.insert column lower
      upperBounds := f.upperBounds.insert column upper }
  | none => counted

/-- The rows of all given files together. -/
def totalRecords (files : List DataFile) : UInt64 :=
  files.foldl (fun n f => n + f.recordCount) 0

end DataFile

end Lakehouse
