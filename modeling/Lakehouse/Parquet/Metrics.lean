import Lakehouse.DataFile
import Lakehouse.Parquet.Footer
import Lakehouse.Store.Path

/- Data files out of Parquet files.

   The metrics of a column are put together from all groups of rows: sizes and
   counts are added up, the number of nulls is known if every group knows it, and
   there are bounds if every group has some or is known to hold nulls only. Columns
   that are not at the top of the file's tree, or not in the schema, count for
   nothing. The values of the partition slots come from the file's path, where a
   directory named `column=value` gives the value for all files below it. -/
namespace Lakehouse.Parquet

/-- Why a file cannot be taken into a table. -/
inductive ImportError where
  | tooShort (path : String)
  | missingMagic (path : String)
  | unreadableFooter (path : String)
  | missingPartitionValue (path column : String)
  | invalidPartitionValue (path column value : String)
  deriving DecidableEq, Repr

/-- What is wrong inside a footer is left open. -/
def ImportError.message : ImportError → String
  | .tooShort path => s!"File too short to be Parquet: {path}"
  | .missingMagic path => s!"Missing Parquet magic bytes: {path}"
  | .unreadableFooter path => s!"Failed to read Parquet footer of {path}: <parquet error>"
  | .missingPartitionValue path column =>
    s!"Path {path} has no value for partition column {column}"
  | .invalidPartitionValue path column value =>
    s!"Path {path} has invalid value {Text.quoted value} for partition column {column}"

/-! ### Metrics -/

/-- A count of a footer; a negative one stands for zero. -/
def count (n : Int) : UInt64 := UInt64.ofNat n.toNat

def sum (counts : List UInt64) : UInt64 := counts.foldl (· + ·) 0

namespace ColumnChunk

def nullCount? (c : ColumnChunk) : Option UInt64 := c.statistics.bind Statistics.nullCount

def bounds? (c : ColumnChunk) : Option (Datum × Datum) := c.statistics.bind Statistics.bounds

/-- All values of the chunk are known to be null. -/
def isAllNull (c : ColumnChunk) : Bool := c.nullCount? == some (count c.valueCount)

end ColumnChunk

def lesser (a b : Datum) : Datum := if b < a then b else a

def greater (a b : Datum) : Datum := if a < b then b else a

/-- The bounds around all given bounds. -/
def hull : List (Datum × Datum) → Option (Datum × Datum)
  | [] => none
  | first :: rest =>
    some (rest.foldl (fun acc b => (lesser acc.1 b.1, greater acc.2 b.2)) first)

/-- The nulls of all chunks together, if each knows its own. -/
def totalNulls (chunks : List ColumnChunk) : Option UInt64 :=
  (chunks.mapM ColumnChunk.nullCount?).map sum

/-- The bounds of all chunks together as data of the given type, unless there may be
values outside. -/
def totalBounds (type : ColumnType) (chunks : List ColumnChunk) : Option (Datum × Datum) := do
  guard (chunks.all fun c => c.bounds?.isSome || c.isAllNull)
  let (lower, upper) ← hull (chunks.filterMap ColumnChunk.bounds?)
  return (← lower.convert? type, ← upper.convert? type)

/-- The chunks of a column at the top of the tree. -/
def chunksOf (footer : Footer) (name : String) : List ColumnChunk :=
  footer.rowGroups.flatten.filter fun c => c.path = [name]

/-- Sets a metric if it is known. -/
def setIfKnown {α : Type} (m : SortedMap FieldId α) (column : FieldId) :
    Option α → SortedMap FieldId α
  | some a => m.insert column a
  | none => m

/-- Adds the metrics of a column to the description of a file. -/
def addColumn (footer : Footer) (file : DataFile) (field : Field) : DataFile :=
  match chunksOf footer field.name with
  | [] => file
  | chunks =>
    let bounds := totalBounds field.type chunks
    { file with
      columnSizes := file.columnSizes.insert field.id
        (sum (chunks.map fun c => count c.compressedSize))
      valueCounts := file.valueCounts.insert field.id
        (sum (chunks.map fun c => count c.valueCount))
      nullCounts := setIfKnown file.nullCounts field.id (totalNulls chunks)
      lowerBounds := setIfKnown file.lowerBounds field.id (bounds.map Prod.fst)
      upperBounds := setIfKnown file.upperBounds field.id (bounds.map Prod.snd) }

/-- The description of a file with the given footer. -/
def describe (path : String) (size : Nat) (footer : Footer) (schema : Schema)
    (partition : PartitionTuple) : DataFile :=
  schema.fields.foldl (addColumn footer)
    (.withoutMetrics path partition (count footer.rowCount) (UInt64.ofNat size))

/-- The description of a Parquet file with the given bytes. -/
def dataFile (path : String) (bytes : ByteArray) (schema : Schema)
    (partition : PartitionTuple) : Except ImportError DataFile :=
  if bytes.size < 8 then
    .error (.tooShort path)
  else if (bytes.extract 0 4).toList ≠ Footer.magic ∨
      (bytes.extract (bytes.size - 4) bytes.size).toList ≠ Footer.magic then
    .error (.missingMagic path)
  else
    match Footer.ofFile? bytes with
    | some footer => .ok (describe path bytes.size footer schema partition)
    | none => .error (.unreadableFooter path)

/-! ### Partition values in paths -/

/-- The directory name that stands for a null. -/
def nullMarker : String := "__HIVE_DEFAULT_PARTITION__"

/-- A directory's name before and after its first equals sign. -/
def splitName (name : String) : Option (String × String) :=
  let cs := name.toList
  match cs.dropWhile (· ≠ '=') with
  | [] => none
  | _ :: value => some (String.ofList (cs.takeWhile (· ≠ '=')), String.ofList value)

/-- The value that the last of the given directories gives for a column. -/
def valueText? (directories : List String) (column : String) : Option String :=
  (directories.filterMap splitName).reverse.lookup column

/-- The value of one partition slot for a file below the given directories. -/
def slotFromPath (path : String) (directories : List String) (schema : Schema)
    (field : PartitionField) : Except ImportError (Option Datum) :=
  match schema.byId? field.sourceId with
  | none => .error (.missingPartitionValue path field.name)
  | some source =>
    match valueText? directories source.name with
    | none => .error (.missingPartitionValue path source.name)
    | some raw =>
      if raw = nullMarker then .ok none
      else
        match Datum.read? source.type raw with
        | some d => .ok (some d)
        | none => .error (.invalidPartitionValue path source.name raw)

/-- The slots for a file below the given directories. The first slot in the order of
the spec that has no proper value gives the error. -/
def partitionFromDirectories (path : String) (directories : List String) (schema : Schema)
    (spec : PartitionSpec) : Except ImportError PartitionTuple :=
  spec.fields.mapM (slotFromPath path directories schema)

/-- The slots for a file with the given path. -/
def partitionFromPath (path : String) (schema : Schema) (spec : PartitionSpec) :
    Except ImportError PartitionTuple :=
  partitionFromDirectories path (Path.directoryNames path) schema spec

end Lakehouse.Parquet
