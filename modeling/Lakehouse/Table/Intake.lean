import Lakehouse.Table.Operations

/- Directories of Parquet files taken into a table.

   All files below a directory whose names end in `.parquet`, and do not begin with
   an underscore or a dot, are added in one snapshot, in the order of their paths.
   Their partition slots come from the names of the directories above them. One file
   that cannot be described stops the whole intake. -/
namespace Lakehouse.Table

/-- The ending of importable files. -/
def parquetEnding : List Char := ".parquet".toList

/-- The file with these names on its way is importable. -/
def isImportable (names : Place) : Bool :=
  match names.getLast? with
  | none => false
  | some name =>
    let cs := name.toList
    cs.head? != some '_' && cs.head? != some '.' && parquetEnding.isSuffixOf cs

/-- A path that begins with a dot does not begin other paths. -/
def startsWithDot (directory : String) : Bool :=
  (segments directory.toList).head? == some ['.']

/-- The part of a file's path that is searched for partition values. -/
def pathWithin (directory : String) (names : Place) : String :=
  if startsWithDot directory then Path.below directory names else "/".intercalate names

/-- The description of the file below a directory that has the given bytes. -/
def describeFile (schema : Schema) (spec : PartitionSpec) (directory : String) (names : Place)
    (bytes : ByteArray) : Except Parquet.ImportError DataFile := do
  let partition ←
    if spec.isUnpartitioned then pure []
    else Parquet.partitionFromPath (pathWithin directory names) schema spec
  Parquet.dataFile (Path.withSlashes (Path.below directory names)) bytes schema partition

/-- Reads and describes one file below a directory. -/
def loadFile (schema : Schema) (spec : PartitionSpec) (directory : String) (names : Place) :
    FileM DataFile := do
  match ← ExceptT.lift (Script.request (.readBytes (Path.below directory names))) with
  | .error e => throw (.storage e)
  | .ok bytes =>
    match describeFile schema spec directory names bytes with
    | .ok f => return f
    | .error e => throw (.unreadable e)

/-- The importable files below a directory. -/
def findImportable (directory : String) : FileM (List Place) := do
  match ← ExceptT.lift (Script.request (.list directory)) with
  | .error e => throw (.storage e)
  | .ok found =>
    let files := found.filter isImportable
    if files.isEmpty then throw (.rejected (.nothingToImport directory)) else return files

/-- Adds all importable files below a directory. -/
def intake (directory : String) (now : Calendar.Instant) : TableM Snapshot := do
  let found ← TableM.ofFiles (findImportable directory)
  let t ← get
  let files ← TableM.ofFiles (found.mapM (loadFile t.schema t.spec directory))
  let staged ← stage files
  appendManifests [staged] now

end Lakehouse.Table
