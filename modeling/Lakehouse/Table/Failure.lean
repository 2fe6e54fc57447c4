import Lakehouse.Filter.Basic
import Lakehouse.Log.Error
import Lakehouse.Parquet.Metrics

/- Why an operation on a table fails. -/
namespace Lakehouse

/-- The rule for changes that a request breaks. -/
inductive Rejection where
  | appendRemoves
  | deleteAdds
  | deleteWithoutTarget
  | replaceByFilter
  | replaceOneSided
  | idsExhausted
  | notLive (path : String)
  | partlyMatched (path : String)
  | foreignSpec (path : String) (found expected : Int32)
  | notOnlyAdded (path : String)
  | slotCount (path : String) (found expected : Nat)
  | alreadyLive (path : String)
  | addedTwice (path : String)
  | rowCountChanged (added removed : UInt64)
  | rollbackToUnknown (id : SnapshotId)
  | rollbackToStranger (id : SnapshotId)
  | unknownTarget (id : SnapshotId)
  | nothingToImport (directory : String)
  deriving DecidableEq, Repr

def Rejection.message : Rejection → String
  | .appendRemoves => "append commits cannot remove files"
  | .deleteAdds => "delete commits cannot add files"
  | .deleteWithoutTarget => "delete commits need file paths or a row filter"
  | .replaceByFilter => "replace commits remove files by path, not by row filter"
  | .replaceOneSided => "replace commits must both add and remove files"
  | .idsExhausted => "snapshot id space exhausted"
  | .notLive path => s!"cannot delete {path}: not a live file"
  | .partlyMatched path =>
    s!"cannot delete file where some, but not all, rows match filter: {path}"
  | .foreignSpec path found expected =>
    s!"staged manifest {path} uses partition spec {(Datum.int found).display} but the table " ++
      s!"uses {(Datum.int expected).display}"
  | .notOnlyAdded path => s!"staged manifest {path} may only contain ADDED entries"
  | .slotCount path found expected =>
    s!"file {path} has {String.ofList (Text.decimal found)} partition values, spec has " ++
      s!"{String.ofList (Text.decimal expected)} fields"
  | .alreadyLive path => s!"cannot add {path}: file is already live in the table"
  | .addedTwice path => s!"cannot add {path} twice"
  | .rowCountChanged added removed =>
    s!"replace must keep row count: adds {String.ofList (Text.decimal added.toNat)} rows, " ++
      s!"removes {String.ofList (Text.decimal removed.toNat)}"
  | .rollbackToUnknown id => s!"cannot roll back to unknown snapshot {id.display}"
  | .rollbackToStranger id =>
    s!"cannot roll back to snapshot {id.display}: not an ancestor of the current snapshot"
  | .unknownTarget id => s!"cannot set current snapshot to unknown snapshot {id.display}"
  | .nothingToImport directory => s!"no Parquet files found under {directory}"

/-- Why an operation on a table fails. -/
inductive TableError where
  | commitConflict (expected found : Option SnapshotId)
  | rejected (cause : Rejection)
  | snapshotNotFound (id : SnapshotId)
  | unknownTable (name : String)
  | noSnapshotAsOf (time : Calendar.Instant)
  | emptyTable
  | alreadyExists (version : Log.Version)
  | log (cause : Log.LogError)
  | storage (cause : StorageError)
  | corruptMetadata (path : String) (cause : DecodeError)
  | filter (cause : FilterError)
  | missingSource (field : String) (source : FieldId)
  | unreadable (cause : Parquet.ImportError)
  deriving DecidableEq

/-- A snapshot id that may be missing, as messages show it. -/
def describeId : Option SnapshotId → String
  | none => "None"
  | some id => s!"Some(SnapshotId({id.display}))"

namespace TableError

def message : TableError → String
  | commitConflict expected found =>
    s!"Commit conflict: the table changed after it was read at snapshot {describeId expected} " ++
      s!"(current snapshot is now {describeId found}); refresh and retry"
  | rejected cause => s!"Validation failed: {cause.message}"
  | snapshotNotFound id => s!"Cannot find snapshot with ID {id.display}"
  | unknownTable name => s!"Unknown metadata table {Text.quoted name}"
  | noSnapshotAsOf time => s!"No snapshot was current at {time.display}"
  | emptyTable => "Cannot open table with no commits (CURRENT version is 0)"
  | alreadyExists version =>
    "Table already exists; current transaction log version is " ++ Log.versionText version
  | log cause => s!"Transaction log error: {cause.message}"
  | storage cause => s!"Storage error while accessing table metadata: {cause.message}"
  | corruptMetadata path cause => s!"Corrupt metadata file {path}: {cause.message}"
  | filter cause => s!"Invalid row filter: {cause.message}"
  | missingSource field source =>
    s!"Arrow error while building metadata table: Schema error: partition field {field} " ++
      s!"has no source column {(Datum.int source).display}"
  | unreadable cause => s!"Parquet import error: {cause.message}"

/-- The same operation may succeed after a refresh. -/
def isRetryable : TableError → Bool
  | commitConflict _ _ => true
  | _ => false

/-- Something that was asked for does not exist. -/
def isNotFound : TableError → Bool
  | snapshotNotFound _ => true
  | unknownTable _ => true
  | noSnapshotAsOf _ => true
  | _ => false

end TableError

end Lakehouse
