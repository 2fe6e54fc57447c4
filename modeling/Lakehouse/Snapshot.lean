import Lakehouse.Calendar.Instant
import Lakehouse.Manifest

/- Snapshots.

   A snapshot is the table at one time: it names the list of its manifests, the
   snapshot it was made from, the kind of change that made it, and a summary of
   that change in numbers (`Summary.ofChange`). -/
namespace Lakehouse

open Calendar

/-- The kinds of change. -/
inductive Operation where
  | append
  | delete
  | overwrite
  | replace
  deriving DecidableEq, Repr, Inhabited

def Operation.name : Operation → String
  | .append => "append"
  | .delete => "delete"
  | .overwrite => "overwrite"
  | .replace => "replace"

/-- Names and values of what a summary counts. -/
abbrev Summary := SortedMap String String

namespace Summary

def addedDataFiles : String := "added-data-files"

def addedRecords : String := "added-records"

def deletedDataFiles : String := "deleted-data-files"

def deletedRecords : String := "deleted-records"

def changedPartitionCount : String := "changed-partition-count"

def totalDataFiles : String := "total-data-files"

def totalRecords : String := "total-records"

/-- Sets a count. -/
def put (s : Summary) (name : String) (n : Nat) : Summary :=
  s.insert name (String.ofList (Text.decimal n))

/-- Sets a count unless it is zero. -/
def putPositive (s : Summary) (name : String) (n : Nat) : Summary :=
  if 0 < n then s.put name n else s

/-- The number of different partitions among the files. -/
def partitionCount (files : List DataFile) : Nat :=
  (SortedMap.ofList (files.map fun f => (f.partition, ()))).size

/-- The summary of a change that adds and deletes the given files and leaves the
files `live` in the table. Counts of changes are left out when they are zero. -/
def ofChange (added deleted live : List DataFile) : Summary :=
  let s := putPositive .empty addedDataFiles added.length
  let s := putPositive s addedRecords (DataFile.totalRecords added).toNat
  let s := putPositive s deletedDataFiles deleted.length
  let s := putPositive s deletedRecords (DataFile.totalRecords deleted).toNat
  let s := put s changedPartitionCount (partitionCount (added ++ deleted))
  let s := put s totalDataFiles live.length
  put s totalRecords (DataFile.totalRecords live).toNat

end Summary

/-- The table as one change left it. -/
structure Snapshot where
  id : SnapshotId
  parentId : Option SnapshotId
  timestamp : Instant
  manifestList : String
  operation : Operation
  summary : Summary
  deriving DecidableEq

namespace SnapshotId

/-- The first snapshot of a table. -/
def first : SnapshotId := 1

/-- The following id, while there is one. -/
def next? (id : SnapshotId) : Option SnapshotId :=
  if id = Int64.maxValue then none else some (id + 1)

def display (id : SnapshotId) : String := (Datum.long id).display

end SnapshotId

end Lakehouse
