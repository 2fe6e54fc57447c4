import Lakehouse.Filter.Evidence
import Lakehouse.Log.Replay
import Lakehouse.Table.Failure

/- Requests to change the files of a table.

   A request names files to add, manifests whose files are to be added, paths of
   files to delete, and a filter on the rows to delete. What is asked for has to fit
   the kind of change and the files that are live in the table: only live files can
   be deleted, a filter must match all rows of a file or none, and an added file has
   one slot for each field of the spec and a path of its own. -/
namespace Lakehouse

/-- What a change is to add and delete. -/
structure FileChanges where
  added : List DataFile
  deletedPaths : List String
  rowFilter : Option Filter
  stagedPaths : List String
  deriving DecidableEq, Inhabited

namespace FileChanges

def none : FileChanges := ⟨[], [], .none, []⟩

def adding (files : List DataFile) : FileChanges := { none with added := files }

def deleting (paths : List String) : FileChanges := { none with deletedPaths := paths }

def deletingRows (filter : Filter) : FileChanges := { none with rowFilter := some filter }

def adopting (paths : List String) : FileChanges := { none with stagedPaths := paths }

def addsFiles (c : FileChanges) : Bool := !c.added.isEmpty || !c.stagedPaths.isEmpty

def removesFiles (c : FileChanges) : Bool := !c.deletedPaths.isEmpty || c.rowFilter.isSome

/-- The changes are of the kind that the operation stands for. -/
def fit (c : FileChanges) : Operation → Except Rejection Unit
  | .append => if c.removesFiles then .error .appendRemoves else .ok ()
  | .delete =>
    if c.addsFiles then .error .deleteAdds
    else if !c.removesFiles then .error .deleteWithoutTarget
    else .ok ()
  | .overwrite => .ok ()
  | .replace =>
    if c.rowFilter.isSome then .error .replaceByFilter
    else if !c.addsFiles || !c.removesFiles then .error .replaceOneSided
    else .ok ()

end FileChanges

/-- The id of the next snapshot. -/
def Table.nextId (t : Table) : Except Rejection SnapshotId :=
  match t.lastId? with
  | .none => .ok SnapshotId.first
  | some id =>
    match SnapshotId.next? id with
    | some next => .ok next
    | .none => .error .idsExhausted

/-- Files by their paths. -/
abbrev LiveFiles := SortedMap String DataFile

namespace LiveFiles

/-- The files of the live entries. -/
def ofManifests (manifests : List Manifest) : LiveFiles :=
  .ofList ((manifests.flatMap Manifest.liveEntries).map fun e => (e.file.path, e.file))

/-- The paths, each of which must be live. -/
def checkPaths (live : LiveFiles) : List String → Except Rejection Unit
  | [] => .ok ()
  | path :: rest =>
    if live.contains path then live.checkPaths rest else .error (.notLive path)

/-- The paths of the files of which all rows match; of any other file no row may
match. -/
def matched (filter : BoundFilter) (spec : PartitionSpec) :
    List (String × DataFile) → Except Rejection (List String)
  | [] => .ok []
  | (path, file) :: rest =>
    if filter.allRowsMatch spec file then do
      return path :: (← matched filter spec rest)
    else if filter.mightMatch spec file then
      .error (.partlyMatched path)
    else
      matched filter spec rest

/-- The files that stay. -/
def without (live : LiveFiles) (removed : SortedMap String Unit) : LiveFiles :=
  live.filter fun path _ => !removed.contains path

/-- The rows of the files at the given paths. -/
def recordsAt (live : LiveFiles) (paths : List String) : UInt64 :=
  DataFile.totalRecords (paths.filterMap live.find?)

end LiveFiles

/-- The set of the given paths. -/
def pathSet (paths : List String) : SortedMap String Unit :=
  .ofList (paths.map fun p => (p, ()))

/-- A manifest that is to be adopted holds files to add, for the table's spec. -/
def checkStaged (spec : PartitionSpec) (path : String) (m : Manifest) : Except Rejection Unit :=
  if m.specId ≠ spec.specId then .error (.foreignSpec path m.specId spec.specId)
  else if m.entries.any fun e => e.status ≠ .added then .error (.notOnlyAdded path)
  else .ok ()

/-- Every added file has the right number of slots and a path that is neither live
nor added before. -/
def checkAdded (spec : PartitionSpec) (live : LiveFiles) (seen : SortedMap String Unit) :
    List DataFile → Except Rejection Unit
  | [] => .ok ()
  | f :: rest =>
    if f.partition.length ≠ spec.fields.length then
      .error (.slotCount f.path f.partition.length spec.fields.length)
    else if live.contains f.path then
      .error (.alreadyLive f.path)
    else if seen.contains f.path then
      .error (.addedTwice f.path)
    else
      checkAdded spec live (seen.insert f.path ()) rest

/-- A replacement adds as many rows as it removes. -/
def checkRowCount (operation : Operation) (added removed : UInt64) : Except Rejection Unit :=
  if operation = .replace ∧ added ≠ removed then .error (.rowCountChanged added removed)
  else .ok ()

namespace Manifest

/-- Some live entry is for one of the paths. -/
def mentions (m : Manifest) (paths : SortedMap String Unit) : Bool :=
  m.liveEntries.any fun e => paths.contains e.file.path

/-- The files of the live entries for the given paths. -/
def filesAt (m : Manifest) (paths : SortedMap String Unit) : List DataFile :=
  (m.liveEntries.filter fun e => paths.contains e.file.path).map (·.file)

/-- The manifest after the snapshot `id` removes the given paths: the live entries,
those for the paths as deleted, and the others as existing. -/
def removing (m : Manifest) (paths : SortedMap String Unit) (id : SnapshotId) : Manifest :=
  { m with entries := m.liveEntries.map fun e =>
      if paths.contains e.file.path then ⟨.deleted, some id, e.file⟩
      else { e with status := .existing } }

end Manifest

end Lakehouse
