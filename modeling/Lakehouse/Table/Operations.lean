import Lakehouse.Table.Changes
import Lakehouse.Table.Session

/- Operations on tables.

   A change of files reads the table again, fails if its current snapshot is not the
   one that the change is based on, checks the request, writes manifests and their
   list, and at last commits the new snapshot to the log and makes it current. The
   manifests of the new snapshot are, in this order: one with the added files, the
   staged ones, those from which files were deleted, and those that stay as they
   are; a manifest without live entries is dropped. -/
namespace Lakehouse.Table

open Calendar

/-- A manifest that is to be adopted, as it is stored. -/
structure Staged where
  path : String
  manifest : Manifest
  length : UInt64

/-- A change that has passed all checks: the manifests that it builds on, and what it
takes out of the table and puts into it. -/
structure Plan where
  id : SnapshotId
  manifests : List (ManifestRecord × Manifest)
  removed : SortedMap String Unit
  added : List DataFile
  staged : List Staged

namespace Plan

/-- The files before the change. -/
def live (p : Plan) : LiveFiles := .ofManifests (p.manifests.map Prod.snd)

/-- The files that come with the change, directly or in manifests. -/
def arriving (p : Plan) : List DataFile :=
  p.added ++ p.staged.flatMap fun s => s.manifest.entries.map (·.file)

/-- The files that go with the change. -/
def leaving (p : Plan) : List DataFile := p.manifests.flatMap fun b => b.2.filesAt p.removed

/-- The snapshot that the change makes of the snapshot `base`. -/
def snapshot (p : Plan) (base : Option SnapshotId) (operation : Operation) (list : String)
    (now : Instant) : Snapshot :=
  let files := (p.live.without p.removed).values ++ p.arriving
  ⟨p.id, base, now, list, operation, .ofChange p.arriving p.leaving files⟩

end Plan

/-- Reads a manifest that is to be adopted, and checks it. -/
def readStaged (spec : PartitionSpec) (path : String) : FileM Staged := do
  let (m, length) ← FileM.readJson Form.readManifest path
  FileM.check (checkStaged spec path m)
  return ⟨path, m, length⟩

/-- The paths of the live files that the request deletes. -/
def removedPaths (schema : Schema) (spec : PartitionSpec) (live : LiveFiles)
    (changes : FileChanges) : Except TableError (SortedMap String Unit) := do
  (live.checkPaths changes.deletedPaths).mapError .rejected
  match changes.rowFilter with
  | none => return pathSet changes.deletedPaths
  | some filter =>
    match filter.bind schema with
    | .error e => throw (.filter e)
    | .ok bound =>
      let matched ← (LiveFiles.matched bound spec live.toList).mapError .rejected
      return pathSet (changes.deletedPaths ++ matched)

/-- The manifests of the current snapshot, if there is one. -/
def loadCurrent (t : Table) : FileM (List (ManifestRecord × Manifest)) :=
  match t.current? with
  | some s => FileM.loadManifests s
  | none => pure []

/-- Checks that a request fits the operation and the files of the current snapshot. -/
def plan (t : Table) (operation : Operation) (changes : FileChanges) : FileM Plan := do
  FileM.check (changes.fit operation)
  let id ← FileM.check t.nextId
  let manifests ← t.loadCurrent
  let live := LiveFiles.ofManifests (manifests.map Prod.snd)
  let removed ← FileM.ofExcept (removedPaths t.schema t.spec live changes)
  let staged ← changes.stagedPaths.mapM (readStaged t.spec)
  let p : Plan := ⟨id, manifests, removed, changes.added, staged⟩
  FileM.check (checkAdded t.spec p.live .empty p.arriving)
  FileM.check
    (checkRowCount operation (DataFile.totalRecords p.arriving) (p.live.recordsAt removed.keys))
  return p

/-- Writes the manifest of the files added directly, if there are any. -/
def writeAdded (spec : PartitionSpec) (id : SnapshotId) (files : List DataFile) :
    FileM (List ManifestRecord) := do
  if files.isEmpty then
    return []
  else
    let m : Manifest := ⟨spec.specId, files.map fun f => ⟨.added, some id, f⟩⟩
    return [← FileM.writeManifest m spec id]

/-- The record of an adopted manifest. It stays where it is if snapshot ids may be
inherited, and else it is copied with the new snapshot's id. -/
def adopt (spec : PartitionSpec) (id : SnapshotId) (inherits : Bool) (s : Staged) :
    FileM ManifestRecord :=
  if inherits then
    return .summarize s.path s.length s.manifest spec id
  else
    FileM.writeManifest (s.manifest.inherit id) spec id

/-- Writes the manifests and the list of a new snapshot, and gives the path of the
list. -/
def writeSnapshot (spec : PartitionSpec) (inherits : Bool) (p : Plan) : FileM String := do
  let added ← writeAdded spec p.id p.added
  let adopted ← p.staged.mapM (adopt spec p.id inherits)
  let touched := p.manifests.filter fun b => b.2.mentions p.removed
  let rewritten ← touched.mapM fun b =>
    FileM.writeManifest (b.2.removing p.removed p.id) spec p.id
  let carried := p.manifests.filter fun b => !b.2.hasNoLiveEntries && !b.2.mentions p.removed
  FileM.writeManifestList ⟨p.id, added ++ adopted ++ rewritten ++ carried.map Prod.fst⟩

/-- Changes the files of the table, which must have the current snapshot `base`. -/
def commit (base : Option SnapshotId) (operation : Operation) (changes : FileChanges)
    (now : Instant) : TableM Snapshot := do
  let t ← TableM.ofFiles loadLatest
  if t.currentId ≠ base then
    throw (.commitConflict base t.currentId)
  else
    set t
    let p ← TableM.ofFiles (t.plan operation changes)
    -- Metadata files come before the commit, so that a reader never misses one.
    let list ← TableM.ofFiles (writeSnapshot t.spec t.metadata.properties.inheritsSnapshotIds p)
    let s := p.snapshot base operation list now
    commitActions base [.addSnapshot s, .moveCurrent s.id base now] now
    return s

/-- Adds files to the table as it was last read. -/
def append (files : List DataFile) (now : Instant) : TableM Snapshot := do
  commit (← get).currentId .append (.adding files) now

/-- Adds the files of staged manifests. -/
def appendManifests (paths : List String) (now : Instant) : TableM Snapshot := do
  commit (← get).currentId .append (.adopting paths) now

/-- Writes a manifest of files that may be added later, and gives its path. -/
def stage (files : List DataFile) : TableM String := do
  let m : Manifest := ⟨(← get).spec.specId, files.map fun f => ⟨.added, none, f⟩⟩
  let content := FileM.manifestContent m
  TableM.ofFiles (Prod.fst <$> FileM.writeOnce content (Layout.stagedPath content))

def deleteFiles (paths : List String) (now : Instant) : TableM Snapshot := do
  commit (← get).currentId .delete (.deleting paths) now

/-- Deletes the rows that match a filter, which must be whole files. -/
def deleteWhere (filter : Filter) (now : Instant) : TableM Snapshot := do
  commit (← get).currentId .delete (.deletingRows filter) now

/-- Deletes the rows that match a filter, and adds files. -/
def overwrite (filter : Filter) (files : List DataFile) (now : Instant) : TableM Snapshot := do
  commit (← get).currentId .overwrite { FileChanges.deletingRows filter with added := files } now

/-- Makes a registered snapshot current. -/
def movePointer (target : SnapshotId) (now : Instant) : TableM Unit := do
  commitActions (← get).currentId [.moveCurrent target none now] now

/-- Goes back to an ancestor of the current snapshot. -/
def rollback (target : SnapshotId) (now : Instant) : TableM Unit := do
  -- Whether it is an ancestor is for the latest snapshot to say.
  refresh
  let t ← get
  if (t.snapshot? target).isNone then TableM.reject (.rollbackToUnknown target)
  if !t.isCurrentAncestor target then TableM.reject (.rollbackToStranger target)
  movePointer target now

/-- Makes any snapshot of the table current. -/
def setCurrent (target : SnapshotId) (now : Instant) : TableM Unit := do
  refresh
  if ((← get).snapshot? target).isNone then TableM.reject (.unknownTarget target)
  movePointer target now

/-- Removes properties and sets others. -/
def updateProperties (set : Properties) (remove : List String) (now : Instant) :
    TableM Unit := do
  commitActions (← get).currentId [.updateProperties set remove] now

end Lakehouse.Table
