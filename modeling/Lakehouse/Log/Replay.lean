import Lakehouse.Lineage
import Lakehouse.Log.Journal

/- The table that a log describes.

   Replaying the actions of a log from its first commit on gives the table: its
   metadata with all property changes, the registered snapshots, the moves of the
   pointer to the current snapshot, and this pointer. The first action creates the
   table, and no other does. -/
namespace Lakehouse

/-- A table as of some version of its log. -/
structure Table where
  version : Log.Version
  metadata : Metadata
  snapshots : Snapshots
  history : List PointerMove
  currentId : Option SnapshotId
  deriving DecidableEq

namespace Table

/-- A table without snapshots. -/
def new (version : Log.Version) (metadata : Metadata) : Table :=
  ⟨version, metadata, .empty, [], none⟩

def schema (t : Table) : Schema := t.metadata.schema

def spec (t : Table) : PartitionSpec := t.metadata.spec

def snapshot? (t : Table) (id : SnapshotId) : Option Snapshot := t.snapshots.find? id

def current? (t : Table) : Option Snapshot := t.currentId.bind t.snapshot?

/-- The highest id of a snapshot. -/
def lastId? (t : Table) : Option SnapshotId := t.snapshots.lastKey?

/-- The snapshot is the current one or one of its ancestors. -/
def isCurrentAncestor (t : Table) (id : SnapshotId) : Bool :=
  (t.snapshots.ancestors t.currentId).contains id

/-- The table after the pointer moves to a registered snapshot. -/
def moveCurrent (t : Table) (m : PointerMove) : Table :=
  { t with
    currentId := some m.snapshotId
    history := markAncestors (t.history ++ [m]) (some m.snapshotId) t.snapshots }

/-- The table after one more action. -/
def apply (t : Table) : Log.Action → Except Log.Corruption Table
  | .create _ => .error .createdTwice
  | .updateProperties set remove =>
    .ok { t with metadata := { t.metadata with
      properties := t.metadata.properties.update set remove } }
  | .addSnapshot s =>
    if t.snapshots.contains s.id then .error (.registeredTwice s.id)
    else .ok { t with snapshots := t.snapshots.insert s.id s }
  | .moveCurrent target parentId madeCurrentAt =>
    if t.snapshots.contains target then
      .ok (t.moveCurrent ⟨madeCurrentAt, target, parentId, false⟩)
    else .error (.unknownCurrent target)

/-- The table after more actions. -/
def applyAll (t : Table) (actions : List Log.Action) : Except Log.Corruption Table :=
  actions.foldlM apply t

end Table

namespace Log

/-- The table after an action of the commit `version`, which may be the one that
creates it. -/
def replayAction (version : Version) :
    Option Table → Action → Except Corruption (Option Table)
  | some t, a => (t.apply a).map some
  | none, .create metadata => .ok (some (.new version metadata))
  | none, _ => .error (.notYetCreated version)

/-- The table after the commit found at `version`. -/
def replayCommit (version : Version) (t : Option Table) (c : Commit) :
    Except Corruption (Option Table) :=
  if c.version = version then c.actions.foldlM (replayAction version) t
  else .error (.versionMismatch version c.version)

/-- The table after the given number of commits from `version` on. -/
def replayFrom : (count : Nat) → (version : Version) → Option Table → LogScript (Option Table)
  | 0, _, t => return t
  | count + 1, version, t => do
    let c ← loadCommit version
    match replayCommit version t c with
    | .ok t => replayFrom count (version + 1) t
    | .error e => LogScript.fail e

/-- The table as of the current version. -/
def rebuild : LogScript Table := do
  let current ← currentVersion
  if current = 0 then
    LogScript.fail .noCommits
  else
    match ← replayFrom current.toNat 1 none with
    | some t => return { t with version := current }
    | none => LogScript.fail (.neverCreated current)

end Log

end Lakehouse
