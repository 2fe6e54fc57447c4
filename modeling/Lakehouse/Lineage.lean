import Lakehouse.Snapshot

/- Where the current snapshot comes from.

   The table keeps a record of every move of the pointer to the current snapshot.
   A record also says whether its snapshot is the current one or one of its
   ancestors, that is, whether parent links lead to it; parents may be missing
   from the table or lead round in a circle, and the walk along them still
   ends. -/
namespace Lakehouse

open Calendar

/-- A move of the pointer to the current snapshot. -/
structure PointerMove where
  madeCurrentAt : Instant
  snapshotId : SnapshotId
  parentId : Option SnapshotId
  isCurrentAncestor : Bool
  deriving DecidableEq

abbrev Snapshots := SortedMap SnapshotId Snapshot

namespace Snapshots

/-- The parent of a registered snapshot. -/
def parent? (snapshots : Snapshots) (id : SnapshotId) : Option SnapshotId :=
  (snapshots.find? id).bind Snapshot.parentId

/-- Follows parent links from `cursor` for at most `steps` snapshots, until they
end or come back to one that was seen. -/
def walk (snapshots : Snapshots) :
    (steps : Nat) → (seen : SortedMap SnapshotId Unit) → (cursor : Option SnapshotId) →
      SortedMap SnapshotId Unit
  | 0, seen, _ => seen
  | _, seen, none => seen
  | steps + 1, seen, some id =>
    if seen.contains id then seen
    else walk snapshots steps (seen.insert id ()) (snapshots.parent? id)

/-- The snapshot `current` and its ancestors. The walk meets each registered
snapshot at most once, and a snapshot that is not registered only at its end. -/
def ancestors (snapshots : Snapshots) (current : Option SnapshotId) :
    SortedMap SnapshotId Unit :=
  snapshots.walk (snapshots.size + 1) .empty current

end Snapshots

/-- Marks the moves to the current snapshot and its ancestors. -/
def markAncestors (history : List PointerMove) (current : Option SnapshotId)
    (snapshots : Snapshots) : List PointerMove :=
  let ancestors := snapshots.ancestors current
  history.map fun m => { m with isCurrentAncestor := ancestors.contains m.snapshotId }

end Lakehouse
