import Lakehouse.Metadata
import Lakehouse.Snapshot

/- The entries of a table's log.

   Each commit of the log is one file with a list of actions: the table is created,
   its properties change, a snapshot is registered, or the pointer to the current
   snapshot moves. A commit names its version and the version it builds on. -/
namespace Lakehouse.Log

open Calendar

abbrev Version := UInt64

/-- One change recorded in the log. -/
inductive Action where
  | create (metadata : Metadata)
  | updateProperties (set : Properties) (remove : List String)
  | addSnapshot (snapshot : Snapshot)
  | moveCurrent (target : SnapshotId) (parentId : Option SnapshotId) (madeCurrentAt : Instant)
  deriving DecidableEq

/-- The actions of one version of the log. -/
structure Commit where
  version : Version
  base : Version
  timestamp : Instant
  actions : List Action
  deriving DecidableEq

end Lakehouse.Log
