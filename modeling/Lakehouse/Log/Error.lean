import Lakehouse.Json.Decoder
import Lakehouse.Log.Action
import Lakehouse.Store.Layout
import Lakehouse.Store.Path

/- What can be wrong with a log, and why a commit to it may fail. -/
namespace Lakehouse.Log

/-- A version number as text. -/
def versionText (v : Version) : String := String.ofList (Text.decimal v.toNat)

/-- Ways in which the files of a log contradict the rules for logs. -/
inductive Corruption where
  | emptyCurrent
  | invalidCurrent (content : String) (fault : Text.IntegerFault)
  | unreadableCommit (version : Version) (cause : DecodeError)
  | lastVersion (version : Version)
  | foreignCommit (version recorded recordedBase expected : Version)
  | noCommits
  | versionMismatch (expected found : Version)
  | notYetCreated (version : Version)
  | neverCreated (version : Version)
  | createdTwice
  | registeredTwice (id : SnapshotId)
  | unknownCurrent (id : SnapshotId)
  deriving DecidableEq, Repr

def Corruption.message : Corruption → String
  | .emptyCurrent => s!"CURRENT has empty content at {Text.quoted Layout.currentPath}"
  | .invalidCurrent content fault =>
    s!"CURRENT has invalid content {Text.quoted content}: {fault.message}"
  | .unreadableCommit version cause =>
    s!"failed to parse commit {versionText version}: {cause.message}"
  | .lastVersion version => s!"log version {versionText version} cannot be advanced"
  | .foreignCommit version recorded recordedBase expected =>
    s!"commit {versionText version} records version {versionText recorded} based on " ++
      s!"{versionText recordedBase}, expected base {versionText expected}"
  | .noCommits => "Cannot rebuild TableState: CURRENT is 0 (no commits)"
  | .versionMismatch expected found =>
    s!"Commit version mismatch: expected {versionText expected}, found {versionText found} " ++
      "in payload"
  | .notYetCreated version =>
    s!"commit {versionText version} modifies a table that was never created"
  | .neverCreated version =>
    s!"No CreateTable found in commits up to version {versionText version}"
  | .createdTwice => "CreateTable found after table was created"
  | .registeredTwice id => s!"snapshot {id.display} registered twice"
  | .unknownCurrent id => s!"current pointer set to unknown snapshot {id.display}"

/-- Why an access to the log failed. -/
inductive LogError where
  | conflict (expected found : Version)
  | storage (cause : StorageError)
  | corrupt (cause : Corruption)
  deriving DecidableEq, Repr

namespace LogError

def message : LogError → String
  | .conflict expected found =>
    s!"Commit conflict: expected version {versionText expected}, but CURRENT is " ++
      versionText found
  | .storage cause => s!"Storage error while accessing commit log: {cause.message}"
  | .corrupt cause => s!"Corrupt log state: {cause.message}"

/-- Another writer was first. -/
def isConflict : LogError → Bool
  | .conflict _ _ => true
  | .storage (.alreadyExists _) => true
  | _ => false

end LogError

end Lakehouse.Log
