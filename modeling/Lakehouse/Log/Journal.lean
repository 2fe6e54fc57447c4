import Lakehouse.Form.Log
import Lakehouse.Log.Error
import Lakehouse.Store.Script

/- The files of a log.

   The log is a sequence of commit files, numbered from 1 on, of which those up to
   the current version count. A commit is added by creating the next file, which
   fails if another writer has done so, and then naming it as current. A file that
   is there without being named comes from a writer that stopped in between: it is
   made current in its place, and the commit that met it has lost. -/
namespace Lakehouse.Log

/-- Access to the log, which may fail. -/
abbrev LogScript := ExceptT LogError Script

/-- Fails because of what the log's files say. -/
def LogScript.fail {α : Type} (cause : Corruption) : LogScript α := throw (.corrupt cause)

/-- The version that the content of the file for the current version names. -/
def parseCurrent (content : String) : Except Corruption Version :=
  let trimmed := Text.trim content.toList
  if trimmed = [] then .error .emptyCurrent
  else (Text.readUInt64 trimmed).mapError (.invalidCurrent (String.ofList trimmed))

/-- The current version; it is 0 while no version is named. -/
def currentVersion : LogScript Version := ExceptT.mk do
  match ← Script.request (.readText Layout.currentPath) with
  | .ok content => return (parseCurrent content).mapError .corrupt
  | .error (.notFound _) => return .ok 0
  | .error e => return .error (.storage e)

/-- The commit in the content of its file. -/
def parseCommit (version : Version) (content : String) : Except Corruption Commit :=
  (Form.readCommit.run (symbolsOfText content)).mapError (.unreadableCommit version)

def loadCommit (version : Version) : LogScript Commit := ExceptT.mk do
  match ← Script.request (.readText (Layout.commitPath version)) with
  | .ok content => return (parseCommit version content).mapError .corrupt
  | .error e => return .error (.storage e)

/-- The content of the file for the current version. -/
def currentContent (version : Version) : ByteArray := (versionText version ++ "\n").toUTF8

def writeCurrent (version : Version) : LogScript Unit := ExceptT.mk do
  return (← Script.request (.replace Layout.currentPath (currentContent version))).mapError
    .storage

/-- The content of a commit's file. -/
def commitContent (c : Commit) : ByteArray := (Form.commit c).render.toUTF8

/-- Makes the commit that another writer left at `version` current, if it follows
`expected` and this is still the current version. -/
def publish (expected version : Version) : LogScript Unit := do
  let found ← loadCommit version
  if found.version = version ∧ found.base = expected then
    if (← currentVersion) = expected then writeCurrent version
  else
    LogScript.fail (.foreignCommit version found.version found.base expected)

/-- Adds a commit after the version `expected`, if this is the current one. -/
def append (expected : Version) (actions : List Action) (now : Calendar.Instant) :
    LogScript Version := do
  let current ← currentVersion
  if current ≠ expected then
    throw (.conflict expected current)
  else if expected.toNat + 1 = UInt64.size then
    LogScript.fail (.lastVersion expected)
  else
    let version := expected + 1
    let content := commitContent ⟨version, expected, now, actions⟩
    match ← ExceptT.lift (Script.request (.create (Layout.commitPath version) content)) with
    | .ok () =>
      writeCurrent version
      return version
    | .error (.alreadyExists _) =>
      -- The other writer may have stopped before it named its commit as current.
      publish expected version
      throw (.conflict expected version)
    | .error e => throw (.storage e)

end Lakehouse.Log
