import Lakehouse.Text.Blank
import Lakehouse.Text.Quoted

/- Paths and locations.

   A path is text in which slashes separate segments. Followed in a file tree, an
   empty segment is nothing, a dot stays where it is, two dots go up, and any other
   segment goes down; a slash at the end asks for a directory, as a dot would. As a
   sequence of components, a path has neither empty segments nor dots. Names and
   paths have a greatest length, and no zero character may be in them. A location is
   the path of a table's root directory, given as text that may have a scheme. -/
namespace Lakehouse

/-- The parts of a text between its slashes. -/
def segments : List Char → List (List Char)
  | [] => [[]]
  | c :: rest =>
    if c = '/' then [] :: segments rest
    else
      match segments rest with
      | s :: more => (c :: s) :: more
      | [] => [[c]]

/-- A move in a file tree. -/
inductive Step where
  | down (name : String)
  | up
  | stay
  deriving DecidableEq, Repr

namespace Step

def ofSegment? : List Char → Option Step
  | [] => none
  | ['.'] => some .stay
  | ['.', '.'] => some .up
  | name => some (.down (String.ofList name))

/-- A directory is asked for, or nothing is. -/
def isStay : Step → Bool
  | .stay => true
  | _ => false

end Step

namespace Path

/-- The moves that a path stands for. -/
def steps (path : String) : List Step :=
  let parts := segments path.toList
  let moves := parts.filterMap Step.ofSegment?
  if parts.getLast? = some [] ∧ 1 < parts.length then moves ++ [.stay] else moves

/-- The moves of a path without dots. -/
def components (path : String) : List Step :=
  ((segments path.toList).filterMap Step.ofSegment?).filter fun s => !s.isStay

/-- The names among the components of the part of a path before its last one. -/
def directoryNames (path : String) : List String :=
  (components path).dropLast.filterMap fun
    | .down name => some name
    | _ => none

/-- The path `rel` seen from `root`; a path that begins with a slash stays as it
is. -/
def join (root rel : String) : String :=
  if rel.toList.head? = some '/' then rel
  else if root = "" ∨ root.toList.getLast? = some '/' then root ++ rel
  else root ++ "/" ++ rel

/-- Segments without the empty ones and dots at their end. -/
def dropIdle (parts : List (List Char)) : List (List Char) :=
  (parts.reverse.dropWhile fun s => s = [] || s = ['.']).reverse

/-- The path without its last component. -/
def parent (path : String) : String :=
  let parts := dropIdle (dropIdle (segments path.toList)).dropLast
  if parts = [] ∧ path.toList.head? = some '/' then "/"
  else String.ofList (['/'].intercalate parts)

/-- What a path has behind its last component. -/
inductive Ending where
  | nothing
  | slash
  | dot
  deriving DecidableEq, Repr

/-- What stands behind the last component. With a slash or a dot there, a path can
only lead to a directory. -/
def ending (path : String) : Ending :=
  let parts := segments path.toList
  if (parts.reverse.dropWhile (· = [])).head? = some ['.'] then .dot
  else if parts.getLast? = some [] then .slash
  else .nothing

/-- No directory takes a name of so many bytes. -/
def isLongName (name : String) : Bool := 255 < name.utf8ByteSize

/-- No access takes a path of so many bytes. -/
def isLong (path : String) : Bool := 4095 < path.utf8ByteSize

def hasZero (path : String) : Bool := path.toList.contains '\x00'

/-- The path without the empty segments and dots at its beginning. -/
def withoutIdleStart (path : List Char) : List Char :=
  match path with
  | [] => []
  | ['.'] => []
  | '/' :: rest => withoutIdleStart rest
  | '.' :: '/' :: rest => withoutIdleStart rest
  | path => path

/-- The path by which what lies below a directory is opened, if the directory was opened by
`path` and the names on the way down are given. -/
def descend (path : String) (names : List String) : String :=
  if names = [] then path else join path ("/".intercalate names)

/-- The path of a file below `dir`, of which the names on the way down are
given. A path that begins with a slash leads out of the root, and keeps its beginning. -/
def below (dir : String) (names : List String) : String :=
  let start :=
    if dir.toList.head? = some '/' then dir.toList else withoutIdleStart dir.toList
  let between := if start = [] ∨ start.getLast? = some '/' then "" else "/"
  String.ofList start ++ between ++ "/".intercalate names

/-- The path with slashes for backslashes. -/
def withSlashes (path : String) : String :=
  path.map fun c => if c = '\\' then '/' else c

end Path

/-! ### Failures of storage -/

/-- What went wrong when a path was neither missing nor taken. The words of the
operating system are not part of this account of it. -/
inductive StorageFault where
  | system
  | zeroInName
  | invalidText
  | emptyLocation
  | unsupportedScheme (scheme : String)
  deriving DecidableEq, Repr

def StorageFault.message : StorageFault → String
  | .system => "<os error>"
  | .zeroInName => "file name contained an unexpected NUL byte"
  | .invalidText => "stream did not contain valid UTF-8"
  | .emptyLocation => "location is empty"
  | .unsupportedScheme scheme => s!"unsupported storage scheme {Text.quoted scheme}"

/-- Why an access to storage failed, and at which path. -/
inductive StorageError where
  | notFound (path : String)
  | alreadyExists (path : String)
  | fault (path : String) (cause : StorageFault)
  deriving DecidableEq, Repr

namespace StorageError

def path : StorageError → String
  | .notFound path => path
  | .alreadyExists path => path
  | .fault path _ => path

def message : StorageError → String
  | .notFound path => s!"Path not found: {path}"
  | .alreadyExists path => s!"Path already exists: {path}"
  | .fault path cause => s!"I/O error at {path}: local I/O error: {cause.message}"

end StorageError

/-! ### Locations -/

/-- The root directory of a table. -/
structure Location where
  path : String
  deriving DecidableEq, Repr, Inhabited

namespace Location

/-- The text after a mark, if the mark stands at its beginning. -/
def after? (mark : List Char) (text : List Char) : Option (List Char) :=
  if mark.isPrefixOf text then some (text.drop mark.length) else none

/-- The text before the first mark, if there is one. -/
def before? (mark : List Char) : List Char → Option (List Char)
  | [] => if mark = [] then some [] else none
  | c :: rest =>
    if mark.isPrefixOf (c :: rest) then some []
    else (before? mark rest).map (c :: ·)

/-- A path, or a path after the scheme of files; no other scheme is supported. -/
def read (text : String) : Except StorageError Location :=
  let trimmed := Text.trim text.toList
  if trimmed = [] then
    .error (.fault "<empty location>" .emptyLocation)
  else
    match after? "file://".toList trimmed with
    | some rest => .ok ⟨String.ofList rest⟩
    | none =>
      match before? "://".toList trimmed with
      | some scheme =>
        .error (.fault (String.ofList trimmed) (.unsupportedScheme (String.ofList scheme)))
      | none => .ok ⟨String.ofList trimmed⟩

end Location

end Lakehouse
