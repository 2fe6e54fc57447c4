import Lakehouse.SortedMap
import Lakehouse.Store.Path

/- File trees.

   A file tree has directories and files with bytes in them, each under the names
   that lead to it from the root, which is always a directory. Files are read,
   created where nothing is yet, and replaced at once; the directories above a new
   file are made on the way. `Tree.filesBelow` walks through a directory in
   whatever order its entries come and lists the files in ascending order. -/
namespace Lakehouse

/-- Contents are compared byte by byte. -/
instance decidableEqContent : DecidableEq ByteArray := ByteArray.instDecidableEq

/-- What is found under a path of names. -/
inductive Node where
  | file (content : ByteArray)
  | directory
  deriving DecidableEq, Inhabited

/-- The names from the root down to a node. -/
abbrev Place := List String

/-- Directories and files. -/
structure Tree where
  nodes : SortedMap Place Node
  deriving DecidableEq, Inhabited

/-- Why the way to a node, or its use, failed. -/
inductive TreeFault where
  | missing
  | notDirectory
  | isDirectory
  | taken
  | tooLong
  | zeroInName
  deriving DecidableEq, Repr

/-- What the cause of a fault is called. -/
def TreeFault.cause : TreeFault → StorageFault
  | .zeroInName => .zeroInName
  | _ => .system

/-- Sorts a fault into the kinds of storage errors. -/
def StorageError.ofTree (path : String) : TreeFault → StorageError
  | .missing => .notFound path
  | .taken => .alreadyExists path
  | reason => .fault path reason.cause

namespace Tree

def empty : Tree := ⟨.empty⟩

def node? (t : Tree) (p : Place) : Option Node :=
  if p = [] then some .directory else t.nodes.find? p

def put (t : Tree) (p : Place) (n : Node) : Tree := ⟨t.nodes.insert p n⟩

theorem node?_put (t : Tree) (p : Place) (n : Node) {q : Place} (hq : q ≠ []) :
    (t.put p n).node? q = if q = p then some n else t.node? q := by
  simp only [node?, put, hq, if_false, SortedMap.find?_insert, Std.LawfulEqOrd.compare_eq_iff_eq]

def isDirectory (t : Tree) (p : Place) : Bool := t.node? p == some .directory

def isFile (t : Tree) (p : Place) : Bool :=
  match t.node? p with
  | some (.file _) => true
  | _ => false

/-- The places above `p`, from the root down. -/
def above (p : Place) : List Place := (List.range p.length).map p.take

/-- Why there is no node at `p`: a file stands in the way, or nothing is there. -/
def absence (t : Tree) (p : Place) : TreeFault :=
  if (above p).any t.isFile then .notDirectory else .missing

/-- Fails unless there is a directory at `p`. -/
def requireDirectory (t : Tree) (p : Place) : Except TreeFault Unit :=
  match t.node? p with
  | some .directory => .ok ()
  | some (.file _) => .error .notDirectory
  | none => .error (t.absence p)

/-- Fails if the path is none that can be followed. -/
def checkPath (path : String) : Except TreeFault Unit :=
  if Path.hasZero path then .error .zeroInName
  else if Path.isLong path then .error .tooLong
  else .ok ()

/-- The place that the moves lead to from `here`. -/
def locate (t : Tree) (here : Place) : List Step → Except TreeFault Place
  | [] => .ok here
  | .down name :: rest =>
    if Path.isLongName name then do
      -- A directory has to be there to refuse the name.
      t.requireDirectory here
      .error .tooLong
    else t.locate (here ++ [name]) rest
  | .up :: rest => do
    -- The way up from a place needs the place to be there.
    t.requireDirectory here
    t.locate here.dropLast rest
  | .stay :: rest => do
    t.requireDirectory here
    t.locate here rest

/-- The place that the path leads to. -/
def follow (t : Tree) (path : String) : Except TreeFault Place := do
  checkPath path
  t.locate [] (Path.steps path)

/-- The bytes of the file that the path leads to. -/
def read (t : Tree) (path : String) : Except TreeFault ByteArray := do
  let p ← t.follow path
  match t.node? p with
  | some (.file content) => .ok content
  | some .directory => .error .isDirectory
  | none => .error (t.absence p)

/-- Makes the directories that the moves pass through from `here`, and gives the
place they lead to. Those made before a failure stay. -/
def makeDirectories (t : Tree) (here : Place) : List Step → Except TreeFault Place × Tree
  | [] => (.ok here, t)
  | .down name :: rest =>
    let p := here ++ [name]
    if Path.isLongName name then (.error .tooLong, t)
    else
      match t.node? p with
      | some .directory => t.makeDirectories p rest
      | some (.file _) => (.error .notDirectory, t)
      | none => (t.put p .directory).makeDirectories p rest
  | .up :: rest => t.makeDirectories here.dropLast rest
  | .stay :: rest => t.makeDirectories here rest

/-- Makes the directory that a path leads to. -/
def makeDirectory (t : Tree) (path : String) : Except TreeFault Place × Tree :=
  match checkPath path with
  | .error e => (.error e, t)
  | .ok () => t.makeDirectories [] (Path.components path)

/-- The place of a path below the directory of its last component; there is none if
that component goes up. -/
def placeIn (directory : Place) (path : String) : Except TreeFault (Option Place) := do
  checkPath path
  match (Path.components path).getLast? with
  | some (.down name) =>
    if Path.isLongName name then .error .tooLong else .ok (some (directory ++ [name]))
  | _ => .ok none

/-- Puts a new file at a place whose directory is there. -/
def createAt (t : Tree) (place : Option Place) (ending : Path.Ending) (content : ByteArray) :
    Except TreeFault Tree :=
  match place with
  | none => .error .taken
  | some p =>
    match t.node? p, ending with
    | some (.file _), .dot => .error .notDirectory
    | some _, _ => .error .taken
    | none, .nothing => .ok (t.put p (.file content))
    | none, _ => .error .missing

/-- Puts a file at a place whose directory is there, instead of one that may be at the
place. -/
def replaceAt (t : Tree) (place : Option Place) (ending : Path.Ending) (content : ByteArray) :
    Except TreeFault Tree :=
  match place with
  | none => .error .isDirectory
  | some p =>
    if ending ≠ .nothing then .error .notDirectory
    else if t.isDirectory p then .error .isDirectory
    else .ok (t.put p (.file content))

/-- Removes a file. -/
def remove (t : Tree) (path : String) : Except TreeFault Tree := do
  let p ← t.follow path
  match t.node? p with
  | some (.file _) => .ok ⟨t.nodes.erase p⟩
  | some .directory => .error .isDirectory
  | none => .error (t.absence p)

/-! ### Listing -/

/-- The entries of a directory. -/
def children (t : Tree) (dir : Place) : List (Place × Node) :=
  t.nodes.toList.filter fun e => e.1 ≠ [] ∧ e.1.dropLast = dir

/-- The order in which a directory's entries are met. -/
abbrev Arrangement := Place → List (Place × Node) → List (Place × Node)

/-- The place of the directory that a path leads to. -/
def openDirectory (t : Tree) (path : String) : Except StorageError Place := do
  let p ← (t.follow path).mapError (.ofTree path)
  (t.requireDirectory p).mapError (.ofTree path)
  return p

/-- Opens the directory at `p` on a walk from the directory `top`, which was opened by `path`. -/
def openBelow (t : Tree) (path : String) (top p : Place) : Except StorageError Unit :=
  (t.openDirectory (Path.descend path (p.drop top.length))).map fun _ => ()

/-- The files met in a walk through the directories `pending`, of which the last
one found is the next one entered. Each directory takes one of the `steps`, and one that cannot be
opened ends the walk. -/
def walk (t : Tree) (path : String) (top : Place) (arrange : Arrangement) :
    (steps : Nat) → (pending found : List Place) → Except StorageError (List Place)
  | 0, _, found => .ok found
  | _, [], found => .ok found
  | steps + 1, dir :: pending, found => do
    t.openBelow path top dir
    let entries := arrange dir (t.children dir)
    let directories := (entries.filter fun e => e.2 == .directory).map Prod.fst
    let files := (entries.filter fun e => e.2 != .directory).map Prod.fst
    walk t path top arrange steps (directories.reverse ++ pending) (found ++ files)

/-- The files below a directory, in ascending order of their places. The walk
enters each directory of the tree at most once. -/
def filesBelow (t : Tree) (path : String) (arrange : Arrangement) (dir : Place) :
    Except StorageError (List Place) := do
  let found ← t.walk path dir arrange (t.nodes.size + 1) [dir] []
  return found.mergeSort fun a b => (compare a b).isLE

/-- The names that lead from the directory to each file below it. -/
def list (t : Tree) (path : String) : Except StorageError (List Place) := do
  let dir ← t.openDirectory path
  let found ← t.filesBelow path (fun _ entries => entries) dir
  return found.map fun p => p.drop dir.length

end Tree

end Lakehouse
