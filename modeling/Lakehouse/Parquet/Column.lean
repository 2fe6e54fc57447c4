import Lakehouse.Parquet.Annotation

/- The tree of columns of a Parquet file.

   A footer lists the tree from the root down, each element with the number of
   elements right below it, which follow it. Columns with values are the leaves;
   the others are groups. `leaves?` puts the tree together and gives its leaves, and
   fails if the elements make no proper tree. -/
namespace Lakehouse.Parquet

/-- One element of the list. -/
structure Element where
  name : String := ""
  type : Option PhysicalType := none
  repetition : Option Repetition := none
  children : Int := 0
  converted : Option ConvertedType := none
  logical : Option LogicalType := none
  length : Int := -1
  scale : Int := -1
  precision : Int := -1
  deriving DecidableEq, Repr

/-- A leaf of the tree of columns, with the names on the way to it. -/
structure Leaf where
  path : List String
  type : PhysicalType
  deriving DecidableEq, Repr

namespace Element

open Thrift in
/-- Every element has a name. -/
def read : ByteReader Element :=
  readRecord [4] {} fun e field =>
    match field.number with
    | 1 => some do return { e with type := some (← readCoded PhysicalType.ofCode?) }
    | 2 => some do return { e with length := (← readInt32).toInt }
    | 3 => some do return { e with repetition := some (← readCoded Repetition.ofCode?) }
    | 4 => some do return { e with name := ← readText }
    | 5 => some do return { e with children := (← readInt32).toInt }
    | 6 => some do return { e with converted := ← readConvertedType }
    | 7 => some do return { e with scale := (← readInt32).toInt }
    | 8 => some do return { e with precision := (← readInt32).toInt }
    | 9 => some (past readInt32 e)
    | 10 => some do return { e with logical := some (← readLogicalType) }
    | _ => none

/-- An element below the root occurs in a way that is given, and an integer that it
stands for has a proper width. -/
def isProper (e : Element) : Bool :=
  e.repetition.isSome && e.logical.all LogicalType.isProper

/-- The leaf that an element without children is, if it is not an empty group. -/
def leaf (above : List String) (e : Element) : Option (List Leaf) :=
  match e.type with
  | none => some []
  | some type => do
    guard (Storage.allows ⟨type, e.length, e.scale, e.precision⟩ e.logical e.converted)
    return [⟨above ++ [e.name], type⟩]

end Element

mutual

/-- The leaves of the first element and those below it, and the elements after them.
Each element takes one of the `steps`. -/
def leavesOf : (steps : Nat) → (above : List String) → List Element →
    Option (List Leaf × List Element)
  | 0, _, _ => none
  | _, _, [] => none
  | steps + 1, above, e :: rest => do
    guard (e.isProper ∧ 0 ≤ e.children)
    if e.children = 0 then return (← e.leaf above, rest)
    else leavesOfChildren steps (above ++ [e.name]) e.children.toNat rest

/-- The leaves of the given number of elements, and the elements after them. -/
def leavesOfChildren : (steps : Nat) → (above : List String) → (count : Nat) → List Element →
    Option (List Leaf × List Element)
  | _, _, 0, rest => some ([], rest)
  | 0, _, _, _ => none
  | steps + 1, above, count + 1, rest => do
    let (first, rest) ← leavesOf steps above rest
    let (more, rest) ← leavesOfChildren steps above count rest
    return (first ++ more, rest)

end

/-- The leaves of the tree of columns. The first element is the root, which gives no
name, and all others are below it. -/
def leaves? : List Element → Option (List Leaf)
  | [] => none
  | root :: rest => do
    guard (0 ≤ root.children ∧ (root.children = 0 ∨ root.logical.all LogicalType.isProper))
    let (leaves, after) ←
      leavesOfChildren (2 * rest.length + 2) [] root.children.toNat rest
    guard after.isEmpty
    return leaves

end Lakehouse.Parquet
