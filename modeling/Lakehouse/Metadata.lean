import Lakehouse.Calendar.Instant
import Lakehouse.Partition
import Lakehouse.SortedMap
import Lakehouse.Text.Blank

/- What a table is made with: its schema, its partitioning and its properties. -/
namespace Lakehouse

open Calendar

abbrev Properties := SortedMap String String

namespace Properties

/-- The property as a truth value: the words true and false in any case of letters,
with blanks around them. Any other text counts as if the property were not set. -/
def flag (props : Properties) (key : String) (default : Bool) : Bool :=
  match props.find? key with
  | none => default
  | some raw =>
    let word := (Text.trim raw.toList).map Char.toLower
    if word = "true".toList then true
    else if word = "false".toList then false
    else default

/-- Whether staged manifests may be adopted where they are, with their entries'
snapshot ids left to be inherited. -/
def inheritanceKey : String := "compatibility.snapshot-id-inheritance.enabled"

def inheritsSnapshotIds (props : Properties) : Bool := props.flag inheritanceKey false

/-- Removes the given keys, and then sets the given bindings. -/
def update (props : Properties) (set : Properties) (remove : List String) : Properties :=
  (remove.foldl SortedMap.erase props).insertAll set.toList

end Properties

/-- What a table is made with. -/
structure Metadata where
  schema : Schema
  spec : PartitionSpec
  properties : Properties
  createdAt : Instant
  formatVersion : UInt32
  deriving DecidableEq

namespace Metadata

/-- The format of the tables made here. -/
def currentFormat : UInt32 := 1

/-- The metadata of a new table without properties; the source columns of its
partitioning must be in its schema. -/
def create (schema : Schema) (spec : PartitionSpec) (now : Instant) :
    Except SchemaError Metadata :=
  (spec.checkSources schema).map fun _ => ⟨schema, spec, .empty, now, currentFormat⟩

def setProperty (m : Metadata) (key value : String) : Metadata :=
  { m with properties := m.properties.insert key value }

end Metadata

end Lakehouse
