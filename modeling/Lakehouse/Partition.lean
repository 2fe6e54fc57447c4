import Lakehouse.Schema

/- Partitioning by column values.

   A partition spec lists source columns; each data file of the table carries one
   slot for each of them, with the value that the column has in every row of the
   file, or nothing where the column is null. Tuples of slots are ordered slot by
   slot, an empty slot before every value and a beginning before its
   continuations. -/
namespace Lakehouse

/-- One source column of a partition spec. -/
structure PartitionField where
  sourceId : FieldId
  fieldId : FieldId
  name : String
  deriving DecidableEq, Repr, Inhabited

/-- The columns that a table is partitioned by. -/
structure PartitionSpec where
  specId : Int32
  fields : List PartitionField
  deriving DecidableEq, Repr, Inhabited

namespace PartitionSpec

/-- The spec of a table without partitions. -/
def unpartitioned : PartitionSpec := ⟨0, []⟩

/-- Partition fields are numbered from here on. -/
def firstFieldId : FieldId := 1000

/-- The field for the column `name`, at position `index` of its spec. -/
def identityField (schema : Schema) (index : Nat) (name : String) :
    Except SchemaError PartitionField :=
  match schema.byName? name with
  | some source => .ok ⟨source.id, firstFieldId + Int32.ofNat index, source.name⟩
  | none => .error (.unknownSourceColumn name)

/-- The fields for the given columns, numbered from `index` on. -/
def identityFields (schema : Schema) (index : Nat) :
    List String → Except SchemaError (List PartitionField)
  | [] => .ok []
  | name :: rest => do
    let field ← identityField schema index name
    return field :: (← identityFields schema (index + 1) rest)

/-- Partitions by the values of the named columns, in this order. -/
def identity (schema : Schema) (columns : List String) : Except SchemaError PartitionSpec :=
  (identityFields schema 0 columns).map fun fields => ⟨0, fields⟩

def isUnpartitioned (spec : PartitionSpec) : Bool := spec.fields.isEmpty

/-- The first slot that holds the values of the given column. -/
def slotOf? (spec : PartitionSpec) (source : FieldId) : Option Nat :=
  spec.fields.findIdx? fun f => f.sourceId = source

/-- Fails with the first field whose source column the schema lacks. -/
def checkSources (spec : PartitionSpec) (schema : Schema) : Except SchemaError Unit :=
  match spec.fields.find? fun f => (schema.byId? f.sourceId).isNone with
  | some f => .error (.unknownSourceColumn f.name)
  | none => .ok ()

end PartitionSpec

/-- The slots of a data file, one for each field of the spec. -/
abbrev PartitionTuple := List (Option Datum)

namespace PartitionTuple

instance : Std.TransOrd PartitionTuple := inferInstanceAs (Std.TransOrd (List (Option Datum)))

/-- The tuple whose slots hold the given values. -/
def ofValues (values : List Datum) : PartitionTuple := values.map some

/-- The value in a slot; a slot beyond the end is empty. -/
def value? (t : PartitionTuple) (slot : Nat) : Option Datum := t[slot]?.join

end PartitionTuple

end Lakehouse
