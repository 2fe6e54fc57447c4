import Lakehouse.Json.Decoder
import Lakehouse.Metadata

/- The JSON forms of data, schemas, partitionings and table metadata. Each form is
   given by a pair of functions, one that writes it and one that reads it. -/
namespace Lakehouse.Form

open Json

/-- The name of a field or a tag as the body of a string. -/
def key (name : String) : List Symbol := (Json.escape name.toList).map some

/-- An object with the given fields in this order. -/
def object (fields : List (String × Json)) : Json :=
  .object (fields.map fun (name, j) => (key name, j))

def integer (i : Int) : Json := .integer (i < 0) i.natAbs

def natural (n : Nat) : Json := .integer false n

def int32 (i : Int32) : Json := integer i.toInt

def int64 (i : Int64) : Json := integer i.toInt

def uint32 (n : UInt32) : Json := natural n.toNat

def uint64 (n : UInt64) : Json := natural n.toNat

def instant (t : Calendar.Instant) : Json := .ofText t.render

def option {α : Type} (write : α → Json) : Option α → Json
  | none => .null
  | some a => write a

def list {α : Type} (write : α → Json) (l : List α) : Json := .array (l.map write)

/-- A map with column ids as keys. -/
def columnMap {α : Type} (write : α → Json) (m : SortedMap FieldId α) : Json :=
  .object (m.toList.map fun (k, a) => ((Text.signedDecimal k.toInt).map some, write a))

def readColumnMap {α : Type} (decode : Decoder α) : Decoder (SortedMap FieldId α) :=
  .map Decoder.int32Key? decode

/-- A map from texts to texts. -/
def textMap (m : SortedMap String String) : Json :=
  .object (m.toList.map fun (k, v) => (key k, .ofText v))

def readTextMap : Decoder (SortedMap String String) := .map Json.text? .text

/-! ### Data -/

def columnType (t : ColumnType) : Json := .ofText t.name

def readColumnType : Decoder ColumnType :=
  .named ([.boolean, .int, .long, .string].map fun t : ColumnType => (t.name, t))

def datum : Datum → Json
  | .boolean b => object [("Boolean", .bool b)]
  | .int i => object [("Int", int32 i)]
  | .long l => object [("Long", int64 l)]
  | .string s => object [("String", .ofText s)]

def readDatum : Decoder Datum :=
  .tagged
    [("Boolean", fun j => (Decoder.bool j).map .boolean),
      ("Int", fun j => (Decoder.int32 j).map .int),
      ("Long", fun j => (Decoder.int64 j).map .long),
      ("String", fun j => (Decoder.text j).map .string)]

def partitionTuple (t : PartitionTuple) : Json := list (option datum) t

def readPartitionTuple : Decoder PartitionTuple := .list (.option readDatum)

/-! ### Schemas -/

def field (f : Field) : Json :=
  object
    [("id", int32 f.id), ("name", .ofText f.name), ("field_type", columnType f.type),
      ("required", .bool f.required)]

def readField : Decoder Field :=
  RecordOf.decode <|
    Field.mk <$> .field "id" .int32 <*> .field "name" .text <*>
      .field "field_type" readColumnType <*> .fieldOr "required" (some false) .bool

def schema (s : Schema) : Json := object [("fields", list field s.fields)]

/-- The fields are checked against each other when all of them are read. -/
def readSchema : Decoder Schema := fun j => do
  let fields ← (RecordOf.field "fields" (.list readField)).decode j
  (Schema.ofFields fields).mapError .schema

/-! ### Partitionings -/

/-- The only way in which a slot is made from its column: it holds the value. -/
def identityTransform : String := "identity"

def partitionField (f : PartitionField) : Json :=
  object
    [("source_id", int32 f.sourceId), ("field_id", int32 f.fieldId), ("name", .ofText f.name),
      ("transform", .ofText identityTransform)]

def readPartitionField : Decoder PartitionField :=
  RecordOf.decode <|
    (fun source field name (_ : Unit) => PartitionField.mk source field name) <$>
      .field "source_id" .int32 <*> .field "field_id" .int32 <*> .field "name" .text <*>
      .fieldOr "transform" (some ()) (.named [(identityTransform, ())])

def partitionSpec (s : PartitionSpec) : Json :=
  object [("spec_id", int32 s.specId), ("fields", list partitionField s.fields)]

def readPartitionSpec : Decoder PartitionSpec :=
  RecordOf.decode <|
    PartitionSpec.mk <$> .field "spec_id" .int32 <*> .field "fields" (.list readPartitionField)

/-! ### Metadata -/

def metadata (m : Metadata) : Json :=
  object
    [("schema", schema m.schema), ("partition_spec", partitionSpec m.spec),
      ("properties", textMap m.properties), ("created_at", instant m.createdAt),
      ("format_version", uint32 m.formatVersion)]

def readMetadata : Decoder Metadata :=
  RecordOf.decode <|
    Metadata.mk <$> .field "schema" readSchema <*> .field "partition_spec" readPartitionSpec <*>
      .fieldOr "properties" (some .empty) readTextMap <*> .field "created_at" .instant <*>
      .field "format_version" .uint32

end Lakehouse.Form
