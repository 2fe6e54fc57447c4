import Lakehouse.Schema

/- Row filters.

   A filter speaks about columns by name. Binding it to a schema looks the columns
   up, takes every literal to the type of its column, and pushes negations down to
   the leaves, where each has an opposite: a bound filter has no negation left. As a
   comparison with null is neither true nor false, and neither is its negation, a
   bound leaf that is not true of a row need not have an opposite that is. -/
namespace Lakehouse

/-- The ways to compare a column with a literal. -/
inductive Comparison where
  | eq
  | notEq
  | lt
  | ltEq
  | gt
  | gtEq
  deriving DecidableEq, Repr, Inhabited

namespace Comparison

/-- The comparison that holds of two values when this one does not. -/
def opposite : Comparison → Comparison
  | .eq => .notEq
  | .notEq => .eq
  | .lt => .gtEq
  | .ltEq => .gt
  | .gt => .ltEq
  | .gtEq => .lt

/-- The comparison holds of two values that are ordered in this way. -/
def holds : Comparison → Ordering → Bool
  | .eq, o => o == .eq
  | .notEq, o => o != .eq
  | .lt, o => o == .lt
  | .ltEq, o => o != .gt
  | .gt, o => o == .gt
  | .gtEq, o => o != .lt

end Comparison

/-- A filter on rows, with columns given by name. -/
inductive Filter where
  | all
  | nothing
  | isNull (column : String)
  | notNull (column : String)
  | compare (op : Comparison) (column : String) (literal : Datum)
  | not (filter : Filter)
  | and (left right : Filter)
  | or (left right : Filter)
  deriving DecidableEq, Repr, Inhabited

/-- A filter on the rows of one schema, without negations. -/
inductive BoundFilter where
  | all
  | nothing
  | isNull (column : FieldId)
  | notNull (column : FieldId)
  | compare (op : Comparison) (column : FieldId) (literal : Datum)
  | and (left right : BoundFilter)
  | or (left right : BoundFilter)
  deriving DecidableEq, Repr, Inhabited

/-- Why a filter does not fit a schema. -/
inductive FilterError where
  | unknownColumn (column : String)
  | literalType (column : String) (expected : ColumnType) (literal : Datum)
  deriving DecidableEq, Repr

def FilterError.message : FilterError → String
  | .unknownColumn column => s!"Cannot find column {Text.quoted column} in table schema"
  | .literalType column expected literal =>
    s!"Cannot compare column {Text.quoted column} of type {expected.name} with literal " ++
      literal.describe

namespace Filter

/-- The field of a column that a filter names. -/
def resolve (schema : Schema) (column : String) : Except FilterError Field :=
  match schema.byName? column with
  | some field => .ok field
  | none => .error (.unknownColumn column)

/-- The literal as a value of its column's type. -/
def fitLiteral (field : Field) (column : String) (literal : Datum) : Except FilterError Datum :=
  match literal.convert? field.type with
  | some d => .ok d
  | none => .error (.literalType column field.type literal)

/-- Binds the filter, or its negation if `positive` is false. The error is that of
the leftmost leaf that does not fit. -/
def bindSigned (schema : Schema) (positive : Bool) : Filter → Except FilterError BoundFilter
  | all => .ok (if positive then .all else .nothing)
  | nothing => .ok (if positive then .nothing else .all)
  | isNull column => do
    let field ← resolve schema column
    return if positive then .isNull field.id else .notNull field.id
  | notNull column => do
    let field ← resolve schema column
    return if positive then .notNull field.id else .isNull field.id
  | compare op column literal => do
    let field ← resolve schema column
    let literal ← fitLiteral field column literal
    return .compare (if positive then op else op.opposite) field.id literal
  | not filter => bindSigned schema (!positive) filter
  | and left right => do
    let l ← bindSigned schema positive left
    let r ← bindSigned schema positive right
    return if positive then .and l r else .or l r
  | or left right => do
    let l ← bindSigned schema positive left
    let r ← bindSigned schema positive right
    return if positive then .or l r else .and l r

/-- The filter on rows of the given schema. -/
def bind (schema : Schema) (filter : Filter) : Except FilterError BoundFilter :=
  filter.bindSigned schema true

end Filter

end Lakehouse
