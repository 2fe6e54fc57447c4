import Lakehouse.DataFile
import Lakehouse.Filter.Basic

/- What a file's metadata says about a filter.

   Two questions are answered without reading rows: might some row of the file
   satisfy the filter, and do all its rows satisfy it? Both answers are careful:
   where the metadata leave it open, a row might match, and not all are known
   to. A column with a partition slot has the slot's value in every row; for any
   other column there are counts and bounds, each of which may be missing. -/
namespace Lakehouse

/-- Counts and bounds of a column in one file. -/
structure ColumnMetrics where
  valueCount : Option UInt64
  nullCount : Option UInt64
  lower : Option Datum
  upper : Option Datum
  deriving DecidableEq, Repr, Inhabited

namespace ColumnMetrics

/-- Both counts are known, and they agree. -/
def allNull (m : ColumnMetrics) : Bool :=
  match m.valueCount, m.nullCount with
  | some values, some nulls => values == nulls
  | _, _ => false

def noNulls (m : ColumnMetrics) : Bool := m.nullCount == some 0

/-- The lower bound, if it is known, satisfies `p`. -/
def lowerMay (m : ColumnMetrics) (p : Datum → Bool) : Bool := m.lower.all p

/-- The upper bound, if it is known, satisfies `p`. -/
def upperMay (m : ColumnMetrics) (p : Datum → Bool) : Bool := m.upper.all p

/-- Some value within the bounds may satisfy the comparison. -/
def boundsAllow (m : ColumnMetrics) (op : Comparison) (literal : Datum) : Bool :=
  match op with
  | .eq => m.lowerMay (· ≤ literal) && m.upperMay (literal ≤ ·)
  | .notEq => !(m.lower == some literal && m.upper == some literal && m.noNulls)
  | .lt => m.lowerMay (· < literal)
  | .ltEq => m.lowerMay (· ≤ literal)
  | .gt => m.upperMay (literal < ·)
  | .gtEq => m.upperMay (literal ≤ ·)

/-- Every value within the two bounds satisfies the comparison. -/
def boundsForce (op : Comparison) (literal lower upper : Datum) : Bool :=
  match op with
  | .eq => lower == literal && upper == literal
  | .notEq => upper < literal || literal < lower
  | .lt => upper < literal
  | .ltEq => upper ≤ literal
  | .gt => literal < lower
  | .gtEq => literal ≤ lower

end ColumnMetrics

/-- What is known about a column in one file. -/
inductive ColumnEvidence where
  | constant (value : Option Datum)
  | metrics (m : ColumnMetrics)
  deriving DecidableEq, Repr, Inhabited

namespace ColumnEvidence

def mightBeNull : ColumnEvidence → Bool
  | constant value => value.isNone
  | metrics m => !m.noNulls

def mightBeValue : ColumnEvidence → Bool
  | constant value => value.isSome
  | metrics m => !m.allNull

def mightSatisfy (op : Comparison) (literal : Datum) : ColumnEvidence → Bool
  | constant none => false
  | constant (some v) => op.holds (Ord.compare v literal)
  | metrics m => !m.allNull && m.boundsAllow op literal

def alwaysNull : ColumnEvidence → Bool
  | constant value => value.isNone
  | metrics m => m.allNull

def alwaysValue : ColumnEvidence → Bool
  | constant value => value.isSome
  | metrics m => m.noNulls

def alwaysSatisfies (op : Comparison) (literal : Datum) : ColumnEvidence → Bool
  | constant none => false
  | constant (some v) => op.holds (Ord.compare v literal)
  | metrics m =>
    match m.lower, m.upper with
    | some lower, some upper => m.noNulls && ColumnMetrics.boundsForce op literal lower upper
    | _, _ => false

end ColumnEvidence

namespace DataFile

def metricsOf (f : DataFile) (column : FieldId) : ColumnMetrics where
  valueCount := f.valueCounts.find? column
  nullCount := f.nullCounts.find? column
  lower := f.lowerBounds.find? column
  upper := f.upperBounds.find? column

/-- The slot of the column if the file has one, and else the column's metrics. -/
def evidence (f : DataFile) (spec : PartitionSpec) (column : FieldId) : ColumnEvidence :=
  match (spec.slotOf? column).bind fun slot => f.partition[slot]? with
  | some value => .constant value
  | none => .metrics (f.metricsOf column)

end DataFile

namespace BoundFilter

/-- Some row of a file with this evidence might satisfy the filter. -/
def might (evidence : FieldId → ColumnEvidence) : BoundFilter → Bool
  | all => true
  | nothing => false
  | isNull column => (evidence column).mightBeNull
  | notNull column => (evidence column).mightBeValue
  | compare op column literal => (evidence column).mightSatisfy op literal
  | and left right => left.might evidence && right.might evidence
  | or left right => left.might evidence || right.might evidence

/-- Every row of a file with this evidence is known to satisfy the filter. -/
def always (evidence : FieldId → ColumnEvidence) : BoundFilter → Bool
  | all => true
  | nothing => false
  | isNull column => (evidence column).alwaysNull
  | notNull column => (evidence column).alwaysValue
  | compare op column literal => (evidence column).alwaysSatisfies op literal
  | and left right => left.always evidence && right.always evidence
  | or left right => left.always evidence || right.always evidence

def mightMatch (filter : BoundFilter) (spec : PartitionSpec) (file : DataFile) : Bool :=
  filter.might (file.evidence spec)

def allRowsMatch (filter : BoundFilter) (spec : PartitionSpec) (file : DataFile) : Bool :=
  filter.always (file.evidence spec)

end BoundFilter

end Lakehouse
