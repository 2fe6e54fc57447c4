import Lakehouse.Proofs.Filter.Evidence
import Lakehouse.Proofs.Schema

/- Filters and the types of values.

   In the order of data a comparison of values of different types has an answer, but it says
   nothing about rows: any long comes behind any int. Here the same questions about a file are
   answered with a comparison that refuses such values (`Datum.order?`), and there is no answer if
   any comparison is refused, even one that the other answers do not depend on (`BoundFilter.might?`,
   `BoundFilter.always?`). A bound filter compares each column with literals of its type
   (`Filter.bind_isTyped`). So nothing is refused for a file whose slots and bounds have the types
   of their columns, and the answers are those that are given (`DataFile.IsTyped.answers`). -/
namespace Lakehouse

/-! ### Values -/

namespace Datum

/-- How two values of one type are ordered. -/
def order? (a b : Datum) : Option Ordering :=
  if a.type = b.type then some (Ord.compare a b) else none

theorem type_of_convert? {d d' : Datum} {type : ColumnType} (h : d.convert? type = some d') :
    d'.type = type := by
  rw [convert?.eq_def] at h
  split at h
  next =>
    obtain rfl := Option.some.inj h
    rfl
  next =>
    split at h
    next =>
      obtain rfl := Option.some.inj h
      rfl
    next => exact absurd h (by simp)
  next =>
    split at h
    next htype =>
      obtain rfl := Option.some.inj h
      exact htype
    next => exact absurd h (by simp)

theorem type_of_read? {type : ColumnType} {text : String} {d : Datum}
    (h : Datum.read? type text = some d) : d.type = type := by
  rw [read?.eq_def] at h
  cases type with
  | boolean =>
    dsimp only at h
    split at h
    · obtain rfl := Option.some.inj h
      rfl
    · split at h
      · obtain rfl := Option.some.inj h
        rfl
      · exact absurd h (by simp)
  | int =>
    obtain ⟨i, -, rfl⟩ := Option.map_eq_some_iff.1 h
    rfl
  | long =>
    obtain ⟨l, -, rfl⟩ := Option.map_eq_some_iff.1 h
    rfl
  | string =>
    obtain rfl := Option.some.inj h
    rfl

end Datum

namespace Comparison

/-- The comparison holds of a value and a literal, if these can be compared. -/
def check? (op : Comparison) (v literal : Datum) : Option Bool := (v.order? literal).map op.holds

/-- The comparison holds of a bound and a literal; of a bound that is not known, nothing is asked. -/
def checkBound? (op : Comparison) (bound : Option Datum) (missing : Bool) (literal : Datum) :
    Option Bool :=
  match bound with
  | some b => op.check? b literal
  | none => some missing

variable {op : Comparison} {v literal : Datum}

theorem check?_eq (h : v.type = literal.type) :
    op.check? v literal = some (op.holds (Ord.compare v literal)) := by
  rw [check?, Datum.order?, if_pos h]
  rfl

theorem checkBound?_eq {bound : Option Datum} (h : ∀ b, bound = some b → b.type = literal.type)
    (missing : Bool) : op.checkBound? bound missing literal =
      some (bound.elim missing fun b => op.holds (Ord.compare b literal)) := by
  cases bound with
  | none => rfl
  | some b => exact check?_eq (h b rfl)

/-- The comparison decides how the values relate. -/
theorem holds_eq {p : Bool} (h : p = true ↔ op.Relates v literal) :
    op.holds (Ord.compare v literal) = p :=
  Bool.eq_iff_iff.2 (holds_iff.trans h.symm)

theorem eq_holds : Comparison.eq.holds (Ord.compare v literal) = (v == literal) :=
  holds_eq beq_iff_eq

theorem lt_holds : Comparison.lt.holds (Ord.compare v literal) = decide (v < literal) :=
  holds_eq decide_eq_true_iff

theorem ltEq_holds : Comparison.ltEq.holds (Ord.compare v literal) = decide (v ≤ literal) :=
  holds_eq decide_eq_true_iff

theorem gt_holds : Comparison.gt.holds (Ord.compare v literal) = decide (literal < v) :=
  holds_eq decide_eq_true_iff

theorem gtEq_holds : Comparison.gtEq.holds (Ord.compare v literal) = decide (literal ≤ v) :=
  holds_eq decide_eq_true_iff

end Comparison

/-! ### Columns -/

namespace ColumnMetrics

/-- `boundsAllow`, if all bounds that are known can be compared with the literal. -/
def boundsAllow? (m : ColumnMetrics) (op : Comparison) (literal : Datum) : Option Bool :=
  match op with
  | .eq => do
    let low ← Comparison.ltEq.checkBound? m.lower true literal
    let high ← Comparison.gtEq.checkBound? m.upper true literal
    return low && high
  | .notEq => do
    let low ← Comparison.eq.checkBound? m.lower false literal
    let high ← Comparison.eq.checkBound? m.upper false literal
    return !(low && high && m.noNulls)
  | .lt => Comparison.lt.checkBound? m.lower true literal
  | .ltEq => Comparison.ltEq.checkBound? m.lower true literal
  | .gt => Comparison.gt.checkBound? m.upper true literal
  | .gtEq => Comparison.gtEq.checkBound? m.upper true literal

/-- `boundsForce`, if the bounds can be compared with the literal. -/
def boundsForce? (op : Comparison) (literal lower upper : Datum) : Option Bool :=
  match op with
  | .eq => do
    let low ← Comparison.eq.check? lower literal
    let high ← Comparison.eq.check? upper literal
    return low && high
  | .notEq => do
    let high ← Comparison.lt.check? upper literal
    let low ← Comparison.gt.check? lower literal
    return high || low
  | .lt => Comparison.lt.check? upper literal
  | .ltEq => Comparison.ltEq.check? upper literal
  | .gt => Comparison.gt.check? lower literal
  | .gtEq => Comparison.gtEq.check? lower literal

/-- The bounds are of the type. -/
structure IsTyped (type : ColumnType) (m : ColumnMetrics) : Prop where
  lower : ∀ b, m.lower = some b → b.type = type
  upper : ∀ b, m.upper = some b → b.type = type

variable {m : ColumnMetrics} {op : Comparison} {literal lower upper : Datum}

open Comparison in
theorem boundsAllow?_eq (h : m.IsTyped literal.type) :
    m.boundsAllow? op literal = some (m.boundsAllow op literal) := by
  have hlow := fun op missing => @checkBound?_eq op literal m.lower h.lower missing
  have hhigh := fun op missing => @checkBound?_eq op literal m.upper h.upper missing
  cases op with
  | eq =>
    simp only [boundsAllow?, hlow, hhigh, boundsAllow, lowerMay, upperMay, Option.bind_eq_bind,
      Option.bind_some]
    cases m.lower <;> cases m.upper <;> simp [ltEq_holds, gtEq_holds]
  | notEq =>
    simp only [boundsAllow?, hlow, hhigh, boundsAllow, Option.bind_eq_bind, Option.bind_some]
    cases m.lower <;> cases m.upper <;> simp [eq_holds]
  | lt =>
    rw [boundsAllow?, hlow, boundsAllow, lowerMay]
    cases m.lower <;> simp [lt_holds]
  | ltEq =>
    rw [boundsAllow?, hlow, boundsAllow, lowerMay]
    cases m.lower <;> simp [ltEq_holds]
  | gt =>
    rw [boundsAllow?, hhigh, boundsAllow, upperMay]
    cases m.upper <;> simp [gt_holds]
  | gtEq =>
    rw [boundsAllow?, hhigh, boundsAllow, upperMay]
    cases m.upper <;> simp [gtEq_holds]

open Comparison in
theorem boundsForce?_eq (hlower : lower.type = literal.type) (hupper : upper.type = literal.type) :
    boundsForce? op literal lower upper = some (boundsForce op literal lower upper) := by
  cases op <;> simp [boundsForce?, boundsForce, check?_eq hlower, check?_eq hupper, eq_holds,
    lt_holds, ltEq_holds, gt_holds, gtEq_holds]

end ColumnMetrics

namespace ColumnEvidence

/-- `mightSatisfy`, if all that is known can be compared with the literal. -/
def mightSatisfy? (op : Comparison) (literal : Datum) : ColumnEvidence → Option Bool
  | constant none => some false
  | constant (some v) => op.check? v literal
  | metrics m => (m.boundsAllow? op literal).map (!m.allNull && ·)

/-- `alwaysSatisfies`, if both bounds can be compared with the literal. -/
def alwaysSatisfies? (op : Comparison) (literal : Datum) : ColumnEvidence → Option Bool
  | constant none => some false
  | constant (some v) => op.check? v literal
  | metrics m =>
    match m.lower, m.upper with
    | some lower, some upper =>
      (ColumnMetrics.boundsForce? op literal lower upper).map (m.noNulls && ·)
    | _, _ => some false

/-- All values that are known of the column are of the type. -/
def IsTyped (type : ColumnType) : ColumnEvidence → Prop
  | constant value => ∀ v, value = some v → v.type = type
  | metrics m => m.IsTyped type

variable {evidence : ColumnEvidence} {op : Comparison} {literal : Datum}

theorem mightSatisfy?_eq (h : evidence.IsTyped literal.type) :
    evidence.mightSatisfy? op literal = some (evidence.mightSatisfy op literal) := by
  cases evidence with
  | constant value =>
    cases value with
    | none => rfl
    | some v => exact Comparison.check?_eq (h v rfl)
  | metrics m =>
    rw [mightSatisfy?, ColumnMetrics.boundsAllow?_eq h]
    rfl

theorem alwaysSatisfies?_eq (h : evidence.IsTyped literal.type) :
    evidence.alwaysSatisfies? op literal = some (evidence.alwaysSatisfies op literal) := by
  cases evidence with
  | constant value =>
    cases value with
    | none => rfl
    | some v => exact Comparison.check?_eq (h v rfl)
  | metrics m =>
    rw [alwaysSatisfies?, alwaysSatisfies]
    cases hlower : m.lower with
    | none => rfl
    | some lower =>
      cases hupper : m.upper with
      | none => rfl
      | some upper =>
        dsimp only
        rw [ColumnMetrics.boundsForce?_eq (h.lower lower hlower) (h.upper upper hupper)]
        rfl

end ColumnEvidence

/-! ### Bound filters -/

namespace BoundFilter

/-- `might`, if all comparisons of the filter are of values of one type. -/
def might? (evidence : FieldId → ColumnEvidence) : BoundFilter → Option Bool
  | compare op column literal => (evidence column).mightSatisfy? op literal
  | and left right => do
    let l ← might? evidence left
    let r ← might? evidence right
    return l && r
  | or left right => do
    let l ← might? evidence left
    let r ← might? evidence right
    return l || r
  | leaf => some (leaf.might evidence)

/-- `always`, if all comparisons of the filter are of values of one type. -/
def always? (evidence : FieldId → ColumnEvidence) : BoundFilter → Option Bool
  | compare op column literal => (evidence column).alwaysSatisfies? op literal
  | and left right => do
    let l ← always? evidence left
    let r ← always? evidence right
    return l && r
  | or left right => do
    let l ← always? evidence left
    let r ← always? evidence right
    return l || r
  | leaf => some (leaf.always evidence)

/-- The filter compares columns of the schema with literals of their types. -/
def IsTyped (schema : Schema) : BoundFilter → Prop
  | compare _ column literal => ∃ field ∈ schema.fields, field.id = column ∧ literal.type = field.type
  | and left right => left.IsTyped schema ∧ right.IsTyped schema
  | or left right => left.IsTyped schema ∧ right.IsTyped schema
  | _ => True

variable {schema : Schema} {filter : BoundFilter} {evidence : FieldId → ColumnEvidence}

/-- No comparison is refused of evidence that has the types of the columns. -/
theorem might?_eq (h : filter.IsTyped schema)
    (hevidence : ∀ field ∈ schema.fields, (evidence field.id).IsTyped field.type) :
    filter.might? evidence = some (filter.might evidence) := by
  induction filter with
  | compare op column literal =>
    obtain ⟨field, hfield, rfl, htype⟩ := h
    exact ColumnEvidence.mightSatisfy?_eq (htype ▸ hevidence field hfield)
  | and left right ihl ihr =>
    rw [might?, ihl h.1, ihr h.2]
    rfl
  | or left right ihl ihr =>
    rw [might?, ihl h.1, ihr h.2]
    rfl
  | all => rfl
  | nothing => rfl
  | isNull => rfl
  | notNull => rfl

theorem always?_eq (h : filter.IsTyped schema)
    (hevidence : ∀ field ∈ schema.fields, (evidence field.id).IsTyped field.type) :
    filter.always? evidence = some (filter.always evidence) := by
  induction filter with
  | compare op column literal =>
    obtain ⟨field, hfield, rfl, htype⟩ := h
    exact ColumnEvidence.alwaysSatisfies?_eq (htype ▸ hevidence field hfield)
  | and left right ihl ihr =>
    rw [always?, ihl h.1, ihr h.2]
    rfl
  | or left right ihl ihr =>
    rw [always?, ihl h.1, ihr h.2]
    rfl
  | all => rfl
  | nothing => rfl
  | isNull => rfl
  | notNull => rfl

end BoundFilter

/-- Binding takes each literal to the type of its column. -/
theorem Filter.bindSigned_isTyped {schema : Schema} {filter : Filter} {positive : Bool}
    {bound : BoundFilter} (h : filter.bindSigned schema positive = .ok bound) :
    bound.IsTyped schema := by
  induction filter generalizing positive bound with
  | all =>
    obtain rfl := Except.ok.inj h
    cases positive <;> trivial
  | nothing =>
    obtain rfl := Except.ok.inj h
    cases positive <;> trivial
  | isNull column =>
    obtain ⟨field, -, h⟩ := bind_eq_ok.1 h
    obtain rfl := Except.ok.inj h
    cases positive <;> trivial
  | notNull column =>
    obtain ⟨field, -, h⟩ := bind_eq_ok.1 h
    obtain rfl := Except.ok.inj h
    cases positive <;> trivial
  | compare op column literal =>
    obtain ⟨field, hfield, h⟩ := bind_eq_ok.1 h
    obtain ⟨d, hd, h⟩ := bind_eq_ok.1 h
    obtain rfl := Except.ok.inj h
    exact ⟨field, List.mem_of_find?_eq_some (resolve_eq_ok hfield), rfl,
      Datum.type_of_convert? (fitLiteral_eq_ok hd)⟩
  | not filter ih => exact ih h
  | and left right ihl ihr =>
    obtain ⟨l, hl, h⟩ := bind_eq_ok.1 h
    obtain ⟨r, hr, h⟩ := bind_eq_ok.1 h
    obtain rfl := Except.ok.inj h
    cases positive <;> exact ⟨ihl hl, ihr hr⟩
  | or left right ihl ihr =>
    obtain ⟨l, hl, h⟩ := bind_eq_ok.1 h
    obtain ⟨r, hr, h⟩ := bind_eq_ok.1 h
    obtain rfl := Except.ok.inj h
    cases positive <;> exact ⟨ihl hl, ihr hr⟩

theorem Filter.bind_isTyped {schema : Schema} {filter : Filter} {bound : BoundFilter}
    (h : filter.bind schema = .ok bound) : bound.IsTyped schema := bindSigned_isTyped h

/-! ### Files -/

/-- Each slot is empty or has a value of the type of its source column. -/
def PartitionTuple.IsTyped (schema : Schema) (spec : PartitionSpec) (t : PartitionTuple) : Prop :=
  ∀ slot p field v, spec.fields[slot]? = some p → schema.byId? p.sourceId = some field →
    t.value? slot = some v → v.type = field.type

/-- The bound of each column that has one is of its type. -/
def Schema.Types (schema : Schema) (bounds : SortedMap FieldId Datum) : Prop :=
  ∀ field ∈ schema.fields, ∀ b, bounds.find? field.id = some b → b.type = field.type

/-- The slots and the bounds of the file are of the types of their columns. -/
structure DataFile.IsTyped (schema : Schema) (spec : PartitionSpec) (f : DataFile) : Prop where
  slots : f.partition.IsTyped schema spec
  lower : schema.Types f.lowerBounds
  upper : schema.Types f.upperBounds

namespace DataFile.IsTyped

variable {schema : Schema} {spec : PartitionSpec} {f : DataFile}

theorem evidence (h : f.IsTyped schema spec) {field : Field} (hfield : field ∈ schema.fields) :
    (f.evidence spec field.id).IsTyped field.type := by
  rw [DataFile.evidence]
  split
  next value hvalue =>
    intro v hv
    obtain ⟨slot, hslot, hin⟩ := Option.bind_eq_some_iff.1 hvalue
    obtain ⟨hlt, hsource, -⟩ := List.findIdx?_eq_some_iff_getElem.1 hslot
    refine h.slots slot _ field v (List.getElem?_eq_getElem hlt) ?_ ?_
    · rw [of_decide_eq_true hsource]
      exact Schema.byId?_of_mem hfield
    · rw [PartitionTuple.value?, hin, hv]
      rfl
  next => exact ⟨h.lower field hfield, h.upper field hfield⟩

/-- Whatever filter is bound to the schema, no comparison of it with the file is refused. -/
theorem answers (h : f.IsTyped schema spec) {filter : Filter} {bound : BoundFilter}
    (hbound : filter.bind schema = .ok bound) :
    bound.might? (f.evidence spec) = some (bound.mightMatch spec f) ∧
      bound.always? (f.evidence spec) = some (bound.allRowsMatch spec f) :=
  ⟨BoundFilter.might?_eq (Filter.bind_isTyped hbound) fun _ => h.evidence,
    BoundFilter.always?_eq (Filter.bind_isTyped hbound) fun _ => h.evidence⟩

end DataFile.IsTyped

end Lakehouse
