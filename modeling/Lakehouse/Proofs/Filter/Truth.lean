import Lakehouse.Filter.Basic
import Lakehouse.Proofs.Success

/- What filters mean.

   A row gives each column a value or null. On a row a filter is true, false or unknown, in
   the three-valued logic of SQL: a comparison with null is unknown, and so is what depends
   on it (`Filter.truth`). Integers compare by their numbers, whatever their width. A bound
   filter has no negation, so it is enough to know where it is true (`BoundFilter.holds`):
   where the filter that was bound is, or where it is false if its negation was bound
   (`bindSigned_holds`). -/
namespace Lakehouse

/-- A truth value, of which `none` is unknown. -/
abbrev Truth := Option Bool

namespace Truth

def not : Truth → Truth
  | some b => some !b
  | none => none

/-- False if one side is, and true if both are. -/
def and : Truth → Truth → Truth
  | some false, _ => some false
  | _, some false => some false
  | some true, some true => some true
  | _, _ => none

/-- True if one side is, and false if both are. -/
def or : Truth → Truth → Truth
  | some true, _ => some true
  | _, some true => some true
  | some false, some false => some false
  | _, _ => none

theorem not_eq_some {a : Truth} {b : Bool} : a.not = some b ↔ a = some !b := by
  cases a <;> cases b <;> simp [not]

theorem and_eq_true {a b : Truth} : a.and b = some true ↔ a = some true ∧ b = some true := by
  rcases a with _ | _ | _ <;> rcases b with _ | _ | _ <;> simp [and]

theorem and_eq_false {a b : Truth} : a.and b = some false ↔ a = some false ∨ b = some false := by
  rcases a with _ | _ | _ <;> rcases b with _ | _ | _ <;> simp [and]

theorem or_eq_true {a b : Truth} : a.or b = some true ↔ a = some true ∨ b = some true := by
  rcases a with _ | _ | _ <;> rcases b with _ | _ | _ <;> simp [or]

theorem or_eq_false {a b : Truth} : a.or b = some false ↔ a = some false ∧ b = some false := by
  rcases a with _ | _ | _ <;> rcases b with _ | _ | _ <;> simp [or]

end Truth

/-- The values of the columns, of which `none` is null. -/
abbrev Row := FieldId → Option Datum

/-- The values are of the types of their columns. -/
def Row.IsTyped (schema : Schema) (row : Row) : Prop :=
  ∀ field ∈ schema.fields, ∀ v, row field.id = some v → v.type = field.type

/-- How two values compare, if they can be compared. -/
def Datum.compare? : Datum → Datum → Option Ordering
  | .boolean a, .boolean b => some (Ord.compare a b)
  | .string a, .string b => some (Ord.compare a b)
  | .int a, .int b => some (Ord.compare a.toInt b.toInt)
  | .int a, .long b => some (Ord.compare a.toInt b.toInt)
  | .long a, .int b => some (Ord.compare a.toInt b.toInt)
  | .long a, .long b => some (Ord.compare a.toInt b.toInt)
  | _, _ => none

/-- The truth of a filter on a row. -/
def Filter.truth (schema : Schema) (row : Row) : Filter → Truth
  | all => some true
  | nothing => some false
  | isNull column => (schema.byName? column).map fun field => (row field.id).isNone
  | notNull column => (schema.byName? column).map fun field => (row field.id).isSome
  | compare op column literal => do
    let field ← schema.byName? column
    let v ← row field.id
    let o ← v.compare? literal
    return op.holds o
  | not filter => (truth schema row filter).not
  | and left right => (truth schema row left).and (truth schema row right)
  | or left right => (truth schema row left).or (truth schema row right)

/-- The bound filter is true of a row. -/
def BoundFilter.holds (row : Row) : BoundFilter → Bool
  | all => true
  | nothing => false
  | isNull column => (row column).isNone
  | notNull column => (row column).isSome
  | compare op column literal =>
    match row column with
    | some v => op.holds (Ord.compare v literal)
    | none => false
  | and left right => holds row left && holds row right
  | or left right => holds row left || holds row right

/-! ### Literals -/

theorem compare_int32 (a b : Int32) : compare a b = compare a.toInt b.toInt := by
  rw [show compare a b = compareOfLessAndEq a b from rfl,
    show compare a.toInt b.toInt = compareOfLessAndEq a.toInt b.toInt from rfl,
    compareOfLessAndEq, compareOfLessAndEq]
  simp only [Int32.lt_iff_toInt_lt, ← Int32.toInt_inj]

theorem compare_int64 (a b : Int64) : compare a b = compare a.toInt b.toInt := by
  rw [show compare a b = compareOfLessAndEq a b from rfl,
    show compare a.toInt b.toInt = compareOfLessAndEq a.toInt b.toInt from rfl,
    compareOfLessAndEq, compareOfLessAndEq]
  simp only [Int64.lt_iff_toInt_lt, ← Int64.toInt_inj]

namespace Datum

/-- Values of one type compare in the order of data. -/
theorem compare?_of_type {a b : Datum} (h : a.type = b.type) :
    a.compare? b = some (Ord.compare a b) := by
  rcases a with a | a | a | a <;> rcases b with b | b | b | b
  case boolean.boolean => rfl
  case int.int =>
    rw [compare?, ← compare_int32]
    rfl
  case long.long =>
    rw [compare?, ← compare_int64]
    rfl
  case string.string => rfl
  all_goals exact nomatch h

/-- A literal that was taken to the type of a column compares as it did before. -/
theorem compare?_convert {literal d v : Datum} {type : ColumnType}
    (h : literal.convert? type = some d) (hv : v.type = type) :
    v.compare? literal = some (Ord.compare v d) := by
  rw [convert?.eq_def] at h
  split at h
  next i =>
    obtain rfl := Option.some.inj h
    rcases v with v | v | v | v
    case long =>
      rw [show Ord.compare (long v) (long i.toInt64) = Ord.compare v i.toInt64 from rfl,
        compare_int64, Int32.toInt_toInt64]
      rfl
    all_goals exact nomatch hv
  -- A wide literal is narrowed only if its value fits.
  next l =>
    split at h
    next hfits =>
      obtain rfl := Option.some.inj h
      rcases v with v | v | v | v
      case int =>
        rw [show Ord.compare (int v) (int l.toInt32) = Ord.compare v l.toInt32 from rfl,
          compare_int32, ← Int32.toInt_toInt64 l.toInt32, hfits]
        rfl
      all_goals exact nomatch hv
    next => exact absurd h (by simp)
  next =>
    split at h
    next htype =>
      obtain rfl := Option.some.inj h
      exact compare?_of_type (hv.trans htype.symm)
    next => exact absurd h (by simp)

end Datum

/-! ### Binding -/

theorem Comparison.opposite_holds (op : Comparison) (o : Ordering) :
    op.opposite.holds o = !op.holds o := by
  cases op <;> cases o <;> rfl

namespace Filter

variable {schema : Schema} {row : Row}

theorem resolve_eq_ok {column : String} {field : Field} (h : resolve schema column = .ok field) :
    schema.byName? column = some field := by
  rw [resolve] at h
  split at h
  next f hf =>
    obtain rfl := Except.ok.inj h
    exact hf
  next => exact absurd h (by simp)

theorem fitLiteral_eq_ok {field : Field} {column : String} {literal d : Datum}
    (h : fitLiteral field column literal = .ok d) : literal.convert? field.type = some d := by
  rw [fitLiteral] at h
  split at h
  next d' hd' =>
    obtain rfl := Except.ok.inj h
    exact hd'
  next => exact absurd h (by simp)

/-- A bound comparison is true where the filter's, or its opposite, is. -/
theorem compare_holds (hrow : row.IsTyped schema) {op : Comparison} {column : String}
    {literal d : Datum} {field : Field} (hfield : schema.byName? column = some field)
    (hd : literal.convert? field.type = some d) (positive : Bool) :
    (BoundFilter.compare (if positive then op else op.opposite) field.id d).holds row = true ↔
      truth schema row (.compare op column literal) = some positive := by
  have hmem : field ∈ schema.fields := List.mem_of_find?_eq_some hfield
  rw [truth, hfield, BoundFilter.holds]
  cases hv : row field.id with
  | none => simp [hv]
  | some v =>
    have hcompare := Datum.compare?_convert hd (hrow field hmem v hv)
    simp only [Option.bind_eq_bind, Option.bind_some, hv, hcompare]
    cases positive <;> simp [Comparison.opposite_holds]

/-- A bound filter is true of the rows for which the filter that was bound has the truth value
in question. -/
theorem bindSigned_holds (hrow : row.IsTyped schema) {filter : Filter} {positive : Bool}
    {bound : BoundFilter} (h : filter.bindSigned schema positive = .ok bound) :
    bound.holds row = true ↔ filter.truth schema row = some positive := by
  induction filter generalizing positive bound with
  | all =>
    obtain rfl := Except.ok.inj h
    cases positive <;> simp [truth, BoundFilter.holds]
  | nothing =>
    obtain rfl := Except.ok.inj h
    cases positive <;> simp [truth, BoundFilter.holds]
  | isNull column =>
    obtain ⟨field, hfield, h⟩ := bind_eq_ok.1 h
    obtain rfl := Except.ok.inj h
    rw [truth, resolve_eq_ok hfield]
    cases positive <;> simp [BoundFilter.holds]
  | notNull column =>
    obtain ⟨field, hfield, h⟩ := bind_eq_ok.1 h
    obtain rfl := Except.ok.inj h
    rw [truth, resolve_eq_ok hfield]
    cases positive <;> simp [BoundFilter.holds]
  | compare op column literal =>
    obtain ⟨field, hfield, h⟩ := bind_eq_ok.1 h
    obtain ⟨d, hd, h⟩ := bind_eq_ok.1 h
    obtain rfl := Except.ok.inj h
    exact compare_holds hrow (resolve_eq_ok hfield) (fitLiteral_eq_ok hd) positive
  | not filter ih => rw [truth, Truth.not_eq_some, ih h]
  | and left right ihl ihr =>
    obtain ⟨l, hl, h⟩ := bind_eq_ok.1 h
    obtain ⟨r, hr, h⟩ := bind_eq_ok.1 h
    obtain rfl := Except.ok.inj h
    cases positive with
    | true => simp [truth, BoundFilter.holds, Truth.and_eq_true, ihl hl, ihr hr]
    | false => simp [truth, BoundFilter.holds, Truth.and_eq_false, ihl hl, ihr hr]
  | or left right ihl ihr =>
    obtain ⟨l, hl, h⟩ := bind_eq_ok.1 h
    obtain ⟨r, hr, h⟩ := bind_eq_ok.1 h
    obtain rfl := Except.ok.inj h
    cases positive with
    | true => simp [truth, BoundFilter.holds, Truth.or_eq_true, ihl hl, ihr hr]
    | false => simp [truth, BoundFilter.holds, Truth.or_eq_false, ihl hl, ihr hr]

theorem bind_holds (hrow : row.IsTyped schema) {filter : Filter} {bound : BoundFilter}
    (h : filter.bind schema = .ok bound) :
    bound.holds row = true ↔ filter.truth schema row = some true :=
  bindSigned_holds hrow h

end Filter

end Lakehouse
