import Lakehouse.Proofs.Filter.Typing

/- What binding accepts.

   Apart from its leaves nothing in a filter can fail to bind: a filter binds if each of its leaves
   names a column and each literal is equal to a value of the column's type (`Leaf.Fits`), and
   otherwise the leftmost leaf that does not is reported (`Leaf.Refused`). A negation may be taken
   off by rewriting the filter beneath it into its opposite, which may hold negations again
   (`Filter.negation`); a negation binds like the filter that is rewritten in this way
   (`Filter.bind_not`). -/
namespace Lakehouse

/-! ### Literals -/

namespace Datum

/-- Some value of the type is equal to the literal. -/
def Fits (literal : Datum) (type : ColumnType) : Prop :=
  ∃ d : Datum, d.type = type ∧ d.compare? literal = some .eq

variable {literal d : Datum} {type : ColumnType}

/-- The value that a literal is taken to is the one of the type that is equal to it. -/
theorem convert?_eq_some_iff :
    literal.convert? type = some d ↔ d.type = type ∧ d.compare? literal = some .eq := by
  constructor
  · intro h
    have htype := type_of_convert? h
    refine ⟨htype, ?_⟩
    rw [compare?_convert h htype, (Std.ReflCmp.compare_self : Ord.compare d d = .eq)]
  · rintro ⟨rfl, heq⟩
    rcases d with d | d | d | d <;> rcases literal with l | l | l | l
    case boolean.boolean =>
      rw [Std.LawfulEqCmp.eq_of_compare (Option.some.inj heq)]
      rfl
    case int.int =>
      rw [Int32.toInt_inj.1 (Std.LawfulEqCmp.eq_of_compare (Option.some.inj heq))]
      rfl
    -- Numbers of two widths are compared by their values.
    case int.long =>
      have hnumber : d.toInt = l.toInt := Std.LawfulEqCmp.eq_of_compare (Option.some.inj heq)
      obtain rfl : l = d.toInt64 := by rw [← Int64.toInt_inj, Int32.toInt_toInt64, hnumber]
      simp [convert?, type]
    case long.int =>
      have hnumber : d.toInt = l.toInt := Std.LawfulEqCmp.eq_of_compare (Option.some.inj heq)
      obtain rfl : d = l.toInt64 := by rw [← Int64.toInt_inj, Int32.toInt_toInt64, hnumber]
      rfl
    case long.long =>
      rw [Int64.toInt_inj.1 (Std.LawfulEqCmp.eq_of_compare (Option.some.inj heq))]
      rfl
    case string.string =>
      rw [Std.LawfulEqCmp.eq_of_compare (Option.some.inj heq)]
      rfl
    -- Any other two types cannot be compared.
    all_goals exact absurd heq (by simp [compare?])

theorem fits_iff : literal.Fits type ↔ (literal.convert? type).isSome := by
  rw [Option.isSome_iff_exists]
  exact exists_congr fun _ => convert?_eq_some_iff.symm

end Datum

/-! ### Leaves -/

/-- A leaf of a filter: the column that it names, and its literal if it is a comparison. -/
structure Leaf where
  column : String
  literal? : Option Datum
  deriving DecidableEq, Repr

/-- The leaves of a filter, from left to right. -/
def Filter.leaves : Filter → List Leaf
  | all => []
  | nothing => []
  | isNull column => [⟨column, none⟩]
  | notNull column => [⟨column, none⟩]
  | compare _ column literal => [⟨column, some literal⟩]
  | not filter => filter.leaves
  | and left right => left.leaves ++ right.leaves
  | or left right => left.leaves ++ right.leaves

namespace Leaf

/-- The leaf names a column of the schema, whose type its literal has or can be taken to. -/
def Fits (schema : Schema) (leaf : Leaf) : Prop :=
  ∃ field ∈ schema.fields, field.name = leaf.column ∧
    ∀ literal, leaf.literal? = some literal → literal.Fits field.type

/-- What is wrong with a leaf. -/
inductive Refused (schema : Schema) (leaf : Leaf) : FilterError → Prop where
  | unknownColumn (h : ∀ field ∈ schema.fields, field.name ≠ leaf.column) :
      Refused schema leaf (.unknownColumn leaf.column)
  | literalType {field : Field} {literal : Datum} (hfield : field ∈ schema.fields)
      (hname : field.name = leaf.column) (hliteral : leaf.literal? = some literal)
      (h : ¬ literal.Fits field.type) :
      Refused schema leaf (.literalType leaf.column field.type literal)

/-- What binding does to a leaf, apart from its result. -/
def check (schema : Schema) (leaf : Leaf) : Except FilterError Unit := do
  let field ← Filter.resolve schema leaf.column
  match leaf.literal? with
  | some literal => (Filter.fitLiteral field leaf.column literal).map fun _ => ()
  | none => return

variable {schema : Schema} {leaf : Leaf} {e : FilterError}

theorem check_of_mem {field : Field} (hfield : field ∈ schema.fields)
    (hname : field.name = leaf.column) : leaf.check schema =
      match leaf.literal? with
      | some literal => (Filter.fitLiteral field leaf.column literal).map fun _ => ()
      | none => .ok () := by
  rw [check, Filter.resolve, Schema.byName?_eq_some_iff.2 ⟨hfield, hname⟩]
  rfl

theorem check_of_unknown (h : ∀ field ∈ schema.fields, field.name ≠ leaf.column) :
    leaf.check schema = .error (.unknownColumn leaf.column) := by
  rw [check, Filter.resolve, Schema.byName?_eq_none_iff.2 h]
  rfl

theorem check_of_fits (h : leaf.Fits schema) : leaf.check schema = .ok () := by
  obtain ⟨field, hfield, hname, hfits⟩ := h
  rw [check_of_mem hfield hname]
  cases hliteral : leaf.literal? with
  | none => rfl
  | some literal =>
    obtain ⟨d, hd⟩ := Option.isSome_iff_exists.1 (Datum.fits_iff.1 (hfits literal hliteral))
    simp [Filter.fitLiteral, hd, Except.map]

theorem Refused.check (h : Refused schema leaf e) : leaf.check schema = .error e := by
  cases h with
  | unknownColumn h => exact check_of_unknown h
  | @literalType field literal hfield hname hliteral h =>
    rw [Datum.fits_iff, Option.not_isSome_iff_eq_none] at h
    rw [check_of_mem hfield hname, hliteral]
    simp [Filter.fitLiteral, h, Except.map]

/-- A leaf fits, or there is something wrong with it. -/
theorem fits_or_refused (schema : Schema) (leaf : Leaf) :
    leaf.Fits schema ∨ ∃ e, leaf.Refused schema e := by
  by_cases hname : ∀ field ∈ schema.fields, field.name ≠ leaf.column
  · exact .inr ⟨_, .unknownColumn hname⟩
  · push Not at hname
    obtain ⟨field, hfield, hname⟩ := hname
    -- No two fields have one name, so this is the field that is found.
    by_cases hfits : ∀ literal, leaf.literal? = some literal → literal.Fits field.type
    · exact .inl ⟨field, hfield, hname, hfits⟩
    · push Not at hfits
      obtain ⟨literal, hliteral, hfits⟩ := hfits
      exact .inr ⟨_, .literalType hfield hname hliteral hfits⟩

theorem check_eq_ok : leaf.check schema = .ok () ↔ leaf.Fits schema := by
  refine ⟨fun h => ?_, check_of_fits⟩
  rcases leaf.fits_or_refused schema with hfits | ⟨e, he⟩
  · exact hfits
  · exact absurd (h.symm.trans he.check) (by simp)

theorem check_eq_error : leaf.check schema = .error e ↔ leaf.Refused schema e := by
  refine ⟨fun h => ?_, Refused.check⟩
  rcases leaf.fits_or_refused schema with hfits | ⟨e', he'⟩
  · exact absurd (h.symm.trans (check_of_fits hfits)) (by simp)
  · obtain rfl := Except.error.inj (h.symm.trans he'.check)
    exact he'

end Leaf

/-! ### Filters -/

namespace Filter

variable {schema : Schema}

/-- Binding fails as the walk of its leaves does. -/
theorem bindSigned_map (schema : Schema) (filter : Filter) (positive : Bool) :
    (filter.bindSigned schema positive).map (fun _ => ()) =
      forM filter.leaves (Leaf.check schema) := by
  induction filter generalizing positive with
  | all => rfl
  | nothing => rfl
  | isNull column =>
    simp only [bindSigned, leaves, List.forM_cons, Leaf.check]
    cases resolve schema column <;> rfl
  | notNull column =>
    simp only [bindSigned, leaves, List.forM_cons, Leaf.check]
    cases resolve schema column <;> rfl
  | compare op column literal =>
    simp only [bindSigned, leaves, List.forM_cons, Leaf.check]
    cases resolve schema column with
    | error e => rfl
    | ok field =>
      dsimp only [Bind.bind, Except.bind]
      cases fitLiteral field column literal <;> rfl
  -- A negation has the leaves of what it negates, and only turns the sign.
  | not filter ih => exact ih !positive
  | and left right ihl ihr =>
    rw [leaves, List.forM_append, ← ihl positive, ← ihr positive, bindSigned]
    cases left.bindSigned schema positive with
    | error e => rfl
    | ok l => cases right.bindSigned schema positive <;> rfl
  | or left right ihl ihr =>
    rw [leaves, List.forM_append, ← ihl positive, ← ihr positive, bindSigned]
    cases left.bindSigned schema positive with
    | error e => rfl
    | ok l => cases right.bindSigned schema positive <;> rfl

/-- A filter binds if all its leaves fit. -/
theorem exists_bind_iff {filter : Filter} :
    (∃ bound, filter.bind schema = .ok bound) ↔ ∀ leaf ∈ filter.leaves, leaf.Fits schema := by
  simp only [← Leaf.check_eq_ok]
  rw [← forM_eq_ok, ← bindSigned_map schema filter true, map_eq_ok]
  exact ⟨fun ⟨bound, h⟩ => ⟨bound, h, rfl⟩, fun ⟨bound, h, _⟩ => ⟨bound, h⟩⟩

/-- A filter that does not bind is refused for the leftmost leaf that does not fit. -/
theorem bind_eq_error_iff {filter : Filter} {e : FilterError} :
    filter.bind schema = .error e ↔ ∃ before leaf after, filter.leaves = before ++ leaf :: after ∧
      (∀ l ∈ before, l.Fits schema) ∧ leaf.Refused schema e := by
  simp only [← Leaf.check_eq_ok, ← Leaf.check_eq_error]
  rw [← forM_eq_error, ← bindSigned_map schema filter true, bind]
  cases filter.bindSigned schema true <;> simp [Except.map]

/-- A filter with the opposite truth, the negation being passed on to the leaves. What stands under
a negation is taken as it is, with the negations in it. -/
def negation : Filter → Filter
  | all => nothing
  | nothing => all
  | isNull column => notNull column
  | notNull column => isNull column
  | compare op column literal => compare op.opposite column literal
  | not filter => filter
  | and left right => or left.negation right.negation
  | or left right => and left.negation right.negation

theorem bindSigned_negation (schema : Schema) (filter : Filter) (positive : Bool) :
    filter.negation.bindSigned schema positive = filter.bindSigned schema !positive := by
  induction filter with
  | all => cases positive <;> rfl
  | nothing => cases positive <;> rfl
  | isNull column => cases positive <;> rfl
  | notNull column => cases positive <;> rfl
  | compare op column literal => cases positive <;> cases op <;> rfl
  | not filter => rw [negation, bindSigned, Bool.not_not]
  | and left right ihl ihr =>
    rw [negation, bindSigned, bindSigned, ihl, ihr]
    cases positive <;> rfl
  | or left right ihl ihr =>
    rw [negation, bindSigned, bindSigned, ihl, ihr]
    cases positive <;> rfl

/-- A negation binds like the filter beneath it, rewritten into its opposite. -/
theorem bind_not (schema : Schema) (filter : Filter) :
    (Filter.not filter).bind schema = filter.negation.bind schema :=
  (bindSigned_negation schema filter true).symm

/-- Binding is three-valued logic. A filter binds if its leaves fit, and otherwise fails for the
leftmost that does not; and once bound it is true of the rows of which the filter is true, neither
false nor unknown. -/
theorem bind_is_three_valued (schema : Schema) (filter : Filter) :
    ((∃ bound, filter.bind schema = .ok bound) ↔ ∀ leaf ∈ filter.leaves, leaf.Fits schema) ∧
      (∀ e, filter.bind schema = .error e ↔ ∃ before leaf after,
        filter.leaves = before ++ leaf :: after ∧ (∀ l ∈ before, l.Fits schema) ∧
          leaf.Refused schema e) ∧
      ∀ bound, filter.bind schema = .ok bound → ∀ row, Row.IsTyped schema row →
        (bound.holds row = true ↔ filter.truth schema row = some true) :=
  ⟨exists_bind_iff, fun _ => bind_eq_error_iff, fun _ hbound _ hrow => bind_holds hrow hbound⟩

/-- Under two negations a long literal is taken to the type of an int column. -/
theorem bind_is_three_valued_narrowLiteral :
    (Filter.not (.and (.not (.compare .lt "size" (.long 5))) (.isNull "kind"))).bind
        Schema.halfKnown = .ok (.or (.compare .lt 1 (.int 5)) (.notNull 2)) ∧
      ∀ row, Row.IsTyped Schema.halfKnown row →
        ((BoundFilter.or (.compare .lt 1 (.int 5)) (.notNull 2)).holds row = true ↔
          (Filter.not (.and (.not (.compare .lt "size" (.long 5))) (.isNull "kind"))).truth
            Schema.halfKnown row = some true) :=
  ⟨by decide, (bind_is_three_valued _ _).2.2 _ (by decide)⟩

end Filter

end Lakehouse
