import Lakehouse.Proofs.Filter.Evidence

/- What complete metrics tell.

   If both counts and both bounds of a column are known, and not all its values are null, then it is
   known which values may occur in the column: every value within the bounds, and null if nulls are
   counted (`FullMetrics.mayHold_iff`). What is said about a leaf on such a column is then exact:
   all rows match just if every value that may occur does, and some row might match just if one of
   them does. One answer is an exception. Where both bounds are the literal and there are nulls, a
   column is said to differ from the literal in some row, as if a null did
   (`BoundFilter.TakesNullsForDifferent`). -/
namespace Lakehouse

/-- Both counts and both bounds of a column, which has some value that is not null. -/
structure FullMetrics where
  type : ColumnType
  values : UInt64
  nulls : UInt64
  lower : Datum
  upper : Datum
  nulls_lt : nulls < values
  lower_le : lower ≤ upper
  lower_type : lower.type = type
  upper_type : upper.type = type

/-! ### Values within bounds -/

namespace Datum

theorem rank_le_of_le {a b : Datum} (h : a ≤ b) : a.rank ≤ b.rank := by
  have hle : Datum.compare a b ≠ .gt := h
  rcases a with a | a | a | a <;> rcases b with b | b | b | b <;>
    first
    | exact absurd rfl hle
    | simp [rank]

theorem type_eq_of_rank_eq {a b : Datum} (h : a.rank = b.rank) : a.type = b.type := by
  rcases a with a | a | a | a <;> rcases b with b | b | b | b <;>
    first
    | rfl
    | exact absurd h (by simp [rank])

theorem rank_eq_of_type_eq {a b : Datum} (h : a.type = b.type) : a.rank = b.rank := by
  rcases a with a | a | a | a <;> rcases b with b | b | b | b <;>
    first
    | rfl
    | exact absurd h (by simp [type])

/-- What lies between two values of one type has this type. -/
theorem type_of_between {a b d : Datum} (h : a.type = b.type) (hlow : a ≤ d) (hhigh : d ≤ b) :
    d.type = a.type := by
  have hrank := rank_eq_of_type_eq h
  have hlow := rank_le_of_le hlow
  have hhigh := rank_le_of_le hhigh
  exact type_eq_of_rank_eq (by omega)

end Datum

namespace FullMetrics

variable {m : FullMetrics} {op : Comparison} {literal d : Datum} {values : List (Option Datum)}

/-- What is known about the column. -/
def known (m : FullMetrics) : ColumnMetrics :=
  ⟨some m.values, some m.nulls, some m.lower, some m.upper⟩

/-- The column may have these values: they are as many as were counted, as many of them are null,
and the others are of the column's type and within the bounds. -/
structure Admits (m : FullMetrics) (values : List (Option Datum)) : Prop where
  length : values.length = m.values.toNat
  nulls : values.count none = m.nulls.toNat
  typed : ∀ d, some d ∈ values → d.type = m.type
  lower : ∀ d, some d ∈ values → m.lower ≤ d
  upper : ∀ d, some d ∈ values → d ≤ m.upper

/-- The value may occur in the column. -/
def MayHold (m : FullMetrics) : Option Datum → Prop
  | none => m.nulls ≠ 0
  | some d => m.lower ≤ d ∧ d ≤ m.upper

/-- The values of a column in which `d` is the only value beside nulls. -/
def filledWith (m : FullMetrics) (d : Datum) : List (Option Datum) :=
  List.replicate m.nulls.toNat none ++ List.replicate (m.values.toNat - m.nulls.toNat) (some d)

theorem nulls_toNat_lt (m : FullMetrics) : m.nulls.toNat < m.values.toNat :=
  UInt64.lt_iff_toNat_lt.1 m.nulls_lt

theorem some_mem_filledWith {e : Datum} : some e ∈ m.filledWith d ↔ e = d := by
  have := m.nulls_toNat_lt
  simp only [filledWith, List.mem_append, List.mem_replicate, Option.some.injEq]
  grind

theorem none_mem_filledWith : none ∈ m.filledWith d ↔ m.nulls ≠ 0 := by
  simp [filledWith, List.mem_replicate, ← UInt64.toNat_inj]

theorem admits_filledWith (hlow : m.lower ≤ d) (hhigh : d ≤ m.upper) :
    m.Admits (m.filledWith d) where
  length := by
    have := m.nulls_toNat_lt
    simp only [filledWith, List.length_append, List.length_replicate]
    omega
  nulls := by simp [filledWith, List.count_replicate]
  typed e he := by
    obtain rfl := some_mem_filledWith.1 he
    have htypes := m.lower_type.trans m.upper_type.symm
    exact (Datum.type_of_between htypes hlow hhigh).trans m.lower_type
  lower e he := some_mem_filledWith.1 he ▸ hlow
  upper e he := some_mem_filledWith.1 he ▸ hhigh

/-- What may occur in the column are nulls, if they are counted, and the values within bounds. -/
theorem mayHold_iff {x : Option Datum} :
    (∃ values, m.Admits values ∧ x ∈ values) ↔ m.MayHold x := by
  constructor
  · rintro ⟨values, hvalues, hx⟩
    cases x with
    | none =>
      intro hzero
      have hcount := hvalues.nulls
      rw [hzero] at hcount
      exact List.count_eq_zero.1 hcount hx
    | some d => exact ⟨hvalues.lower d hx, hvalues.upper d hx⟩
  · intro hx
    cases x with
    | none =>
      exact ⟨_, admits_filledWith (Std.le_refl m.lower) m.lower_le, none_mem_filledWith.2 hx⟩
    | some d => exact ⟨_, admits_filledWith hx.1 hx.2, some_mem_filledWith.2 rfl⟩

theorem lower_mayHold (m : FullMetrics) : m.MayHold (some m.lower) :=
  ⟨Std.le_refl m.lower, m.lower_le⟩

theorem upper_mayHold (m : FullMetrics) : m.MayHold (some m.upper) :=
  ⟨m.lower_le, Std.le_refl m.upper⟩

theorem known_allNull : m.known.allNull = false := by
  have := m.nulls_toNat_lt
  simp only [known, ColumnMetrics.allNull, beq_eq_false_iff_ne, ne_eq, ← UInt64.toNat_inj]
  omega

theorem known_noNulls : m.known.noNulls = true ↔ ¬ m.MayHold none := by
  simp [known, ColumnMetrics.noNulls, MayHold]

/-- The bounds force a comparison if it holds of all values within them. -/
theorem boundsForce_iff : ColumnMetrics.boundsForce op literal m.lower m.upper = true ↔
    ∀ d, m.lower ≤ d → d ≤ m.upper → op.Relates d literal := by
  refine ⟨fun h d hlow hhigh => ColumnMetrics.relates_of_boundsForce h hlow hhigh, fun h => ?_⟩
  have hlower := h m.lower (Std.le_refl m.lower) m.lower_le
  have hupper := h m.upper m.lower_le (Std.le_refl m.upper)
  have hliteral := h literal
  cases op <;>
    simp only [ColumnMetrics.boundsForce, Comparison.Relates, Bool.and_eq_true, Bool.or_eq_true,
      beq_iff_eq, decide_eq_true_eq] at hlower hupper hliteral ⊢ <;>
    grind

/-- The bounds are both the literal, and there are nulls beside it. -/
def OnlyBesideNulls (m : FullMetrics) (literal : Datum) : Prop :=
  m.lower = literal ∧ m.upper = literal ∧ m.nulls ≠ 0

/-- A comparison that holds of some value within the bounds holds of one of them, or of the
literal. -/
theorem exists_relates_iff : (∃ d, m.lower ≤ d ∧ d ≤ m.upper ∧ op.Relates d literal) ↔
    match op with
    | .eq => m.lower ≤ literal ∧ literal ≤ m.upper
    | .notEq => m.lower ≠ literal ∨ m.upper ≠ literal
    | .lt => m.lower < literal
    | .ltEq => m.lower ≤ literal
    | .gt => literal < m.upper
    | .gtEq => literal ≤ m.upper := by
  have hlower := m.lower_mayHold
  have hupper := m.upper_mayHold
  cases op with
  | eq =>
    constructor
    · rintro ⟨d, hlow, hhigh, rfl⟩
      exact ⟨hlow, hhigh⟩
    · intro h
      exact ⟨literal, h.1, h.2, rfl⟩
  | notEq =>
    constructor
    · rintro ⟨d, hlow, hhigh, h⟩
      simp only [Comparison.Relates] at h
      grind
    · rintro (h | h)
      · exact ⟨m.lower, hlower.1, hlower.2, h⟩
      · exact ⟨m.upper, hupper.1, hupper.2, h⟩
  | lt =>
    refine ⟨?_, fun h => ⟨m.lower, hlower.1, hlower.2, h⟩⟩
    rintro ⟨d, hlow, hhigh, h⟩
    simp only [Comparison.Relates] at h
    grind
  | ltEq =>
    refine ⟨?_, fun h => ⟨m.lower, hlower.1, hlower.2, h⟩⟩
    rintro ⟨d, hlow, hhigh, h⟩
    exact Std.le_trans hlow h
  | gt =>
    refine ⟨?_, fun h => ⟨m.upper, hupper.1, hupper.2, h⟩⟩
    rintro ⟨d, hlow, hhigh, h⟩
    simp only [Comparison.Relates] at h
    grind
  | gtEq =>
    refine ⟨?_, fun h => ⟨m.upper, hupper.1, hupper.2, h⟩⟩
    rintro ⟨d, hlow, hhigh, h⟩
    exact Std.le_trans h hhigh

/-- The bounds allow a comparison if it holds of some value within them, or if nulls are taken for
different from the only value. -/
theorem boundsAllow_iff : m.known.boundsAllow op literal = true ↔
    (∃ d, m.lower ≤ d ∧ d ≤ m.upper ∧ op.Relates d literal) ∨
      op = .notEq ∧ m.OnlyBesideNulls literal := by
  rw [exists_relates_iff]
  cases op <;> simp [ColumnMetrics.boundsAllow, known, ColumnMetrics.lowerMay,
    ColumnMetrics.upperMay, ColumnMetrics.noNulls, OnlyBesideNulls]
  grind

end FullMetrics

/-! ### Leaves -/

namespace BoundFilter

/-- The filter is a leaf on the given column. -/
inductive LeafOn (column : FieldId) : BoundFilter → Prop where
  | isNull : LeafOn column (.isNull column)
  | notNull : LeafOn column (.notNull column)
  | compare (op : Comparison) (literal : Datum) : LeafOn column (.compare op column literal)

/-- The leaf asks whether the column differs from its only value, and there are nulls beside it. -/
def TakesNullsForDifferent (leaf : BoundFilter) (column : FieldId) (m : FullMetrics) : Prop :=
  ∃ literal, leaf = .compare .notEq column literal ∧ m.OnlyBesideNulls literal

variable {leaf : BoundFilter} {column : FieldId} {m : FullMetrics}
  {evidence : FieldId → ColumnEvidence}

/-- A leaf is true of a row as it is of the row's value. -/
theorem LeafOn.holds_row (h : leaf.LeafOn column) (row : Row) :
    leaf.holds row = leaf.holds fun _ => row column := by
  cases h <;> rfl

theorem compare_holds_value {op : Comparison} {literal d : Datum} :
    (BoundFilter.compare op column literal).holds (fun _ => some d) = true ↔
      op.Relates d literal := Comparison.holds_iff

/-- Some row might match a leaf if some value that may occur does. -/
theorem LeafOn.might_iff (h : leaf.LeafOn column) (he : evidence column = .metrics m.known) :
    leaf.might evidence = true ↔ (∃ x, m.MayHold x ∧ leaf.holds (fun _ => x) = true) ∨
      leaf.TakesNullsForDifferent column m := by
  cases h with
  | isNull =>
    rw [might, he, ColumnEvidence.mightBeNull, Bool.not_eq_true', ← Bool.not_eq_true,
      FullMetrics.known_noNulls, not_not]
    refine ⟨fun hnone => .inl ⟨none, hnone, rfl⟩, ?_⟩
    rintro (⟨x, hx, hholds⟩ | ⟨literal, hleaf, -⟩)
    · cases x with
      | none => exact hx
      | some d => exact absurd hholds Bool.false_ne_true
    · exact absurd hleaf (by simp)
  | notNull =>
    rw [might, he, ColumnEvidence.mightBeValue, FullMetrics.known_allNull]
    exact ⟨fun _ => .inl ⟨some m.lower, m.lower_mayHold, rfl⟩, fun _ => rfl⟩
  | compare op literal =>
    rw [might, he, ColumnEvidence.mightSatisfy, FullMetrics.known_allNull, Bool.not_false,
      Bool.true_and, FullMetrics.boundsAllow_iff]
    refine or_congr ⟨?_, ?_⟩ ?_
    · rintro ⟨d, hlow, hhigh, hrelates⟩
      exact ⟨some d, ⟨hlow, hhigh⟩, compare_holds_value.2 hrelates⟩
    · rintro ⟨x, hx, hholds⟩
      cases x with
      | none => exact absurd hholds Bool.false_ne_true
      | some d => exact ⟨d, hx.1, hx.2, compare_holds_value.1 hholds⟩
    · simp [TakesNullsForDifferent]

/-- All rows are known to match a leaf if all values that may occur do. -/
theorem LeafOn.always_iff (h : leaf.LeafOn column) (he : evidence column = .metrics m.known) :
    leaf.always evidence = true ↔ ∀ x, m.MayHold x → leaf.holds (fun _ => x) = true := by
  cases h with
  | isNull =>
    rw [always, he, ColumnEvidence.alwaysNull, FullMetrics.known_allNull]
    exact ⟨fun hfalse => absurd hfalse Bool.false_ne_true, fun hall =>
      absurd (hall _ m.lower_mayHold) Bool.false_ne_true⟩
  | notNull =>
    rw [always, he, ColumnEvidence.alwaysValue, FullMetrics.known_noNulls]
    refine ⟨fun hnone x hx => ?_, fun hall hnone => absurd (hall none hnone) Bool.false_ne_true⟩
    exact Option.isSome_iff_ne_none.2 fun hx' => hnone (hx' ▸ hx)
  | compare op literal =>
    have hvalues : (evidence column).alwaysSatisfies op literal = true ↔
        ¬ m.MayHold none ∧ ∀ d, m.lower ≤ d → d ≤ m.upper → op.Relates d literal := by
      rw [he, ← FullMetrics.boundsForce_iff, ← FullMetrics.known_noNulls]
      exact Bool.and_eq_true_iff
    rw [always, hvalues]
    constructor
    · rintro ⟨hnone, hall⟩ x hx
      cases x with
      | none => exact absurd hx hnone
      | some d => exact compare_holds_value.2 (hall d hx.1 hx.2)
    · intro hall
      refine ⟨fun hnone => absurd (hall none hnone) Bool.false_ne_true, fun d hlow hhigh => ?_⟩
      exact compare_holds_value.1 (hall (some d) ⟨hlow, hhigh⟩)

/-- What a leaf says of values that may occur it says of rows that the metrics admit. -/
theorem LeafOn.exists_rows_iff (h : leaf.LeafOn column) {b : Bool} :
    (∃ rows : List Row, m.Admits (rows.map (· column)) ∧ ∃ row ∈ rows, leaf.holds row = b) ↔
      ∃ x, m.MayHold x ∧ leaf.holds (fun _ => x) = b := by
  constructor
  · rintro ⟨rows, hrows, row, hrow, hholds⟩
    exact ⟨row column, FullMetrics.mayHold_iff.1 ⟨_, hrows, List.mem_map_of_mem hrow⟩,
      h.holds_row row ▸ hholds⟩
  · rintro ⟨x, hx, hholds⟩
    obtain ⟨values, hvalues, hmem⟩ := FullMetrics.mayHold_iff.2 hx
    refine ⟨values.map fun y _ => y, ?_, fun _ => x, List.mem_map_of_mem hmem, hholds⟩
    rw [List.map_map]
    exact (List.map_id values).symm ▸ hvalues

theorem LeafOn.forall_rows_iff (h : leaf.LeafOn column) :
    (∀ rows : List Row, m.Admits (rows.map (· column)) → ∀ row ∈ rows, leaf.holds row = true) ↔
      ∀ x, m.MayHold x → leaf.holds (fun _ => x) = true := by
  rw [← not_iff_not]
  push Not
  simpa only [Bool.not_eq_true] using h.exists_rows_iff

end BoundFilter

/-! ### Files -/

namespace DataFile

variable {f : DataFile} {spec : PartitionSpec} {column : FieldId} {m : FullMetrics}
  {leaf : BoundFilter}

theorem evidence_of_metrics (hslot : ∀ slot, spec.slotOf? column = some slot →
    f.partition[slot]? = none) (hm : f.metricsOf column = m.known) :
    f.evidence spec column = .metrics m.known := by
  have hnone : ((spec.slotOf? column).bind fun slot => f.partition[slot]?) = none :=
    Option.bind_eq_none_iff.2 hslot
  rw [evidence, hnone, hm]

/-- Of a column without a slot whose metrics are complete, a leaf is said to match some row just
if it is true of one in rows that the metrics admit, except where nulls are taken for different; and
to match all rows just if it is true of all rows that the metrics admit. So with that exception a
file is taken to match in part only if the metrics admit a row that matches and one that does
not. -/
theorem leaf_exact (hleaf : leaf.LeafOn column)
    (hslot : ∀ slot, spec.slotOf? column = some slot → f.partition[slot]? = none)
    (hm : f.metricsOf column = m.known) :
    (leaf.mightMatch spec f = true ↔ (∃ rows : List Row, m.Admits (rows.map (· column)) ∧
        ∃ row ∈ rows, leaf.holds row = true) ∨ leaf.TakesNullsForDifferent column m) ∧
      (leaf.allRowsMatch spec f = true ↔ ∀ rows : List Row, m.Admits (rows.map (· column)) →
        ∀ row ∈ rows, leaf.holds row = true) ∧
      (leaf.mightMatch spec f = true ∧ leaf.allRowsMatch spec f = false →
        leaf.TakesNullsForDifferent column m ∨
          (∃ rows : List Row, m.Admits (rows.map (· column)) ∧
            ∃ row ∈ rows, leaf.holds row = true) ∧
          ∃ rows : List Row, m.Admits (rows.map (· column)) ∧
            ∃ row ∈ rows, leaf.holds row = false) := by
  have he := evidence_of_metrics hslot hm
  rw [hleaf.exists_rows_iff, hleaf.exists_rows_iff, hleaf.forall_rows_iff]
  have hmight : leaf.mightMatch spec f = true ↔ _ := hleaf.might_iff he
  have hall : leaf.allRowsMatch spec f = true ↔ _ := hleaf.always_iff he
  refine ⟨hmight, hall, fun ⟨hsome, hnotall⟩ => ?_⟩
  rw [← Bool.not_eq_true, hall] at hnotall
  push Not at hnotall
  simp only [Bool.not_eq_true] at hnotall
  exact (hmight.1 hsome).symm.imp id fun hmatch => ⟨hmatch, hnotall⟩

/-- A file of three rows: in column 1 one of them is null, and the others are 5. -/
def fivesAndNull : DataFile :=
  (withoutMetrics "f" [] 3 10).addMetrics 1 3 1 (some (.int 5, .int 5))

/-- The metrics of its column. -/
def fivesAndNullMetrics : FullMetrics :=
  ⟨.int, 3, 1, .int 5, .int 5, by decide, by decide, rfl, rfl⟩

/-- No row of such a file can be less than 5. -/
theorem leaf_exact_fivesAndNull : ¬ ∃ rows : List Row, fivesAndNullMetrics.Admits (rows.map (· 1)) ∧
    ∃ row ∈ rows, (BoundFilter.compare .lt 1 (.int 5)).holds row = true := by
  have hslot : ∀ slot, PartitionSpec.unpartitioned.slotOf? 1 = some slot →
      fivesAndNull.partition[slot]? = none := by
    simp [PartitionSpec.unpartitioned, PartitionSpec.slotOf?]
  have hmetrics : fivesAndNull.metricsOf 1 = fivesAndNullMetrics.known := rfl
  have hexact := leaf_exact (.compare .lt (.int 5)) hslot hmetrics
  exact fun hrows => absurd (hexact.1.2 (.inl hrows)) (by decide)

/-- Nor can one differ from 5, a null being neither equal to it nor different. Yet some row is said
to match. -/
theorem nulls_taken_for_different :
    PartitionSpec.unpartitioned.slotOf? 1 = none ∧
      fivesAndNull.metricsOf 1 = fivesAndNullMetrics.known ∧
      ¬ ((BoundFilter.compare .notEq 1 (.int 5)).mightMatch .unpartitioned fivesAndNull = true ↔
        ∃ rows : List Row, fivesAndNullMetrics.Admits (rows.map (· 1)) ∧
          ∃ row ∈ rows, (BoundFilter.compare .notEq 1 (.int 5)).holds row = true) := by
  refine ⟨rfl, rfl, fun hexact => ?_⟩
  obtain ⟨x, hx, hholds⟩ := (BoundFilter.LeafOn.compare .notEq (.int 5)).exists_rows_iff.1
    (hexact.1 (by decide))
  cases x with
  | none => exact nomatch hholds
  | some d =>
    exact BoundFilter.compare_holds_value.1 hholds (Std.le_antisymm hx.2 hx.1)

end DataFile

end Lakehouse
