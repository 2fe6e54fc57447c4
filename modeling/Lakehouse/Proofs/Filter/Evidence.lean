import Lakehouse.Filter.Evidence
import Lakehouse.Proofs.Filter.Truth

/- The evidence of a file's metadata.

   The metadata of a file describe its rows if all that they say is true of them: the counts
   that are known, the bounds that are known, and the slots (`DataFile.Describes`). What is
   concluded from such metadata is then right: if no row might match, a filter is true of no
   row (`might_sound`), and if all rows match, it is true of all (`always_sound`). Where a
   metric is missing, neither is concluded. -/
namespace Lakehouse

/-! ### The order of data -/

namespace Datum

theorem compare_swap (a b : Datum) : Datum.compare a b = (Datum.compare b a).swap := by
  have hswap : Ord.compare a b = (Ord.compare b a).swap := Std.OrientedOrd.eq_swap
  exact hswap

instance : Std.LawfulOrderOrd Datum where
  isLE_compare a b := by
    change (Datum.compare a b).isLE ↔ Datum.compare a b ≠ .gt
    cases Datum.compare a b <;> simp
  isGE_compare a b := by
    change (Datum.compare a b).isGE ↔ Datum.compare b a ≠ .gt
    rw [compare_swap]
    cases Datum.compare b a <;> simp

instance : Std.IsLinearOrder Datum := .of_ord

instance : Std.LawfulOrderLT Datum where
  lt_iff a b := by
    change Datum.compare a b = .lt ↔ Datum.compare a b ≠ .gt ∧ ¬ Datum.compare b a ≠ .gt
    rw [compare_swap]
    cases Datum.compare b a <;> simp

end Datum

/-- The comparison holds of the two values. -/
def Comparison.Relates (v literal : Datum) : Comparison → Prop
  | .eq => v = literal
  | .notEq => v ≠ literal
  | .lt => v < literal
  | .ltEq => v ≤ literal
  | .gt => literal < v
  | .gtEq => literal ≤ v

theorem Comparison.holds_iff {op : Comparison} {v literal : Datum} :
    op.holds (compare v literal) = true ↔ op.Relates v literal := by
  have hgt : compare v literal = .gt ↔ literal < v := by
    change Datum.compare v literal = .gt ↔ Datum.compare literal v = .lt
    rw [Datum.compare_swap]
    cases Datum.compare literal v <;> simp
  have hge : compare v literal ≠ .lt ↔ literal ≤ v := by
    change Datum.compare v literal ≠ .lt ↔ Datum.compare literal v ≠ .gt
    rw [Datum.compare_swap]
    cases Datum.compare literal v <;> simp
  cases op with
  | eq => simp [holds, Relates]
  | notEq => simp [holds, Relates]
  | lt =>
    rw [holds, beq_iff_eq]
    rfl
  | ltEq =>
    rw [holds, bne_iff_ne]
    rfl
  | gt => simpa [holds, Relates] using hgt
  | gtEq => simpa [holds, Relates] using hge

/-! ### Columns -/

/-- The metrics are true of the values of a column. -/
structure ColumnMetrics.Describe (m : ColumnMetrics) (values : List (Option Datum)) : Prop where
  counted : ∀ n, m.valueCount = some n → n.toNat = values.length
  nulls : ∀ n, m.nullCount = some n → n.toNat = values.count none
  lower : ∀ b, m.lower = some b → ∀ v, some v ∈ values → b ≤ v
  upper : ∀ b, m.upper = some b → ∀ v, some v ∈ values → v ≤ b

namespace ColumnMetrics.Describe

variable {m : ColumnMetrics} {values : List (Option Datum)} {op : Comparison} {literal v : Datum}

theorem none_not_mem (h : m.Describe values) (hno : m.noNulls = true) : none ∉ values := by
  have hzero := h.nulls 0 (by simpa [noNulls] using hno)
  rw [← List.count_eq_zero, ← hzero]
  rfl

theorem eq_none (h : m.Describe values) (hall : m.allNull = true) : ∀ x ∈ values, x = none := by
  rw [allNull] at hall
  split at hall
  next n k hn hk =>
    have hcount := h.nulls k hk
    rw [← eq_of_beq hall, h.counted n hn] at hcount
    intro x hx
    exact (List.count_eq_length.1 hcount.symm x hx).symm
  next => exact absurd hall (by simp)

theorem lower_le (h : m.Describe values) (hv : some v ∈ values) {p : Datum → Bool}
    (hfails : m.lowerMay p = false) : ∃ b, b ≤ v ∧ p b = false := by
  rw [lowerMay, Option.all_eq_false] at hfails
  obtain ⟨b, hb, hp⟩ := hfails
  exact ⟨b, h.lower b hb v hv, hp⟩

theorem le_upper (h : m.Describe values) (hv : some v ∈ values) {p : Datum → Bool}
    (hfails : m.upperMay p = false) : ∃ b, v ≤ b ∧ p b = false := by
  rw [upperMay, Option.all_eq_false] at hfails
  obtain ⟨b, hb, hp⟩ := hfails
  exact ⟨b, h.upper b hb v hv, hp⟩

/-- No value satisfies a comparison that the bounds do not allow. -/
theorem not_relates (h : m.Describe values) (hfails : m.boundsAllow op literal = false)
    (hv : some v ∈ values) : ¬ op.Relates v literal := by
  cases op with
  | eq =>
    -- The literal is below the lower bound or above the upper one.
    rw [boundsAllow, Bool.and_eq_false_iff] at hfails
    rcases hfails with hfails | hfails
    · obtain ⟨b, hb, hp⟩ := h.lower_le hv hfails
      simp only [Comparison.Relates, decide_eq_false_iff_not] at hp ⊢
      grind
    · obtain ⟨b, hb, hp⟩ := h.le_upper hv hfails
      simp only [Comparison.Relates, decide_eq_false_iff_not] at hp ⊢
      grind
  | notEq =>
    simp only [boundsAllow, Bool.not_eq_false', Bool.and_eq_true, beq_iff_eq] at hfails
    have hlow := h.lower literal hfails.1.1 v hv
    have hhigh := h.upper literal hfails.1.2 v hv
    rw [Comparison.Relates]
    grind
  | lt =>
    obtain ⟨b, hb, hp⟩ := h.lower_le hv hfails
    simp only [Comparison.Relates, decide_eq_false_iff_not] at hp ⊢
    grind
  | ltEq =>
    obtain ⟨b, hb, hp⟩ := h.lower_le hv hfails
    simp only [Comparison.Relates, decide_eq_false_iff_not] at hp ⊢
    grind
  | gt =>
    obtain ⟨b, hb, hp⟩ := h.le_upper hv hfails
    simp only [Comparison.Relates, decide_eq_false_iff_not] at hp ⊢
    grind
  | gtEq =>
    obtain ⟨b, hb, hp⟩ := h.le_upper hv hfails
    simp only [Comparison.Relates, decide_eq_false_iff_not] at hp ⊢
    grind

end ColumnMetrics.Describe

/-- Every value within the bounds satisfies a comparison that they force. -/
theorem ColumnMetrics.relates_of_boundsForce {op : Comparison} {literal lower upper v : Datum}
    (h : boundsForce op literal lower upper = true) (hlow : lower ≤ v) (hhigh : v ≤ upper) :
    op.Relates v literal := by
  cases op <;>
    simp only [boundsForce, Comparison.Relates, Bool.and_eq_true, Bool.or_eq_true, beq_iff_eq,
      decide_eq_true_eq] at h ⊢ <;>
    grind

namespace ColumnEvidence

/-- The evidence is true of the values of a column. -/
def Describes : ColumnEvidence → List (Option Datum) → Prop
  | constant value, values => ∀ x ∈ values, x = value
  | metrics m, values => m.Describe values

variable {e : ColumnEvidence} {values : List (Option Datum)} {op : Comparison} {literal : Datum}

theorem Describes.of_mightBeNull (h : e.Describes values) (hfails : e.mightBeNull = false) :
    none ∉ values := by
  cases e with
  | constant value =>
    intro hnone
    rw [mightBeNull, ← h none hnone] at hfails
    exact absurd hfails (by simp)
  | metrics m => exact ColumnMetrics.Describe.none_not_mem h (by simpa [mightBeNull] using hfails)

theorem Describes.of_mightBeValue (h : e.Describes values) (hfails : e.mightBeValue = false) :
    ∀ x ∈ values, x = none := by
  cases e with
  | constant value =>
    intro x hx
    rw [h x hx]
    simpa [mightBeValue] using hfails
  | metrics m => exact ColumnMetrics.Describe.eq_none h (by simpa [mightBeValue] using hfails)

theorem Describes.of_mightSatisfy (h : e.Describes values)
    (hfails : e.mightSatisfy op literal = false) {v : Datum} (hv : some v ∈ values) :
    ¬ op.Relates v literal := by
  cases e with
  | constant value =>
    rw [← h _ hv, mightSatisfy] at hfails
    rw [← Comparison.holds_iff, hfails]
    simp
  | metrics m =>
    rw [mightSatisfy, Bool.and_eq_false_iff] at hfails
    rcases hfails with hnull | hbounds
    · exact absurd (ColumnMetrics.Describe.eq_none h (by simpa using hnull) _ hv) (by simp)
    · exact ColumnMetrics.Describe.not_relates h hbounds hv

theorem Describes.of_alwaysNull (h : e.Describes values) (hall : e.alwaysNull = true) :
    ∀ x ∈ values, x = none := by
  cases e with
  | constant value =>
    intro x hx
    rw [h x hx]
    simpa [alwaysNull] using hall
  | metrics m => exact ColumnMetrics.Describe.eq_none h hall

theorem Describes.of_alwaysValue (h : e.Describes values) (hall : e.alwaysValue = true) :
    none ∉ values := by
  cases e with
  | constant value =>
    intro hnone
    rw [alwaysValue, ← h none hnone] at hall
    exact absurd hall (by simp)
  | metrics m => exact ColumnMetrics.Describe.none_not_mem h hall

theorem Describes.of_alwaysSatisfies (h : e.Describes values)
    (hall : e.alwaysSatisfies op literal = true) :
    ∀ x ∈ values, ∃ v, x = some v ∧ op.Relates v literal := by
  intro x hx
  cases e with
  | constant value =>
    obtain rfl := h x hx
    cases x with
    | none => exact absurd hall (by simp [alwaysSatisfies])
    | some v => exact ⟨v, rfl, Comparison.holds_iff.1 hall⟩
  | metrics m =>
    rw [alwaysSatisfies] at hall
    split at hall
    next lower upper hlower hupper =>
      rw [Bool.and_eq_true] at hall
      cases x with
      | none => exact absurd hx (ColumnMetrics.Describe.none_not_mem h hall.1)
      | some v =>
        exact ⟨v, rfl, ColumnMetrics.relates_of_boundsForce hall.2 (h.lower lower hlower v hx)
          (h.upper upper hupper v hx)⟩
    next => exact absurd hall (by simp)

end ColumnEvidence

/-! ### Filters -/

namespace BoundFilter

variable {evidence : FieldId → ColumnEvidence} {rows : List Row} {row : Row}

/-- If the evidence says that no row might match, the filter is true of none. -/
theorem might_sound (h : ∀ c, (evidence c).Describes (rows.map (· c))) {filter : BoundFilter}
    (hfails : filter.might evidence = false) (hrow : row ∈ rows) : filter.holds row = false := by
  have hvalue : ∀ c, row c ∈ rows.map (· c) := fun c => List.mem_map.2 ⟨row, hrow, rfl⟩
  induction filter with
  | all => exact absurd hfails (by simp [might])
  | nothing => rfl
  | isNull column =>
    have hnone := (h column).of_mightBeNull hfails
    rw [holds, Option.isNone_eq_false_iff, Option.isSome_iff_ne_none]
    exact fun he => hnone (he ▸ hvalue column)
  | notNull column =>
    rw [holds, (h column).of_mightBeValue hfails _ (hvalue column)]
    rfl
  | compare op column literal =>
    rw [holds]
    split
    next v hv =>
      rw [← Bool.not_eq_true, Comparison.holds_iff]
      exact (h column).of_mightSatisfy hfails (hv ▸ hvalue column)
    next => rfl
  | and left right ihl ihr =>
    rw [might, Bool.and_eq_false_iff] at hfails
    rw [holds, Bool.and_eq_false_iff]
    exact hfails.imp ihl ihr
  | or left right ihl ihr =>
    rw [might, Bool.or_eq_false_iff] at hfails
    rw [holds, Bool.or_eq_false_iff]
    exact hfails.imp ihl ihr

/-- If the evidence says that all rows match, the filter is true of all. -/
theorem always_sound (h : ∀ c, (evidence c).Describes (rows.map (· c))) {filter : BoundFilter}
    (hall : filter.always evidence = true) (hrow : row ∈ rows) : filter.holds row = true := by
  have hvalue : ∀ c, row c ∈ rows.map (· c) := fun c => List.mem_map.2 ⟨row, hrow, rfl⟩
  induction filter with
  | all => rfl
  | nothing => exact absurd hall (by simp [always])
  | isNull column =>
    rw [holds, (h column).of_alwaysNull hall _ (hvalue column)]
    rfl
  | notNull column =>
    have hnone := (h column).of_alwaysValue hall
    rw [holds, Option.isSome_iff_ne_none]
    exact fun he => hnone (he ▸ hvalue column)
  | compare op column literal =>
    obtain ⟨v, hv, hrelates⟩ := (h column).of_alwaysSatisfies hall _ (hvalue column)
    rw [holds, hv]
    exact Comparison.holds_iff.2 hrelates
  | and left right ihl ihr =>
    rw [always, Bool.and_eq_true] at hall
    rw [holds, Bool.and_eq_true]
    exact hall.imp ihl ihr
  | or left right ihl ihr =>
    rw [always, Bool.or_eq_true] at hall
    rw [holds, Bool.or_eq_true]
    exact hall.imp ihl ihr

end BoundFilter

/-! ### Files -/

/-- What the metadata of a file say is true of its rows. -/
structure DataFile.Describes (f : DataFile) (schema : Schema) (spec : PartitionSpec)
    (rows : List Row) : Prop where
  typed : ∀ row ∈ rows, row.IsTyped schema
  counted : ∀ c n, f.valueCounts.find? c = some n → n.toNat = rows.length
  nulls : ∀ c n, f.nullCounts.find? c = some n → n.toNat = (rows.map (· c)).count none
  lower : ∀ c b, f.lowerBounds.find? c = some b → ∀ row ∈ rows, ∀ v, row c = some v → b ≤ v
  upper : ∀ c b, f.upperBounds.find? c = some b → ∀ row ∈ rows, ∀ v, row c = some v → v ≤ b
  slots : ∀ (slot : Nat) (field : PartitionField) value, spec.fields[slot]? = some field →
    f.partition[slot]? = some value → ∀ row ∈ rows, row field.sourceId = value

namespace DataFile.Describes

variable {f : DataFile} {schema : Schema} {spec : PartitionSpec} {rows : List Row}

theorem evidence (h : f.Describes schema spec rows) (c : FieldId) :
    (f.evidence spec c).Describes (rows.map (· c)) := by
  rw [DataFile.evidence]
  split
  next value hvalue =>
    obtain ⟨slot, hslot, hpart⟩ := Option.bind_eq_some_iff.1 hvalue
    obtain ⟨hlt, hsource, -⟩ := List.findIdx?_eq_some_iff_getElem.1 hslot
    intro x hx
    obtain ⟨row, hrow, rfl⟩ := List.mem_map.1 hx
    have hfield := h.slots slot _ value (List.getElem?_eq_getElem hlt) hpart row hrow
    rwa [of_decide_eq_true hsource] at hfield
  next =>
    refine ⟨fun n hn => ?_, h.nulls c, fun b hb v hv => ?_, fun b hb v hv => ?_⟩
    · rw [List.length_map]
      exact h.counted c n hn
    · obtain ⟨row, hrow, hrowv⟩ := List.mem_map.1 hv
      exact h.lower c b hb row hrow v hrowv
    · obtain ⟨row, hrow, hrowv⟩ := List.mem_map.1 hv
      exact h.upper c b hb row hrow v hrowv

/-- Of a file that is said not to match at all, a filter is true of no row. -/
theorem of_mightMatch (h : f.Describes schema spec rows) {filter : Filter} {bound : BoundFilter}
    (hbound : filter.bind schema = .ok bound) (hfails : bound.mightMatch spec f = false) :
    ∀ row ∈ rows, filter.truth schema row ≠ some true := by
  intro row hrow htrue
  have hholds := BoundFilter.might_sound h.evidence hfails hrow
  rw [(Filter.bind_holds (h.typed row hrow) hbound).2 htrue] at hholds
  exact absurd hholds (by simp)

/-- Of a file that is said to match as a whole, a filter is true of every row. -/
theorem of_allRowsMatch (h : f.Describes schema spec rows) {filter : Filter} {bound : BoundFilter}
    (hbound : filter.bind schema = .ok bound) (hall : bound.allRowsMatch spec f = true) :
    ∀ row ∈ rows, filter.truth schema row = some true := by
  intro row hrow
  rw [← Filter.bind_holds (h.typed row hrow) hbound]
  exact BoundFilter.always_sound h.evidence hall hrow

/-- Whatever the metadata of a file leave open, what is concluded from them about a filter is true
of its rows. -/
theorem evaluators_sound (h : f.Describes schema spec rows) (filter : BoundFilter) :
    (filter.mightMatch spec f = false → ∀ row ∈ rows, filter.holds row = false) ∧
      (filter.allRowsMatch spec f = true → ∀ row ∈ rows, filter.holds row = true) :=
  ⟨fun hfails _ hrow => BoundFilter.might_sound h.evidence hfails hrow,
    fun hall _ hrow => BoundFilter.always_sound h.evidence hall hrow⟩

end DataFile.Describes

/-- Two columns of integers. -/
def Schema.halfKnown : Schema :=
  ⟨[⟨1, "size", .int, false⟩, ⟨2, "kind", .int, false⟩], by simp [Field.Distinct]⟩

/-- A file with a slot for column 2, of whose column 1 only a value count and a lower bound are
known. -/
def DataFile.halfKnown : DataFile :=
  { DataFile.withoutMetrics "a" [some (.int 7)] 2 10 with
    valueCounts := SortedMap.empty.insert 1 2
    lowerBounds := SortedMap.empty.insert 1 (.int 3) }

/-- Rows that such a file may hold. -/
def Row.halfKnown : List Row :=
  [fun c => if c = 1 then some (.int 4) else if c = 2 then some (.int 7) else none,
    fun c => if c = 2 then some (.int 7) else none]

theorem DataFile.halfKnown_describes :
    DataFile.halfKnown.Describes Schema.halfKnown ⟨0, [⟨2, 1000, "kind"⟩]⟩ Row.halfKnown where
  typed row hrow field hfield v hv := by
    rcases List.mem_pair.1 hrow with rfl | rfl <;> rcases List.mem_pair.1 hfield with rfl | rfl
    case inr.inl => exact absurd hv (by simp)
    all_goals
      obtain rfl := Option.some.inj hv
      rfl
  counted c n hn := by
    rw [halfKnown, SortedMap.find?_insert] at hn
    split at hn
    next => rw [← Option.some.inj hn]; rfl
    next => exact absurd hn (by simp)
  nulls c n hn := absurd hn (by simp [halfKnown, withoutMetrics])
  lower c b hb row hrow v hv := by
    rw [halfKnown, SortedMap.find?_insert] at hb
    split at hb
    next hc =>
      obtain rfl := Option.some.inj hb
      obtain rfl := Std.LawfulEqCmp.eq_of_compare hc
      rcases List.mem_pair.1 hrow with rfl | rfl
      · obtain rfl := Option.some.inj hv
        decide
      · exact absurd hv (by simp)
    next => exact absurd hb (by simp)
  upper c b hb := absurd hb (by simp [halfKnown, withoutMetrics])
  slots slot field value hfield hvalue row hrow := by
    cases slot with
    | zero =>
      obtain rfl := Option.some.inj hfield
      obtain rfl := Option.some.inj hvalue
      rcases List.mem_pair.1 hrow with rfl | rfl <;> rfl
    | succ slot => exact absurd hfield (by simp)

/-- One filter is excluded by a bound and the slot, and another follows from the slot alone. -/
theorem DataFile.Describes.evaluators_sound_halfKnown :
    (∀ row ∈ Row.halfKnown, (BoundFilter.or (.compare .lt 1 (.int 3))
      (.compare .notEq 2 (.int 7))).holds row = false) ∧
    ∀ row ∈ Row.halfKnown, (BoundFilter.or (.notNull 1)
      (.compare .gtEq 2 (.int 7))).holds row = true :=
  ⟨(evaluators_sound DataFile.halfKnown_describes _).1 (by decide),
    (evaluators_sound DataFile.halfKnown_describes _).2 (by decide)⟩

end Lakehouse
