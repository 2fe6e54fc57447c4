import Lakehouse.Filter.Evidence
import Lakehouse.Parquet.Metrics
import Lakehouse.Proofs.Filter.Evidence
import Lakehouse.Proofs.Schema
import Lakehouse.Proofs.SortedMap
import Mathlib.Algebra.BigOperators.Group.List.Basic
import Mathlib.Algebra.GroupWithZero.Nat
import Mathlib.Algebra.Order.BigOperators.Group.List
import Mathlib.Algebra.Order.Group.Nat
import Mathlib.Data.List.Induction

/- The metrics of a file by column.

   What a description says of a column depends on the chunks of the column only
   (`describe_metricsAt`): sizes and counts are sums (`toNat_sum_count`), the number of nulls is
   the sum if each chunk has one (`totalNulls_eq`), and the bounds are the least lower and the
   greatest upper bound of the chunks (`hull_eq_some_iff`), taken to the type of the column. None of
   this depends on the order of the chunks, so the order of the groups of rows is of no account,
   and neither are chunks of other columns (`describe_congr`). -/
namespace Lakehouse

namespace DataFile

/-- What a file says of itself as a whole. -/
def given (f : DataFile) : String × PartitionTuple × UInt64 × UInt64 :=
  (f.path, f.partition, f.recordCount, f.sizeInBytes)

/-- What a file says of a column: its size, its counts and its bounds. -/
def metricsAt (f : DataFile) (c : FieldId) : Option UInt64 × ColumnMetrics :=
  (f.columnSizes.find? c, f.metricsOf c)

/-- A description is given by what it says of the file and of each column. -/
theorem ext_metricsAt {f g : DataFile} (hgiven : f.given = g.given)
    (h : ∀ c, f.metricsAt c = g.metricsAt c) : f = g := by
  have hsizes : f.columnSizes = g.columnSizes :=
    SortedMap.ext_find? fun c => congrArg Prod.fst (h c)
  have hvalues : f.valueCounts = g.valueCounts :=
    SortedMap.ext_find? fun c => congrArg (fun m => m.2.valueCount) (h c)
  have hnulls : f.nullCounts = g.nullCounts :=
    SortedMap.ext_find? fun c => congrArg (fun m => m.2.nullCount) (h c)
  have hlower : f.lowerBounds = g.lowerBounds :=
    SortedMap.ext_find? fun c => congrArg (fun m => m.2.lower) (h c)
  have hupper : f.upperBounds = g.upperBounds :=
    SortedMap.ext_find? fun c => congrArg (fun m => m.2.upper) (h c)
  cases f
  cases g
  simp only [given, Prod.mk.injEq] at hgiven
  simp_all

end DataFile

namespace Parquet

variable {chunks others : List ColumnChunk} {type : ColumnType} {footer footer' : Footer}
  {schema : Schema} {file : DataFile} {field : Field}

/-! ### Sums -/

theorem sum_concat (counts : List UInt64) (n : UInt64) : sum (counts ++ [n]) = sum counts + n := by
  rw [sum, List.foldl_append]
  rfl

theorem toNat_sum (counts : List UInt64) :
    (sum counts).toNat = (counts.map UInt64.toNat).sum % 2 ^ 64 := by
  induction counts using List.reverseRecOn with
  | nil => rfl
  | append_singleton counts n ih =>
    rw [sum_concat, UInt64.toNat_add, ih, List.map_append, List.sum_append, List.map_singleton,
      List.sum_singleton, Nat.mod_add_mod]

/-- Negative numbers count for nothing. -/
theorem toNat_sum_count (f : ColumnChunk → Int) (chunks : List ColumnChunk) :
    (sum (chunks.map fun c => count (f c))).toNat =
      (chunks.map fun c => (f c).toNat).sum % 2 ^ 64 := by
  have hcount : ∀ c ∈ chunks, (UInt64.toNat ∘ fun c => count (f c)) c =
      ((· % 2 ^ 64) ∘ fun c => (f c).toNat) c := fun _ _ => UInt64.toNat_ofNat'
  rw [toNat_sum, List.sum_nat_mod (chunks.map fun c => (f c).toNat), List.map_map, List.map_map,
    List.map_congr_left hcount]

theorem sum_perm {counts others : List UInt64} (h : counts.Perm others) :
    sum counts = sum others := by
  rw [← UInt64.toNat_inj, toNat_sum, toNat_sum, (h.map _).sum_eq]

/-! ### Nulls -/

/-- All nulls are counted if each chunk has counted its own. -/
theorem totalNulls_eq (chunks : List ColumnChunk) : totalNulls chunks =
    if chunks.all fun c => c.nullCount?.isSome then
      some (sum (chunks.map fun c => c.nullCount?.getD 0))
    else none := by
  have hwalk : chunks.mapM ColumnChunk.nullCount? =
      if chunks.all fun c => c.nullCount?.isSome then some (chunks.map fun c => c.nullCount?.getD 0)
      else none := by
    induction chunks with
    | nil => rfl
    | cons c chunks ih =>
      rw [List.mapM_cons, ih, List.all_cons, List.map_cons]
      cases c.nullCount? with
      | none => rfl
      | some n => cases chunks.all fun c => c.nullCount?.isSome <;> rfl
  rw [totalNulls, hwalk]
  cases chunks.all fun c => c.nullCount?.isSome <;> rfl

theorem totalNulls_isSome : (∃ n, totalNulls chunks = some n) ↔
    ∀ c ∈ chunks, ∃ n, c.nullCount? = some n := by
  simp only [← Option.isSome_iff_exists, totalNulls_eq, ← List.all_eq_true]
  cases chunks.all fun c => c.nullCount?.isSome <;> simp

theorem toNat_totalNulls {n : UInt64} (h : totalNulls chunks = some n) :
    n.toNat = (chunks.map fun c => (c.nullCount?.getD 0).toNat).sum % 2 ^ 64 := by
  rw [totalNulls_eq] at h
  split at h
  next =>
    obtain rfl := Option.some.inj h
    rw [toNat_sum, List.map_map]
    rfl
  next => exact nomatch h

theorem totalNulls_perm (h : chunks.Perm others) : totalNulls chunks = totalNulls others := by
  rw [totalNulls_eq, totalNulls_eq, h.all_eq, sum_perm (h.map _)]

/-! ### Bounds -/

/-- The least of the lower bounds and the greatest of the upper ones. -/
structure Hull (bounds : List (Datum × Datum)) (lower upper : Datum) : Prop where
  lower_mem : ∃ b ∈ bounds, b.1 = lower
  lower_le : ∀ b ∈ bounds, lower ≤ b.1
  upper_mem : ∃ b ∈ bounds, b.2 = upper
  le_upper : ∀ b ∈ bounds, b.2 ≤ upper

namespace Hull

variable {bounds : List (Datum × Datum)} {lower upper lower' upper' : Datum}

theorem unique (h : Hull bounds lower upper) (h' : Hull bounds lower' upper') :
    lower = lower' ∧ upper = upper' := by
  obtain ⟨b, hb, rfl⟩ := h.lower_mem
  obtain ⟨c, hc, rfl⟩ := h.upper_mem
  obtain ⟨b', hb', rfl⟩ := h'.lower_mem
  obtain ⟨c', hc', rfl⟩ := h'.upper_mem
  exact ⟨Std.le_antisymm (h.lower_le b' hb') (h'.lower_le b hb),
    Std.le_antisymm (h'.le_upper c hc) (h.le_upper c' hc')⟩

theorem perm {others : List (Datum × Datum)} (h : Hull bounds lower upper)
    (hperm : bounds.Perm others) : Hull others lower upper := by
  refine ⟨?_, fun b hb => h.lower_le b (hperm.mem_iff.2 hb), ?_,
    fun b hb => h.le_upper b (hperm.mem_iff.2 hb)⟩
  · obtain ⟨b, hb, hlower⟩ := h.lower_mem
    exact ⟨b, hperm.mem_iff.1 hb, hlower⟩
  · obtain ⟨b, hb, hupper⟩ := h.upper_mem
    exact ⟨b, hperm.mem_iff.1 hb, hupper⟩

/-- One more pair of bounds. -/
theorem concat (h : Hull bounds lower upper) (b : Datum × Datum) :
    Hull (bounds ++ [b]) (lesser lower b.1) (greater upper b.2) := by
  have hlesser : lesser lower b.1 ≤ lower ∧ lesser lower b.1 ≤ b.1 := by
    rw [lesser]
    grind
  have hgreater : upper ≤ greater upper b.2 ∧ b.2 ≤ greater upper b.2 := by
    rw [greater]
    grind
  refine ⟨?_, ?_, ?_, ?_⟩
  · obtain ⟨c, hc, rfl⟩ := h.lower_mem
    rw [lesser]
    split
    · exact ⟨b, by simp, rfl⟩
    · exact ⟨c, by simp [hc], rfl⟩
  · intro c hc
    rcases List.mem_append.1 hc with hold | hnew
    · exact Std.le_trans hlesser.1 (h.lower_le c hold)
    · obtain rfl := List.mem_singleton.1 hnew
      exact hlesser.2
  · obtain ⟨c, hc, rfl⟩ := h.upper_mem
    rw [greater]
    split
    · exact ⟨b, by simp, rfl⟩
    · exact ⟨c, by simp [hc], rfl⟩
  · intro c hc
    rcases List.mem_append.1 hc with hold | hnew
    · exact Std.le_trans (h.le_upper c hold) hgreater.1
    · obtain rfl := List.mem_singleton.1 hnew
      exact hgreater.2

end Hull

theorem hull_eq_some_iff {bounds : List (Datum × Datum)} {b : Datum × Datum} :
    hull bounds = some b ↔ Hull bounds b.1 b.2 := by
  cases bounds with
  | nil =>
    refine ⟨fun h => (nomatch h), fun h => ?_⟩
    obtain ⟨c, hc, -⟩ := h.lower_mem
    exact absurd hc List.not_mem_nil
  | cons first rest =>
    have hfold : Hull (first :: rest)
        (rest.foldl (fun acc b => (lesser acc.1 b.1, greater acc.2 b.2)) first).1
        (rest.foldl (fun acc b => (lesser acc.1 b.1, greater acc.2 b.2)) first).2 := by
      -- The walk has passed a beginning of the list, so the last pair is the new one.
      induction rest using List.reverseRecOn with
      | nil =>
        exact ⟨⟨first, by simp, rfl⟩, by simp [Std.le_refl], ⟨first, by simp, rfl⟩,
          by simp [Std.le_refl]⟩
      | append_singleton rest b ih =>
        rw [List.foldl_append, ← List.cons_append]
        exact ih.concat b
    constructor
    · intro h
      obtain rfl := Option.some.inj h
      exact hfold
    · intro h
      -- There is only one pair of outermost bounds, so it is the one that the walk gives.
      obtain ⟨hlower, hupper⟩ := hfold.unique h
      exact congrArg some (Prod.ext hlower hupper)

theorem hull_perm {bounds others : List (Datum × Datum)} (h : bounds.Perm others) :
    hull bounds = hull others := by
  apply Option.ext
  intro b
  rw [hull_eq_some_iff, hull_eq_some_iff]
  exact ⟨fun hb => hb.perm h, fun hb => hb.perm h.symm⟩

/-- Bounds taken to a type. -/
def convertBoth? (type : ColumnType) (b : Datum × Datum) : Option (Datum × Datum) :=
  (b.1.convert? type).bind fun low => (b.2.convert? type).map fun high => (low, high)

theorem totalBounds_eq (type : ColumnType) (chunks : List ColumnChunk) : totalBounds type chunks =
    if chunks.all fun c => c.bounds?.isSome || c.isAllNull then
      (hull (chunks.filterMap ColumnChunk.bounds?)).bind (convertBoth? type)
    else none := by
  rw [totalBounds]
  cases chunks.all fun c => c.bounds?.isSome || c.isAllNull with
  | false => rfl
  | true =>
    cases hull (chunks.filterMap ColumnChunk.bounds?) with
    | none => rfl
    | some b =>
      show (b.1.convert? type).bind (fun low => (b.2.convert? type).bind fun high => _) = _
      cases hlow : b.1.convert? type <;> cases hhigh : b.2.convert? type <;>
        simp [convertBoth?, hlow, hhigh]

/-- There are bounds of all chunks together if each chunk has bounds or nulls only, if there are
some at all, and if they are values of the type. -/
theorem totalBounds_eq_some_iff {low high : Datum} : totalBounds type chunks = some (low, high) ↔
    (∀ c ∈ chunks, c.bounds?.isSome ∨ c.isAllNull) ∧
      ∃ lower upper, Hull (chunks.filterMap ColumnChunk.bounds?) lower upper ∧
        lower.convert? type = some low ∧ upper.convert? type = some high := by
  have hall : (chunks.all fun c => c.bounds?.isSome || c.isAllNull) = true ↔
      ∀ c ∈ chunks, c.bounds?.isSome ∨ c.isAllNull := by
    simp only [List.all_eq_true, Bool.or_eq_true]
  have hconvert : ∀ b : Datum × Datum, convertBoth? type b = some (low, high) ↔
      b.1.convert? type = some low ∧ b.2.convert? type = some high := by
    intro b
    cases hlow : b.1.convert? type <;> cases hhigh : b.2.convert? type <;>
      simp [convertBoth?, hlow, hhigh]
  rw [totalBounds_eq, ← hall]
  split
  next hyes =>
    simp only [hyes, true_and, Option.bind_eq_some_iff, hull_eq_some_iff, hconvert, Prod.exists]
  next hno => exact ⟨fun h => (nomatch h), fun h => absurd h.1 hno⟩

theorem totalBounds_perm (h : chunks.Perm others) :
    totalBounds type chunks = totalBounds type others := by
  rw [totalBounds_eq, totalBounds_eq, h.all_eq, hull_perm (h.filterMap _)]

/-! ### Columns -/

/-- What the chunks of a column come to. -/
structure ColumnTotals where
  size : UInt64
  values : UInt64
  nulls : Option UInt64
  bounds : Option (Datum × Datum)
  deriving DecidableEq, Repr

def totalsOf (type : ColumnType) (chunks : List ColumnChunk) : ColumnTotals where
  size := sum (chunks.map fun c => count c.compressedSize)
  values := sum (chunks.map fun c => count c.valueCount)
  nulls := totalNulls chunks
  bounds := totalBounds type chunks

theorem totalsOf_perm (h : chunks.Perm others) : totalsOf type chunks = totalsOf type others := by
  rw [totalsOf, totalsOf, sum_perm (h.map _), sum_perm (h.map fun c => count c.valueCount),
    totalNulls_perm h, totalBounds_perm h]

/-- Writes down what the chunks of a column come to. -/
def setTotals (file : DataFile) (c : FieldId) (m : ColumnTotals) : DataFile :=
  { file with
    columnSizes := file.columnSizes.insert c m.size
    valueCounts := file.valueCounts.insert c m.values
    nullCounts := setIfKnown file.nullCounts c m.nulls
    lowerBounds := setIfKnown file.lowerBounds c (m.bounds.map Prod.fst)
    upperBounds := setIfKnown file.upperBounds c (m.bounds.map Prod.snd) }

/-- What a file says of a column of which there is nothing in its footer. -/
def unmeasured : Option UInt64 × ColumnMetrics := (none, ⟨none, none, none, none⟩)

/-- What a file says of a column whose chunks come to this. -/
def ColumnTotals.metrics (m : ColumnTotals) : Option UInt64 × ColumnMetrics :=
  (some m.size, ⟨some m.values, m.nulls, m.bounds.map Prod.fst, m.bounds.map Prod.snd⟩)

/-- What a file says of a column with the given chunks. -/
def columnMetrics (type : ColumnType) (chunks : List ColumnChunk) :
    Option UInt64 × ColumnMetrics :=
  if chunks = [] then unmeasured else (totalsOf type chunks).metrics

theorem columnMetrics_perm (h : chunks.Perm others) :
    columnMetrics type chunks = columnMetrics type others := by
  have hnil : chunks = [] ↔ others = [] := by
    rw [← List.length_eq_zero_iff, h.length_eq, List.length_eq_zero_iff]
  simp only [columnMetrics, hnil, totalsOf_perm h]

theorem find?_setIfKnown_self {α : Type} {m : SortedMap FieldId α} {c : FieldId}
    (h : m.find? c = none) (a : Option α) : (setIfKnown m c a).find? c = a := by
  cases a with
  | none => exact h
  | some a => exact SortedMap.find?_insert_self m c a

theorem find?_setIfKnown_of_ne {α : Type} (m : SortedMap FieldId α) {c d : FieldId} (h : d ≠ c)
    (a : Option α) : (setIfKnown m c a).find? d = m.find? d := by
  cases a with
  | none => rfl
  | some a => exact SortedMap.find?_insert_of_ne m a h

theorem metricsAt_setTotals_self {c : FieldId} (h : file.metricsAt c = unmeasured)
    (m : ColumnTotals) : (setTotals file c m).metricsAt c = m.metrics := by
  obtain ⟨-, hmetrics⟩ := Prod.mk.inj h
  obtain ⟨-, hnulls, hlower, hupper⟩ := ColumnMetrics.mk.inj hmetrics
  simp only [setTotals, DataFile.metricsAt, DataFile.metricsOf, ColumnTotals.metrics,
    SortedMap.find?_insert_self, find?_setIfKnown_self hnulls, find?_setIfKnown_self hlower,
    find?_setIfKnown_self hupper]

theorem metricsAt_setTotals_of_ne {c d : FieldId} (h : d ≠ c) (m : ColumnTotals) :
    (setTotals file c m).metricsAt d = file.metricsAt d := by
  simp only [setTotals, DataFile.metricsAt, DataFile.metricsOf, SortedMap.find?_insert_of_ne _ _ h,
    find?_setIfKnown_of_ne _ h]

/-- What a file says of itself stays in a walk over columns. -/
theorem given_foldl {ι : Type} {step : DataFile → ι → DataFile}
    (hstep : ∀ file i, (step file i).given = file.given) (file : DataFile) (l : List ι) :
    (l.foldl step file).given = file.given := by
  induction l generalizing file with
  | nil => rfl
  | cons i l ih => rw [List.foldl_cons, ih, hstep]

/-- A walk that sets each column at most once, with the metrics that the column is to have. -/
theorem metricsAt_foldl {ι : Type} {step : DataFile → ι → DataFile} {key : ι → FieldId}
    {metrics : ι → Option UInt64 × ColumnMetrics}
    (hself : ∀ file i, file.metricsAt (key i) = unmeasured →
      (step file i).metricsAt (key i) = metrics i)
    (hother : ∀ file i c, c ≠ key i → (step file i).metricsAt c = file.metricsAt c) {l : List ι}
    (hdistinct : l.Pairwise fun i j => key i ≠ key j)
    (hfile : ∀ i ∈ l, file.metricsAt (key i) = unmeasured) :
    (∀ i ∈ l, (l.foldl step file).metricsAt (key i) = metrics i) ∧
      ∀ c, (∀ i ∈ l, c ≠ key i) → (l.foldl step file).metricsAt c = file.metricsAt c := by
  induction l generalizing file with
  | nil => exact ⟨fun _ h => absurd h List.not_mem_nil, fun _ _ => rfl⟩
  | cons first rest ih =>
    obtain ⟨hfirst, hrest⟩ := List.pairwise_cons.1 hdistinct
    have hnext : ∀ i ∈ rest, (step file first).metricsAt (key i) = unmeasured := by
      intro i hi
      rw [hother file first _ (Ne.symm (hfirst i hi))]
      exact hfile i (List.mem_cons_of_mem _ hi)
    obtain ⟨hset, hkept⟩ := ih hrest hnext
    rw [List.foldl_cons]
    constructor
    · intro i hi
      rcases List.mem_cons.1 hi with rfl | hi
      · rw [hkept (key i) hfirst]
        exact hself file i (hfile i List.mem_cons_self)
      · exact hset i hi
    · intro c hc
      obtain ⟨hne, hc⟩ := List.forall_mem_cons.1 hc
      rw [hkept c hc, hother file first c hne]

/-! ### Descriptions -/

/-- A column with chunks is set to what they come to. -/
theorem addColumn_eq (footer : Footer) (file : DataFile) (field : Field) :
    addColumn footer file field =
      if chunksOf footer field.name = [] then file
      else setTotals file field.id (totalsOf field.type (chunksOf footer field.name)) := by
  rw [addColumn]
  split
  next hnil => rw [if_pos hnil]
  next hne => rw [if_neg hne]; rfl

variable {path : String} {size : Nat} {partition : PartitionTuple}

/-- A description says of the columns of the schema what their chunks come to, and nothing of
others. -/
theorem describe_metricsAt (path : String) (size : Nat) (footer : Footer) (schema : Schema)
    (partition : PartitionTuple) :
    (∀ field ∈ schema.fields, (describe path size footer schema partition).metricsAt field.id =
      columnMetrics field.type (chunksOf footer field.name)) ∧
    ∀ c, (∀ field ∈ schema.fields, c ≠ field.id) →
      (describe path size footer schema partition).metricsAt c = unmeasured := by
  apply metricsAt_foldl
  · intro file field hfile
    rw [addColumn_eq, columnMetrics]
    split
    · exact hfile
    · exact metricsAt_setTotals_self hfile _
  · intro file field c hc
    rw [addColumn_eq]
    split
    · rfl
    · exact metricsAt_setTotals_of_ne hc _
  · exact schema.distinct.imp And.left
  · exact fun _ _ => rfl

/-- What a description says of the file is what it was given. -/
theorem describe_given (path : String) (size : Nat) (footer : Footer) (schema : Schema)
    (partition : PartitionTuple) : (describe path size footer schema partition).given =
      (path, partition, count footer.rowCount, UInt64.ofNat size) := by
  rw [describe]
  apply given_foldl
  intro file field
  rw [addColumn_eq]
  split <;> rfl

/-- Bytes that are described have a footer, and are described by it. -/
theorem exists_footer_of_dataFile {bytes : ByteArray}
    (h : dataFile path bytes schema partition = .ok file) :
    ∃ footer, Footer.ofFile? bytes = some footer ∧
      describe path bytes.size footer schema partition = file := by
  unfold dataFile at h
  split at h
  · exact absurd h (by simp)
  · split at h
    · exact absurd h (by simp)
    · split at h
      next footer hfooter => exact ⟨footer, hfooter, Except.ok.inj h⟩
      next => exact absurd h (by simp)

/-- Footers with the same chunks of the columns of the schema, in whatever order, give the same
description. -/
theorem describe_congr (hrows : footer.rowCount = footer'.rowCount)
    (h : ∀ field ∈ schema.fields, (chunksOf footer field.name).Perm (chunksOf footer' field.name)) :
    describe path size footer schema partition = describe path size footer' schema partition := by
  apply DataFile.ext_metricsAt
  · rw [describe_given, describe_given, hrows]
  · intro c
    by_cases hc : ∃ field ∈ schema.fields, c = field.id
    · obtain ⟨field, hfield, rfl⟩ := hc
      rw [(describe_metricsAt ..).1 field hfield, (describe_metricsAt ..).1 field hfield,
        columnMetrics_perm (h field hfield)]
    · have hnone : ∀ field ∈ schema.fields, c ≠ field.id := fun field hfield he =>
        hc ⟨field, hfield, he⟩
      rw [(describe_metricsAt ..).2 c hnone, (describe_metricsAt ..).2 c hnone]

end Parquet

end Lakehouse
