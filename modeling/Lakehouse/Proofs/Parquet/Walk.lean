import Lakehouse.Proofs.Parquet.Totals

/- One walk over the groups of rows.

   The metrics of all columns can be put together in one walk that keeps running totals for each
   column: sums, the number of nulls as long as each chunk has had one, the bounds around those of
   the chunks so far, and whether there may be values outside (`Running.add`). A first chunk is
   told from a later one, since before it the totals are those of no chunk. After a walk the
   running totals are the totals of the chunks of the column (`Running.add_totals`,
   `find?_note`), so the walk gives the same description (`describeByWalk_eq`). -/
namespace Lakehouse.Parquet

/-- What a walk has seen of a column so far. -/
structure Running where
  size : UInt64 := 0
  values : UInt64 := 0
  nulls : Option UInt64 := none
  bounds : Option (Datum × Datum) := none
  complete : Bool := false
  seen : Bool := false
  deriving DecidableEq, Repr

namespace Running

/-- One more chunk of the column. Once a chunk has no number of nulls, or neither bounds nor nulls
only, this is never made good by a later one. -/
def add (r : Running) (c : ColumnChunk) : Running where
  size := r.size + count c.compressedSize
  values := r.values + count c.valueCount
  nulls :=
    match r.seen, r.nulls, c.nullCount? with
    | false, _, n => n
    | true, some before, some n => some (before + n)
    | true, _, _ => none
  bounds :=
    match r.bounds, c.bounds? with
    | some before, some b => some (lesser before.1 b.1, greater before.2 b.2)
    | none, b => b
    | before, none => before
  complete := (!r.seen || r.complete) && (c.bounds?.isSome || c.isAllNull)
  seen := true

/-- The totals of a column, of which there has to be a chunk. -/
def totals (chunks : List ColumnChunk) : Running where
  size := sum (chunks.map fun c => count c.compressedSize)
  values := sum (chunks.map fun c => count c.valueCount)
  nulls := totalNulls chunks
  bounds := hull (chunks.filterMap ColumnChunk.bounds?)
  complete := chunks.all fun c => c.bounds?.isSome || c.isAllNull
  seen := true

theorem hull_concat (bounds : List (Datum × Datum)) (b : Datum × Datum) :
    hull (bounds ++ [b]) = some (match hull bounds with
      | some before => (lesser before.1 b.1, greater before.2 b.2)
      | none => b) := by
  cases bounds with
  | nil => rfl
  | cons first rest =>
    rw [List.cons_append, hull, hull, List.foldl_append]
    rfl

theorem totalNulls_concat (chunks : List ColumnChunk) (c : ColumnChunk) :
    totalNulls (chunks ++ [c]) = match totalNulls chunks, c.nullCount? with
      | some before, some n => some (before + n)
      | _, _ => none := by
  rw [totalNulls_eq, totalNulls_eq, List.all_append, List.map_append, List.map_singleton, sum_concat,
    List.all_cons, List.all_nil, Bool.and_true]
  cases chunks.all fun c => c.nullCount?.isSome <;> cases c.nullCount? <;> rfl

theorem filterMap_concat (chunks : List ColumnChunk) (c : ColumnChunk) :
    (chunks ++ [c]).filterMap ColumnChunk.bounds? =
      chunks.filterMap ColumnChunk.bounds? ++ c.bounds?.toList := by
  rw [List.filterMap_append]
  cases h : c.bounds? <;> simp [h]

/-- A later chunk is added to the totals. -/
theorem add_totals (chunks : List ColumnChunk) (c : ColumnChunk) :
    (totals chunks).add c = totals (chunks ++ [c]) := by
  simp only [add, totals, List.map_append, List.map_singleton, sum_concat, totalNulls_concat,
    filterMap_concat, List.all_append, List.all_cons, List.all_nil, Bool.and_true, Bool.not_true,
    Bool.false_or]
  congr 1
  · cases totalNulls chunks <;> cases c.nullCount? <;> rfl
  · cases c.bounds? with
    | none =>
      rw [Option.toList_none, List.append_nil]
      cases hull (chunks.filterMap ColumnChunk.bounds?) <;> rfl
    | some b =>
      rw [Option.toList_some, hull_concat]
      cases hull (chunks.filterMap ColumnChunk.bounds?) <;> rfl

/-- The first chunk makes the totals. -/
theorem add_first (c : ColumnChunk) : ({} : Running).add c = totals [c] := by
  have hnulls := totalNulls_concat [] c
  have hbounds := filterMap_concat [] c
  rw [List.nil_append] at hnulls hbounds
  simp only [add, totals, hnulls, hbounds]
  congr 1
  · cases c.nullCount? with
    | none => rfl
    | some n => exact congrArg some (UInt64.zero_add n).symm
  · cases c.bounds? <;> rfl
  · simp

end Running

/-! ### The walk -/

variable {schema : Schema} {footer : Footer} {field : Field}

/-- Notes a chunk, if its column is at the top and in the schema. -/
def note (schema : Schema) (seen : SortedMap FieldId Running) (c : ColumnChunk) :
    SortedMap FieldId Running :=
  match c.path with
  | [name] =>
    match schema.byName? name with
    | some field => seen.insert field.id (((seen.find? field.id).getD {}).add c)
    | none => seen
  | _ => seen

/-- What a walk over all groups of rows has seen. -/
def walk (schema : Schema) (groups : List (List ColumnChunk)) : SortedMap FieldId Running :=
  groups.foldl (fun seen group => group.foldl (note schema) seen) .empty

/-- What was seen of a column of the type, in the end. There are no bounds if there may be values
outside. -/
def Running.finish (r : Running) (type : Option ColumnType) : ColumnTotals where
  size := r.size
  values := r.values
  nulls := r.nulls
  bounds := if r.complete then r.bounds.bind fun b => type.bind fun t => convertBoth? t b else none

/-- Writes down what was seen of a column. -/
def writeColumn (schema : Schema) (file : DataFile) (entry : FieldId × Running) : DataFile :=
  setTotals file entry.1 (entry.2.finish ((schema.byId? entry.1).map Field.type))

/-- The description of a file by one walk over its groups of rows. -/
def describeByWalk (path : String) (size : Nat) (footer : Footer) (schema : Schema)
    (partition : PartitionTuple) : DataFile :=
  (walk schema footer.rowGroups).toList.foldl (writeColumn schema)
    (.withoutMetrics path partition (count footer.rowCount) (UInt64.ofNat size))

/-- What has been seen of a column after some chunks: nothing before its first one. -/
def seenOf (chunks : List ColumnChunk) : Option Running :=
  if chunks = [] then none else some (Running.totals chunks)

theorem seenOf_concat (chunks : List ColumnChunk) (c : ColumnChunk) :
    seenOf (chunks ++ [c]) = some (((seenOf chunks).getD {}).add c) := by
  rw [seenOf, if_neg (by simp), seenOf]
  split
  next h =>
    subst h
    exact congrArg some (Running.add_first c).symm
  next => exact congrArg some (Running.add_totals chunks c).symm

/-- A walk over chunks has seen the totals of each column of the schema. -/
theorem find?_note (chunks : List ColumnChunk) (hfield : field ∈ schema.fields) :
    (chunks.foldl (note schema) .empty).find? field.id =
      seenOf (chunks.filter fun c => c.path = [field.name]) := by
  induction chunks using List.reverseRecOn with
  | nil => rfl
  | append_singleton chunks c ih =>
    rw [List.foldl_append, List.foldl_cons, List.foldl_nil, List.filter_append]
    by_cases hpath : c.path = [field.name]
    · have hname := Schema.byName?_eq_some_iff.2 ⟨hfield, rfl⟩
      rw [List.filter_cons_of_pos (by simpa using hpath), List.filter_nil, seenOf_concat, note, hpath]
      dsimp only
      rw [hname]
      dsimp only
      rw [SortedMap.find?_insert_self, ih]
    · rw [List.filter_cons_of_neg (by simpa using hpath), List.filter_nil, List.append_nil, ← ih, note]
      -- The chunk is of another column, or of none; two columns with one id would be the same.
      split
      next name hname =>
        split
        next other hother =>
          obtain ⟨hmem, rfl⟩ := Schema.byName?_eq_some_iff.1 hother
          refine SortedMap.find?_insert_of_ne _ _ fun hid => hpath ?_
          rw [hname, Schema.eq_of_id_eq hfield hmem hid]
        next => rfl
      next => rfl

/-- Nothing is noted for a column that is not in the schema. -/
theorem find?_note_of_not_mem {id : FieldId} (chunks : List ColumnChunk)
    (h : ∀ field ∈ schema.fields, id ≠ field.id) :
    (chunks.foldl (note schema) .empty).find? id = none := by
  induction chunks using List.reverseRecOn with
  | nil => rfl
  | append_singleton chunks c ih =>
    rw [List.foldl_append, List.foldl_cons, List.foldl_nil, note]
    split
    next name hname =>
      split
      next field hfield =>
        rw [SortedMap.find?_insert_of_ne _ _ (h field (Schema.byName?_eq_some_iff.1 hfield).1), ih]
      next => exact ih
    next => exact ih

theorem walk_eq (groups : List (List ColumnChunk)) :
    walk schema groups = groups.flatten.foldl (note schema) .empty := List.foldl_flatten.symm

theorem finish_totals (type : ColumnType) (chunks : List ColumnChunk) :
    (Running.totals chunks).finish (some type) = totalsOf type chunks := by
  rw [totalsOf, totalBounds_eq]
  rfl

/-- What was seen of each column is written down once. -/
theorem metricsAt_describeByWalk (path : String) (size : Nat) (footer : Footer) (schema : Schema)
    (partition : PartitionTuple) :
    (∀ id r, (walk schema footer.rowGroups).find? id = some r →
      (describeByWalk path size footer schema partition).metricsAt id =
        (r.finish ((schema.byId? id).map Field.type)).metrics) ∧
    ∀ id, (walk schema footer.rowGroups).find? id = none →
      (describeByWalk path size footer schema partition).metricsAt id = unmeasured := by
  have hdistinct : (walk schema footer.rowGroups).toList.Pairwise fun a b => a.1 ≠ b.1 :=
    List.pairwise_map.1 (SortedMap.nodup_keys _)
  have hwritten := @metricsAt_foldl (.withoutMetrics path partition (count footer.rowCount)
    (UInt64.ofNat size)) _ (writeColumn schema) Prod.fst
    (fun entry => (entry.2.finish ((schema.byId? entry.1).map Field.type)).metrics)
    (fun _ _ hfile => metricsAt_setTotals_self hfile _)
    (fun _ _ _ hc => metricsAt_setTotals_of_ne hc _) _ hdistinct (fun _ _ => rfl)
  constructor
  · intro id r hr
    exact hwritten.1 (id, r) (SortedMap.mem_toList.2 hr)
  · intro id hnone
    apply hwritten.2
    intro entry hentry heq
    have hsome := SortedMap.mem_toList.1 hentry
    rw [← heq, hnone] at hsome
    exact absurd hsome (by simp)

/-- One walk over the groups of rows gives the description. -/
theorem describeByWalk_eq (path : String) (size : Nat) (footer : Footer) (schema : Schema)
    (partition : PartitionTuple) :
    describeByWalk path size footer schema partition =
      describe path size footer schema partition := by
  obtain ⟨hseen, hunseen⟩ := metricsAt_describeByWalk path size footer schema partition
  obtain ⟨hmembers, hothers⟩ := describe_metricsAt path size footer schema partition
  apply DataFile.ext_metricsAt
  · rw [describe_given, describeByWalk]
    apply given_foldl
    exact fun _ _ => rfl
  · intro c
    by_cases hc : ∃ field ∈ schema.fields, c = field.id
    · obtain ⟨field, hfield, rfl⟩ := hc
      -- Something was seen of the column if and only if it has chunks.
      have hfind : (walk schema footer.rowGroups).find? field.id =
          seenOf (chunksOf footer field.name) := by
        rw [walk_eq, find?_note _ hfield]
        rfl
      rw [hmembers field hfield, columnMetrics]
      rw [seenOf] at hfind
      split
      next hnil => exact hunseen _ (hfind.trans (if_pos hnil))
      next hne =>
        rw [hseen _ _ (hfind.trans (if_neg hne)), Schema.byId?_of_mem hfield, Option.map_some,
          finish_totals]
    · have hnone : ∀ field ∈ schema.fields, c ≠ field.id := fun field hfield he =>
        hc ⟨field, hfield, he⟩
      rw [hothers c hnone]
      apply hunseen
      rw [walk_eq]
      exact find?_note_of_not_mem _ hnone

end Lakehouse.Parquet
