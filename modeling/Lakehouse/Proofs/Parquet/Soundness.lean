import Lakehouse.Proofs.Parquet.Delivery
import Lakehouse.Proofs.Parquet.Walk

/- The metrics of a file are true of its rows.

   If no group of rows has two chunks of one column, the chunks of a column are one for each group
   that has it (`chunksOf_eq`), and the description of the file has their sums and the bounds around
   theirs (`measures_describe`). What a chunk says may be true of the values that it has
   (`ColumnChunk.Tells`). Then what the description says is true of the values of all rows: counts
   and nulls are those of all groups, and a value that is within the bounds of its group is within
   those around all groups, since bounds of one type compare with it as their numbers do
   (`within_totalBounds`, `describe_truthful`). -/
namespace Lakehouse

/-- What is below the lesser is below the greater, and what is above the greater is above the
lesser. -/
theorem compare_of_ne_gt {κ : Type} [Ord κ] [Std.TransOrd κ] {a b : κ} (h : compare a b ≠ .gt)
    (v : κ) : (some (compare v a) = some .lt → some (compare v b) = some .lt) ∧
      (some (compare v b) = some .gt → some (compare v a) = some .gt) := by
  have hle : (compare a b).isLE := Ordering.isLE_iff_ne_gt.2 h
  constructor
  · intro hlt
    exact congrArg some (Std.TransCmp.lt_of_lt_of_isLE (Option.some.inj hlt) hle)
  · intro hgt
    have hlt := Std.OrientedCmp.lt_of_gt (Option.some.inj hgt)
    exact congrArg some (Std.OrientedCmp.gt_of_lt (Std.TransCmp.lt_of_isLE_of_lt hle hlt))

/-- The same is so for a value and two bounds of one type, where integers of either width compare
by their numbers. -/
theorem Datum.compare?_of_le {a b v : Datum} (htype : a.type = b.type) (hle : a ≤ b) :
    (v.compare? a = some .lt → v.compare? b = some .lt) ∧
      (v.compare? b = some .gt → v.compare? a = some .gt) := by
  change Ord.compare a b ≠ .gt at hle
  have hnever : ∀ o : Ordering, none = some o → none = some o := fun _ h => h
  rcases a with a | a | a | a <;> rcases b with b | b | b | b
  case boolean.boolean =>
    have hab : compare a b ≠ .gt := hle
    cases v
    case boolean v => exact compare_of_ne_gt hab v
    all_goals exact ⟨hnever _, hnever _⟩
  case int.int =>
    have hab : compare a.toInt b.toInt ≠ .gt := (compare_int32 a b).symm ▸ hle
    cases v
    case int v => exact compare_of_ne_gt hab v.toInt
    case long v => exact compare_of_ne_gt hab v.toInt
    all_goals exact ⟨hnever _, hnever _⟩
  case long.long =>
    have hab : compare a.toInt b.toInt ≠ .gt := (compare_int64 a b).symm ▸ hle
    cases v
    case int v => exact compare_of_ne_gt hab v.toInt
    case long v => exact compare_of_ne_gt hab v.toInt
    all_goals exact ⟨hnever _, hnever _⟩
  case string.string =>
    have hab : compare a b ≠ .gt := hle
    cases v
    case string v => exact compare_of_ne_gt hab v
    all_goals exact ⟨hnever _, hnever _⟩
  all_goals exact nomatch htype

/-- What was not below a bound is not below it when both have the type of a column. -/
theorem Datum.le_of_convert? {lower low v : Datum} {type : ColumnType}
    (h : lower.convert? type = some low) (hv : v.type = type) (hnot : v.compare? lower ≠ some .lt) :
    low ≤ v := by
  rw [Datum.compare?_convert h hv] at hnot
  intro hgt
  refine hnot (congrArg some ?_)
  show Datum.compare v low = .lt
  rw [Datum.compare_swap, hgt]
  rfl

theorem Datum.ge_of_convert? {upper high v : Datum} {type : ColumnType}
    (h : upper.convert? type = some high) (hv : v.type = type)
    (hnot : v.compare? upper ≠ some .gt) : v ≤ high := by
  rw [Datum.compare?_convert h hv] at hnot
  exact fun hgt => hnot (congrArg some hgt)

namespace Parquet

variable {schema : Schema} {footer : Footer} {field : Field} {path : String} {size : Nat}
  {partition : PartitionTuple} {type : ColumnType} {chunks : List ColumnChunk}

/-! ### Chunks of a column -/

/-- The chunks of a column, one for each group of rows that has the column. -/
def column (groups : List (List ColumnChunk)) (name : String) : List ColumnChunk :=
  groups.filterMap fun group => chunk? group name

theorem filter_eq_chunk? {group : List ColumnChunk} {name : String}
    (h : (group.filter fun c => c.path = [name]).length ≤ 1) :
    (group.filter fun c => c.path = [name]) = (chunk? group name).toList := by
  rw [chunk?, ← List.head?_filter]
  generalize (group.filter fun c => decide (c.path = [name])) = found at h ⊢
  rcases found with _ | ⟨c, _ | ⟨d, rest⟩⟩
  · rfl
  · rfl
  · exact absurd h (by simp)

theorem chunksOf_eq (honce : footer.Once schema) (hfield : field ∈ schema.fields) :
    chunksOf footer field.name = column footer.rowGroups field.name := by
  have hgroups : ∀ groups : List (List ColumnChunk),
      (∀ group ∈ groups, (group.filter fun c => c.path = [field.name]).length ≤ 1) →
      (groups.flatten.filter fun c => c.path = [field.name]) = column groups field.name := by
    intro groups
    induction groups with
    | nil => exact fun _ => rfl
    | cons group groups ih =>
      intro hall
      obtain ⟨hgroup, hrest⟩ := List.forall_mem_cons.1 hall
      rw [List.flatten_cons, List.filter_append, ih hrest, filter_eq_chunk? hgroup, column, column,
        List.filterMap_cons]
      cases chunk? group field.name <;> rfl
  exact hgroups _ fun group hgroup => honce group hgroup field hfield

/-- What a file says of a column is what its chunks come to. Negative numbers count for nothing, and
counters hold sums up to their size. -/
structure Measures (file : DataFile) (field : Field) (chunks : List ColumnChunk) : Prop where
  size : ∃ n, file.columnSizes.find? field.id = some n ∧
    n.toNat = (chunks.map fun c => c.compressedSize.toNat).sum % 2 ^ 64
  values : ∃ n, file.valueCounts.find? field.id = some n ∧
    n.toNat = (chunks.map fun c => c.valueCount.toNat).sum % 2 ^ 64
  nullsKnown : (∃ n, file.nullCounts.find? field.id = some n) ↔
    ∀ c ∈ chunks, ∃ n, c.nullCount? = some n
  nulls : ∀ n, file.nullCounts.find? field.id = some n →
    n.toNat = (chunks.map fun c => (c.nullCount?.getD 0).toNat).sum % 2 ^ 64
  bothBounds : (∃ low, file.lowerBounds.find? field.id = some low) ↔
    ∃ high, file.upperBounds.find? field.id = some high
  bounds : ∀ low high, file.lowerBounds.find? field.id = some low ∧
      file.upperBounds.find? field.id = some high ↔
    (∀ c ∈ chunks, c.bounds?.isSome ∨ c.isAllNull) ∧
      ∃ lower upper, Hull (chunks.filterMap ColumnChunk.bounds?) lower upper ∧
        lower.convert? field.type = some low ∧ upper.convert? field.type = some high

theorem measures_of_metricsAt {file : DataFile}
    (h : file.metricsAt field.id = (totalsOf field.type chunks).metrics) :
    Measures file field chunks := by
  obtain ⟨hsize, hmetrics⟩ := Prod.mk.inj h
  obtain ⟨hvalues, hnulls, hlower, hupper⟩ := ColumnMetrics.mk.inj hmetrics
  refine ⟨⟨_, hsize, toNat_sum_count _ chunks⟩, ⟨_, hvalues, toNat_sum_count _ chunks⟩, ?_, ?_, ?_, ?_⟩
  · rw [hnulls]
    exact totalNulls_isSome
  · intro n hn
    exact toNat_totalNulls (hnulls.symm.trans hn)
  · rw [hlower, hupper, totalsOf]
    cases totalBounds field.type chunks <;> simp
  · intro low high
    rw [← totalBounds_eq_some_iff, hlower, hupper, totalsOf]
    cases totalBounds field.type chunks <;> simp [Prod.ext_iff]

theorem measures_describe (path : String) (size : Nat) (partition : PartitionTuple)
    (honce : footer.Once schema) (hfield : field ∈ schema.fields)
    (hne : column footer.rowGroups field.name ≠ []) :
    Measures (describe path size footer schema partition) field
      (column footer.rowGroups field.name) := by
  apply measures_of_metricsAt
  rw [(describe_metricsAt ..).1 field hfield, chunksOf_eq honce hfield, columnMetrics, if_neg hne]

/-! ### Truth -/

/-- What the chunk says is true of the values that it has, of which some may be null. -/
structure ColumnChunk.Tells (c : ColumnChunk) (values : List (Option Datum)) : Prop where
  counted : c.valueCount = values.length
  nulls : ∀ n, c.nullCount? = some n → n.toNat = values.count none
  bounds : ∀ b, c.bounds? = some b → ∀ v, some v ∈ values →
    v.compare? b.1 ≠ some .lt ∧ v.compare? b.2 ≠ some .gt

namespace ColumnChunk.Tells

variable {c : ColumnChunk} {values : List (Option Datum)}

/-- If all values are said to be null, they are. -/
theorem eq_none (h : c.Tells values) (hall : c.isAllNull = true) (hfit : values.length < 2 ^ 64) :
    ∀ v ∈ values, v = none := by
  have hnulls := h.nulls _ (eq_of_beq hall)
  rw [count, h.counted, Int.toNat_natCast, UInt64.toNat_ofNat_of_lt' hfit] at hnulls
  intro v hv
  exact (List.count_eq_length.1 hnulls.symm v hv).symm

end ColumnChunk.Tells

/-- If what the chunks of a column say is true of their values, these are within the bounds of all
chunks together. -/
theorem within_totalBounds {parts : List (List (Option Datum))} {low high v : Datum}
    (htells : List.Forall₂ ColumnChunk.Tells chunks parts) (bound : ColumnType)
    (hone : ∀ c ∈ chunks, ∀ s, c.statistics = some s → s.HasType bound)
    (hfit : parts.flatten.length < 2 ^ 64) (htotal : totalBounds type chunks = some (low, high))
    (hv : some v ∈ parts.flatten) (htype : v.type = type) : low ≤ v ∧ v ≤ high := by
  obtain ⟨hall, lower, upper, hhull, hlow, hhigh⟩ := totalBounds_eq_some_iff.1 htotal
  have htypes : ∀ b ∈ chunks.filterMap ColumnChunk.bounds?, b.1.type = bound ∧ b.2.type = bound := by
    intro b hb
    obtain ⟨c, hc, hb⟩ := List.mem_filterMap.1 hb
    obtain ⟨s, hs, hb⟩ := Option.bind_eq_some_iff.1 hb
    exact hone c hc s hs b hb
  obtain ⟨values, hvalues, hmem⟩ := List.mem_flatten.1 hv
  obtain ⟨c, hc, htell⟩ := exists_of_forall₂ htells.flip hvalues
  -- The chunk of the value has bounds, since not all of its values are null.
  have hlength := (List.sublist_flatten_of_mem hvalues).length_le
  obtain ⟨b, hb⟩ : ∃ b, c.bounds? = some b := by
    rcases hall c hc with hsome | hnull
    · exact Option.isSome_iff_exists.1 hsome
    · exact absurd (htell.eq_none hnull (by omega) _ hmem) (by simp)
  have hbmem : b ∈ chunks.filterMap ColumnChunk.bounds? := List.mem_filterMap.2 ⟨c, hc, hb⟩
  obtain ⟨hnotBelow, hnotAbove⟩ := htell.bounds b hb v hmem
  -- The outermost bounds may be those of other chunks, but they have the type of these.
  obtain ⟨first, hfirst, hlowest⟩ := hhull.lower_mem
  obtain ⟨last, hlast, hhighest⟩ := hhull.upper_mem
  have hbelow : lower.type = b.1.type := by
    rw [← hlowest, (htypes first hfirst).1, (htypes b hbmem).1]
  have habove : b.2.type = upper.type := by
    rw [← hhighest, (htypes last hlast).2, (htypes b hbmem).2]
  constructor
  · apply Datum.le_of_convert? hlow htype
    intro hlt
    exact hnotBelow ((Datum.compare?_of_le hbelow (hhull.lower_le b hbmem)).1 hlt)
  · apply Datum.ge_of_convert? hhigh htype
    intro hgt
    exact hnotAbove ((Datum.compare?_of_le habove (hhull.le_upper b hbmem)).2 hgt)

/-- If what the chunks of a column say is true of their values, what they come to is true of all
values. -/
theorem describe_of_tells {parts : List (List (Option Datum))}
    (htells : List.Forall₂ ColumnChunk.Tells chunks parts)
    (htyped : ∀ v, some v ∈ parts.flatten → v.type = type) (bound : ColumnType)
    (hone : ∀ c ∈ chunks, ∀ s, c.statistics = some s → s.HasType bound)
    (hfit : parts.flatten.length < 2 ^ 64) :
    (totalsOf type chunks).metrics.2.Describe parts.flatten := by
  refine ⟨?_, ?_, ?_, ?_⟩
  · intro n hn
    obtain rfl := Option.some.inj hn
    have hlengths : (chunks.map fun c => c.valueCount.toNat) = parts.map List.length :=
      map_eq_of_forall₂ (fun c values htell => by rw [htell.counted, Int.toNat_natCast]) htells
    show (sum (chunks.map fun c => count c.valueCount)).toNat = _
    rw [toNat_sum_count, hlengths, ← List.length_flatten, Nat.mod_eq_of_lt hfit]
  · intro n hn
    have hknown := totalNulls_isSome.1 ⟨n, hn⟩
    have hnulls : (chunks.map fun c => (c.nullCount?.getD 0).toNat) = parts.map (List.count none) := by
      refine map_eq_of_forall₂ (fun c values hboth => ?_)
        ((List.forall₂_and_left chunks parts).2 ⟨hknown, htells⟩)
      obtain ⟨⟨k, hk⟩, htell⟩ := hboth
      rw [hk]
      exact htell.nulls k hk
    have hle := List.count_le_length (a := (none : Option Datum)) (l := parts.flatten)
    rw [toNat_totalNulls hn, hnulls, ← List.count_flatten, Nat.mod_eq_of_lt (by omega)]
  · intro low hlow v hv
    obtain ⟨b, hb, rfl⟩ := Option.map_eq_some_iff.1 hlow
    exact (within_totalBounds htells bound hone hfit hb hv (htyped v hv)).1
  · intro high hhigh v hv
    obtain ⟨b, hb, rfl⟩ := Option.map_eq_some_iff.1 hhigh
    exact (within_totalBounds htells bound hone hfit hb hv (htyped v hv)).2

/-- What the statistics of a group of rows say is true of its rows. -/
def TellsRows (schema : Schema) (group : List ColumnChunk) (rows : List Row) : Prop :=
  ∀ field ∈ schema.fields, ∀ c, chunk? group field.name = some c →
    c.Tells (rows.map (· field.id))

theorem forall₂_column {groups : List (List ColumnChunk)} {parts : List (List Row)}
    (hfield : field ∈ schema.fields) (hall : ∀ group ∈ groups, (chunk? group field.name).isSome)
    (h : List.Forall₂ (TellsRows schema) groups parts) :
    List.Forall₂ ColumnChunk.Tells (column groups field.name)
      (parts.map fun rows => rows.map (· field.id)) := by
  induction h with
  | nil => exact .nil
  | cons hone _ ih =>
    obtain ⟨hgroup, hrest⟩ := List.forall_mem_cons.1 hall
    obtain ⟨c, hc⟩ := Option.isSome_iff_exists.1 hgroup
    rw [column, List.filterMap_cons, hc]
    exact .cons (hone field hfield c hc) (ih hrest)

/-- If the statistics of all groups are true of their rows, what the description says of any column
is true of all rows. -/
theorem describe_truthful (path : String) (size : Nat) (partition : PartitionTuple)
    (honce : footer.Once schema) (hregular : footer.Regular schema) {parts : List (List Row)}
    (htells : List.Forall₂ (TellsRows schema) footer.rowGroups parts)
    (htyped : ∀ row ∈ parts.flatten, row.IsTyped schema) (hfit : parts.flatten.length < 2 ^ 64)
    (id : FieldId) :
    ((describe path size footer schema partition).metricsOf id).Describe
      (parts.flatten.map (· id)) := by
  have hnothing : ∀ values, unmeasured.2.Describe values := fun values =>
    ⟨fun _ h => (nomatch h), fun _ h => (nomatch h), fun _ h => (nomatch h), fun _ h => (nomatch h)⟩
  obtain ⟨hset, hunset⟩ := describe_metricsAt path size footer schema partition
  by_cases hid : ∃ field ∈ schema.fields, id = field.id
  · obtain ⟨field, hfield, rfl⟩ := hid
    have hmetrics := congrArg Prod.snd (hset field hfield)
    rw [chunksOf_eq honce hfield, columnMetrics] at hmetrics
    rw [show (describe path size footer schema partition).metricsOf field.id = _ from hmetrics]
    split
    next => exact hnothing _
    next hne =>
      -- As some group has the column, all groups have it.
      obtain ⟨c, hc⟩ := List.exists_mem_of_ne_nil _ hne
      obtain ⟨group, hgroup, hchunk⟩ := List.mem_filterMap.1 hc
      have hall : ∀ other ∈ footer.rowGroups, (chunk? other field.name).isSome := by
        intro other hother
        exact hregular.everywhere field hfield group hgroup other hother (by rw [hchunk]; rfl)
      obtain ⟨bound, hbound⟩ := hregular.oneType field hfield
      rw [List.map_flatten]
      refine describe_of_tells (forall₂_column hfield hall htells) ?_ bound ?_ ?_
      · intro v hv
        rw [← List.map_flatten] at hv
        obtain ⟨row, hrow, hv⟩ := List.mem_map.1 hv
        exact htyped row hrow field hfield v hv
      · intro c hc
        obtain ⟨group, hgroup, hchunk⟩ := List.mem_filterMap.1 hc
        exact hbound group hgroup c hchunk
      · rw [← List.map_flatten, List.length_map]
        exact hfit
  · have hmetrics := congrArg Prod.snd (hunset id fun field hfield he => hid ⟨field, hfield, he⟩)
    rw [show (describe path size footer schema partition).metricsOf id = _ from hmetrics]
    exact hnothing _

/-! ### Sound metrics -/

/-- The chunk is of a column at the top of the tree and in the schema. -/
def isMatched (schema : Schema) (c : ColumnChunk) : Bool :=
  schema.fields.any fun field => c.path = [field.name]

/-- Chunks that are not matched contribute nothing. -/
theorem describe_matched (path : String) (size : Nat) (footer : Footer) (schema : Schema)
    (partition : PartitionTuple) :
    describe path size ⟨footer.rowCount, footer.rowGroups.map (·.filter (isMatched schema))⟩ schema
      partition = describe path size footer schema partition := by
  refine describe_congr rfl fun field hfield => .of_eq ?_
  rw [chunksOf, chunksOf, ← List.filter_flatten, List.filter_filter]
  refine List.filter_congr fun c _ => ?_
  by_cases hpath : c.path = [field.name]
  · have hmatched : isMatched schema c = true :=
      List.any_eq_true.2 ⟨field, hfield, decide_eq_true hpath⟩
    rw [hmatched, Bool.and_true]
  · simp [hpath]

/-- What holds of the description of a file, given by the chunks in its footer: each column of the
schema is measured by its chunks, nothing else is measured, and neither other chunks nor the order
of the groups of rows are of account. If what the groups say is true of their rows, the description
is true of all rows. -/
structure SoundMetrics (path : String) (size : Nat) (footer : Footer) (schema : Schema)
    (partition : PartitionTuple) : Prop where
  measured : ∀ field ∈ schema.fields, column footer.rowGroups field.name ≠ [] →
    Measures (describe path size footer schema partition) field
      (column footer.rowGroups field.name)
  others : ∀ id, (∀ field ∈ schema.fields, id = field.id →
      column footer.rowGroups field.name = []) →
    (describe path size footer schema partition).metricsAt id = unmeasured
  unmatched : describe path size
      ⟨footer.rowCount, footer.rowGroups.map (·.filter (isMatched schema))⟩ schema partition =
    describe path size footer schema partition
  reordered : ∀ groups, groups.Perm footer.rowGroups →
    describe path size ⟨footer.rowCount, groups⟩ schema partition =
      describe path size footer schema partition
  walked : describeByWalk path size footer schema partition =
    describe path size footer schema partition
  truthful : footer.Regular schema → ∀ parts : List (List Row),
    List.Forall₂ (TellsRows schema) footer.rowGroups parts →
    (∀ row ∈ parts.flatten, row.IsTyped schema) → parts.flatten.length < 2 ^ 64 → ∀ id,
    ((describe path size footer schema partition).metricsOf id).Describe
      (parts.flatten.map (· id))

/-- The metrics of a file are sound, whatever its footer says, if no group of rows has two chunks of
a column of the schema. Then a footer that was read from a file is regular; and statistics in
it have bounds if both are in the file and are the bytes of literals. -/
theorem metrics_are_sound (path : String) (size : Nat) (partition : PartitionTuple)
    (honce : footer.Once schema) :
    SoundMetrics path size footer schema partition ∧
      (∀ bytes, Footer.ofFile? bytes = some footer → footer.Regular schema) ∧
      ∀ type (raw : Footer.RawStatistics) s, raw.statistics? type = some s →
        ((∃ b, s.bounds = some b) ↔ ∃ lower upper, raw.bounds = (some lower, some upper) ∧
          Footer.HasLiteral type lower ∧ Footer.HasLiteral type upper) := by
  refine ⟨⟨?_, ?_, describe_matched .., ?_, describeByWalk_eq .., ?_⟩, ?_, ?_⟩
  · intro field hfield hne
    exact measures_describe path size partition honce hfield hne
  · intro id hnone
    obtain ⟨hset, hunset⟩ := describe_metricsAt path size footer schema partition
    by_cases hid : ∃ field ∈ schema.fields, id = field.id
    · obtain ⟨field, hfield, rfl⟩ := hid
      rw [hset field hfield, chunksOf_eq honce hfield, columnMetrics,
        if_pos (hnone field hfield rfl)]
    · exact hunset id fun field hfield he => hid ⟨field, hfield, he⟩
  · intro groups hperm
    exact describe_congr rfl fun field _ => hperm.flatten.filter _
  · intro hregular parts htells htyped hfit id
    exact describe_truthful path size partition honce hregular htells htyped hfit id
  · exact fun bytes hread => Footer.regular_of_file hread honce
  · exact fun type raw s h => Footer.RawStatistics.bounds_isSome h

/-- A column of long integers. -/
def oneLong : Schema := ⟨[⟨1, "n", .long, false⟩], by simp⟩

/-- Three rows in two groups, of which the second has a null only. -/
def twoGroups : Footer where
  rowCount := 3
  rowGroups := [
    [⟨["m", "n"], 8, 2, none⟩, ⟨["n"], 10, 2, some ⟨some 0, some (.int (-1), .int 5)⟩⟩],
    [⟨["m", "n"], 8, 1, none⟩, ⟨["n"], -4, 1, some ⟨some 1, none⟩⟩]]

theorem metrics_are_sound_twoGroups : twoGroups.Once oneLong ∧ twoGroups.Regular oneLong ∧
    (describe "a" 64 twoGroups oneLong []).metricsOf 1 =
      ⟨some 3, some 1, some (.long (-1)), some (.long 5)⟩ ∧
    ((describe "a" 64 twoGroups oneLong []).metricsOf 1).Describe
      [some (.long 5), some (.long (-1)), none] := by
  have honce : twoGroups.Once oneLong := by
    intro group hgroup field hfield
    obtain rfl := List.mem_singleton.1 hfield
    revert group
    decide
  have hregular : twoGroups.Regular oneLong := by
    refine ⟨fun field hfield => ?_, fun field hfield => ⟨.int, ?_⟩⟩
    · obtain rfl := List.mem_singleton.1 hfield
      decide
    · obtain rfl := List.mem_singleton.1 hfield
      intro group hgroup c hc s hs b hb
      rcases List.mem_cons.1 hgroup with rfl | hgroup
      · obtain rfl := Option.some.inj hc
        obtain rfl := Option.some.inj hs
        obtain rfl := Option.some.inj hb
        exact ⟨rfl, rfl⟩
      · obtain rfl := List.mem_singleton.1 hgroup
        obtain rfl := Option.some.inj hc
        obtain rfl := Option.some.inj hs
        exact nomatch hb
  have hfirst : TellsRows oneLong
      [⟨["m", "n"], 8, 2, none⟩, ⟨["n"], 10, 2, some ⟨some 0, some (.int (-1), .int 5)⟩⟩]
      [fun _ => some (.long 5), fun _ => some (.long (-1))] := by
    intro field hfield c hc
    obtain rfl := List.mem_singleton.1 hfield
    obtain rfl := Option.some.inj hc
    refine ⟨rfl, fun n hn => ?_, fun b hb v hv => ?_⟩
    · obtain rfl := Option.some.inj hn
      decide
    · obtain rfl := Option.some.inj hb
      simp only [List.map_cons, List.map_nil, List.mem_cons, Option.some.injEq, List.not_mem_nil,
        or_false] at hv
      rcases hv with rfl | rfl <;> decide
  have hsecond : TellsRows oneLong
      [⟨["m", "n"], 8, 1, none⟩, ⟨["n"], -4, 1, some ⟨some 1, none⟩⟩] [fun _ => none] := by
    intro field hfield c hc
    obtain rfl := List.mem_singleton.1 hfield
    obtain rfl := Option.some.inj hc
    refine ⟨rfl, fun n hn => ?_, fun b hb => nomatch hb⟩
    obtain rfl := Option.some.inj hn
    decide
  refine ⟨honce, hregular, by decide, ?_⟩
  refine (metrics_are_sound "a" 64 [] honce).1.truthful hregular
    [[fun _ => some (.long 5), fun _ => some (.long (-1))], [fun _ => none]]
    (.cons hfirst (.cons hsecond .nil)) ?_ (by decide) 1
  intro row hrow field hfield v hv
  obtain rfl := List.mem_singleton.1 hfield
  simp only [List.flatten_cons, List.flatten_nil, List.append_nil, List.cons_append, List.nil_append,
    List.mem_cons, List.not_mem_nil, or_false] at hrow
  rcases hrow with rfl | rfl | rfl
  · obtain rfl := Option.some.inj hv
    rfl
  · obtain rfl := Option.some.inj hv
    rfl
  · exact nomatch hv

end Parquet

end Lakehouse
