import Lakehouse.Inspect.Scan
import Lakehouse.Proofs.Filter.Typing
import Lakehouse.Proofs.Inspect.Arrays

/- What the tables about a table show.

   For each kind of row there is a list of projections: what each column shows of one row. It is
   the row's own field, with counts stopped at the greatest signed integer, times rounded down to
   microseconds, bounds as text, and null for a map of metrics without entries. The columns that
   are built from all rows together render these projections. For the slots of partitions this
   needs that their source columns are there and their values of these columns' types
   (`renders_slots`), as an array of one type takes no others. -/
namespace Lakehouse

variable {α : Type}

namespace Calendar.Instant

/-- Nanoseconds since the beginning of 1970. -/
def nanoseconds (t : Instant) : Int :=
  (t.date.daysSince1970 * secondsPerDay + t.second) * nanosPerSecond + t.nano

/-- Microseconds are nanoseconds rounded down. -/
theorem microseconds_eq (t : Instant) : t.microseconds = t.nanoseconds / 1000 := by
  have hnanos : (nanosPerSecond : Int) = 1000000000 := rfl
  rw [microseconds, nanoseconds, hnanos]
  omega

theorem daysSince1970_bounds {d : Date} (h : d.Valid) :
    -100000000 < d.daysSince1970 ∧ d.daysSince1970 < 100000000 := by
  have hday : daysInMonth d.year d.month ≤ 31 := by
    unfold daysInMonth
    split <;> (try split) <;> omega
  obtain ⟨hlow, hhigh, hmonth, hmonth', hfirst, hlast⟩ := h
  simp only [minYear, maxYear] at hlow hhigh
  rw [Date.daysSince1970]
  split <;> omega

/-- All times that there are have a number of microseconds in 64 bits. -/
theorem toInt_microseconds (t : Instant) : (Int64.ofInt t.microseconds).toInt = t.microseconds := by
  have hdays := daysSince1970_bounds t.valid
  have hsecond := t.second_lt
  have hnano := t.nano_lt
  have hday : secondsPerDay = 86400 := rfl
  have hnanos : nanosPerSecond = 1000000000 := rfl
  rw [hday] at hsecond
  rw [hnanos] at hnano
  refine Int64.toInt_ofInt_of_le ?_ ?_ <;> rw [microseconds, hday] <;> omega

end Calendar.Instant

/-- A count stays as it is, or stops at the greatest integer. -/
theorem toInt_saturate64 (n : UInt64) :
    (saturate64 n).toInt = min (n.toNat : Int) Int64.maxValue.toInt := by
  have hmax : Int64.maxValue.toInt = 9223372036854775807 := rfl
  rw [saturate64, hmax]
  split
  next h =>
    rw [Int64.toInt_ofNat_of_lt (by omega)]
    omega
  next h =>
    rw [hmax]
    omega

theorem toInt_saturate32 (n : UInt64) :
    (saturate32 n).toInt = min (n.toNat : Int) Int32.maxValue.toInt := by
  have hmax : Int32.maxValue.toInt = 2147483647 := rfl
  rw [saturate32, hmax]
  split
  next h =>
    rw [Int32.toInt_ofNat_of_lt (by omega)]
    omega
  next h =>
    rw [hmax]
    omega

/-! ### What columns show -/

/-- The cell of a value. -/
def Cell.datum : Datum → Cell
  | .boolean b => .boolean b
  | .int i => .integer i.toInt
  | .long l => .integer l.toInt
  | .string s => .text s

/-- The type of the cells of a slot with this source column. -/
def CellType.ofSource : Option Field → CellType
  | none => .struct []
  | some source =>
    match source.type with
    | .boolean => .boolean
    | .int => .int32
    | .long => .int64
    | .string => .text

namespace Projection

def text (name : String) (f : α → String) : Projection α :=
  ⟨name, .text, false, fun a => .text (f a)⟩

def optionalText (name : String) (f : α → Option String) : Projection α :=
  ⟨name, .text, true, fun a => .option .text (f a)⟩

def count (name : String) (f : α → UInt64) : Projection α :=
  ⟨name, .int64, false, fun a => .integer (min (f a).toNat Int64.maxValue.toInt)⟩

def smallCount (name : String) (f : α → UInt64) : Projection α :=
  ⟨name, .int32, false, fun a => .integer (min (f a).toNat Int32.maxValue.toInt)⟩

def number (name : String) (f : α → Int32) : Projection α :=
  ⟨name, .int32, false, fun a => .integer (f a).toInt⟩

def snapshotId (name : String) (f : α → SnapshotId) : Projection α :=
  ⟨name, .int64, false, fun a => .integer (f a).toInt⟩

def optionalId (name : String) (f : α → Option SnapshotId) : Projection α :=
  ⟨name, .int64, true, fun a => .option (fun id => .integer id.toInt) (f a)⟩

def time (name : String) (f : α → Calendar.Instant) : Projection α :=
  ⟨name, .timestamp, false, fun a => .integer ((f a).nanoseconds / 1000)⟩

def flag (name : String) (f : α → Bool) : Projection α :=
  ⟨name, .boolean, false, fun a => .boolean (f a)⟩

/-- A map of metrics, null if it is empty. -/
def metrics {β : Type} (name : String) (type : CellType) (write : β → Cell)
    (f : α → SortedMap FieldId β) : Projection α :=
  ⟨name, .map .int32 type, true, fun a =>
    if (f a).isEmpty then .null
    else .map ((f a).toList.map fun e => (.integer e.1.toInt, write e.2))⟩

def counts (name : String) (f : α → SortedMap FieldId UInt64) : Projection α :=
  metrics name .int64 (fun n => .integer (min n.toNat Int64.maxValue.toInt)) f

def bounds (name : String) (f : α → SortedMap FieldId Datum) : Projection α :=
  metrics name .text (fun d => .text d.display) f

/-- The value in a slot. -/
def slot (schema : Schema) (slot : Nat) (field : PartitionField) : Projection PartitionTuple :=
  ⟨field.name, .ofSource (schema.byId? field.sourceId), true, fun t => .option .datum (t.value? slot)⟩

/-- The slots together, if the spec has any. -/
def partition (m : Metadata) : List (Projection PartitionTuple) :=
  if m.spec.fields = [] then [] else [.struct "partition" (m.spec.fields.mapIdx (slot m.schema))]

def ofDataFile (m : Metadata) : List (Projection DataFile) :=
  [text "file_path" DataFile.path, text "file_format" fun _ => fileFormat] ++
    (partition m).map (·.comap DataFile.partition) ++
    [count "record_count" DataFile.recordCount, count "file_size_in_bytes" DataFile.sizeInBytes,
      counts "column_sizes" DataFile.columnSizes, counts "value_counts" DataFile.valueCounts,
      counts "null_value_counts" DataFile.nullCounts, bounds "lower_bounds" DataFile.lowerBounds,
      bounds "upper_bounds" DataFile.upperBounds]

def ofEntry (m : Metadata) : List (Projection ManifestEntry) :=
  [⟨"status", .int32, false, fun e => .integer e.status.code⟩, optionalId "snapshot_id" (·.snapshotId),
    (struct "data_file" (ofDataFile m)).comap (·.file)]

def ofSlotSummary : Projection SlotRow :=
  struct "element" [flag "contains_null" SlotRow.containsNull, optionalText "lower_bound" SlotRow.lower,
    optionalText "upper_bound" SlotRow.upper]

def ofManifest : List (Projection ManifestRow) :=
  [text "path" (·.record.path), count "length" (·.record.length),
    number "partition_spec_id" (·.record.specId),
    snapshotId "added_snapshot_id" (·.record.addedSnapshotId),
    smallCount "added_data_files_count" (·.record.added.files.toUInt64),
    smallCount "existing_data_files_count" (·.record.existing.files.toUInt64),
    smallCount "deleted_data_files_count" (·.record.deleted.files.toUInt64),
    list "partition_summaries" ofSlotSummary (·.slots)]

def ofMove : List (Projection PointerMove) :=
  [time "made_current_at" (·.madeCurrentAt), snapshotId "snapshot_id" (·.snapshotId),
    optionalId "parent_id" (·.parentId), flag "is_current_ancestor" (·.isCurrentAncestor)]

def ofSnapshot : List (Projection Snapshot) :=
  [time "committed_at" (·.timestamp), snapshotId "snapshot_id" (·.id),
    optionalId "parent_id" (·.parentId), text "operation" (·.operation.name),
    text "manifest_list" (·.manifestList),
    ⟨"summary", .map .text .text, false, fun s =>
      .map (s.summary.toList.map fun e => (.text e.1, .text e.2))⟩]

def ofPartition (m : Metadata) : List (Projection PartitionRow) :=
  (partition m).map (·.comap PartitionRow.partition) ++
    [count "record_count" PartitionRow.recordCount, smallCount "file_count" PartitionRow.fileCount]

end Projection

/-! ### What the columns render -/

namespace Inspection

variable (name : String) (rows : List α)

theorem renders_text (f : α → String) :
    (text name (rows.map f)).Renders (.text name f) rows :=
  flat_text.renders name rows f id fun _ => rfl

theorem renders_optionalText (f : α → Option String) :
    (optionalText name (rows.map f)).Renders (.optionalText name f) rows :=
  flat_text.renders_option name rows f

theorem renders_count (f : α → UInt64) : (count name (rows.map f)).Renders (.count name f) rows :=
  flat_int64.renders name rows f saturate64 fun n => congrArg Cell.integer (toInt_saturate64 n)

theorem renders_smallCount (f : α → UInt64) :
    (smallCount name (rows.map f)).Renders (.smallCount name f) rows :=
  flat_int32.renders name rows f saturate32 fun n => congrArg Cell.integer (toInt_saturate32 n)

theorem renders_number (f : α → Int32) : (number name (rows.map f)).Renders (.number name f) rows :=
  flat_int32.renders name rows f id fun _ => rfl

theorem renders_snapshotId (f : α → SnapshotId) :
    (snapshotId name (rows.map f)).Renders (.snapshotId name f) rows :=
  flat_int64.renders name rows f id fun _ => rfl

theorem renders_optionalId (f : α → Option SnapshotId) :
    (optionalId name (rows.map f)).Renders (.optionalId name f) rows :=
  flat_int64.renders_option name rows f

theorem renders_time (f : α → Calendar.Instant) :
    (time name (rows.map f)).Renders (.time name f) rows := by
  have hcell : ∀ t : Calendar.Instant,
      Cell.integer (Int64.ofInt t.microseconds).toInt = .integer (t.nanoseconds / 1000) := by
    intro t
    rw [Calendar.Instant.toInt_microseconds, Calendar.Instant.microseconds_eq]
  exact flat_timestamp.renders name rows f (fun t => Int64.ofInt t.microseconds) hcell

theorem renders_flag (f : α → Bool) : (flag name (rows.map f)).Renders (.flag name f) rows :=
  flat_boolean.renders name rows f id fun _ => rfl

theorem renders_metrics {β γ : Type} {values : List (Option γ) → CellArray} {type : CellType}
    {write : γ → Cell} (hvalues : Flat values type write) (encode : β → γ)
    (f : α → SortedMap FieldId β) :
    Column.Renders ⟨name, .metrics encode values (rows.map f), true⟩
      (.metrics name type (fun b => write (encode b)) f) rows := by
  have hmaps := renders_maps flat_int32 hvalues name rows (fun a =>
    if (f a).isEmpty then none else some ((f a).toList.map fun e => (e.1, encode e.2)))
    (fun hfalse : true = false => absurd hfalse (by simp))
  rw [CellArray.metrics, List.map_map]
  refine hmaps.congr rfl rfl rfl fun a _ => ?_
  show Cell.option _ (if (f a).isEmpty then none else _) = if (f a).isEmpty then Cell.null else _
  split
  · rfl
  · simp only [Cell.option, List.map_map]
    rfl

theorem renders_counts (f : α → SortedMap FieldId UInt64) :
    (counts name (rows.map f)).Renders (.counts name f) rows := by
  refine (renders_metrics name rows flat_int64 saturate64 f).congr rfl rfl rfl fun a _ => ?_
  simp only [Projection.counts, Projection.metrics, toInt_saturate64]

theorem renders_bounds (f : α → SortedMap FieldId Datum) :
    (bounds name (rows.map f)).Renders (.bounds name f) rows :=
  renders_metrics name rows flat_text Datum.display f

/-- Values of one type fit into an array of this type. -/
theorem renders_datums (type : ColumnType) (f : α → Option Datum)
    (htyped : ∀ a ∈ rows, ∀ v, f a = some v → v.type = type) :
    Column.Renders ⟨name, .ofDatums type (rows.map f), true⟩
      ⟨name, (CellArray.ofDatums type []).type, true, fun a => .option .datum (f a)⟩ rows := by
  have hcells : (CellArray.ofDatums type (rows.map f)).cells =
      rows.map fun a => .option .datum (f a) := by
    cases type <;>
    · simp only [CellArray.ofDatums, CellArray.cells, List.map_map]
      refine List.map_congr_left fun a ha => ?_
      have hvalue := htyped a ha
      simp only [Function.comp_apply]
      cases hf : f a with
      | none => rfl
      | some v =>
        have htype := hvalue v hf
        cases v <;> first | rfl | exact absurd htype (by simp [Datum.type])
  refine ⟨rfl, rfl, ?_, hcells, fun hfalse => absurd hfalse (by simp), ?_⟩
  · cases type <;> rfl
  · cases type <;> constructor

/-! #### Slots -/

theorem renders_slots {schema : Schema} {tuples : List PartitionTuple} {fields : List PartitionField}
    {start : Nat} (hsources : ∀ field ∈ fields, (schema.byId? field.sourceId).isSome)
    (htyped : ∀ t ∈ tuples, ∀ i field source v, fields[i]? = some field →
      schema.byId? field.sourceId = some source → t.value? (start + i) = some v →
      v.type = source.type) :
    ∃ columns, slots schema tuples start fields = .ok columns ∧
      RendersAll columns (fields.mapIdx fun i => Projection.slot schema (start + i)) tuples := by
  induction fields generalizing start with
  | nil => exact ⟨[], rfl, .nil⟩
  | cons field fields ih =>
    obtain ⟨hfirst, hrest⟩ := List.forall_mem_cons.1 hsources
    obtain ⟨source, hsource⟩ := Option.isSome_iff_exists.1 hfirst
    have hshift : ∀ i, start + 1 + i = start + (i + 1) := fun i => by omega
    obtain ⟨columns, hcolumns, hrenders⟩ := @ih (start + 1) hrest
      fun t ht i other source' v hi hsource' hv =>
        htyped t ht (i + 1) other source' v hi hsource' (hshift i ▸ hv)
    have hslot := renders_datums field.name tuples source.type (fun t => t.value? start)
      fun t ht v hv => htyped t ht 0 field source v rfl hsource hv
    simp only [slots, hsource, hcolumns]
    refine ⟨_, rfl, ?_⟩
    rw [List.mapIdx_cons]
    simp only [hshift] at hrenders
    refine .cons (hslot.congr rfl ?_ rfl fun _ _ => rfl) hrenders
    show _ = CellType.ofSource (schema.byId? field.sourceId)
    rw [hsource]
    cases htype : source.type <;> simp [CellType.ofSource, CellArray.ofDatums, CellArray.type, htype]

/-- What the slots of files or partitions need for an array of each: the source columns are there,
and the values are of their types. -/
structure Fits (m : Metadata) (tuples : List PartitionTuple) : Prop where
  sources : ∀ field ∈ m.spec.fields, (m.schema.byId? field.sourceId).isSome
  typed : ∀ t ∈ tuples, t.IsTyped m.schema m.spec

variable {m : Metadata}

theorem renders_partition {tuples : List PartitionTuple} (h : Fits m tuples) :
    ∃ columns, partition m tuples = .ok columns ∧
      RendersAll columns (Projection.partition m) tuples := by
  by_cases hfields : m.spec.fields = []
  · refine ⟨[], ?_, ?_⟩
    · rw [partition, PartitionSpec.isUnpartitioned, hfields]
      rfl
    · rw [Projection.partition, if_pos hfields]
      exact .nil
  · have hpartitioned : m.spec.isUnpartitioned = false := by
      rwa [PartitionSpec.isUnpartitioned, List.isEmpty_eq_false_iff]
    obtain ⟨columns, hcolumns, hrenders⟩ := @renders_slots m.schema tuples m.spec.fields 0 h.sources
      fun t ht i field source v hi hsource hv =>
        h.typed t ht i field source v hi hsource (Nat.zero_add i ▸ hv)
    simp only [Nat.zero_add] at hrenders
    rw [partition, hpartitioned, hcolumns, Projection.partition, if_neg hfields]
    refine ⟨_, rfl, .cons (renders_struct "partition" ?_ hrenders) .nil⟩
    simpa using hfields

/-! #### Rows -/

theorem renders_dataFiles {files : List DataFile} (h : Fits m (files.map (·.partition))) :
    ∃ columns, ofDataFiles m files = .ok columns ∧
      RendersAll columns (Projection.ofDataFile m) files := by
  obtain ⟨columns, hcolumns, hrenders⟩ := renders_partition h
  rw [ofDataFiles, hcolumns]
  refine ⟨_, rfl, List.rel_append (List.rel_append ?_ hrenders.comap) ?_⟩
  · exact .cons (renders_text _ _ _) (.cons (renders_text _ _ _) .nil)
  · exact .cons (renders_count _ _ _) (.cons (renders_count _ _ _)
      (.cons (renders_counts _ _ _) (.cons (renders_counts _ _ _) (.cons (renders_counts _ _ _)
        (.cons (renders_bounds _ _ _) (.cons (renders_bounds _ _ _) .nil))))))

theorem renders_entries {entries : List ManifestEntry}
    (h : Fits m ((entries.map (·.file)).map (·.partition))) :
    ∃ columns, ofEntries m entries = .ok columns ∧
      RendersAll columns (Projection.ofEntry m) entries := by
  obtain ⟨columns, hcolumns, hrenders⟩ := renders_dataFiles h
  have hfile := (renders_struct "data_file" (by simp [Projection.ofDataFile]) hrenders).comap
  rw [ofEntries, hcolumns]
  have hstatus := (renders_number "status" entries fun e => Int32.ofNat e.status.code).congr
    (q := ⟨"status", .int32, false, fun e => .integer e.status.code⟩) rfl rfl rfl fun e _ => by
      cases hcode : e.status <;> simp [Projection.number, hcode] <;> rfl
  exact ⟨_, rfl, .cons hstatus (.cons (renders_optionalId _ _ _) (.cons hfile .nil))⟩

/-- The summaries of a manifest's slots are shown with the manifest. -/
theorem renders_summaries (rows : List ManifestRow) :
    (summaries rows).Renders (.list "partition_summaries" Projection.ofSlotSummary (·.slots)) rows := by
  have hitems := renders_struct "element" (by simp) (List.Forall₂.cons
    (renders_flag "contains_null" (rows.flatMap (·.slots)) SlotRow.containsNull) (.cons
      (renders_optionalText "lower_bound" _ SlotRow.lower) (.cons
        (renders_optionalText "upper_bound" _ SlotRow.upper) .nil)))
  exact renders_list "partition_summaries" hitems.array

theorem renders_manifests (rows : List ManifestRow) :
    RendersAll (ofManifests rows) Projection.ofManifest rows :=
  .cons (renders_text _ _ _) (.cons (renders_count _ _ _) (.cons (renders_number _ _ _)
    (.cons (renders_snapshotId _ _ _) (.cons (renders_smallCount _ _ _)
      (.cons (renders_smallCount _ _ _) (.cons (renders_smallCount _ _ _)
        (.cons (renders_summaries rows) .nil)))))))

theorem renders_moves (moves : List PointerMove) :
    RendersAll (ofMoves moves) Projection.ofMove moves :=
  .cons (renders_time _ _ _) (.cons (renders_snapshotId _ _ _) (.cons (renders_optionalId _ _ _)
    (.cons (renders_flag _ _ _) .nil)))

theorem renders_snapshots (snapshots : List Snapshot) :
    RendersAll (ofSnapshots snapshots) Projection.ofSnapshot snapshots := by
  have hsummary := renders_maps flat_text flat_text "summary" snapshots
    (fun s => some s.summary.toList) (fun _ : false = false => fun _ _ => rfl)
  exact .cons (renders_time _ _ _) (.cons (renders_snapshotId _ _ _) (.cons (renders_optionalId _ _ _)
    (.cons (renders_text _ _ _) (.cons (renders_text _ _ _) (.cons hsummary .nil)))))

theorem renders_partitions {rows : List PartitionRow} (h : Fits m (rows.map (·.partition))) :
    ∃ columns, ofPartitions m rows = .ok columns ∧
      RendersAll columns (Projection.ofPartition m) rows := by
  obtain ⟨columns, hcolumns, hrenders⟩ := renders_partition h
  rw [ofPartitions, hcolumns]
  exact ⟨_, rfl, List.rel_append hrenders.comap
    (.cons (renders_count _ _ _) (.cons (renders_smallCount _ _ _) .nil))⟩

end Inspection

end Lakehouse
