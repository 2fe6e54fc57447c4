import Lakehouse.Proofs.Filter.Typing
import Lakehouse.Proofs.Parquet.Totals

/- The types of what comes out of Parquet files.

   Bounds are taken to the type of their column, and values in paths are read as values of the
   type of the source column. So every description of a file that is made for a schema has the
   types of its columns (`Parquet.isTyped_describe`, `Parquet.isTyped_partitionFromPath`), whatever
   the footer says. -/
namespace Lakehouse.Parquet

variable {schema : Schema} {spec : PartitionSpec} {file : DataFile} {field : Field}

theorem type_of_totalBounds {type : ColumnType} {chunks : List ColumnChunk} {lower upper : Datum}
    (h : totalBounds type chunks = some (lower, upper)) : lower.type = type ∧ upper.type = type := by
  obtain ⟨-, _, _, -, hlower, hupper⟩ := totalBounds_eq_some_iff.1 h
  exact ⟨Datum.type_of_convert? hlower, Datum.type_of_convert? hupper⟩

/-- The bounds of a column have its type, whatever its chunks are. -/
theorem types_columnMetrics (type : ColumnType) (chunks : List ColumnChunk) :
    (∀ b, (columnMetrics type chunks).2.lower = some b → b.type = type) ∧
      ∀ b, (columnMetrics type chunks).2.upper = some b → b.type = type := by
  unfold columnMetrics
  split
  · exact ⟨fun _ hb => (nomatch hb), fun _ hb => (nomatch hb)⟩
  · constructor
    · intro b hb
      obtain ⟨both, hboth, rfl⟩ := Option.map_eq_some_iff.1 hb
      exact (type_of_totalBounds hboth).1
    · intro b hb
      obtain ⟨both, hboth, rfl⟩ := Option.map_eq_some_iff.1 hb
      exact (type_of_totalBounds hboth).2

/-- A description has the types of the columns if its slots have. -/
theorem isTyped_describe {partition : PartitionTuple} (h : partition.IsTyped schema spec)
    (path : String) (size : Nat) (footer : Footer) :
    (describe path size footer schema partition).IsTyped schema spec := by
  have hslots : (describe path size footer schema partition).partition = partition :=
    congrArg (fun g => g.2.1) (describe_given path size footer schema partition)
  have hset := (describe_metricsAt path size footer schema partition).1
  refine ⟨hslots.symm ▸ h, ?_, ?_⟩
  · intro field hfield b hb
    have hlower := congrArg (fun m => m.2.lower) (hset field hfield)
    exact (types_columnMetrics _ _).1 b (hlower.symm.trans hb)
  · intro field hfield b hb
    have hupper := congrArg (fun m => m.2.upper) (hset field hfield)
    exact (types_columnMetrics _ _).2 b (hupper.symm.trans hb)

theorem isTyped_dataFile {path : String} {bytes : ByteArray} {partition : PartitionTuple}
    (h : partition.IsTyped schema spec) (hfile : dataFile path bytes schema partition = .ok file) :
    file.IsTyped schema spec := by
  obtain ⟨footer, -, rfl⟩ := exists_footer_of_dataFile hfile
  exact isTyped_describe h path bytes.size footer

/-! ### Slots -/

theorem type_of_slotFromPath {path : String} {directories : List String} {p : PartitionField}
    {v : Datum} (h : slotFromPath path directories schema p = .ok (some v))
    (hfield : schema.byId? p.sourceId = some field) : v.type = field.type := by
  simp only [slotFromPath, hfield] at h
  split at h
  next => exact absurd h (by simp)
  next raw _ =>
    split at h
    next => exact absurd h (by simp)
    next =>
      split at h
      next d hd =>
        obtain rfl := Option.some.inj (Except.ok.inj h)
        exact Datum.type_of_read? hd
      next => exact absurd h (by simp)

theorem isTyped_partitionFromPath {path : String} {partition : PartitionTuple}
    (h : partitionFromPath path schema spec = .ok partition) : partition.IsTyped schema spec := by
  have hslots := List.forall₂_iff_get.1 (forall₂_of_mapM h)
  intro slot p field v hp hfield hv
  obtain ⟨hlt, rfl⟩ := List.getElem?_eq_some_iff.1 hp
  have hlt' : slot < partition.length := hslots.1 ▸ hlt
  rw [PartitionTuple.value?, List.getElem?_eq_getElem hlt', Option.join_some] at hv
  have hslot := hslots.2 slot hlt hlt'
  rw [List.get_eq_getElem, List.get_eq_getElem, hv] at hslot
  exact type_of_slotFromPath hslot hfield

end Lakehouse.Parquet
