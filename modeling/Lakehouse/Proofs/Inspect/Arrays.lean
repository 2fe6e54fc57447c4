import Lakehouse.Inspect.Columns
import Lakehouse.Proofs.Success
import Mathlib.Algebra.GroupWithZero.Nat

/- Arrays that render rows.

   A projection says what one column shows of a row: a cell. An array renders the projection of
   some rows if it has the cells of all of them in their order, no null where none may be, and
   everything that is checked when arrays are put together (`CellArray.Renders`). Arrays of plain
   values render what they are made from (`Flat`). Offsets give back the parts that a list was put
   together from (`slices_offsetsFrom`), so that the lists (`renders_list`) and the maps
   (`renders_maps`) of a row are the row's own, whatever the others have, and whether or not there
   are nulls in between. Structs have in each row what their fields have there
   (`renders_struct`). -/
namespace Lakehouse

variable {α β γ : Type}

/-! ### Parts between offsets -/

theorem offsetsFrom_eq_cons (start : Nat) (lengths : List Nat) :
    ∃ more, offsetsFrom start lengths = start :: more := by
  cases lengths with
  | nil => exact ⟨[], rfl⟩
  | cons n lengths => exact ⟨_, rfl⟩

theorem offsetsFrom_concat (start : Nat) (lengths : List Nat) (n : Nat) :
    offsetsFrom start (lengths ++ [n]) = offsetsFrom start lengths ++ [start + lengths.sum + n] := by
  induction lengths generalizing start with
  | nil => rfl
  | cons m lengths ih =>
    rw [List.cons_append, offsetsFrom, ih, offsetsFrom, List.sum_cons, List.cons_append]
    rw [Nat.add_assoc start m lengths.sum]

theorem length_offsetsFrom (start : Nat) (lengths : List Nat) :
    (offsetsFrom start lengths).length = lengths.length + 1 := by
  induction lengths generalizing start with
  | nil => rfl
  | cons n lengths ih => rw [offsetsFrom, List.length_cons, ih, List.length_cons]

theorem bounds_of_mem_offsetsFrom {start : Nat} {lengths : List Nat} {offset : Nat}
    (h : offset ∈ offsetsFrom start lengths) : start ≤ offset ∧ offset ≤ start + lengths.sum := by
  induction lengths generalizing start with
  | nil =>
    obtain rfl := List.mem_singleton.1 h
    simp
  | cons n lengths ih =>
    rw [List.sum_cons]
    rcases List.mem_cons.1 h with rfl | h
    · omega
    · have := ih h
      omega

theorem pairwise_offsetsFrom (start : Nat) (lengths : List Nat) :
    (offsetsFrom start lengths).Pairwise (· ≤ ·) := by
  induction lengths generalizing start with
  | nil => exact List.pairwise_singleton _ _
  | cons n lengths ih =>
    refine List.pairwise_cons.2 ⟨fun offset hin => ?_, ih _⟩
    have := bounds_of_mem_offsetsFrom hin
    omega

/-- The parts of a list lie between the offsets that their lengths give. -/
theorem slices_offsetsFrom (parts : List (List α)) (before : List α) :
    slices (offsetsFrom before.length (parts.map List.length)) (before ++ parts.flatten) = parts := by
  induction parts generalizing before with
  | nil => rfl
  | cons part parts ih =>
    obtain ⟨more, hmore⟩ := offsetsFrom_eq_cons (before.length + part.length) (parts.map List.length)
    have hrest := ih (before ++ part)
    rw [List.length_append, hmore, List.append_assoc] at hrest
    rw [List.map_cons, offsetsFrom, hmore, slices, List.flatten_cons, hrest, List.drop_left,
      Nat.add_sub_cancel_left, List.take_left]

/-! ### What arrays have to be -/

/-- What is checked when arrays are put together. Fields have as many rows as each other, offsets
ascend and do not lead beyond the items, keys and values go in pairs, and where null may not be
there is none. -/
inductive CellArray.Sound : CellArray → Prop where
  | boolean (values : List (Option Bool)) : Sound (.boolean values)
  | int32 (values : List (Option Int32)) : Sound (.int32 values)
  | int64 (values : List (Option Int64)) : Sound (.int64 values)
  | text (values : List (Option String)) : Sound (.text values)
  | timestamp (values : List (Option Int64)) : Sound (.timestamp values)
  | struct {fields : List (String × CellArray × Bool)} {n : Nat} (some_field : fields ≠ [])
      (fields_sound : ∀ f ∈ fields, f.2.1.Sound) (even : ∀ f ∈ fields, f.2.1.cells.length = n)
      (filled : ∀ f ∈ fields, f.2.2 = false → Cell.null ∉ f.2.1.cells) : Sound (.struct fields)
  | list {offsets : List Nat} {name : String} {items : CellArray} {nullable : Bool}
      (items_sound : items.Sound) (ascending : offsets.Pairwise (· ≤ ·))
      (within : ∀ o ∈ offsets, o ≤ items.cells.length)
      (filled : nullable = false → Cell.null ∉ items.cells) : Sound (.list offsets name items nullable)
  | map {offsets : List Nat} {valid : List Bool} {keys values : CellArray}
      (keys_sound : keys.Sound) (values_sound : values.Sound)
      (pairs : keys.cells.length = values.cells.length) (filled : Cell.null ∉ keys.cells)
      (ascending : offsets.Pairwise (· ≤ ·)) (within : ∀ o ∈ offsets, o ≤ keys.cells.length)
      (rows : offsets.length = valid.length + 1) : Sound (.map offsets valid keys values)

/-- What one column shows of a row. -/
structure Projection (α : Type) where
  name : String
  type : CellType
  nullable : Bool
  cell : α → Cell

namespace Projection

/-- What the column shows of a part of the row. -/
def comap (p : Projection β) (part : α → β) : Projection α :=
  ⟨p.name, p.type, p.nullable, fun a => p.cell (part a)⟩

/-- A struct of what several columns show. -/
def struct (name : String) (fields : List (Projection α)) : Projection α where
  name := name
  type := .struct (fields.map fun p => (p.name, p.type, p.nullable))
  nullable := false
  cell a := .struct (fields.map fun p => p.cell a)

/-- A list of what a column shows of several rows. -/
def list (name : String) (item : Projection β) (parts : α → List β) : Projection α where
  name := name
  type := .list item.name item.type item.nullable
  nullable := false
  cell a := .list ((parts a).map item.cell)

end Projection

/-- The array has what the column shows of each of the rows. -/
structure CellArray.Renders (array : CellArray) (p : Projection α) (rows : List α) : Prop where
  type : array.type = p.type
  cells : array.cells = rows.map p.cell
  filled : p.nullable = false → Cell.null ∉ array.cells
  sound : array.Sound

/-- The column is that of the projection and has what it shows of each of the rows. -/
structure Column.Renders (c : Column) (p : Projection α) (rows : List α) : Prop where
  name : c.name = p.name
  nullable : c.nullable = p.nullable
  array : c.array.Renders p rows

/-- The columns show the rows. -/
abbrev RendersAll (columns : List Column) (ps : List (Projection α)) (rows : List α) : Prop :=
  List.Forall₂ (fun c p => c.Renders p rows) columns ps

/-- The batch has a row for each of the rows, and shows them in their order. -/
structure Batch.Shows (b : Batch) (ps : List (Projection α)) (rows : List α) : Prop where
  rowCount : b.rowCount = rows.length
  columns : RendersAll b.columns ps rows

variable {p : Projection α} {rows : List α} {columns : List Column} {ps : List (Projection α)}
  {array : CellArray}

theorem CellArray.Renders.length_cells (h : array.Renders p rows) : array.cells.length = rows.length := by
  rw [h.cells, List.length_map]

theorem Batch.shows_of_rendersAll (hne : ps ≠ []) (h : RendersAll columns ps rows) :
    Batch.Shows ⟨columns⟩ ps rows := by
  refine ⟨?_, h⟩
  cases h with
  | nil => exact absurd rfl hne
  | cons hfirst _ => exact hfirst.array.length_cells

/-- What the column shows of other rows does not matter. -/
theorem Column.Renders.congr {c : Column} {q : Projection α} (h : c.Renders p rows)
    (hname : p.name = q.name) (htype : p.type = q.type) (hnullable : p.nullable = q.nullable)
    (hcell : ∀ a ∈ rows, p.cell a = q.cell a) : c.Renders q rows := by
  refine ⟨h.name.trans hname, h.nullable.trans hnullable, h.array.type.trans htype, ?_, ?_,
    h.array.sound⟩
  · rw [h.array.cells]
    exact List.map_congr_left hcell
  · exact fun hfalse => h.array.filled (hnullable.trans hfalse)

/-- The rows that have a part are shown as the parts are. -/
theorem Column.Renders.comap {c : Column} {p : Projection β} {rows : List α} {part : α → β}
    (h : c.Renders p (rows.map part)) : c.Renders (p.comap part) rows := by
  refine ⟨h.name, h.nullable, h.array.type, ?_, h.array.filled, h.array.sound⟩
  rw [h.array.cells, List.map_map]
  rfl

theorem RendersAll.comap {ps : List (Projection β)} {rows : List α} {part : α → β}
    (h : RendersAll columns ps (rows.map part)) :
    RendersAll columns (ps.map (·.comap part)) rows := by
  rw [RendersAll, List.forall₂_map_right_iff]
  exact h.imp fun _ _ hone => hone.comap

/-! ### Plain values -/

/-- The array has one cell for each value, and never null for a value that is there. -/
structure Flat (array : List (Option β) → CellArray) (type : CellType) (write : β → Cell) :
    Prop where
  type_eq : ∀ values, (array values).type = type
  cells_eq : ∀ values, (array values).cells = values.map (.option write)
  sound : ∀ values, (array values).Sound
  ne_null : ∀ b, write b ≠ .null

theorem flat_boolean : Flat .boolean .boolean .boolean :=
  ⟨fun _ => rfl, fun _ => rfl, .boolean, fun _ => by simp⟩

theorem flat_int32 : Flat .int32 .int32 fun i => .integer i.toInt :=
  ⟨fun _ => rfl, fun _ => rfl, .int32, fun _ => by simp⟩

theorem flat_int64 : Flat .int64 .int64 fun i => .integer i.toInt :=
  ⟨fun _ => rfl, fun _ => rfl, .int64, fun _ => by simp⟩

theorem flat_text : Flat .text .text .text :=
  ⟨fun _ => rfl, fun _ => rfl, .text, fun _ => by simp⟩

theorem flat_timestamp : Flat .timestamp .timestamp fun i => .integer i.toInt :=
  ⟨fun _ => rfl, fun _ => rfl, .timestamp, fun _ => by simp⟩

namespace Flat

variable {values : List (Option β) → CellArray} {type : CellType} {write : β → Cell}

theorem cells_some (h : Flat values type write) (l : List β) :
    (values (l.map some)).cells = l.map write := by
  rw [h.cells_eq, List.map_map]
  rfl

theorem null_notMem_some (h : Flat values type write) (l : List β) :
    Cell.null ∉ (values (l.map some)).cells := by
  rw [h.cells_some, List.mem_map]
  rintro ⟨b, -, hb⟩
  exact h.ne_null b hb

/-- Values that are all there, written from parts of the rows. -/
theorem renders (h : Flat values type write) (name : String) (rows : List α) (f : α → γ)
    (encode : γ → β) {cell : γ → Cell} (hcell : ∀ c, write (encode c) = cell c) :
    Column.Renders ⟨name, values ((rows.map f).map fun c => some (encode c)), false⟩
      ⟨name, type, false, fun a => cell (f a)⟩ rows := by
  have hsome : ((rows.map f).map fun c => some (encode c)) =
      ((rows.map f).map encode).map some := by
    simp only [List.map_map]
    rfl
  rw [hsome]
  refine ⟨rfl, rfl, h.type_eq _, ?_, fun _ => h.null_notMem_some _, h.sound _⟩
  rw [h.cells_some, List.map_map, List.map_map]
  exact List.map_congr_left fun a _ => hcell (f a)

/-- Values that may be missing. -/
theorem renders_option (h : Flat values type write) (name : String) (rows : List α)
    (f : α → Option β) : Column.Renders ⟨name, values (rows.map f), true⟩
      ⟨name, type, true, fun a => .option write (f a)⟩ rows := by
  refine ⟨rfl, rfl, h.type_eq _, ?_, fun hfalse => absurd hfalse (by simp), h.sound _⟩
  rw [h.cells_eq, List.map_map]
  rfl

end Flat

/-! ### Structs -/

theorem CellArray.fieldTypes_eq_map (fields : List (String × CellArray × Bool)) :
    fieldTypes fields = fields.map fun f => (f.1, f.2.1.type, f.2.2) := by
  induction fields with
  | nil => rfl
  | cons f fields ih => rw [fieldTypes, ih, List.map_cons]

theorem CellArray.fieldCells_eq_map (fields : List (String × CellArray × Bool)) :
    fieldCells fields = fields.map fun f => f.2.1.cells := by
  induction fields with
  | nil => rfl
  | cons f fields ih => rw [fieldCells, ih, List.map_cons]

/-- The cells of a struct's fields, put together row by row. -/
theorem Cell.structs_map (hne : ps ≠ []) (rows : List α) :
    structs (ps.map fun p => rows.map p.cell) =
      rows.map fun a => .struct (ps.map fun p => p.cell a) := by
  have hlength : ((ps.map fun p => rows.map p.cell).headD []).length = rows.length := by
    obtain ⟨p, rest, rfl⟩ := List.exists_cons_of_ne_nil hne
    exact List.length_map _
  rw [structs, hlength]
  refine List.ext_getElem (by simp) fun i hi hi' => ?_
  have hrow : i < rows.length := by simpa using hi'
  rw [List.getElem_map, List.getElem_map, List.getElem_range, List.map_map]
  congr 1
  refine List.map_congr_left fun p _ => ?_
  show (rows.map p.cell).getD i .null = p.cell rows[i]
  rw [List.getD_eq_getElem?_getD, List.getElem?_eq_getElem (by simpa using hrow), Option.getD_some,
    List.getElem_map]

/-- Columns that show the rows give structs that show them together. -/
theorem renders_struct (name : String) (hne : ps ≠ []) (h : RendersAll columns ps rows) :
    Column.Renders ⟨name, .ofColumns columns, false⟩ (.struct name ps) rows := by
  have hcells : (CellArray.ofColumns columns).cells =
      rows.map fun a => .struct (ps.map fun p => p.cell a) := by
    have hfields : CellArray.fieldCells (columns.map fun c => (c.name, c.array, c.nullable)) =
        ps.map fun p => rows.map p.cell := by
      rw [CellArray.fieldCells_eq_map, List.map_map]
      exact map_eq_of_forall₂ (fun c p hone => hone.array.cells) h
    rw [CellArray.ofColumns, CellArray.cells, hfields, Cell.structs_map hne]
  refine ⟨rfl, rfl, ?_, hcells, fun _ => ?_, ?_⟩
  · show CellType.struct (CellArray.fieldTypes _) = .struct _
    rw [CellArray.fieldTypes_eq_map, List.map_map]
    refine congrArg CellType.struct (map_eq_of_forall₂ (fun c p hone => ?_) h)
    exact Prod.ext hone.name (Prod.ext hone.array.type hone.nullable)
  · rw [hcells, List.mem_map]
    rintro ⟨a, -, ha⟩
    exact absurd ha (by simp)
  · have hall : ∀ f ∈ columns.map fun c => (c.name, c.array, c.nullable),
        ∃ c ∈ columns, ∃ p, c.Renders p rows ∧ f = (c.name, c.array, c.nullable) := by
      intro f hf
      obtain ⟨c, hc, rfl⟩ := List.mem_map.1 hf
      obtain ⟨p, -, hone⟩ := exists_of_forall₂ h hc
      exact ⟨c, hc, p, hone, rfl⟩
    -- Every column has a cell for each row, so all have one length.
    refine .struct (n := rows.length) ?_ ?_ ?_ ?_
    · cases h with
      | nil => exact absurd rfl hne
      | cons _ _ => simp
    · intro f hf
      obtain ⟨c, -, p, hone, rfl⟩ := hall f hf
      exact hone.array.sound
    · intro f hf
      obtain ⟨c, -, p, hone, rfl⟩ := hall f hf
      exact hone.array.length_cells
    · intro f hf hnullable
      obtain ⟨c, -, p, hone, rfl⟩ := hall f hf
      exact hone.array.filled (hone.nullable.symm.trans hnullable)

/-! ### Lists -/

/-- Items that stand one after the other, with offsets for the rows, give each row its own. -/
theorem renders_list {item : Projection β} {parts : α → List β} {items : CellArray} (name : String)
    (h : items.Renders item (rows.flatMap parts)) :
    Column.Renders ⟨name, .list (offsetsFrom 0 (rows.map fun a => (parts a).length)) item.name items
      item.nullable, false⟩ (.list name item parts) rows := by
  have hlengths : (rows.map fun a => (parts a).length) =
      ((rows.map parts).map (List.map item.cell)).map List.length := by
    simp only [List.map_map]
    refine List.map_congr_left fun a _ => ?_
    show _ = ((parts a).map item.cell).length
    rw [List.length_map]
  have hitems : items.cells = ((rows.map parts).map (List.map item.cell)).flatten := by
    rw [h.cells, List.flatMap_def, List.map_flatten]
  have hcells : (CellArray.list (offsetsFrom 0 (rows.map fun a => (parts a).length)) item.name items
      item.nullable).cells = rows.map fun a => .list ((parts a).map item.cell) := by
    -- Cutting the items at the offsets gives back what was laid end to end.
    have hslices := slices_offsetsFrom ((rows.map parts).map (List.map item.cell)) []
    rw [CellArray.cells, hlengths, hitems]
    simp only [List.length_nil, List.nil_append] at hslices
    rw [hslices, List.map_map, List.map_map]
    rfl
  refine ⟨rfl, rfl, ?_, hcells, fun _ => ?_, ?_⟩
  · show CellType.list _ items.type _ = .list _ item.type _
    rw [h.type]
  · rw [hcells, List.mem_map]
    rintro ⟨a, -, ha⟩
    exact absurd ha (by simp)
  · refine .list h.sound (pairwise_offsetsFrom _ _) (fun o ho => ?_) h.filled
    have hbound := (bounds_of_mem_offsetsFrom ho).2
    rwa [hlengths, Nat.zero_add, ← List.length_flatten, ← hitems] at hbound

/-! ### Maps -/

namespace MapBuilder

/-- The entries of a map that may be null. -/
def entries (m : Option (List (α × β))) : List (α × β) := m.getD []

/-- These maps were put so far. -/
structure Holds (b : MapBuilder α β) (maps : List (Option (List (α × β)))) : Prop where
  keys : b.keys = (maps.flatMap entries).map Prod.fst
  values : b.values = (maps.flatMap entries).map Prod.snd
  offsets : b.offsets = offsetsFrom 0 (maps.map fun m => (entries m).length)
  valid : b.valid = maps.map Option.isSome

theorem foldl_put (b : MapBuilder α β) (l : List (α × β)) :
    l.foldl (fun b e => b.put e.1 e.2) b =
      { b with keys := b.keys ++ l.map Prod.fst, values := b.values ++ l.map Prod.snd } := by
  induction l generalizing b with
  | nil => simp
  | cons e l ih =>
    rw [List.foldl_cons, ih]
    simp [put]

theorem add_eq (b : MapBuilder α β) (m : Option (List (α × β))) :
    b.add m = ⟨b.keys ++ (entries m).map Prod.fst, b.values ++ (entries m).map Prod.snd,
      b.offsets ++ [b.keys.length + (entries m).length], b.valid ++ [m.isSome]⟩ := by
  cases m with
  | none => simp [add, close, entries]
  | some l => simp [add, close, entries, foldl_put]

/-- One more map is put behind those that are there. -/
theorem Holds.add {b : MapBuilder α β} {maps : List (Option (List (α × β)))} (h : b.Holds maps)
    (m : Option (List (α × β))) : (b.add m).Holds (maps ++ [m]) := by
  have hlength : b.keys.length = (maps.map fun m => (entries m).length).sum := by
    rw [h.keys, List.length_map, List.length_flatMap]
  rw [add_eq]
  refine ⟨?_, ?_, ?_, ?_⟩
  · simp [h.keys]
  · simp [h.values]
  · simp only [hlength, h.offsets, List.map_append, List.map_singleton, offsetsFrom_concat,
      Nat.zero_add]
  · simp [h.valid]

theorem holds_foldl_add {b : MapBuilder α β} {before : List (Option (List (α × β)))}
    (h : b.Holds before) (maps : List (Option (List (α × β)))) :
    (maps.foldl MapBuilder.add b).Holds (before ++ maps) := by
  induction maps generalizing b before with
  | nil => rwa [List.append_nil]
  | cons m maps ih =>
    have hrest := ih (h.add m)
    rwa [List.append_assoc, List.singleton_append] at hrest

theorem holds_empty : (empty : MapBuilder α β).Holds [] := ⟨rfl, rfl, rfl, rfl⟩

/-- The entries of each map lie between its offsets. -/
theorem Holds.slices_eq {b : MapBuilder α β} {maps : List (Option (List (α × β)))} (h : b.Holds maps)
    (f : α × β → γ) : slices b.offsets ((maps.flatMap entries).map f) =
      maps.map fun m => (entries m).map f := by
  have hlengths : (maps.map fun m => (entries m).map f).map List.length =
      maps.map fun m => (entries m).length := by
    rw [List.map_map]
    exact List.map_congr_left fun m _ => List.length_map _
  have hparts := slices_offsetsFrom (maps.map fun m => (entries m).map f) []
  rwa [hlengths, List.length_nil, List.nil_append, ← h.offsets, ← List.flatMap_def,
    ← List.map_flatMap] at hparts

end MapBuilder

section Maps

variable {keys : List (Option β) → CellArray} {values : List (Option γ) → CellArray}
  {keyType valueType : CellType} {writeKey : β → Cell} {writeValue : γ → Cell}

/-- Each map is that of its own entries, and null where there is none. -/
theorem cells_ofMaps (hkeys : Flat keys keyType writeKey) (hvalues : Flat values valueType writeValue)
    (maps : List (Option (List (β × γ)))) : (CellArray.ofMaps keys values maps).cells =
      maps.map (.option fun l => .map (l.map fun e => (writeKey e.1, writeValue e.2))) := by
  have h := MapBuilder.holds_foldl_add MapBuilder.holds_empty maps
  rw [List.nil_append] at h
  rw [CellArray.ofMaps, CellArray.cells, hkeys.cells_some, hvalues.cells_some, h.keys, h.values,
    List.map_map, List.map_map, List.zip_map', h.valid]
  simp only [Function.comp_apply]
  rw [h.slices_eq, List.zipWith_map, List.zipWith_self]
  refine List.map_congr_left fun m _ => ?_
  cases m with
  | none => rfl
  | some l => rfl

theorem sound_ofMaps (hkeys : Flat keys keyType writeKey) (hvalues : Flat values valueType writeValue)
    (maps : List (Option (List (β × γ)))) : (CellArray.ofMaps keys values maps).Sound := by
  have h := MapBuilder.holds_foldl_add MapBuilder.holds_empty maps
  rw [List.nil_append] at h
  refine .map (hkeys.sound _) (hvalues.sound _) ?_ (hkeys.null_notMem_some _) ?_ ?_ ?_
  · rw [hkeys.cells_some, hvalues.cells_some, h.keys, h.values]
    simp only [List.length_map]
  · rw [h.offsets]
    exact pairwise_offsetsFrom _ _
  · intro o ho
    rw [h.offsets] at ho
    rw [hkeys.cells_some, List.length_map, h.keys, List.length_map, List.length_flatMap]
    have hbound := (bounds_of_mem_offsetsFrom ho).2
    rwa [Nat.zero_add] at hbound
  · rw [h.offsets, length_offsetsFrom, h.valid, List.length_map, List.length_map]

/-- Maps that were put one after the other give each row its own, and null to those that have
none. -/
theorem renders_maps (hkeys : Flat keys keyType writeKey) (hvalues : Flat values valueType writeValue)
    (name : String) {nullable : Bool} (rows : List α) (m : α → Option (List (β × γ)))
    (hfilled : nullable = false → ∀ a ∈ rows, (m a).isSome) :
    Column.Renders ⟨name, .ofMaps keys values (rows.map m), nullable⟩
      ⟨name, .map keyType valueType, nullable, fun a => .option (fun l =>
        .map (l.map fun e => (writeKey e.1, writeValue e.2))) (m a)⟩ rows := by
  have hcells := cells_ofMaps hkeys hvalues (rows.map m)
  rw [List.map_map] at hcells
  refine ⟨rfl, rfl, ?_, hcells, fun hnullable => ?_, sound_ofMaps hkeys hvalues _⟩
  · show CellType.map (keys _).type (values _).type = _
    rw [hkeys.type_eq, hvalues.type_eq]
  · rw [hcells, List.mem_map]
    rintro ⟨a, ha, hnull⟩
    obtain ⟨l, hl⟩ := Option.isSome_iff_exists.1 (hfilled hnullable a ha)
    rw [Function.comp_apply, hl] at hnull
    exact absurd hnull (by simp [Cell.option])

end Maps

end Lakehouse
