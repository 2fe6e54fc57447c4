/- Columns in memory.

   A column keeps the values of all its rows one after the other in an array. The
   rows of structs are spread over one array for each field. Lists and maps keep the
   items of all rows together, and offsets say where those of each row begin. A batch
   has columns over the same rows. What an array has at each row is its cell there
   (`CellArray.cells`). Offsets are not bounded, so that an array holds any number of
   items. -/
namespace Lakehouse

/-- The type of the cells of a column. -/
inductive CellType where
  | boolean
  | int32
  | int64
  | text
  | timestamp
  | struct (fields : List (String × CellType × Bool))
  | list (name : String) (item : CellType) (nullable : Bool)
  | map (key value : CellType)
  deriving Inhabited

/-- A cell. Timestamps are numbers of microseconds. -/
inductive Cell where
  | null
  | boolean (value : Bool)
  | integer (value : Int)
  | text (value : String)
  | struct (fields : List Cell)
  | list (items : List Cell)
  | map (entries : List (Cell × Cell))
  deriving Inhabited

namespace Cell

/-- The cell of a value that may be missing. -/
def option {α : Type} (write : α → Cell) : Option α → Cell
  | some a => write a
  | none => null

/-- The rows of structs whose fields have these cells. -/
def structs (fields : List (List Cell)) : List Cell :=
  (List.range (fields.headD []).length).map fun i => struct (fields.map fun cells => cells.getD i null)

end Cell

/-- The parts of a list between one offset and the next. -/
def slices {α : Type} : (offsets : List Nat) → List α → List (List α)
  | start :: stop :: rest, items => (items.drop start).take (stop - start) :: slices (stop :: rest) items
  | _, _ => []

/-- The offsets of parts with these lengths, of which the first begins at `start`. -/
def offsetsFrom (start : Nat) : (lengths : List Nat) → List Nat
  | [] => [start]
  | n :: rest => start :: offsetsFrom (start + n) rest

/-- The values of all rows. Fields and items have a name and a mark that says whether
they may be null. -/
inductive CellArray where
  | boolean (values : List (Option Bool))
  | int32 (values : List (Option Int32))
  | int64 (values : List (Option Int64))
  | text (values : List (Option String))
  | timestamp (values : List (Option Int64))
  | struct (fields : List (String × CellArray × Bool))
  | list (offsets : List Nat) (name : String) (items : CellArray) (nullable : Bool)
  | map (offsets : List Nat) (valid : List Bool) (keys values : CellArray)

namespace CellArray

mutual

/-- The type of the cells. -/
def type : CellArray → CellType
  | boolean _ => .boolean
  | int32 _ => .int32
  | int64 _ => .int64
  | text _ => .text
  | timestamp _ => .timestamp
  | struct fields => .struct (fieldTypes fields)
  | list _ name items nullable => .list name items.type nullable
  | map _ _ keys values => .map keys.type values.type

def fieldTypes : List (String × CellArray × Bool) → List (String × CellType × Bool)
  | [] => []
  | (name, array, nullable) :: rest => (name, array.type, nullable) :: fieldTypes rest

end

mutual

/-- The cells of all rows. -/
def cells : CellArray → List Cell
  | boolean values => values.map (.option .boolean)
  | int32 values => values.map (.option fun i => .integer i.toInt)
  | int64 values => values.map (.option fun i => .integer i.toInt)
  | text values => values.map (.option .text)
  | timestamp values => values.map (.option fun i => .integer i.toInt)
  | struct fields => Cell.structs (fieldCells fields)
  | list offsets _ items _ => (slices offsets items.cells).map .list
  | map offsets valid keys values =>
    List.zipWith (fun there entries => if there then .map entries else .null) valid
      (slices offsets (keys.cells.zip values.cells))

def fieldCells : List (String × CellArray × Bool) → List (List Cell)
  | [] => []
  | (_, array, _) :: rest => array.cells :: fieldCells rest

end

end CellArray

/-- A column with a cell for each row. -/
structure Column where
  name : String
  array : CellArray
  nullable : Bool

namespace Column

def type (c : Column) : CellType := c.array.type

def cells (c : Column) : List Cell := c.array.cells

end Column

/-- The array of structs whose fields are in the columns. -/
def CellArray.ofColumns (columns : List Column) : CellArray :=
  .struct (columns.map fun c => (c.name, c.array, c.nullable))

/-- Columns over the same rows. -/
structure Batch where
  columns : List Column

/-- The number of rows, which the first column tells. -/
def Batch.rowCount (b : Batch) : Nat :=
  match b.columns with
  | [] => 0
  | c :: _ => c.cells.length

/-- Maps that are put one after the other. An entry belongs to the map that is closed
next. -/
structure MapBuilder (α β : Type) where
  keys : List α
  values : List β
  offsets : List Nat
  valid : List Bool

namespace MapBuilder

variable {α β : Type}

def empty : MapBuilder α β := ⟨[], [], [0], []⟩

/-- Puts an entry behind those that are there. -/
def put (b : MapBuilder α β) (key : α) (value : β) : MapBuilder α β :=
  { b with keys := b.keys ++ [key], values := b.values ++ [value] }

/-- Ends a map with the entries since the last one, or null. -/
def close (b : MapBuilder α β) (there : Bool) : MapBuilder α β :=
  { b with offsets := b.offsets ++ [b.keys.length], valid := b.valid ++ [there] }

/-- Puts a whole map, or null. -/
def add (b : MapBuilder α β) : Option (List (α × β)) → MapBuilder α β
  | some entries => (entries.foldl (fun b e => b.put e.1 e.2) b).close true
  | none => b.close false

end MapBuilder

/-- The array of maps, with arrays for all keys and for all values. -/
def CellArray.ofMaps {α β : Type} (keys : List (Option α) → CellArray)
    (values : List (Option β) → CellArray) (maps : List (Option (List (α × β)))) : CellArray :=
  let built := maps.foldl MapBuilder.add .empty
  .map built.offsets built.valid (keys (built.keys.map some)) (values (built.values.map some))

end Lakehouse
