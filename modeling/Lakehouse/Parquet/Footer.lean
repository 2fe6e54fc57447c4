import Lakehouse.Datum
import Lakehouse.Parquet.Column

/- Footers of Parquet files.

   A Parquet file ends with its footer, the footer's length and a magic word, which
   also begins the file. The footer has the number of rows, the tree of columns, and
   for each group of rows and each leaf of the tree the size, the number of values
   and, as a rule, statistics. A record of statistics without a number of nulls
   stands for no nulls; the older pair of bounds counts only if neither of the newer
   ones is there. A field that comes twice counts as it comes the last time, except
   that the tree is the first one, and the chunks of a group add up. -/
namespace Lakehouse.Parquet

/-- What the statistics of a column chunk say. Bounds are known only for types that
have a literal. -/
structure Statistics where
  nullCount : Option UInt64
  bounds : Option (Datum × Datum)
  deriving DecidableEq, Repr

/-- One column in one group of rows. Sizes and counts are as they stand in the
file. -/
structure ColumnChunk where
  path : List String
  compressedSize : Int
  valueCount : Int
  statistics : Option Statistics
  deriving DecidableEq, Repr

/-- What the footer says. -/
structure Footer where
  rowCount : Int
  rowGroups : List (List ColumnChunk)
  deriving DecidableEq, Repr

namespace Footer

open Thrift

def magic : List UInt8 := [0x50, 0x41, 0x52, 0x31]

/-! ### Statistics -/

/-- The number whose bytes are given, the lowest first. -/
def littleEndian (bytes : List UInt8) : Nat := bytes.foldr (fun b n => b.toNat + 256 * n) 0

/-- The literal that the bytes of a bound stand for. -/
def literal? (type : PhysicalType) (bytes : List UInt8) : Option Datum :=
  match type with
  | .boolean => some (.boolean (bytes.head? != some 0))
  | .int32 => some (.int (UInt32.ofNat (littleEndian (bytes.take 4))).toInt32)
  | .int64 => some (.long (UInt64.ofNat (littleEndian (bytes.take 8))).toInt64)
  | .byteArray => (String.fromUTF8? ⟨bytes.toArray⟩).map .string
  | _ => none

/-- Statistics as they stand in the file. -/
structure RawStatistics where
  oldMax : Option (List UInt8) := none
  oldMin : Option (List UInt8) := none
  nulls : Int := 0
  newMax : Option (List UInt8) := none
  newMin : Option (List UInt8) := none
  deriving DecidableEq, Repr

namespace RawStatistics

def read : ByteReader RawStatistics :=
  readRecord [] {} fun s field =>
    match field.number with
    | 1 => some do return { s with oldMax := some (← readBinary) }
    | 2 => some do return { s with oldMin := some (← readBinary) }
    | 3 => some do return { s with nulls := (← readInt64).toInt }
    | 4 => some (past readInt64 s)
    | 5 => some do return { s with newMax := some (← readBinary) }
    | 6 => some do return { s with newMin := some (← readBinary) }
    | 7 => some (past field.truth s)
    | 8 => some (past field.truth s)
    | _ => none

/-- The lower and the upper bound. One new bound is enough to leave both old ones
out. -/
def bounds (s : RawStatistics) : Option (List UInt8) × Option (List UInt8) :=
  if s.newMin.isNone && s.newMax.isNone then (s.oldMin, s.oldMax) else (s.newMin, s.newMax)

/-- A bound has the bytes that a value of the type needs. -/
def fits (type : PhysicalType) (bound : Option (List UInt8)) : Bool :=
  bound.all fun bytes =>
    type.width ≤ bytes.length && (type != .int96 || bytes.length == 12)

/-- What the statistics say of a column with values of the given type. -/
def statistics? (type : PhysicalType) (s : RawStatistics) : Option Statistics := do
  let (min, max) := s.bounds
  guard (0 ≤ s.nulls ∧ fits type min ∧ fits type max)
  let bounds := do
    let lower ← literal? type (← min)
    let upper ← literal? type (← max)
    return (lower, upper)
  return ⟨some (UInt64.ofNat s.nulls.toNat), bounds⟩

end RawStatistics

/-! ### Parts that only have to be readable -/

/-- The codes of the ways in which values may be encoded. -/
def encoding? (code : Int) : Option Unit :=
  if [0, 2, 3, 4, 5, 6, 7, 8, 9].contains code then some () else none

/-- The encodings of a chunk. They are only gathered, so that a negative number of them
stands for none. -/
def checkEncodings : ByteReader Unit := do
  let (_, count) ← readListStart
  discard (readTimes (readCoded encoding?) count.toNat)

/-- The codes of the ways in which pages may be compressed. -/
def compression? (code : Int) : Option Unit :=
  if 0 ≤ code ∧ code ≤ 7 then some () else none

/-- The codes of the kinds of pages. -/
def pageKind? (code : Int) : Option Unit :=
  if 0 ≤ code ∧ code ≤ 3 then some () else none

/-- How often pages of one kind are encoded in one way. -/
def checkPageEncoding : ByteReader Unit :=
  checkRecord [1, 2, 3] fun field =>
    match field.number with
    | 1 => some (readCoded pageKind?)
    | 2 => some (readCoded encoding?)
    | 3 => some (discard readInt32)
    | _ => none

/-- Sizes of a chunk before its values were encoded. -/
def checkSizes : ByteReader Unit :=
  checkRecord [] fun field =>
    match field.number with
    | 1 => some (discard readInt64)
    | 2 => some (discard (readList readInt64))
    | 3 => some (discard (readList readInt64))
    | _ => none

/-- A box of floating numbers; those of the first two dimensions must be there. -/
def checkBox : ByteReader Unit :=
  checkRecord [1, 2, 3, 4] fun field =>
    if 1 ≤ field.number ∧ field.number ≤ 8 then some (discard (readBytes 8)) else none

/-- Statistics of places. -/
def checkPlaces : ByteReader Unit :=
  checkRecord [] fun field =>
    match field.number with
    | 1 => some checkBox
    | 2 => some (discard (readList readInt32))
    | _ => none

/-- A column by which the rows are sorted. -/
def checkSorting : ByteReader Unit :=
  checkRecord [1, 2, 3] fun field =>
    match field.number with
    | 1 => some (discard readInt32)
    | 2 => some (discard field.truth)
    | 3 => some (discard field.truth)
    | _ => none

/-- A remark of the program that wrote the file. -/
def checkRemark : ByteReader Unit :=
  checkRecord [1] fun field =>
    match field.number with
    | 1 => some (discard readText)
    | 2 => some (discard readText)
    | _ => none

/-- The order of a column's values. -/
def checkOrder : ByteReader Unit :=
  readChoice fun field => if field.number = 1 then readNothing else field.skip

/-! ### Groups of rows -/

/-- Puts what is said of a chunk's values into the chunk, and gives the numbers of
the fields that said it. What type the values have is known from the leaf, so that the
type given here has to be one, but no certain one. -/
def readValues (type : PhysicalType) (chunk : ColumnChunk) :
    ByteReader (ColumnChunk × List Int) :=
  readNumbered chunk fun chunk field =>
    match field.number with
    | 1 => some (past (readCoded PhysicalType.ofCode?) chunk)
    | 2 => some (past checkEncodings chunk)
    | 4 => some (past (readCoded compression?) chunk)
    | 5 => some do return { chunk with valueCount := (← readInt64).toInt }
    | 6 => some (past readInt64 chunk)
    | 7 => some do return { chunk with compressedSize := (← readInt64).toInt }
    | 9 => some (past readInt64 chunk)
    | 10 => some (past readInt64 chunk)
    | 11 => some (past readInt64 chunk)
    | 12 => some do
      let statistics ← (← RawStatistics.read).statistics? type
      return { chunk with statistics := some statistics }
    | 13 => some (past (readList checkPageEncoding) chunk)
    | 14 => some (past readInt64 chunk)
    | 15 => some (past readInt32 chunk)
    | 16 => some (past checkSizes chunk)
    | 17 => some (past checkPlaces chunk)
    | _ => none

/-- The chunk of a leaf. What is said of its values may be said again and in part, but
the last time all that is needed must be there. -/
def readChunk (leaf : Leaf) : ByteReader ColumnChunk := do
  let (chunk, numbers) ←
    readRecord [2] (⟨leaf.path, 0, 0, none⟩, []) fun (chunk, numbers) field =>
      match field.number with
      | 1 => some (past readText (chunk, numbers))
      | 2 => some (past readInt64 (chunk, numbers))
      | 3 => some (readValues leaf.type chunk)
      | 4 => some (past readInt64 (chunk, numbers))
      | 5 => some (past readInt32 (chunk, numbers))
      | 6 => some (past readInt64 (chunk, numbers))
      | 7 => some (past readInt32 (chunk, numbers))
      | _ => none
  guard ([2, 4, 5, 6, 7, 9].all numbers.contains)
  return chunk

/-- A list with one chunk for each leaf. -/
def readChunks (leaves : List Leaf) : ByteReader (List ColumnChunk) := do
  let (_, count) ← readListStart
  guard (count = leaves.length)
  leaves.mapM readChunk

/-- A group of rows, and whether its place among the groups is given. -/
def readGroup (leaves : List Leaf) : ByteReader (List ColumnChunk × Bool) :=
  readRecord [1, 2, 3] ([], false) fun (chunks, placed) field =>
    match field.number with
    | 1 => some do return (chunks ++ (← readChunks leaves), placed)
    | 2 => some (past readInt64 (chunks, placed))
    | 3 => some (past readInt64 (chunks, placed))
    | 4 => some (past (readList checkSorting) (chunks, placed))
    | 5 => some (past readInt64 (chunks, placed))
    | 7 => some (past readInt16 (chunks, true))
    | _ => none

/-- All groups of rows. There are not more of them than there are places, and the
place is given for all groups or for none. -/
def readGroups (leaves : List Leaf) : ByteReader (List (List ColumnChunk)) := do
  let (_, count) ← readListStart
  guard (0 ≤ count ∧ count ≤ 32768)
  let groups ← readTimes (readGroup leaves) count.toNat
  guard (groups.all Prod.snd || groups.all fun group => !group.2)
  return groups.map Prod.fst

/-! ### The footer -/

/-- A footer as far as it has been read. -/
structure Progress where
  leaves : Option (List Leaf) := none
  footer : Footer := ⟨0, []⟩
  /-- The number of columns whose order is given. -/
  orders : Option Nat := none
  deriving DecidableEq, Repr

/-- The groups of rows come after the tree. -/
def read : ByteReader Footer := do
  let progress ← readRecord [1, 2, 3, 4] ({} : Progress) fun p field =>
    match field.number with
    | 1 => some (past readInt32 p)
    | 2 =>
      if p.leaves.isSome then none
      else some do
        let leaves ← leaves? (← readList Element.read)
        return { p with leaves := some leaves }
    | 3 => some do return { p with footer.rowCount := (← readInt64).toInt }
    | 4 => some do
      let groups ← readGroups (← p.leaves)
      return { p with footer.rowGroups := groups }
    | 5 => some (past (readList checkRemark) p)
    | 6 => some (past readText p)
    | 7 => some do return { p with orders := some (← readList checkOrder).length }
    | _ => none
  guard (progress.orders.all fun n => progress.leaves.any fun leaves => leaves.length = n)
  return progress.footer

/-- The footer of a file that ends with the magic word. -/
def ofFile? (file : ByteArray) : Option Footer :=
  let tail := (file.extract (file.size - 8) (file.size - 4)).toList
  let length := littleEndian tail
  if length + 8 ≤ file.size then
    (read (file.extract (file.size - 8 - length) (file.size - 8)).toList).map Prod.fst
  else
    none

end Footer

end Lakehouse.Parquet
