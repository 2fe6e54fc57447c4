/- The compact Thrift encoding.

   A record is a sequence of fields, each with a number and the kind of its value,
   up to a stop; the number is given by its distance from the one before or in full.
   Integers are written in groups of seven bits, with the sign in the lowest bit.
   Nothing says which record is meant: a reader has to know which number stands for
   what, and reads the value as it expects it, whatever kind is announced. Only a
   field of which it knows nothing is passed over by its kind. -/
namespace Lakehouse.Parquet

/-- Reads something off the front of a sequence of bytes, or fails. -/
abbrev ByteReader := StateT (List UInt8) Option

namespace Thrift

/-! ### Bytes and numbers -/

def readByte : ByteReader UInt8 := fun
  | [] => none
  | b :: rest => some (b, rest)

def readBytes (count : Nat) : ByteReader (List UInt8) := fun bytes =>
  if count ≤ bytes.length then some (bytes.take count, bytes.drop count) else none

/-- Sets the bits of the groups that begin here, the first of them from the bit
`shift` on. Every group but the last has its eighth bit set. Behind the highest bit
comes the lowest. -/
def readGroups (bits shift : UInt64) : List UInt8 → Option (UInt64 × List UInt8)
  | [] => none
  | b :: rest =>
    let bits := bits ||| (b &&& 0x7f).toUInt64 <<< shift
    if b < 128 then some (bits, rest) else readGroups bits (shift + 7) rest

def readUnsigned : ByteReader UInt64 := readGroups 0 0

/-- A number whose lowest bit is its sign. -/
def readInt64 : ByteReader Int64 := do
  let bits ← readUnsigned
  return (bits >>> 1 ^^^ (0 - (bits &&& 1))).toInt64

/-- The low half of a number. -/
def readInt32 : ByteReader Int32 := return (← readInt64).toInt32

/-- The low quarter of a number. -/
def readInt16 : ByteReader Int16 := return (← readInt64).toInt16

def readInt8 : ByteReader Int8 := return (← readByte).toInt8

/-- A length and so many bytes. -/
def readBinary : ByteReader (List UInt8) := do readBytes (← readUnsigned).toNat

def readText : ByteReader String := do
  let bytes ← readBinary
  String.fromUTF8? ⟨bytes.toArray⟩

/-- Reads over something, and keeps what there was before. -/
def past {α β : Type} (read : ByteReader α) (kept : β) : ByteReader β := do
  let _ ← read
  return kept

/-- One of the values that have a code. -/
def readCoded {α : Type} (ofCode? : Int → Option α) : ByteReader α := do
  ofCode? (← readInt32).toInt

/-! ### Fields and items -/

/-- What a value is written as. The kind of a truth value already is its value. -/
inductive Kind where
  | truth (value : Bool)
  | byte
  | int16
  | int32
  | int64
  | double
  | binary
  | list
  | set
  | map
  | record
  deriving DecidableEq, Repr

def Kind.ofCode? : Nat → Option Kind
  | 1 => some (.truth true)
  | 2 => some (.truth false)
  | 3 => some .byte
  | 4 => some .int16
  | 5 => some .int32
  | 6 => some .int64
  | 7 => some .double
  | 8 => some .binary
  | 9 => some .list
  | 10 => some .set
  | 11 => some .map
  | 12 => some .record
  | _ => none

/-- What stands in front of the value of a field. -/
structure Field where
  number : Int
  kind : Kind
  deriving DecidableEq, Repr

/-- The value of a field that is expected to be a truth value. -/
def Field.truth (field : Field) : ByteReader Bool :=
  match field.kind with
  | .truth value => return value
  | _ => failure

/-- What stands in front of the next value, given the number of the field before;
there is nothing after the last field. -/
def readField (previous : Int) : ByteReader (Option Field) := do
  let b ← readByte
  let code := b.toNat % 16
  let distance := b.toNat / 16
  if code = 0 then
    return none
  let kind ← Kind.ofCode? code
  if distance = 0 then
    return some ⟨(← readInt16).toInt, kind⟩
  guard (previous + distance ≤ Int16.maxValue.toInt)
  return some ⟨previous + distance, kind⟩

/-- The kind of the items of a list, and their number. A zero stands for a list
without items. -/
def readListStart : ByteReader (Kind × Int) := do
  let b ← readByte
  if b = 0 then
    return (.byte, 0)
  let kind ← Kind.ofCode? (b.toNat % 16)
  let count := b.toNat / 16
  if count = 15 then
    return (kind, (← readUnsigned).toInt64.toInt32.toInt)
  return (kind, count)

/-- So many values in a row. -/
def readTimes {α : Type} (read : ByteReader α) : (count : Nat) → ByteReader (List α)
  | 0 => return []
  | count + 1 => do
    let first ← read
    return first :: (← readTimes read count)

/-- A list of items that are all read in the same way. -/
def readList {α : Type} (read : ByteReader α) : ByteReader (List α) := do
  let (_, count) ← readListStart
  guard (0 ≤ count)
  readTimes read count.toNat

/-- Goes on from `start` with every field up to the stop. Each field takes one of the
`steps`. -/
def foldFields {σ : Type} (read : σ → Field → ByteReader σ) :
    (steps : Nat) → (previous : Int) → (start : σ) → ByteReader σ
  | 0, _, _ => failure
  | steps + 1, previous, start => do
    match ← readField previous with
    | none => return start
    | some field =>
      let next ← read start field
      foldFields read steps field.number next

/-- Goes on from `start` with every field of a record. A field has at least one byte,
and so has the stop. -/
def readFields {σ : Type} (start : σ) (read : σ → Field → ByteReader σ) : ByteReader σ :=
  fun bytes => foldFields read bytes.length 0 start bytes

/-! ### What is passed over -/

/-- Passes over a value. Its parts may be nested so many levels deep, and may be
neither sets nor maps. -/
def skip : (levels : Nat) → Kind → ByteReader Unit
  | 0, _ => failure
  | levels + 1, kind =>
    match kind with
    | .truth _ => return ()
    | .byte => discard readByte
    | .int16 => discard readUnsigned
    | .int32 => discard readUnsigned
    | .int64 => discard readUnsigned
    | .double => discard (readBytes 8)
    | .binary => discard readBinary
    | .list => do
      let (item, count) ← readListStart
      match item with
      -- A truth value takes no bytes, so the first one stands for all.
      | .truth value => if 0 < count then skip levels (.truth value)
      | item => discard (readTimes (skip levels item) count.toNat)
    | .set => failure
    | .map => failure
    | .record => readFields () fun _ field => skip levels field.kind

/-- Passes over the value of a field of which nothing is known. -/
def Field.skip (field : Field) : ByteReader Unit := Thrift.skip 64 field.kind

/-! ### Records -/

/-- Goes on from `start` with every field of a record that is known, and gives the
numbers of all fields as well. -/
def readNumbered {σ : Type} (start : σ) (known : σ → Field → Option (ByteReader σ)) :
    ByteReader (σ × List Int) :=
  readFields (start, []) fun (s, numbers) field => do
    match known s field with
    | some read => return (← read, field.number :: numbers)
    | none =>
      field.skip
      return (s, field.number :: numbers)

/-- Goes on from `start` with every known field of a record, which must have all
fields with `required` numbers. -/
def readRecord {σ : Type} (required : List Int) (start : σ)
    (known : σ → Field → Option (ByteReader σ)) : ByteReader σ := do
  let (s, numbers) ← readNumbered start known
  guard (required.all numbers.contains)
  return s

/-- Reads over a record of no further use. Its known fields must be readable, and all
fields with `required` numbers must be there. -/
def checkRecord (required : List Int) (known : Field → Option (ByteReader Unit)) :
    ByteReader Unit :=
  readRecord required () fun _ field => known field

/-- A choice is a record with just one field, whose number says what was chosen. -/
def readChoice {α : Type} (read : Field → ByteReader α) : ByteReader α := do
  let some field ← readField 0 | failure
  let chosen ← read field
  match ← readField field.number with
  | none => return chosen
  | some _ => failure

/-- The value of a choice that has no content. -/
def readNothing : ByteReader Unit := do guard ((← readByte) = 0)

end Thrift

end Lakehouse.Parquet
