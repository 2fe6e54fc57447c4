import Lakehouse.Parquet.Thrift

/- What the values of a Parquet column stand for.

   A column stores its values as one of a few types. An annotation says what they
   mean: a logical type, or in older files a converted type, or both, if they say
   the same. `Storage.allows` is the rule for which annotations a column may have,
   given how its values are stored. -/
namespace Lakehouse.Parquet

/-- How the values of a column are stored. -/
inductive PhysicalType where
  | boolean
  | int32
  | int64
  | int96
  | float
  | double
  | byteArray
  | fixedByteArray
  deriving DecidableEq, Repr

namespace PhysicalType

def ofCode? : Int → Option PhysicalType
  | 0 => some .boolean
  | 1 => some .int32
  | 2 => some .int64
  | 3 => some .int96
  | 4 => some .float
  | 5 => some .double
  | 6 => some .byteArray
  | 7 => some .fixedByteArray
  | _ => none

/-- The bytes that the value of a type takes at least. -/
def width : PhysicalType → Nat
  | .boolean => 1
  | .int32 => 4
  | .int64 => 8
  | .int96 => 12
  | .float => 4
  | .double => 8
  | .byteArray => 0
  | .fixedByteArray => 0

end PhysicalType

/-- How often a column occurs in its parent. -/
inductive Repetition where
  | required
  | optional
  | repeated
  deriving DecidableEq, Repr

def Repetition.ofCode? : Int → Option Repetition
  | 0 => some .required
  | 1 => some .optional
  | 2 => some .repeated
  | _ => none

/-! ### Annotations -/

/-- The older annotations. -/
inductive ConvertedType where
  | text
  | map
  | mapEntry
  | list
  | enumeration
  | decimal
  | date
  | timeMillis
  | timeMicros
  | timestampMillis
  | timestampMicros
  | uint8
  | uint16
  | uint32
  | uint64
  | int8
  | int16
  | int32
  | int64
  | json
  | bson
  | interval
  deriving DecidableEq, Repr

def ConvertedType.ofCode? : Int → Option ConvertedType
  | 0 => some .text
  | 1 => some .map
  | 2 => some .mapEntry
  | 3 => some .list
  | 4 => some .enumeration
  | 5 => some .decimal
  | 6 => some .date
  | 7 => some .timeMillis
  | 8 => some .timeMicros
  | 9 => some .timestampMillis
  | 10 => some .timestampMicros
  | 11 => some .uint8
  | 12 => some .uint16
  | 13 => some .uint32
  | 14 => some .uint64
  | 15 => some .int8
  | 16 => some .int16
  | 17 => some .int32
  | 18 => some .int64
  | 19 => some .json
  | 20 => some .bson
  | 21 => some .interval
  | _ => none

inductive TimeUnit where
  | millis
  | micros
  | nanos
  deriving DecidableEq, Repr

/-- The newer annotations. One that is not known leaves the values as they are. -/
inductive LogicalType where
  | text
  | map
  | list
  | enumeration
  | decimal (scale precision : Int)
  | date
  | time (unit : TimeUnit)
  | timestamp (unit : TimeUnit)
  | integer (width : Int) (signed : Bool)
  | null
  | json
  | bson
  | uuid
  | float16
  | variant
  | geometry
  | geography
  | unknown
  deriving DecidableEq, Repr

namespace LogicalType

/-- The converted type that says the same. -/
def converted? : LogicalType → Option ConvertedType
  | .text => some .text
  | .map => some .map
  | .list => some .list
  | .enumeration => some .enumeration
  | .decimal _ _ => some .decimal
  | .date => some .date
  | .time .millis => some .timeMillis
  | .time .micros => some .timeMicros
  | .timestamp .millis => some .timestampMillis
  | .timestamp .micros => some .timestampMicros
  | .integer 8 true => some .int8
  | .integer 16 true => some .int16
  | .integer 32 true => some .int32
  | .integer 64 true => some .int64
  | .integer 8 false => some .uint8
  | .integer 16 false => some .uint16
  | .integer 32 false => some .uint32
  | .integer 64 false => some .uint64
  | .json => some .json
  | .bson => some .bson
  | _ => none

/-- Integers have one of four widths. -/
def isProper : LogicalType → Bool
  | .integer width _ => [8, 16, 32, 64].contains width
  | _ => true

end LogicalType

/-! ### Reading annotations -/

section

open Thrift

/-- A converted type; it may also be said that there is none. -/
def readConvertedType : ByteReader (Option ConvertedType) :=
  readCoded fun code =>
    if code = -1 then some none else (ConvertedType.ofCode? code).map some

def readTimeUnit : ByteReader TimeUnit :=
  readChoice fun field =>
    match field.number with
    | 1 => past readNothing .millis
    | 2 => past readNothing .micros
    | 3 => past readNothing .nanos
    | _ => failure

/-- The unit of a time; whether it is one of the world's or of a place makes no
difference. -/
def readTime : ByteReader TimeUnit :=
  readRecord [1, 2] .millis fun unit field =>
    match field.number with
    | 1 => some (past field.truth unit)
    | 2 => some readTimeUnit
    | _ => none

/-- Scale and precision of a decimal number. -/
def readDecimal : ByteReader (Int × Int) :=
  readRecord [1, 2] (0, 0) fun (scale, precision) field =>
    match field.number with
    | 1 => some do return ((← readInt32).toInt, precision)
    | 2 => some do return (scale, (← readInt32).toInt)
    | _ => none

/-- The bits of an integer, and whether it has a sign. -/
def readInteger : ByteReader (Int × Bool) :=
  readRecord [1, 2] (0, false) fun (width, signed) field =>
    match field.number with
    | 1 => some do return ((← readInt8).toInt, signed)
    | 2 => some do return (width, ← field.truth)
    | _ => none

/-- The version of the rules for values of any shape. -/
def checkVersion : ByteReader Unit :=
  checkRecord [] fun field =>
    match field.number with
    | 1 => some (discard readInt8)
    | _ => none

/-- The system of coordinates in a plane. -/
def checkPlane : ByteReader Unit :=
  checkRecord [] fun field =>
    match field.number with
    | 1 => some (discard readText)
    | _ => none

/-- The system of coordinates on a globe, and how the way between two points runs. -/
def checkGlobe : ByteReader Unit :=
  checkRecord [] fun field =>
    match field.number with
    | 1 => some (discard readText)
    | 2 => some (discard readInt32)
    | _ => none

def readLogicalType : ByteReader LogicalType :=
  readChoice fun field =>
    match field.number with
    | 1 => past readNothing .text
    | 2 => past readNothing .map
    | 3 => past readNothing .list
    | 4 => past readNothing .enumeration
    | 5 => (fun (scale, precision) => LogicalType.decimal scale precision) <$> readDecimal
    | 6 => past readNothing .date
    | 7 => LogicalType.time <$> readTime
    | 8 => LogicalType.timestamp <$> readTime
    | 10 => (fun (width, signed) => LogicalType.integer width signed) <$> readInteger
    | 11 => past readNothing .null
    | 12 => past readNothing .json
    | 13 => past readNothing .bson
    | 14 => past readNothing .uuid
    | 15 => past readNothing .float16
    | 16 => past checkVersion .variant
    | 17 => past checkPlane .geometry
    | 18 => past checkGlobe .geography
    | _ => past field.skip .unknown

end

/-! ### Which annotations a column may have -/

/-- How the values of a column are stored: their type, the length of each if it is
fixed, and for decimal numbers the digits after the point and all digits. What the
file leaves open is negative. -/
structure Storage where
  type : PhysicalType
  length : Int
  scale : Int
  precision : Int
  deriving DecidableEq, Repr

namespace Storage

/-- Decimal numbers with so many digits fit the bytes of a value. From 129 bytes on
there is no limit. -/
def holdsDigits (bytes digits : Nat) : Bool :=
  128 < bytes || (digits ≤ 8 * bytes && Nat.pow 10 digits < 1 <<< (8 * bytes - 1))

/-- The column may hold decimal numbers. -/
def allowsDecimal (s : Storage) : Bool :=
  1 ≤ s.precision && 0 ≤ s.scale && s.scale ≤ s.precision &&
    match s.type with
    | .int32 => s.precision ≤ 9
    | .int64 => s.precision ≤ 18
    | .byteArray => true
    | .fixedByteArray =>
      8 * s.length ≤ Int32.maxValue.toInt && holdsDigits s.length.toNat s.precision.toNat
    | _ => false

/-- The column may have a converted type. -/
def allowsConverted (s : Storage) : ConvertedType → Bool
  | .text => s.type == .byteArray
  | .json => s.type == .byteArray
  | .bson => s.type == .byteArray
  | .enumeration => s.type == .byteArray
  | .decimal => s.allowsDecimal
  | .date => s.type == .int32
  | .timeMillis => s.type == .int32
  | .uint8 => s.type == .int32
  | .uint16 => s.type == .int32
  | .uint32 => s.type == .int32
  | .int8 => s.type == .int32
  | .int16 => s.type == .int32
  | .int32 => s.type == .int32
  | .timeMicros => s.type == .int64
  | .timestampMillis => s.type == .int64
  | .timestampMicros => s.type == .int64
  | .uint64 => s.type == .int64
  | .int64 => s.type == .int64
  | .interval => s.type == .fixedByteArray && s.length == 12
  | .map => false
  | .mapEntry => false
  | .list => false

/-- The column may have a logical type. -/
def allowsLogical (s : Storage) : LogicalType → Bool
  | .text => s.type == .byteArray
  | .json => s.type == .byteArray
  | .bson => s.type == .byteArray
  | .enumeration => s.type == .byteArray
  | .geometry => s.type == .byteArray
  | .geography => s.type == .byteArray
  | .decimal scale precision =>
    scale == s.scale && precision == s.precision && s.allowsDecimal
  | .date => s.type == .int32
  | .null => s.type == .int32
  | .time .millis => s.type == .int32
  | .time _ => s.type == .int64
  | .timestamp _ => s.type == .int64
  | .integer width _ => s.type == (if width == 64 then .int64 else .int32)
  | .uuid => s.type == .fixedByteArray && s.length == 16
  | .float16 => s.type == .fixedByteArray && s.length == 2
  | .unknown => true
  | .map => false
  | .list => false
  | .variant => false

/-- The column may have the given annotations, which have to say the same. -/
def allows (s : Storage) (logical : Option LogicalType) (converted : Option ConvertedType) :
    Bool :=
  (s.type != .fixedByteArray || 0 ≤ s.length) &&
    logical.all (fun l => s.allowsLogical l && converted.all (l.converted? == some ·)) &&
    converted.all s.allowsConverted

end Storage

end Lakehouse.Parquet
