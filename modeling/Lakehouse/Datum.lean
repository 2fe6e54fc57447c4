import Lakehouse.Text.Decimal
import Lakehouse.Text.Quoted

/- Column types and the literals of these types.

   A datum is a value of one of four column types. Data are ordered by type
   first, in the order boolean, int, long, string, and within a type by value,
   strings by their characters' numbers. A datum can be taken to a wider or
   narrower integer type as long as its number does not change
   (`Datum.convert?`), and it can be read from text (`Datum.read?`). -/
namespace Lakehouse

/-- The type of a column. -/
inductive ColumnType where
  | boolean
  | int
  | long
  | string
  deriving DecidableEq, Repr, Inhabited

def ColumnType.name : ColumnType → String
  | .boolean => "boolean"
  | .int => "int"
  | .long => "long"
  | .string => "string"

/-- A value of a column. -/
inductive Datum where
  | boolean (value : Bool)
  | int (value : Int32)
  | long (value : Int64)
  | string (value : String)
  deriving DecidableEq, Repr, Inhabited

namespace Datum

def type : Datum → ColumnType
  | .boolean _ => .boolean
  | .int _ => .int
  | .long _ => .long
  | .string _ => .string

/-- The place of a datum's type in the order of data. -/
def rank : Datum → Nat
  | .boolean _ => 0
  | .int _ => 1
  | .long _ => 2
  | .string _ => 3

/-- By type, and within one type by value. -/
protected def compare : Datum → Datum → Ordering
  | .boolean a, .boolean b => Ord.compare a b
  | .int a, .int b => Ord.compare a b
  | .long a, .long b => Ord.compare a b
  | .string a, .string b => Ord.compare a b
  | a, b => Ord.compare a.rank b.rank

instance : Ord Datum := ⟨Datum.compare⟩

instance : Std.OrientedOrd Datum where
  eq_swap {a b} := by
    rcases a with x | x | x | x <;> rcases b with y | y | y | y
    case boolean.boolean => exact (Std.OrientedCmp.eq_swap : Ord.compare x y = _)
    case int.int => exact (Std.OrientedCmp.eq_swap : Ord.compare x y = _)
    case long.long => exact (Std.OrientedCmp.eq_swap : Ord.compare x y = _)
    case string.string => exact (Std.OrientedCmp.eq_swap : Ord.compare x y = _)
    all_goals rfl

instance : Std.TransOrd Datum where
  isLE_trans {a b c} hab hbc := by
    rcases a with x | x | x | x <;> rcases b with y | y | y | y <;>
      rcases c with z | z | z | z
    case boolean.boolean.boolean =>
      exact (Std.TransCmp.isLE_trans :
        (Ord.compare x y).isLE → (Ord.compare y z).isLE → (Ord.compare x z).isLE) hab hbc
    case int.int.int =>
      exact (Std.TransCmp.isLE_trans :
        (Ord.compare x y).isLE → (Ord.compare y z).isLE → (Ord.compare x z).isLE) hab hbc
    case long.long.long =>
      exact (Std.TransCmp.isLE_trans :
        (Ord.compare x y).isLE → (Ord.compare y z).isLE → (Ord.compare x z).isLE) hab hbc
    case string.string.string =>
      exact (Std.TransCmp.isLE_trans :
        (Ord.compare x y).isLE → (Ord.compare y z).isLE → (Ord.compare x z).isLE) hab hbc
    all_goals
      first
      | rfl
      | exact Bool.noConfusion (show false = true from hab)
      | exact Bool.noConfusion (show false = true from hbc)

instance : Std.LawfulEqOrd Datum where
  compare_self {a} := by
    rcases a with x | x | x | x
    case boolean => exact (Std.ReflCmp.compare_self : Ord.compare x x = _)
    case int => exact (Std.ReflCmp.compare_self : Ord.compare x x = _)
    case long => exact (Std.ReflCmp.compare_self : Ord.compare x x = _)
    case string => exact (Std.ReflCmp.compare_self : Ord.compare x x = _)
  eq_of_compare {a b} h := by
    rcases a with x | x | x | x <;> rcases b with y | y | y | y
    case boolean.boolean =>
      exact congrArg _ (Std.LawfulEqCmp.eq_of_compare (show Ord.compare x y = .eq from h))
    case int.int =>
      exact congrArg _ (Std.LawfulEqCmp.eq_of_compare (show Ord.compare x y = .eq from h))
    case long.long =>
      exact congrArg _ (Std.LawfulEqCmp.eq_of_compare (show Ord.compare x y = .eq from h))
    case string.string =>
      exact congrArg _ (Std.LawfulEqCmp.eq_of_compare (show Ord.compare x y = .eq from h))
    all_goals
      first
      | exact Ordering.noConfusion (show Ordering.lt = .eq from h)
      | exact Ordering.noConfusion (show Ordering.gt = .eq from h)

instance : LT Datum := ⟨fun a b => Datum.compare a b = .lt⟩

instance : LE Datum := ⟨fun a b => Datum.compare a b ≠ .gt⟩

instance (a b : Datum) : Decidable (a < b) := inferInstanceAs (Decidable (_ = _))

instance (a b : Datum) : Decidable (a ≤ b) := inferInstanceAs (Decidable (_ ≠ _))

/-- The datum of the wanted type for the same value, if there is one: an int is
also a long, and a long within the range of int is also an int. -/
def convert? (d : Datum) (target : ColumnType) : Option Datum :=
  match d, target with
  | .int i, .long => some (.long i.toInt64)
  | .long l, .int => if l.toInt32.toInt64 = l then some (.int l.toInt32) else none
  | d, t => if d.type = t then some d else none

/-- The value as text, without its type. -/
def display : Datum → String
  | .boolean true => "true"
  | .boolean false => "false"
  | .int i => String.ofList (Text.signedDecimal i.toInt)
  | .long l => String.ofList (Text.signedDecimal l.toInt)
  | .string s => s

/-- The value with its type, as messages show it. -/
def describe : Datum → String
  | .boolean b => "Boolean(" ++ (Datum.boolean b).display ++ ")"
  | .int i => "Int(" ++ (Datum.int i).display ++ ")"
  | .long l => "Long(" ++ (Datum.long l).display ++ ")"
  | .string s => "String(" ++ Text.quoted s ++ ")"

/-- The datum of a type whose text is given. A string is its own text. -/
def read? (type : ColumnType) (text : String) : Option Datum :=
  match type with
  | .boolean =>
    if text = "true" then some (.boolean true)
    else if text = "false" then some (.boolean false)
    else none
  | .int => (Text.readInt32 text.toList).toOption.map .int
  | .long => (Text.readInt64 text.toList).toOption.map .long
  | .string => some (.string text)

end Datum

end Lakehouse
