/- Integers in decimal text.

   Writing gives the digits without leading zeros, after a minus sign for a
   negative number. Reading is more generous: an optional sign, then one or
   more ASCII digits, leading zeros allowed. The digits are taken from left to
   right, so a number that leaves its range before a stray character is out of
   range, and one that meets the stray character first is malformed. -/
namespace Lakehouse.Text

/-- The digits of `n`, without leading zeros. -/
def decimal (n : Nat) : List Char := Nat.toDigits 10 n

/-- The digits of `i`, after a minus sign if it is negative. -/
def signedDecimal : Int → List Char
  | .ofNat n => decimal n
  | .negSucc n => '-' :: decimal (n + 1)

/-- The digits of `n` in at least `width` places, filled up with zeros. -/
def paddedDecimal (width n : Nat) : List Char :=
  List.replicate (width - (decimal n).length) '0' ++ decimal n

/-- Why a text is not an integer of the wanted range. -/
inductive IntegerFault where
  | empty
  | invalidDigit
  | tooLarge
  | tooSmall
  deriving DecidableEq, Repr

def IntegerFault.message : IntegerFault → String
  | .empty => "cannot parse integer from empty string"
  | .invalidDigit => "invalid digit found in string"
  | .tooLarge => "number too large to fit in target type"
  | .tooSmall => "number too small to fit in target type"

def isDigit (c : Char) : Bool := '0' ≤ c && c ≤ '9'

def digitValue (c : Char) : Nat := c.toNat - '0'.toNat

/-- The number whose remaining digits are given, `n` standing for those already
read; `limit` is the largest number allowed and `excess` the fault above it. -/
def readDigits (limit : Nat) (excess : IntegerFault) : Nat → List Char → Except IntegerFault Nat
  | n, [] => .ok n
  | n, c :: rest =>
    if isDigit c then
      if n * 10 + digitValue c ≤ limit then
        readDigits limit excess (n * 10 + digitValue c) rest
      else
        .error excess
    else
      .error .invalidDigit

/-- Digits that must not be missing: a sign alone is malformed. -/
def readMagnitude (limit : Nat) (excess : IntegerFault) : List Char → Except IntegerFault Nat
  | [] => .error .invalidDigit
  | digits => readDigits limit excess 0 digits

/-- A number from 0 to `limit`; a plus sign may stand in front. -/
def readNatural (limit : Nat) : List Char → Except IntegerFault Nat
  | [] => .error .empty
  | '+' :: digits => readMagnitude limit .tooLarge digits
  | digits => readMagnitude limit .tooLarge digits

/-- A number from `-below` to `above`; either sign may stand in front. -/
def readInteger (below above : Nat) : List Char → Except IntegerFault Int
  | [] => .error .empty
  | '+' :: digits => (readMagnitude above .tooLarge digits).map Int.ofNat
  | '-' :: digits => (readMagnitude below .tooSmall digits).map fun n => - Int.ofNat n
  | digits => (readMagnitude above .tooLarge digits).map Int.ofNat

def readInt32 (text : List Char) : Except IntegerFault Int32 :=
  (readInteger (1 <<< 31) (1 <<< 31 - 1) text).map Int32.ofInt

def readInt64 (text : List Char) : Except IntegerFault Int64 :=
  (readInteger (1 <<< 63) (1 <<< 63 - 1) text).map Int64.ofInt

def readUInt64 (text : List Char) : Except IntegerFault UInt64 :=
  (readNatural (UInt64.size - 1) text).map UInt64.ofNat

end Lakehouse.Text
