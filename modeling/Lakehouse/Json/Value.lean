import Lakehouse.Text.Decimal

/- JSON values as they are written.

   A string keeps its body as it stands between the quotes; `unescape?` gives the
   text it stands for, if it stands for one. A number keeps its sign and digits if
   it is an integer; any other number is known only to be one. Input symbols are
   characters, or `none` for a byte that belongs to no character: such a byte may
   stand in a string whose text nobody asks for. -/
namespace Lakehouse

/-- A symbol of a text of bytes. -/
abbrev Symbol := Option Char

/-- A value of a JSON document. A value `broken` stands where the document stops
being JSON; nothing of the document follows it. -/
inductive Json where
  | null
  | bool (value : Bool)
  | integer (negative : Bool) (digits : Nat)
  | real
  | string (body : List Symbol)
  | array (items : List Json)
  | object (members : List (List Symbol × Json))
  | broken
  deriving Inhabited

namespace Json

/-! ### Strings -/

/-- The letter that stands for a character after a backslash. -/
def escapeLetter? (c : Char) : Option Char :=
  if c = '"' then some '"'
  else if c = '\\' then some '\\'
  else if c = '\x08' then some 'b'
  else if c = '\x0c' then some 'f'
  else if c = '\n' then some 'n'
  else if c = '\r' then some 'r'
  else if c = '\t' then some 't'
  else none

/-- The four hexadecimal digits of a number. -/
def fourHexDigits (n : Nat) : List Char :=
  [Nat.digitChar (n / 4096 % 16), Nat.digitChar (n / 256 % 16),
    Nat.digitChar (n / 16 % 16), Nat.digitChar (n % 16)]

/-- How a character is written in a string: quotes, backslashes and controls are
escaped, all else stands for itself. -/
def escapeChar (c : Char) : List Char :=
  match escapeLetter? c with
  | some letter => ['\\', letter]
  | none => if c.toNat < 0x20 then '\\' :: 'u' :: fourHexDigits c.toNat else [c]

/-- The body of the string for a text. -/
def escape (text : List Char) : List Char := text.flatMap escapeChar

/-- The string for a text. -/
def ofText (text : String) : Json := .string ((escape text.toList).map some)

def hexDigit? (c : Char) : Option Nat :=
  if '0' ≤ c ∧ c ≤ '9' then some (c.toNat - '0'.toNat)
  else if 'a' ≤ c ∧ c ≤ 'f' then some (c.toNat - 'a'.toNat + 10)
  else if 'A' ≤ c ∧ c ≤ 'F' then some (c.toNat - 'A'.toNat + 10)
  else none

/-- The number that four hexadecimal digits stand for. -/
def hexNumber? (a b c d : Symbol) : Option Nat := do
  let a ← a >>= hexDigit?
  let b ← b >>= hexDigit?
  let c ← c >>= hexDigit?
  let d ← d >>= hexDigit?
  return a * 4096 + b * 256 + c * 16 + d

/-- The character that a letter after a backslash stands for. -/
def unescapeLetter? (c : Char) : Option Char :=
  match c with
  | '"' => some '"'
  | '\\' => some '\\'
  | '/' => some '/'
  | 'b' => some '\x08'
  | 'f' => some '\x0c'
  | 'n' => some '\n'
  | 'r' => some '\r'
  | 't' => some '\t'
  | _ => none

/-- A first half of a pair that stands for one character. -/
def isHighSurrogate (n : Nat) : Bool := 0xd800 ≤ n && n < 0xdc00

/-- A second half of a pair that stands for one character. -/
def isLowSurrogate (n : Nat) : Bool := 0xdc00 ≤ n && n < 0xe000

/-- The character of a surrogate pair. -/
def pairedChar (high low : Nat) : Char :=
  Char.ofNat (0x10000 + (high - 0xd800) * 0x400 + (low - 0xdc00))

/-- The text of a string's body. There is none if a surrogate stands alone or a
byte belongs to no character. -/
def unescape? : List Symbol → Option (List Char)
  | [] => some []
  | some '\\' :: some 'u' :: a :: b :: c :: d :: some '\\' :: some 'u' :: e :: f :: g :: h ::
      rest => do
    let n ← hexNumber? a b c d
    if isHighSurrogate n then
      let m ← hexNumber? e f g h
      if isLowSurrogate m then
        return pairedChar n m :: (← unescape? rest)
      else
        none
    else if isLowSurrogate n then
      none
    else
      return Char.ofNat n :: (← unescape? (some '\\' :: some 'u' :: e :: f :: g :: h :: rest))
  | some '\\' :: some 'u' :: a :: b :: c :: d :: rest => do
    let n ← hexNumber? a b c d
    if isHighSurrogate n || isLowSurrogate n then none
    else return Char.ofNat n :: (← unescape? rest)
  | some '\\' :: some letter :: rest => do
    let c ← unescapeLetter? letter
    return c :: (← unescape? rest)
  | some c :: rest => return c :: (← unescape? rest)
  | none :: _ => none

/-- The text that a string stands for. -/
def text? (body : List Symbol) : Option String := (unescape? body).map String.ofList

/-! ### Compact form -/

/-- An integer without leading zeros. -/
def integerText (negative : Bool) (digits : Nat) : List Char :=
  if negative then '-' :: Text.decimal digits else Text.decimal digits

def quotedBody (body : List Symbol) : List Char :=
  '"' :: body.filterMap id ++ ['"']

mutual

/-- The value without blanks. -/
def compact : Json → List Char
  | .null => ['n', 'u', 'l', 'l']
  | .bool true => ['t', 'r', 'u', 'e']
  | .bool false => ['f', 'a', 'l', 's', 'e']
  | .integer negative digits => integerText negative digits
  | .real => ['0', '.', '0']
  | .string body => quotedBody body
  | .array items => '[' :: compactItems items ++ [']']
  | .object members => '\x7b' :: compactMembers members ++ ['\x7d']
  | .broken => []

/-- Items with commas between them. -/
def compactItems : List Json → List Char
  | [] => []
  | [item] => compact item
  | item :: rest => compact item ++ ',' :: compactItems rest

/-- Members with commas between them. -/
def compactMembers : List (List Symbol × Json) → List Char
  | [] => []
  | [(key, value)] => quotedBody key ++ ':' :: compact value
  | (key, value) :: rest => quotedBody key ++ ':' :: compact value ++ ',' :: compactMembers rest

end

def render (j : Json) : String := String.ofList j.compact

end Json

end Lakehouse
