import Lakehouse.Json.Value

/- Reading JSON.

   Reading never fails as a whole: a text that is not JSON gives a value that is
   `broken` where the text stops being JSON, with a broken last part in every array
   and object around that point, so that whoever looks through the value in the
   order of the text finds out in time. Strings are checked for their form only;
   whether they stand for a text is found out when the text is wanted. -/
namespace Lakehouse

/-- The symbols of a text. -/
def symbolsOfText (text : String) : List Symbol := text.toList.map some

/-- The character whose encoding begins at byte `i` and has `size` bytes. -/
def charAt? (bytes : ByteArray) (i size : Nat) : Option Char :=
  match (String.fromUTF8? (bytes.extract i (i + size))).map String.toList with
  | some [c] => some c
  | _ => none

/-- The symbol that begins at byte `i`, and the number of its bytes. -/
def symbolAt (bytes : ByteArray) (i : Nat) : Symbol × Nat :=
  match [1, 2, 3, 4].findSome? fun size => (charAt? bytes i size).map fun c => (c, size) with
  | some (c, size) => (some c, size)
  | none => (none, 1)

/-- At most `count` symbols from byte `i` on. -/
def symbolsFrom (bytes : ByteArray) : (count i : Nat) → List Symbol
  | 0, _ => []
  | count + 1, i =>
    if i < bytes.size then
      let (s, size) := symbolAt bytes i
      s :: symbolsFrom bytes count (i + size)
    else
      []

/-- The symbols that bytes stand for; a byte that belongs to no character is a
symbol of its own. -/
def symbolsOfBytes (bytes : ByteArray) : List Symbol :=
  match String.fromUTF8? bytes with
  | some text => symbolsOfText text
  | none => symbolsFrom bytes bytes.size 0

namespace Json

/-- The blanks of JSON. -/
def isBlank (s : Symbol) : Bool :=
  s == some ' ' || s == some '\t' || s == some '\n' || s == some '\r'

def skipBlanks (text : List Symbol) : List Symbol := text.dropWhile isBlank

def isDigit (s : Symbol) : Bool := s.any Text.isDigit

/-- What was read, and the text after it unless it is broken. -/
abbrev Rest := Option (List Symbol)

/-- The value that a word stands for. -/
def readWord (word : List Char) (value : Json) (text : List Symbol) : Json × Rest :=
  if (word.map some).isPrefixOf text then (value, some (text.drop word.length))
  else (.broken, none)

/-- The rest after one or more digits. -/
def skipDigits (text : List Symbol) : Rest :=
  match text.dropWhile isDigit with
  | rest => if rest.length < text.length then some rest else none

/-- The rest after an exponent, which may be missing. -/
def skipExponent (text : List Symbol) : Rest :=
  match text with
  | some e :: rest =>
    if e = 'e' ∨ e = 'E' then
      match rest with
      | some '+' :: digits => skipDigits digits
      | some '-' :: digits => skipDigits digits
      | digits => skipDigits digits
    else
      some text
  | _ => some text

/-- The rest after a fraction, which may be missing. -/
def skipFraction (text : List Symbol) : Rest :=
  match text with
  | some '.' :: rest => skipDigits rest
  | _ => some text

/-- A number after its sign. A zero at the beginning stands alone. -/
def readNumber (negative : Bool) (text : List Symbol) : Json × Rest :=
  let digits := (text.takeWhile isDigit).filterMap id
  let after := text.dropWhile isDigit
  if digits.isEmpty || digits.head? == some '0' && 1 < digits.length then
    (.broken, none)
  else
    match skipFraction after >>= skipExponent with
    | none => (.broken, none)
    | some rest =>
      let n := Nat.ofDigitChars 10 digits 0
      -- Minus zero is no integer.
      if rest.length < after.length || negative && n == 0 then (.real, some rest)
      else (.integer negative n, some rest)

/-- The body of a string after its first quote. -/
def readBody : List Symbol → Option (List Symbol × List Symbol)
  | [] => none
  | some '"' :: rest => some ([], rest)
  | some '\\' :: some 'u' :: a :: b :: c :: d :: rest =>
    if (hexNumber? a b c d).isSome then
      (readBody rest).map fun (body, after) =>
        (some '\\' :: some 'u' :: a :: b :: c :: d :: body, after)
    else
      none
  | some '\\' :: some letter :: rest =>
    if (unescapeLetter? letter).isSome then
      (readBody rest).map fun (body, after) => (some '\\' :: some letter :: body, after)
    else
      none
  | some '\\' :: none :: _ => none
  | s :: rest =>
    if s.any fun c => c = '\\' ∨ c.toNat < 0x20 then none
    else (readBody rest).map fun (body, after) => (s :: body, after)

mutual

/-- A value; `steps` bounds the nesting and the number of parts. -/
def readValue : (steps : Nat) → List Symbol → Json × Rest
  | 0, _ => (.broken, none)
  | steps + 1, text =>
    match skipBlanks text with
    | some 'n' :: rest => readWord ['n', 'u', 'l', 'l'] .null (some 'n' :: rest)
    | some 't' :: rest => readWord ['t', 'r', 'u', 'e'] (.bool true) (some 't' :: rest)
    | some 'f' :: rest => readWord ['f', 'a', 'l', 's', 'e'] (.bool false) (some 'f' :: rest)
    | some '-' :: rest => readNumber true rest
    | some '"' :: rest =>
      match readBody rest with
      | some (body, after) => (.string body, some after)
      | none => (.broken, none)
    | some '[' :: rest =>
      match skipBlanks rest with
      | some ']' :: after => (.array [], some after)
      | rest =>
        let (items, after) := readItems steps rest
        (.array items, after)
    | some '\x7b' :: rest =>
      match skipBlanks rest with
      | some '\x7d' :: after => (.object [], some after)
      | rest =>
        let (members, after) := readMembers steps rest
        (.object members, after)
    | s :: rest => if isDigit s then readNumber false (s :: rest) else (.broken, none)
    | [] => (.broken, none)

/-- One or more items up to the bracket. -/
def readItems : (steps : Nat) → List Symbol → List Json × Rest
  | 0, _ => ([.broken], none)
  | steps + 1, text =>
    match readValue steps text with
    | (item, none) => ([item, .broken], none)
    | (item, some rest) =>
      match skipBlanks rest with
      | some ']' :: after => ([item], some after)
      | some ',' :: after =>
        let (items, after) := readItems steps after
        (item :: items, after)
      | _ => ([item, .broken], none)

/-- One or more members up to the brace. -/
def readMembers : (steps : Nat) → List Symbol → List (List Symbol × Json) × Rest
  | 0, _ => ([([], .broken)], none)
  | steps + 1, text =>
    match skipBlanks text with
    | some '"' :: rest =>
      match readBody rest with
      | none => ([([], .broken)], none)
      | some (key, rest) =>
        match skipBlanks rest with
        | some ':' :: rest =>
          match readValue steps rest with
          | (value, none) => ([(key, value), ([], .broken)], none)
          | (value, some rest) =>
            match skipBlanks rest with
            | some '\x7d' :: after => ([(key, value)], some after)
            | some ',' :: after =>
              let (members, after) := readMembers steps after
              ((key, value) :: members, after)
            | _ => ([(key, value), ([], .broken)], none)
        | _ => ([(key, .broken)], none)
    | _ => ([([], .broken)], none)

end

/-- A document: its value, and whether nothing but blanks follows it. -/
structure Document where
  value : Json
  isWhole : Bool

/-- The document that a text holds. -/
def read (text : List Symbol) : Document :=
  match readValue (2 * text.length + 2) text with
  | (value, some rest) => ⟨value, (skipBlanks rest).isEmpty⟩
  | (value, none) => ⟨value, false⟩

end Json

end Lakehouse
