import Lakehouse.Calendar.Rfc3339
import Lakehouse.Json.Reader
import Lakehouse.Schema
import Lakehouse.SortedMap

/- From JSON to typed values.

   A decoder looks through a value in the order of the text and stops at the first
   thing that does not fit. A record is an object with known fields: fields it does
   not know are skipped, a field given twice is an error, and a field may be missing
   if it has a default. A record may also be written as an array of its fields in
   their order. In a map the last value of a key counts. -/
namespace Lakehouse

/-- Why a document does not stand for a value of the wanted type. -/
inductive DecodeError where
  | malformed
  | schema (cause : SchemaError)
  deriving DecidableEq, Repr

/-- The words for a malformed document are left open; a schema names its own
fault. -/
def DecodeError.message : DecodeError → String
  | .malformed => "<json error>"
  | .schema cause => cause.message

/-- Gives the typed value that a JSON value stands for. -/
abbrev Decoder (α : Type) := Json → Except DecodeError α

namespace Decoder

variable {α β κ : Type}

def text : Decoder String
  | .string body => (Json.text? body).elim (.error .malformed) .ok
  | _ => .error .malformed

def bool : Decoder Bool
  | .bool b => .ok b
  | _ => .error .malformed

/-- An integer from `least` to `greatest`. -/
def integer (least greatest : Int) : Decoder Int
  | .integer negative digits =>
    let n : Int := if negative then -(digits : Int) else digits
    if least ≤ n ∧ n ≤ greatest then .ok n else .error .malformed
  | _ => .error .malformed

def int32 : Decoder Int32 := fun j => (integer Int32.minValue.toInt Int32.maxValue.toInt j).map Int32.ofInt

def int64 : Decoder Int64 := fun j => (integer Int64.minValue.toInt Int64.maxValue.toInt j).map Int64.ofInt

def uint32 : Decoder UInt32 := fun j =>
  (integer 0 (UInt32.size - 1 : Nat) j).map fun n => .ofNat n.toNat

def uint64 : Decoder UInt64 := fun j =>
  (integer 0 (UInt64.size - 1 : Nat) j).map fun n => .ofNat n.toNat

def instant : Decoder Calendar.Instant := fun j => do
  let s ← text j
  (Calendar.Instant.read? s).elim (.error .malformed) .ok

/-- A value, or nothing for null. -/
def option (decode : Decoder α) : Decoder (Option α)
  | .null => .ok none
  | j => (decode j).map some

/-- The items of an array. -/
def items (decode : Decoder α) : List Json → Except DecodeError (List α)
  | [] => .ok []
  | j :: rest => do
    let a ← decode j
    return a :: (← items decode rest)

def list (decode : Decoder α) : Decoder (List α)
  | .array js => items decode js
  | _ => .error .malformed

/-- The bindings of an object, with keys read by `key`. -/
def bindings (key : List Symbol → Option κ) (decode : Decoder α) :
    List (List Symbol × Json) → Except DecodeError (List (κ × α))
  | [] => .ok []
  | (body, j) :: rest => do
    let k ← (key body).elim (.error .malformed) .ok
    let a ← decode j
    return (k, a) :: (← bindings key decode rest)

def map [Ord κ] [Std.TransOrd κ] (key : List Symbol → Option κ) (decode : Decoder α) :
    Decoder (SortedMap κ α)
  | .object members => (bindings key decode members).map SortedMap.ofList
  | _ => .error .malformed

/-- A 32-bit number as the body of a string: plain digits without leading zeros,
after a minus sign if it is negative, and nothing escaped. -/
def int32Key? (body : List Symbol) : Option Int32 := do
  let cs ← body.mapM id
  let (negative, digits) := match cs with
    | '-' :: digits => (true, digits)
    | digits => (false, digits)
  guard (!digits.isEmpty && digits.all Text.isDigit)
  guard (digits.head? != some '0' || digits = ['0'] && !negative)
  (Text.readInt32 cs).toOption

/-- One of several named values, written as its name, or as an object with this
name and null. -/
def named (values : List (String × α)) : Decoder α
  | .string body => do
    let name ← text (.string body)
    (values.lookup name).elim (.error .malformed) .ok
  | .object [(body, .null)] => do
    let name ← text (.string body)
    (values.lookup name).elim (.error .malformed) .ok
  | _ => .error .malformed

/-- One of several named kinds of values, written as an object with the name and
the value. -/
def tagged (kinds : List (String × Decoder α)) : Decoder α
  | .object ((body, j) :: rest) => do
    let name ← text (.string body)
    let decode ← (kinds.lookup name).elim (.error .malformed) .ok
    let a ← decode j
    if rest.isEmpty then return a else .error .malformed
  | _ => .error .malformed

end Decoder

/-! ### Records -/

/-- The fields found in a record, each with its position in the text. -/
structure FoundFields where
  find? : String → Option (Nat × Json)
  size : Nat

/-- A type of records: the names of its fields in their order, and how a value is
built from the fields found. An error comes with the position at which it is
noticed; a missing field is noticed at the end. -/
structure RecordOf (α : Type) where
  names : List String
  build : FoundFields → Except (Nat × DecodeError) α

namespace RecordOf

variable {α β : Type}

/-- Of two results, the later applied to the earlier; of two errors, the one noticed
first. -/
def combine (f : Except (Nat × DecodeError) (α → β)) (a : Except (Nat × DecodeError) α) :
    Except (Nat × DecodeError) β :=
  match f, a with
  | .ok f, .ok a => .ok (f a)
  | .error e, .ok _ => .error e
  | .ok _, .error e => .error e
  | .error e, .error e' => .error (if e'.1 < e.1 then e' else e)

instance : Functor RecordOf where
  map f r := ⟨r.names, fun found => (r.build found).map f⟩

instance : Applicative RecordOf where
  pure a := ⟨[], fun _ => .ok a⟩
  seq f r := ⟨f.names ++ (r ()).names, fun found => combine (f.build found) ((r ()).build found)⟩

/-- A field with a value for the case that it is missing. -/
def fieldOr (name : String) (missing : Option α) (decode : Decoder α) : RecordOf α :=
  ⟨[name], fun found =>
    match found.find? name with
    | some (position, j) => (decode j).mapError fun e => (position, e)
    | none => missing.elim (.error (found.size, .malformed)) .ok⟩

/-- A field that must be there. -/
def field (name : String) (decode : Decoder α) : RecordOf α := fieldOr name none decode

/-- The fields of an object, from position `i` on. -/
def numbered (i : Nat) : List (List Symbol × Json) → List (Option String × Nat × Json)
  | [] => []
  | (body, j) :: rest => (Json.text? body, i, j) :: numbered (i + 1) rest

/-- The first member whose name is no text, is known and was there before, or whose
value is broken. -/
def firstFault? (names : List String) (seen : List String) :
    List (Option String × Nat × Json) → Option Nat
  | [] => none
  | (none, i, _) :: _ => some i
  | (some _, i, .broken) :: _ => some i
  | (some name, i, _) :: rest =>
    if seen.contains name then some i
    else firstFault? names (if names.contains name then name :: seen else seen) rest

/-- The result, unless the fault of the whole record is noticed before its error. -/
def settle (fault : Option Nat) : Except (Nat × DecodeError) α → Except DecodeError α
  | .ok a => if fault.isSome then .error .malformed else .ok a
  | .error (i, e) => if fault.any (· < i) then .error .malformed else .error e

/-- The record as an object, or as an array of the first of its fields. -/
def decode (r : RecordOf α) : Decoder α
  | .object members =>
    let members := numbered 0 members
    let found : FoundFields :=
      ⟨fun name => (members.find? fun m => m.1 == some name).map (·.2), members.length⟩
    settle (firstFault? r.names [] members) (r.build found)
  | .array items =>
    let found : FoundFields :=
      ⟨fun name => (r.names.idxOf? name).bind fun i => items[i]?.map fun j => (i, j),
        items.length⟩
    settle (if r.names.length < items.length then some r.names.length else none)
      (r.build found)
  | _ => .error .malformed

end RecordOf

/-- The value that a document stands for. -/
def Decoder.run {α : Type} (decode : Decoder α) (text : List Symbol) : Except DecodeError α :=
  let document := Json.read text
  match decode document.value with
  | .error e => .error e
  | .ok a => if document.isWhole then .ok a else .error .malformed

end Lakehouse
