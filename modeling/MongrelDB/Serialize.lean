import MongrelDB.Lib.Decimal
import MongrelDB.Sbuf
import MongrelDB.Types

/-!
# Serialization

The serializers of the client append to a buffer, piece by piece. They do not look
at the results of these appends, so what they do does not depend on them: each
is the list of the pieces it appends (`Appends`), and `Sbuf.appendAll` appends
them, whether or not one of them fails.
-/

namespace MongrelDB

open Ascii

/-- The pieces a serializer appends, in order. -/
abbrev Appends := List Bytes

/-- Appends whose results are not looked at. -/
def Sbuf.appendAll (s : Sbuf) (h : Heap) : Appends → Sbuf × Heap
  | [] => (s, h)
  | p :: ps =>
    let (_, s, h) := s.append p h
    s.appendAll h ps

/-- `snprintf` into a buffer of `size` bytes. -/
def snprintf (size : Nat) (s : Bytes) : Bytes := s.take (size - 1)

/-- The digits of `%x`. -/
def hexDigitChar (d : Nat) : UInt8 := UInt8.ofNat (if d < 10 then 48 + d else 87 + d)

/-- A loop over an array, with a comma in front of every element but the first. -/
def separated {α : Type} (f : α → Appends) : List α → Appends
  | [] => []
  | x :: xs => f x ++ xs.flatMap fun y => [comma] :: f y

/-! ## Strings -/

/-- The character `c` in a string. -/
def escapeChar (c : UInt8) : Bytes :=
  if c = quote then [backslash, quote]
  else if c = backslash then [backslash, backslash]
  else if c = 8 then [backslash, lowerB]
  else if c = 12 then [backslash, lowerF]
  else if c = 10 then [backslash, lowerN]
  else if c = 13 then [backslash, lowerR]
  else if c = 9 then [backslash, lowerT]
  else if c < 0x20 then
    -- `\u%04x`
    [backslash, lowerU, zero, zero, hexDigitChar (c.toNat / 16), hexDigitChar (c.toNat % 16)]
  else [c]

/-- `json_escape` -/
def jsonEscape (s : CStr) : Appends := [quote] :: (s.bytes.map escapeChar ++ [[quote]])

/-! ## Values -/

/-- `snprintf(buf, sizeof(buf), "%lld", i)`, into a buffer of 32 bytes. -/
def int64Text (i : Int64) : Bytes := snprintf 32 (intText i.toInt)

/-- The empty string in the place of NULL. -/
def orEmpty (s : Option CStr) : CStr := s.getD (.lit "")

/-- A string that is neither NULL nor empty. -/
def isGiven (s : Option CStr) : Bool := s.any fun s => !s.bytes.isEmpty

/-- `json_serialize_value` -/
def jsonSerializeValue (lib : Libc) : InputValue → Appends
  | .null => [ascii "null"]
  | .bool b => [if b ≠ 0 then ascii "true" else ascii "false"]
  | .int64 i => [int64Text i]
  | .double d =>
    -- An infinity or a NaN is not JSON.
    if d.isFinite then [snprintf 64 (lib.printG d).bytes] else [ascii "null"]
  | .str s => jsonEscape (orEmpty s)
  | .json s => [(s.getD (.lit "null")).bytes]
  | .other => [ascii "null"]

/-- A cell: the id of its column and its value. -/
def jsonSerializeCell (lib : Libc) (cell : InputCell) : Appends :=
  int64Text cell.columnId :: [comma] :: jsonSerializeValue lib cell.value

/-- `json_serialize_cells` -/
def jsonSerializeCells (lib : Libc) (cells : List InputCell) : Appends :=
  [lbrack] :: (separated (jsonSerializeCell lib) cells ++ [[rbrack]])

end MongrelDB
