import MongrelDB.Lib.Json

/-!
# The JSON parser

The recursive-descent parser of the client (`json_parser`, `jp_*`): it builds no
tree, and only walks over the text, leaving its cursor after what it has
walked over.

A pointer into the buffer is modelled by the bytes from it to the end of the
buffer. A test `p < end` is then a case distinction on these bytes. What the C
code does on the strength of an earlier test, without one of its own, is
checked here: moving the cursor past the end, reading there, or converting a
negative difference of pointers to `size_t` is a `Fault`. So is running out of
fuel: each loop and each recursive call takes a unit of it, and every entry
point starts with `fuelFor` its buffer.

The stack of calls is taken to be unbounded. The source sets no limit to how
deep brackets are nested, and takes a stack frame for each level: what is
proved of a deep value here holds as long as the stack of the platform does.
-/

namespace MongrelDB

open Ascii

/-- What the C standard leaves undefined, or a loop that does not end. -/
inductive Fault where
  /-- A byte read at or past the end of the buffer. -/
  | read
  /-- A cursor moved past the end of the buffer. -/
  | cursor
  /-- A negative length. -/
  | span
  /-- An access outside the allocation of an array, or to an unset slot of it. -/
  | index
  /-- A write outside the allocation of a string buffer. -/
  | write
  /-- A NULL pointer read through. -/
  | null
  /-- Out of fuel. -/
  | fuel
  deriving DecidableEq, Repr

/-- A computation that may fault. -/
abbrev Run := Except Fault

/-- `json_parser`: the bytes from the cursor to the end, and the error flag. -/
structure JsonParser where
  p : Bytes
  ok : Bool
  deriving DecidableEq

/-- The fuel of a walk over a buffer. -/
def fuelFor (src : Bytes) : Nat := 3 * src.length + 3

/-! ## Pointers -/

/-- `p + 1`. -/
def ptrSucc : Bytes → Run Bytes
  | [] => .error .cursor
  | _ :: r => .ok r

/-- `j->p++`. -/
def JsonParser.bump (j : JsonParser) : Run JsonParser := do
  return { j with p := ← ptrSucc j.p }

/-- `q - p`, for two pointers into a buffer. -/
def ptrDiff (q p : Bytes) : Int := p.length - q.length

/-- The conversion of a length to `size_t`. -/
def toSize (n : Int) : Run Nat :=
  if 0 ≤ n then .ok n.toNat else .error .span

/-- The `n` bytes at `p`. -/
def slice (p : Bytes) (n : Nat) : Run Bytes :=
  if n ≤ p.length then .ok (p.take n) else .error .read

/-- `n == strlen(key) && memcmp(p, key, n) == 0`. -/
def spanEq (p : Bytes) (n : Nat) (key : Bytes) : Run Bool := do
  if n = key.length then
    return (← slice p n) == key
  else
    return false

/-! ## Tokens -/

/-- `jp_skip_ws` -/
def jpSkipWs (j : JsonParser) : JsonParser := { j with p := j.p.dropWhile isWs }

/-- `jp_peek`: the character at the cursor after whitespace, or `none` for `-1`. -/
def jpPeek (j : JsonParser) : Option UInt8 × JsonParser :=
  let j := jpSkipWs j
  (j.p.head?, j)

/-- The loop of `jp_string`. -/
def jpStringLoop (ok : Bool) : Bytes → JsonParser
  | [] => ⟨[], false⟩
  | [c] => if c = quote then ⟨[], ok⟩ else ⟨[], false⟩
  | c :: d :: r =>
    if c = backslash then jpStringLoop ok r
    else if c = quote then ⟨d :: r, ok⟩
    else jpStringLoop ok (d :: r)

/-- `jp_string`; the cursor is at a `"`. -/
def jpString (j : JsonParser) : Run JsonParser := do
  let j ← j.bump
  return jpStringLoop j.ok j.p

/-- `jp_number` -/
def jpNumber (j : JsonParser) : JsonParser := { j with p := j.p.dropWhile isNumberChar }

/-- `jp_literal` -/
def jpLiteral (j : JsonParser) : JsonParser := { j with p := j.p.dropWhile isLiteralChar }

/-! ## Values -/

mutual

/-- The loop of `jp_array`. -/
def jpArrayLoop : Nat → JsonParser → Run JsonParser
  | 0, _ => .error .fuel
  | n + 1, j => do
    let j ← jpValue n j
    if !j.ok then return j
    let (ch, j) := jpPeek j
    if ch = some comma then
      jpArrayLoop n (← j.bump)
    else if ch = some rbrack then
      j.bump
    else
      return { j with ok := false }

/-- `jp_array`; the cursor is at a `[`. -/
def jpArray : Nat → JsonParser → Run JsonParser
  | 0, _ => .error .fuel
  | n + 1, j => do
    let j := jpSkipWs (← j.bump)
    let (ch, j) := jpPeek j
    if ch = some rbrack then
      j.bump
    else
      jpArrayLoop n j

/-- The loop of `jp_object`. -/
def jpObjectLoop : Nat → JsonParser → Run JsonParser
  | 0, _ => .error .fuel
  | n + 1, j => do
    let (ch, j) := jpPeek (jpSkipWs j)
    if ch ≠ some quote then return { j with ok := false }
    let j ← jpString j
    if !j.ok then return j
    let (ch, j) := jpPeek j
    if ch ≠ some colon then return { j with ok := false }
    let j ← jpValue n (← j.bump)
    if !j.ok then return j
    let (ch, j) := jpPeek j
    if ch = some comma then
      jpObjectLoop n (← j.bump)
    else if ch = some rbrace then
      j.bump
    else
      return { j with ok := false }

/-- `jp_object`; the cursor is at a `{`. -/
def jpObject : Nat → JsonParser → Run JsonParser
  | 0, _ => .error .fuel
  | n + 1, j => do
    let j := jpSkipWs (← j.bump)
    let (ch, j) := jpPeek j
    if ch = some rbrace then
      j.bump
    else
      jpObjectLoop n j

/-- `jp_value` -/
def jpValue : Nat → JsonParser → Run JsonParser
  | 0, _ => .error .fuel
  | n + 1, j =>
    let (ch, j) := jpPeek j
    match ch with
    | none => return { j with ok := false }
    | some c =>
      if c = quote then jpString j
      else if c = lbrace then jpObject n j
      else if c = lbrack then jpArray n j
      else if startsLiteral c then return jpLiteral j
      else if startsNumber c then return jpNumber j
      else return { j with ok := false }

end

/-- `jp_parse_value`: a parser at the start of a buffer. -/
def jpParseValue (src : Bytes) : JsonParser := ⟨src, true⟩

end MongrelDB
