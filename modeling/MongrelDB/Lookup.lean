import MongrelDB.Parser
import MongrelDB.Sbuf
import MongrelDB.Types

/-!
# Looking up the members of an object

The client reads the fields it cares about by name: each of `json_get_string`,
`json_get_number`, `json_get_bool` and `json_get_object_raw` walks over the
members of an object from its beginning, up to the first one with the key it
looks for and a value of its kind. They share that walk (`jsonFind`), which
tells where it ended: at such a value, or without one, and then with the number
the function returns.
-/

namespace MongrelDB

open Ascii

/-! ## Strings -/

/-- The character after a `\` that is not `u`, unescaped. -/
def unescapeChar (n : UInt8) : UInt8 :=
  if n = quote then quote
  else if n = backslash then backslash
  else if n = slash then slash
  else if n = lowerB then 8
  else if n = lowerF then 12
  else if n = lowerN then 10
  else if n = lowerR then 13
  else if n = lowerT then 9
  else n

/-- The unescaping loop of `json_get_string` and of `parse_scalar_into`, over the
    bytes between the quotes. -/
def unescape : Bytes → Bytes
  | [] => []
  | c :: r =>
    if c = backslash then
      match r with
      | [] => [c]
      | n :: r =>
        if n = lowerU then
          match r with
          | h₁ :: h₂ :: h₃ :: h₄ :: r' =>
            -- Best effort: ASCII is kept, and everything else dropped.
            let cp := strtoul16 [h₁, h₂, h₃, h₄]
            if cp < 0x80 then cp.toUInt8 :: unescape r' else unescape r'
          | r => unescape r
        else unescapeChar n :: unescape r
    else c :: unescape r

/-! ## The walk -/

/-- Where the walk over the members of an object ends. -/
inductive Found where
  /-- At a value of the kind looked for. -/
  | at (j : JsonParser)
  /-- Without one; whether the function returns 1. -/
  | absent (r : Bool)
  deriving DecidableEq

/-- The loop over the members. -/
def jsonFindLoop (starts : UInt8 → Bool) (key : CStr) : Nat → JsonParser → Run Found
  | 0, _ => .error .fuel
  | n + 1, j => do
    let (ch, j) := jpPeek (jpSkipWs j)
    if ch ≠ some quote then return .absent false
    let kstart ← ptrSucc j.p
    let j ← jpString j
    if !j.ok then return .absent false
    let klen ← toSize (ptrDiff j.p kstart - 1)
    let (ch, j) := jpPeek j
    if ch ≠ some colon then return .absent false
    let (ch, j) := jpPeek (← j.bump)
    if (← spanEq kstart klen key.bytes) && ch.any starts then return .at j
    let j ← jpValue n j
    if !j.ok then return .absent false
    let (ch, j) := jpPeek j
    if ch = some comma then
      jsonFindLoop starts key n (← j.bump)
    else
      return .absent (ch == some rbrace)

/-- The walk from the start of a buffer. -/
def jsonFind (starts : UInt8 → Bool) (src : Bytes) (key : CStr) : Run Found := do
  let (ch, j) := jpPeek (jpParseValue src)
  if ch ≠ some lbrace then return .absent false
  let j := jpSkipWs (← j.bump)
  let (ch, j) := jpPeek j
  if ch = some rbrace then return .absent false
  jsonFindLoop starts key (fuelFor src) j

/-! ## The fields -/

/-- The bytes of a token of `n` bytes that fit into a buffer of `size` bytes. -/
def clip (size n : Nat) : Nat := if n ≥ size then size - 1 else n

/-- `json_get_string`: what it returns, and the string it allocates. -/
def jsonGetString (src : Bytes) (key : CStr) (h : Heap) : Run (Bool × Option CStr × Heap) := do
  match ← jsonFind (· == quote) src key with
  | .absent r => return (r, none, h)
  | .at j =>
    let vstart ← ptrSucc j.p
    let j ← jpString j
    if !j.ok then return (false, none, h)
    let vlen ← toSize (ptrDiff j.p vstart - 1)
    let (granted, h) := h.request (vlen + 1)
    if !granted then return (false, none, h)
    return (true, some (CStr.at (unescape (← slice vstart vlen) ++ [0])), h)

/-- `json_get_number`: what it returns, `*out_double` and `*out_int`. -/
def jsonGetNumber (lib : Libc) (src : Bytes) (key : CStr) : Run (Bool × F64 × Int64) := do
  match ← jsonFind startsNumber src key with
  | .absent r => return (r, ⟨0⟩, 0)
  | .at j =>
    let nstart := j.p
    let j := jpNumber j
    if !j.ok then return (false, ⟨0⟩, 0)
    let nlen ← toSize (ptrDiff j.p nstart)
    let buf ← slice nstart (clip 64 nlen)
    return (true, lib.strtod buf, strtoll buf)

/-- `json_get_bool`: what it returns, and `*out_bool`. -/
def jsonGetBool (src : Bytes) (key : CStr) : Run (Bool × Bool) := do
  match ← jsonFind (fun c => c == lowerT || c == lowerF) src key with
  | .absent r => return (r, false)
  | .at j =>
    let lstart := j.p
    let j := jpLiteral j
    if !j.ok then return (false, false)
    let llen ← toSize (ptrDiff j.p lstart)
    return (true, ← spanEq lstart llen (ascii "true"))

/-- `json_get_object_raw`: what it returns, and the span of the object. -/
def jsonGetObjectRaw (src : Bytes) (key : CStr) : Run (Bool × Option Bytes) := do
  match ← jsonFind (· == lbrace) src key with
  | .absent r => return (r, none)
  | .at j =>
    let vstart := j.p
    let j ← jpValue (fuelFor src) j
    if !j.ok then return (false, none)
    let vlen ← toSize (ptrDiff j.p vstart)
    return (true, some (← slice vstart vlen))

end MongrelDB
