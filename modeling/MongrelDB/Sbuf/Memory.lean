import MongrelDB.Alloc
import MongrelDB.Lookup.Strings
import MongrelDB.Page

/-!
# String buffers in memory

The operations on a string buffer as they run on the machine: lengths are
unsigned numbers of 64 bits, that wrap, the bytes lie in an allocation, outside
of which nothing can be written, and the doubling loop has fuel for 64 rounds.
Apart from the appends, there are the two writers of `parse_scalar_into`, which
reserve room and write in place, and count the NUL.

Each operation has a model in terms of the contents and the capacity
(`SbufOp.apply`), in which nothing wraps and there is no memory to write
outside of.
-/

namespace MongrelDB

open Ascii

/-! ## The machine -/

/-- `sbuf`: the allocation at `data`, and the two lengths. -/
structure RawSbuf where
  mem : Block UInt8
  len : UInt64
  cap : UInt64

/-- A run of bytes in memory: its length is a `size_t`. -/
structure Span where
  bytes : Bytes
  fits : bytes.length ≤ SIZE_MAX

/-- The length of a run of bytes. -/
def Span.size (p : Span) : UInt64 := .ofNat p.bytes.length

/-- A single character. -/
def Span.char (ch : UInt8) : Span := ⟨[ch], Nat.succ_le_of_lt (by decide)⟩

/-- `SIZE_MAX`, as a `size_t`. -/
def sizeMax : UInt64 := 0xffffffffffffffff

/-- The loop of `sbuf_reserve`, with fuel. -/
def growLoop (need : UInt64) : Nat → UInt64 → Run UInt64
  | 0, _ => .error .fuel
  | n + 1, ncap =>
    if need > ncap then
      if ncap > sizeMax / 2 then return need else growLoop need n (ncap * 2)
    else return ncap

/-- Bytes are written into an allocation, from the slot `i` on. -/
def writeBytes (mem : Block UInt8) (i : Nat) : Bytes → Run (Block UInt8)
  | [] => .ok mem
  | c :: r => do writeBytes (← store mem i c) (i + 1) r

/-- The unescaping loop of `parse_scalar_into`: `dst[o++]` is written character by
    character, and `o` is what it is in the end. -/
def unescapeInto (dst : Nat) : Bytes → Nat → Block UInt8 → Run (Nat × Block UInt8)
  | [], o, mem => .ok (o, mem)
  | c :: r, o, mem =>
    if c = backslash then
      match r with
      | [] => do return (o + 1, ← store mem (dst + o) c)
      | n :: r =>
        if n = lowerU then
          match r with
          | h₁ :: h₂ :: h₃ :: h₄ :: r' =>
            let cp := strtoul16 [h₁, h₂, h₃, h₄]
            if cp < 0x80 then do
              unescapeInto dst r' (o + 1) (← store mem (dst + o) cp.toUInt8)
            else unescapeInto dst r' o mem
          | r => unescapeInto dst r o mem
        else do
          unescapeInto dst r (o + 1) (← store mem (dst + o) (unescapeChar n))
    else do
      unescapeInto dst r (o + 1) (← store mem (dst + o) c)

namespace RawSbuf

/-- `sbuf_init` -/
def init : RawSbuf := ⟨[], 0, 0⟩

/-- `sbuf_reserve`: whether it succeeds. -/
def reserve (s : RawSbuf) (extra : UInt64) (h : Heap) : Run (Bool × RawSbuf × Heap) := do
  if extra > sizeMax - 1 - s.len then return (false, s, h)
  let need := s.len + extra + 1
  if need ≤ s.cap then return (true, s, h)
  let ncap ← growLoop need 65 (if s.cap ≠ 0 then s.cap else 64)
  let (granted, h) := h.request ncap.toNat
  if granted then return (true, { s with mem := s.mem.realloc ncap.toNat, cap := ncap }, h)
  else return (false, s, h)

/-- `sbuf_append`: whether it succeeds. -/
def append (s : RawSbuf) (p : Span) (h : Heap) : Run (Bool × RawSbuf × Heap) := do
  let (ok, s, h) ← s.reserve p.size h
  if !ok then return (false, s, h)
  let mem ← writeBytes s.mem s.len.toNat p.bytes
  let len := s.len + p.size
  return (true, { s with mem := ← store mem len.toNat 0, len := len }, h)

/-- `sbuf_append_str` -/
def appendStr (s : RawSbuf) (str : CStr) (fits : str.bytes.length ≤ SIZE_MAX) (h : Heap) :
    Run (Bool × RawSbuf × Heap) :=
  s.append ⟨str.bytes, fits⟩ h

/-- `sbuf_append_char` -/
def appendChar (s : RawSbuf) (ch : UInt8) (h : Heap) : Run (Bool × RawSbuf × Heap) :=
  s.append (.char ch) h

/-- The string branch of `parse_scalar_into`, from the reservation on. -/
def keepString (s : RawSbuf) (p : Span) (h : Heap) : Run (Bool × RawSbuf × Heap) := do
  let (ok, s, h) ← s.reserve p.size h
  if !ok then return (false, s, h)
  let base := s.len
  let (o, mem) ← unescapeInto base.toNat p.bytes 0 s.mem
  let mem ← store mem (base.toNat + o) 0
  return (true, { s with mem := mem, len := s.len + (.ofNat o + 1) }, h)

/-- The raw JSON branch of `parse_scalar_into`, from the reservation on. -/
def keepJson (s : RawSbuf) (p : Span) (h : Heap) : Run (Bool × RawSbuf × Heap) := do
  let (ok, s, h) ← s.reserve p.size h
  if !ok then return (false, s, h)
  let base := s.len
  let mem ← writeBytes s.mem base.toNat p.bytes
  let mem ← store mem (base.toNat + p.size.toNat) 0
  return (true, { s with mem := mem, len := s.len + (p.size + 1) }, h)

end RawSbuf

/-- An operation on a string buffer. -/
inductive SbufOp where
  | append (p : Span)
  | appendStr (str : CStr) (fits : str.bytes.length ≤ SIZE_MAX)
  | appendChar (ch : UInt8)
  | keepString (p : Span)
  | keepJson (p : Span)

namespace SbufOp

/-- What the machine does. -/
def run : SbufOp → RawSbuf → Heap → Run (Bool × RawSbuf × Heap)
  | append p, s, h => s.append p h
  | appendStr str fits, s, h => s.appendStr str fits h
  | appendChar ch, s, h => s.appendChar ch h
  | keepString p, s, h => s.keepString p h
  | keepJson p, s, h => s.keepJson p h

/-- The bytes the operation is given. -/
def span : SbufOp → Span
  | append p => p
  | appendStr str fits => ⟨str.bytes, fits⟩
  | appendChar ch => .char ch
  | keepString p => p
  | keepJson p => p

/-- The bytes it writes, in front of a NUL. -/
def text : SbufOp → Bytes
  | keepString p => unescape p.bytes
  | op => op.span.bytes

/-- The bytes it adds to the contents: the in-place writers count the NUL. -/
def kept : SbufOp → Bytes
  | keepString p => unescape p.bytes ++ [0]
  | keepJson p => p.bytes ++ [0]
  | op => op.span.bytes

/-- What the operation makes of the contents and the capacity. -/
def apply (op : SbufOp) (s : Sbuf) (h : Heap) : Bool × Sbuf × Heap :=
  let (ok, s, h) := s.reserve op.span.bytes.length h
  if ok then (true, { s with data := s.data ++ op.kept }, h) else (false, s, h)

end SbufOp

end MongrelDB
