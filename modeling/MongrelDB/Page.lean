import MongrelDB.Lib.Prog
import MongrelDB.Alloc
import MongrelDB.Lookup

/-!
# Decoding a page of rows

The second half of `mongreldb_query_page`: the response is walked over, and its
rows are decoded into five arrays of the client that grow as they fill. Offsets
into these arrays are turned into pointers after the last growth.

The function is a program on the cursor, the arrays, the caller's result and
the heap. A return in the middle of it leaves all four as they are then.
-/

namespace MongrelDB

open Ascii Prog

/-! ## The state -/

/-- The buffers of the client for the results of queries. -/
structure Scratch where
  rowsArr : Block Row
  rowsCap : Nat
  cellsArr : Block Cell
  cellsCap : Nat
  valuesBlob : Sbuf
  cellStrOffs : Block Nat
  cellStrOffsCap : Nat
  rowCellStarts : Block Nat
  rowCellStartsCap : Nat

/-- The buffers after everything in them is freed. -/
def Scratch.freed : Scratch where
  rowsArr := []
  rowsCap := 0
  cellsArr := []
  cellsCap := 0
  valuesBlob := Sbuf.empty
  cellStrOffs := []
  cellStrOffsCap := 0
  rowCellStarts := []
  rowCellStartsCap := 0

/-- The state of the decoding: the cursor, the buffers, the caller's result and
    the heap. -/
structure PageState where
  w : JsonParser
  c : Scratch
  out : PageResult
  heap : Heap

/-- A part of `mongreldb_query_page`, which may return a code. -/
abbrev Decode := Prog Fault PageState Code

/-! ## The cursor -/

/-- `jp_peek(&w)` -/
def peek : Decode (Option UInt8) := fun s => .val (jpPeek s.w).1 { s with w := (jpPeek s.w).2 }

/-- `jp_skip_ws(&w)` -/
def skipWs : Decode Unit := modify fun s => { s with w := jpSkipWs s.w }

/-- `w.p++` -/
def advance : Decode Unit := do
  let s ← get
  let w ← lift s.w.bump
  modify fun s => { s with w := w }

/-- A call of the parser, and the return if it fails. -/
def parse (f : JsonParser → Run JsonParser) : Decode Unit := do
  let s ← get
  let w ← lift (f s.w)
  modify fun s => { s with w := w }
  if !w.ok then ret .json

/-- The key of a member and the colon: where the key starts, and its length. -/
def readKey : Decode (Bytes × Nat) := do
  if (← peek) ≠ some quote then ret .json
  let kstart ← lift (ptrSucc (← get).w.p)
  parse jpString
  let klen ← lift (toSize (ptrDiff (← get).w.p kstart - 1))
  if (← peek) ≠ some colon then ret .json
  advance
  return (kstart, klen)

/-- The member whose key was read is an array, named `key`. -/
def isArrayOf (key : Bytes) (kstart : Bytes) (klen : Nat) : Decode Bool := do
  if ← lift (spanEq kstart klen key) then
    return (← peek) = some lbrack
  else
    return false

/-- A loop over what stands between commas, up to the closing bracket, or behind it. -/
def commaLoop {α : Type} (step : Nat → α → Decode α) (close : UInt8) (behind : Bool) :
    Nat → α → Decode α
  | 0, _ => fault .fuel
  | n + 1, a => do
    let a ← step n a
    let ch ← peek
    if ch = some comma then
      advance
      commaLoop step close behind n a
    else if ch = some close then
      if behind then advance
      return a
    else
      ret .json

/-! ## Values -/

/-- `(size_t)-1`: not a string. -/
def NO_OFFSET : Nat := SIZE_MAX

/-- A write of `bytes` behind what a string buffer holds, into room reserved for it. -/
def Sbuf.fill (s : Sbuf) (bytes : Bytes) : Run Sbuf :=
  if s.len + bytes.length ≤ s.cap then .ok { s with data := s.data ++ bytes } else .error .write

/-- A text, with its NUL, is written into room reserved for one at least as long. -/
theorem Sbuf.fill_text {data text : Bytes} {len cap : Nat} (hlen : text.length ≤ len)
    (hcap : data.length + len + 1 ≤ cap) :
    Sbuf.fill ⟨data, cap⟩ (text ++ [0]) = .ok ⟨data ++ (text ++ [0]), cap⟩ := by
  rw [fill, if_pos]
  simp only [Sbuf.len, List.length_append, List.length_singleton]
  omega

/-- A number token looks like an integer: no `.`, `e` or `E`. -/
def looksInt (buf : Bytes) : Bool := buf.all fun c => c != dot && c != lowerE && c != upperE

theorem looksInt_of_digits {t : Bytes} (h : t.all isDigit = true) : looksInt t = true := by
  have hdigit : ∀ c, isDigit c = true → (c != dot && c != lowerE && c != upperE) = true :=
    forall_byte (by decide)
  exact List.all_eq_true.2 fun c hc => hdigit c (List.all_eq_true.1 h c hc)

/-- What `parse_scalar_into` leaves: the parser, the value, the buffer, the offset
    of its string and the heap. -/
structure Scalar where
  j : JsonParser
  v : Value
  blob : Sbuf
  strOff : Nat
  heap : Heap

/-- The end of `parse_scalar_into` for a value that is kept as text: `len` bytes
    are reserved, and `bytes` and a NUL are written. -/
def keepText (j : JsonParser) (tag : BlobPtr → Value) (len : Nat) (bytes : Bytes) (blob : Sbuf)
    (h : Heap) : Run Scalar := do
  let (reserved, blob, h) := blob.reserve len h
  if !reserved then return ⟨{ j with ok := false }, .null, blob, NO_OFFSET, h⟩
  let base := blob.len
  return ⟨j, tag (.early base), ← blob.fill (bytes ++ [0]), base, h⟩

/-- `parse_scalar_into`, with fuel for `jp_value`. -/
def parseScalarInto (lib : Libc) (n : Nat) (j : JsonParser) (blob : Sbuf) (h : Heap) :
    Run Scalar := do
  let (ch, j) := jpPeek j
  match ch with
  | none => return ⟨{ j with ok := false }, .null, blob, NO_OFFSET, h⟩
  | some ch =>
    if ch = quote then
      let start ← ptrSucc j.p
      let j ← jpString j
      if !j.ok then return ⟨j, .null, blob, NO_OFFSET, h⟩
      let len ← toSize (ptrDiff j.p start - 1)
      keepText j .str len (unescape (← slice start len)) blob h
    else if ch = lowerT ∨ ch = lowerF then
      let start := j.p
      let j := jpLiteral j
      let l ← toSize (ptrDiff j.p start)
      return ⟨j, .bool (← spanEq start l (ascii "true")), blob, NO_OFFSET, h⟩
    else if startsNumber ch then
      let start := j.p
      let j := jpNumber j
      let l ← toSize (ptrDiff j.p start)
      let buf ← slice start (clip 64 l)
      if looksInt buf then
        return ⟨j, .int64 (strtoll buf), blob, NO_OFFSET, h⟩
      else
        return ⟨j, .double (lib.strtod buf), blob, NO_OFFSET, h⟩
    else if ch = lbrace ∨ ch = lbrack then
      let start := j.p
      let j ← jpValue n j
      if !j.ok then return ⟨j, .null, blob, NO_OFFSET, h⟩
      let len ← toSize (ptrDiff j.p start)
      keepText j .json len (← slice start len) blob h
    else if ch = lowerN then
      return ⟨jpLiteral j, .null, blob, NO_OFFSET, h⟩
    else
      return ⟨{ j with ok := false }, .null, blob, NO_OFFSET, h⟩

/-! ## The arrays -/

/-- The loop `while (need > ncap) ncap *= 2`, with fuel. -/
def doubleTo (need : Nat) : Nat → Nat → Nat
  | 0, ncap => ncap
  | n + 1, ncap => if need > ncap then doubleTo need n (ncap * 2) else ncap

/-- The capacity an array of `cap` slots grows to for `need`: doubled, from
    `start` at first, until it is enough. -/
def growTo (start need cap : Nat) : Nat :=
  doubleTo need need (if cap ≠ 0 then cap * 2 else start)

/-- A `realloc` of an array, to `ncap` slots of `size` bytes. -/
def reallocate (ncap size : Nat) : Decode Unit := do
  let s ← get
  let (granted, h) := s.heap.request (ncap * size)
  modify fun s => { s with heap := h }
  if !granted then ret .nomem

/-- The array of cells grows for one more cell. -/
def growCells (total : Nat) : Decode Unit := do
  let c := (← get).c
  if total + 1 > c.cellsCap then
    let ncap := growTo 16 (total + 1) c.cellsCap
    reallocate ncap 24
    modify fun s => { s with c := { s.c with
      cellsArr := s.c.cellsArr.realloc ncap, cellsCap := ncap } }

/-- The array of string offsets grows for one more. -/
def growStrOffs (total : Nat) : Decode Unit := do
  let c := (← get).c
  if total + 1 > c.cellStrOffsCap then
    let ncap := growTo 16 (total + 1) c.cellStrOffsCap
    reallocate ncap 8
    modify fun s => { s with c := { s.c with
      cellStrOffs := s.c.cellStrOffs.realloc ncap, cellStrOffsCap := ncap } }

/-- `c->cells_arr[i] = cell` -/
def storeCell (i : Nat) (cell : Cell) : Decode Unit := do
  let b ← lift (store (← get).c.cellsArr i cell)
  modify fun s => { s with c := { s.c with cellsArr := b } }

/-- `c->cell_str_offs[i] = off` -/
def storeStrOff (i off : Nat) : Decode Unit := do
  let b ← lift (store (← get).c.cellStrOffs i off)
  modify fun s => { s with c := { s.c with cellStrOffs := b } }

/-! ## Cells -/

/-- The counters of the loops: `total_cells`, `cells_in_row` and `total_cells_global`. -/
structure Counters where
  total : Nat
  inRow : Nat
  global : Nat
  deriving DecidableEq

/-- The value of the cell `i` of the column `colid`, through `parse_scalar_into`. -/
def readValue (lib : Libc) (n i : Nat) (colid : Int64) : Decode Unit := do
  let s ← get
  let r ← lift (parseScalarInto lib n s.w s.c.valuesBlob s.heap)
  modify fun s => { s with w := r.j, heap := r.heap, c := { s.c with valuesBlob := r.blob } }
  storeCell i ⟨colid, r.v⟩
  storeStrOff i r.strOff
  if !r.j.ok then ret .json

/-- Room is made for the cell `total`, of the column `colid`, and its value is read. -/
def readCell (lib : Libc) (n total : Nat) (colid : Int64) : Decode Unit := do
  growCells total
  storeCell total ⟨colid, .null⟩
  growStrOffs total
  readValue lib n total colid

/-- A column id and its value, up to what follows. -/
def readPair (lib : Libc) (n total : Nat) : Decode Unit := do
  let ch0 ← peek
  if !ch0.any startsNumber then ret .json
  let nstart := (← get).w.p
  parse fun j => .ok (jpNumber j)
  let nlen ← lift (toSize (ptrDiff (← get).w.p nstart))
  let idbuf ← lift (slice nstart (clip 32 nlen))
  let colid := strtoll idbuf
  -- The comma in front of the value is optional.
  if (← peek) = some comma then advance
  readCell lib n total colid

/-- A pair of a `cells` array: it is counted. -/
def countPair (lib : Libc) (n : Nat) (k : Counters) : Decode Counters := do
  readPair lib n k.total
  return ⟨k.total + 1, k.inRow + 1, k.total + 1⟩

/-- The loop over the pairs of a `cells` array. -/
def cellsLoop (lib : Libc) : Nat → Counters → Decode Counters :=
  commaLoop (countPair lib) rbrack true

/-! ## Rows -/

/-- The `cells` array of a row. -/
def readCells (lib : Libc) (n : Nat) (k : Counters) : Decode Counters := do
  advance
  skipWs
  if (← peek) = some rbrack then
    advance
    return k
  else
    cellsLoop lib n k

/-- A member of a row, up to what follows its value. -/
def readMember (lib : Libc) (n : Nat) (k : Counters) : Decode Counters := do
  let (kstart, klen) ← readKey
  if ← isArrayOf (ascii "cells") kstart klen then
    readCells lib n k
  else
    parse (jpValue n)
    return k

/-- The loop over the members of a row. -/
def rowLoop (lib : Libc) : Nat → Counters → Decode Counters :=
  commaLoop (readMember lib) rbrace true

/-- The sum of the counts of the first `n` rows. -/
def sumCounts (rows : Block Row) : Nat → Run Nat
  | 0 => .ok 0
  | n + 1 => do
    let total ← sumCounts rows n
    return total + (← load rows n).count

/-- The array of rows grows for one more row. -/
def growRows (count : Nat) : Decode Unit := do
  let c := (← get).c
  if count = c.rowsCap then
    let ncap := if c.rowsCap ≠ 0 then c.rowsCap * 2 else 8
    reallocate ncap 16
    modify fun s => { s with c := { s.c with
      rowsArr := s.c.rowsArr.realloc ncap, rowsCap := ncap } }

/-- The array of the starts of rows grows for one more. -/
def growStarts (count : Nat) : Decode Unit := do
  let c := (← get).c
  if count = c.rowCellStartsCap then
    let ncap := growTo 8 (count + 1) c.rowCellStartsCap
    reallocate ncap 8
    modify fun s => { s with c := { s.c with
      rowCellStarts := s.c.rowCellStarts.realloc ncap, rowCellStartsCap := ncap } }

/-- A row of `inRow` cells from `start` on is recorded, and shown to the caller. -/
def recordRow (start inRow : Nat) : Decode Unit := do
  let count := (← get).out.count
  growRows count
  growStarts count
  let starts ← lift (store (← get).c.rowCellStarts count start)
  let rows ← lift (store (← get).c.rowsArr count ⟨.unset, inRow⟩)
  modify fun s => { s with
    c := { s.c with rowCellStarts := starts, rowsArr := rows }
    out := { s.out with count := count + 1, rows := .array s.c.rowsCap } }

/-- A row object, up to what follows: what `total_cells_global` is then. -/
def readRow (lib : Libc) (n global : Nat) : Decode Nat := do
  if (← peek) ≠ some lbrace then ret .json
  advance
  skipWs
  let s ← get
  let total ← lift (sumCounts s.c.rowsArr s.out.count)
  let k : Counters := ⟨total, 0, global⟩
  let k ← if (← peek) ≠ some rbrace then
      rowLoop lib n k
    else do
      advance
      pure k
  recordRow total k.inRow
  return k.global

/-- The loop over the rows: `total_cells_global` after the last one. -/
def rowsLoop (lib : Libc) : Nat → Nat → Decode Nat :=
  commaLoop (readRow lib) rbrack false

/-! ## Pointers -/

/-- The loop that resolves the pointers of the first `n` rows. -/
def resolveRows (starts : Block Nat) : Nat → Block Row → Run (Block Row)
  | 0, rows => .ok rows
  | n + 1, rows => do
    let rows ← resolveRows starts n rows
    let row ← load rows n
    if row.count > 0 then
      store rows n ⟨.at (← load starts n), row.count⟩
    else
      store rows n ⟨.null, row.count⟩

/-- The loop that resolves the pointers of the first `n` cells. -/
def resolveCells (offs : Block Nat) : Nat → Block Cell → Run (Block Cell)
  | 0, cells => .ok cells
  | n + 1, cells => do
    let cells ← resolveCells offs n cells
    let off ← load offs n
    if off ≠ NO_OFFSET then
      let cell ← load cells n
      match cell.value with
      | .str _ => store cells n ⟨cell.columnId, .str (.final off)⟩
      | .json _ => store cells n ⟨cell.columnId, .json (.final off)⟩
      | _ => return cells
    else
      return cells

/-- The pointers of the rows and of their strings are resolved. -/
def resolve (global : Nat) : Decode Unit := do
  let s ← get
  let rows ← lift (resolveRows s.c.rowCellStarts s.out.count s.c.rowsArr)
  let cells ← lift (resolveCells s.c.cellStrOffs global s.c.cellsArr)
  modify fun s => { s with c := { s.c with rowsArr := rows, cellsArr := cells } }

/-! ## The page -/

/-- The scan of the top-level keys: whether it ends at the `rows` array. -/
def keyLoop : Nat → Decode Bool
  | 0 => fault .fuel
  | n + 1 => do
    skipWs
    let (kstart, klen) ← readKey
    if ← isArrayOf (ascii "rows") kstart klen then return true
    parse (jpValue n)
    let ch ← peek
    if ch = some comma then
      advance
      keyLoop n
    else if ch = some rbrace then
      return false
    else
      ret .json

/-- The array of rows, from its bracket on. -/
def decodeRows (lib : Libc) (recv : Bytes) : Decode Unit := do
  -- A fresh cursor behind the bracket.
  advance
  modify fun s => { s with w := { s.w with ok := true } }
  skipWs
  if (← peek) = some rbrack then ret .ok
  resolve (← rowsLoop lib (fuelFor recv) 0)

/-- The response, behind its bracket. -/
def decodeObject (lib : Libc) (recv : Bytes) : Decode Unit := do
  skipWs
  if (← peek) = some rbrace then ret .ok
  if !(← keyLoop (fuelFor recv)) then ret .ok
  decodeRows lib recv

/-- The decoding of the response `recv`. -/
def pageBody (lib : Libc) (recv : Bytes) : Decode Unit := do
  modify fun s => { s with c := Scratch.freed }
  let (_, trunc) ← lift (jsonGetBool recv (.lit "truncated"))
  modify fun s => { s with out := { s.out with truncated := trunc }, w := jpParseValue recv }
  -- A response that is no object has no rows.
  if (← peek) ≠ some lbrace then ret .ok
  advance
  decodeObject lib recv

/-- What `mongreldb_query_page` returns after a successful request, and leaves in
    the buffers and in the caller's result, which is zero at entry. -/
def decodePage (lib : Libc) (recv : Bytes) (c : Scratch) (h : Heap) :
    Run (Code × PageResult × Scratch × Heap) :=
  match pageBody lib recv ⟨jpParseValue recv, c, ⟨.null, 0, false⟩, h⟩ with
  | .val _ s => .ok (.ok, s.out, s.c, s.heap)
  | .ret e s => .ok (e, s.out, s.c, s.heap)
  | .fault f => .error f

end MongrelDB
