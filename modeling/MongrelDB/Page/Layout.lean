import MongrelDB.Page
import MongrelDB.Lookup.Fields

/-!
# The layout of a page

The texts the walk over the rows accepts, as layouts like those of `Json`: pairs
of a column id and a value, rows, and pages. They are more than the well-formed
responses: the comma between an id and its value may be missing, and whatever
follows the array of rows is not looked at.

What the walk makes of a layout is a function of it (`Contents.addRow`): it adds
to the contents of the five arrays, and counts the allocations this takes.
-/

namespace MongrelDB

open Ascii

/-! ## Layouts -/

/-- The comma in front of a value, if it is there, and the whitespace behind it. -/
def sepText : Option Ws → Bytes
  | none => []
  | some w => comma :: w.bytes

/-- A column id and a value. Without anything between them, the value is no number. -/
structure Pair where
  pre : Ws
  id : NumTok
  mid : Ws
  sep : Option Ws
  val : Json
  wf : sep.isNone = true → mid.bytes = [] → val.isNum = false

def Pair.text (p : Pair) : Bytes :=
  p.pre.bytes ++ (p.id.text ++ (p.mid.bytes ++ (sepText p.sep ++ p.val.text)))

/-- What a member of a row has for a value: the cells, or something to skip. -/
inductive RowField where
  | cells (ps : List (Pair × Ws)) (w : Ws)
  | other (v : Json)

def RowField.text : RowField → Bytes
  | .cells ps w => lbrack :: (spacedText Pair.text ps ++ (w.bytes ++ [rbrack]))
  | .other v => v.text

/-- The pairs of a member of a row. -/
def RowField.pairs : RowField → List Pair
  | .cells ps _ => ps.map Prod.fst
  | .other _ => []

/-- A member of a row. The cells are the arrays named `cells`, and nothing else. -/
structure RowMember where
  pre : Ws
  key : StrTok
  mid : Ws
  inner : Ws
  val : RowField
  wf : match val with
    | .cells _ _ => key.raw = ascii "cells"
    | .other v => key.raw = ascii "cells" → v.isArr = false

def RowMember.text (m : RowMember) : Bytes :=
  m.pre.bytes ++ (quote :: (m.key.raw ++ quote :: (m.mid.bytes ++
    colon :: (m.inner.bytes ++ m.val.text))))

/-- A row. -/
structure RowText where
  pre : Ws
  members : List (RowMember × Ws)
  w : Ws

def RowText.text (r : RowText) : Bytes :=
  r.pre.bytes ++ (lbrace :: (spacedText RowMember.text r.members ++ (r.w.bytes ++ [rbrace])))

/-- The pairs of a row. -/
def RowText.pairs (r : RowText) : List Pair := r.members.flatMap fun m => m.1.val.pairs

/-- A member that ends the scan of the top-level keys. -/
def isRowsMember (m : Member Json) : Bool := m.key.raw == ascii "rows" && m.val.isArr

/-- What stands in front of the array of rows: the opening bracket of the
    response, members to skip, and the key. -/
structure Lead where
  pre : Ws
  skipped : List (Member Json)
  keyPre : Ws
  mid : Ws
  post : Ws
  wf : ∀ m ∈ skipped, isRowsMember m = false

/-- The key of the array of rows. -/
def rowsKeyText (pre mid post : Ws) : Bytes :=
  pre.bytes ++ (quote :: (ascii "rows" ++ quote :: (mid.bytes ++ colon :: post.bytes)))

/-- Members to skip, each with the comma behind it. -/
def skippedText (ms : List (Member Json)) : Bytes := ms.flatMap fun m => memberText m ++ [comma]

def Lead.text (l : Lead) : Bytes :=
  l.pre.bytes ++ (lbrace :: (skippedText l.skipped ++ rowsKeyText l.keyPre l.mid l.post))

/-- The text of an array of rows. -/
def rowsText (rs : List (RowText × Ws)) (w : Ws) : Bytes :=
  lbrack :: (spacedText RowText.text rs ++ (w.bytes ++ [rbrack]))

/-! ## Contents -/

/-- What the five arrays hold, how large they are, and the number of allocations
    it took. -/
structure Contents where
  cells : List Cell
  cellsCap : Nat
  offs : List Nat
  offsCap : Nat
  blob : Sbuf
  rows : List Row
  rowsCap : Nat
  starts : List Nat
  startsCap : Nat
  asks : Nat

/-- The contents of freed buffers. -/
def Contents.empty : Contents where
  cells := []
  cellsCap := 0
  offs := []
  offsCap := 0
  blob := Sbuf.empty
  rows := []
  rowsCap := 0
  starts := []
  startsCap := 0
  asks := 0

/-- What a value leaves in the buffer of strings: the length reserved for it, and
    its bytes. -/
def Json.kept? : Json → Option (Nat × Bytes)
  | .str t => some (t.raw.length, unescape t.raw)
  | .lit _ => none
  | .num _ => none
  | j => some (j.text.length, j.text)

/-- What a value is decoded to, if its text is kept at `off`. -/
def Json.stored (lib : Libc) (off : Nat) : Json → Value
  | .str _ => .str (.early off)
  | .lit t => if t.text.head? = some lowerN then .null else .bool (t.text == ascii "true")
  | .num t =>
    let buf := clipTok 64 t.text
    if looksInt buf then .int64 (strtoll buf) else .double (lib.strtod buf)
  | _ => .json (.early off)

/-- The offset recorded for a value, if its text is kept at `off`. -/
def Json.strOff (off : Nat) (v : Json) : Nat := if v.kept?.isSome then off else NO_OFFSET

namespace Contents

/-- The array of cells has room for one more. -/
def growCells (K : Contents) : Contents :=
  if K.cells.length + 1 > K.cellsCap then
    { K with cellsCap := growTo 16 (K.cells.length + 1) K.cellsCap, asks := K.asks + 1 }
  else K

/-- The array of offsets has room for one more. -/
def growOffs (K : Contents) : Contents :=
  if K.offs.length + 1 > K.offsCap then
    { K with offsCap := growTo 16 (K.offs.length + 1) K.offsCap, asks := K.asks + 1 }
  else K

/-- The buffer of strings has room for `len` bytes and a NUL. -/
def reserve (len : Nat) (K : Contents) : Contents :=
  let need := K.blob.len + len + 1
  if need ≤ K.blob.cap then K
  else
    let cap := Sbuf.growCap need need (if K.blob.cap ≠ 0 then K.blob.cap else 64)
    { K with blob := { K.blob with cap := cap }, asks := K.asks + 1 }

/-- The text of a value is kept. -/
def keep (v : Json) (K : Contents) : Contents :=
  match v.kept? with
  | none => K
  | some (len, bytes) =>
    let K := K.reserve len
    { K with blob := { K.blob with data := K.blob.data ++ (bytes ++ [0]) } }

/-- A cell of the column `colid`, with the value `v`, is added. -/
def addCell (lib : Libc) (colid : Int64) (v : Json) (K : Contents) : Contents :=
  let K := K.growCells.growOffs
  let off := K.blob.len
  let K := K.keep v
  { K with cells := K.cells ++ [⟨colid, v.stored lib off⟩], offs := K.offs ++ [v.strOff off] }

/-- A pair is decoded. -/
def addPair (lib : Libc) (K : Contents) (p : Pair) : Contents :=
  K.addCell lib (strtoll (clipTok 32 p.id.text)) p.val

/-- The array of rows has room for one more. -/
def growRows (K : Contents) : Contents :=
  if K.rows.length = K.rowsCap then
    { K with rowsCap := if K.rowsCap ≠ 0 then K.rowsCap * 2 else 8, asks := K.asks + 1 }
  else K

/-- The array of the starts of rows has room for one more. -/
def growStarts (K : Contents) : Contents :=
  if K.starts.length = K.startsCap then
    { K with startsCap := growTo 8 (K.starts.length + 1) K.startsCap, asks := K.asks + 1 }
  else K

/-- A row of `inRow` cells from `start` on is recorded. -/
def record (start inRow : Nat) (K : Contents) : Contents :=
  let K := K.growRows.growStarts
  { K with rows := K.rows ++ [⟨.unset, inRow⟩], starts := K.starts ++ [start] }

/-- A row is decoded. -/
def addRow (lib : Libc) (K : Contents) (r : RowText) : Contents :=
  (r.pairs.foldl (addPair lib) K).record K.cells.length r.pairs.length

end Contents

end MongrelDB
