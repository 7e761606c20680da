import MongrelDB.Page.Response
import MongrelDB.Serialize.Appends
import MongrelDB.Serialize.Text

/-!
# Written and read cells

The encoder of the cells of a row and the decoder of a page agree: the cells
`json_serialize_cells` writes are those `mongreldb_query_page` delivers, from a
response they are a row of (`decodePage_serialized`).
-/

namespace MongrelDB

open Ascii

/-! ## Cells -/

/-- A value of a result is the one that was given. -/
inductive InputValue.Is : InputValue → Seen → Prop
  | null : Is .null .null
  | bool (b : Bool) : Is (.bool (if b then 1 else 0)) (.bool b)
  | int64 (i : Int64) : Is (.int64 i) (.int64 i)
  | str (s : CStr) : Is (.str (some s)) (.str s.bytes)
  /-- The text of an array or an object, from its bracket to the matching one. -/
  | json (s : CStr) (j : Json) : j.Valid → (j.isArr || j.isObj) = true → s.bytes = j.text →
      Is (.json (some s)) (.json s.bytes)

/-- A cell of a result is the one that was given. -/
def InputCell.Is (cell : InputCell) (x : Int64 × Seen) : Prop :=
  cell.columnId = x.1 ∧ cell.value.Is x.2

variable {lib : Libc}

theorem int64?_toInt (i : Int64) : int64? i.toInt = some i := by
  rw [int64?, if_pos ⟨by simpa using i.le_toInt, by simpa using i.toInt_lt⟩, Int64.ofInt_toInt]

/-- A value is serialized as one that stands for it. -/
theorem InputValue.Is.serialized {v : InputValue} {x : Seen} (h : v.Is x) :
    ∃ e : Item Json, (jsonSerializeValue lib v).flatten = itemText e ∧ e.val.Valid ∧
      ∀ y, v.Is y → e.val.cellValue? lib = some y := by
  -- One value of the grammar for each kind of input.
  cases h with
  | null =>
    refine ⟨plainItem .null, rfl, Json.null_valid, fun y hy => ?_⟩
    cases hy
    rfl
  | bool b =>
    refine ⟨plainItem (.ofBool b), ?_, Json.ofBool_valid b, fun y hy => ?_⟩
    · rw [itemText_plainItem, Json.ofBool_text]
      cases b <;> simp [jsonSerializeValue]
    · generalize hi : (if b = true then 1 else 0 : Int32) = i at hy
      cases hy with
      | bool b' =>
        obtain rfl : b = b' := by revert b b'; decide
        simp only [Json.cellValue?, plainItem, Json.ofBool_datum]
  | int64 i =>
    refine ⟨plainItem (.ofInt64 i), ?_, Json.ofInt64_valid i, fun y hy => ?_⟩
    · rw [itemText_plainItem, Json.ofInt64_text]
      simp [jsonSerializeValue]
    · cases hy
      simp only [Json.cellValue?, plainItem, Json.ofInt64_datum, int64?_toInt, Option.map_some]
  | str s =>
    refine ⟨plainItem (.ofStr s), ?_, Json.ofStr_valid s, fun y hy => ?_⟩
    · rw [itemText_plainItem, jsonSerializeValue, flatten_jsonEscape]
      rfl
    · cases hy
      simp only [Json.cellValue?, plainItem, Json.ofStr_datum]
  | json s j hvalid hkind htext =>
    refine ⟨plainItem j, by simp [jsonSerializeValue, htext], hvalid, fun y hy => ?_⟩
    cases hy
    rw [htext]
    cases j with
    | arr es w => rfl
    | obj ms w => rfl
    | _ => exact absurd hkind Bool.false_ne_true

/-- The array that is written for some cells has them as its cells. -/
theorem CellsWritten.cells? {cells : List InputCell} {xs : List (Int64 × Seen)}
    (h : List.Forall₂ InputCell.Is cells xs) {es : List (Item Json)}
    (hes : CellsWritten (fun v e => ∀ y, v.Is y → e.val.cellValue? lib = some y) cells es) :
    MongrelDB.cells? lib es = some xs := by
  induction h generalizing es with
  | nil =>
    cases es with
    | nil => rfl
    | cons e es => exact hes.elim
  | @cons cell x cells xs hx _ ih =>
    obtain ⟨colid, y⟩ := x
    obtain ⟨rfl, hy⟩ : cell.columnId = colid ∧ cell.value.Is y := hx
    rcases es with _ | ⟨id, _ | ⟨v, es⟩⟩
    · exact hes.elim
    · exact hes.elim
    · obtain ⟨hid, hv, hes⟩ := hes
      simp only [MongrelDB.cells?, Json.columnId?, hid, int64?_toInt, hv y hy, ih hes]
      rfl

/-! ## Responses -/

/-- What `json_serialize_cells` leaves in an empty buffer. -/
def serializedCells (lib : Libc) (h : Heap) (cells : List InputCell) : Bytes :=
  (Sbuf.empty.appendAll h (jsonSerializeCells lib cells)).1.data

/-- A row around its cells: the whitespace and the other members of the object. -/
structure RowFrame where
  pre : Ws
  before : List (Member Json)
  keyPre : Ws
  mid : Ws
  inner : Ws
  outer : Ws
  after : List (Member Json)
  w : Ws
  post : Ws
  wf : ∀ m ∈ before ++ after, m.key.raw ≠ ascii "cells" ∧ isStringBody m.key.raw = true ∧
    m.val.Valid

/-- The member of these cells. -/
def RowFrame.member (f : RowFrame) (es : List (Item Json)) : Member Json :=
  ⟨f.keyPre, ⟨ascii "cells", Eq.refl true⟩, f.mid, f.inner, .arr es Ws.none, f.outer⟩

/-- A row with this text for the array of its cells. -/
def RowFrame.text (f : RowFrame) (cells : Bytes) : Bytes :=
  f.pre.bytes ++ (lbrace :: (skippedText f.before ++ (f.keyPre.bytes ++ (quote :: (ascii "cells" ++
    quote :: (f.mid.bytes ++ colon :: (f.inner.bytes ++ (cells ++ (f.outer.bytes ++
      (trailingText f.after ++ (f.w.bytes ++ rbrace :: f.post.bytes)))))))))))

/-- A response with these rows, and anything in front of and behind them. -/
def rowsResponse (l : Lead) (rows : List Bytes) (r : Bytes) : Bytes :=
  l.text ++ (lbrack :: (commaSep rows ++ [rbrack]) ++ r)

theorem exists_is_of_mem {cells : List InputCell} {xs : List (Int64 × Seen)}
    (h : List.Forall₂ InputCell.Is cells xs) {cell : InputCell} (hcell : cell ∈ cells) :
    ∃ x, cell.Is x := by
  induction h with
  | nil => exact absurd hcell List.not_mem_nil
  | cons hx _ ih =>
    rcases List.mem_cons.1 hcell with rfl | hmem
    · exact ⟨_, hx⟩
    · exact ih hmem

/-- The other members of a row have no cells. -/
theorem memberCells?_others (lib : Libc) (ms : List (Member Json))
    (h : ∀ m ∈ ms, m.key.raw ≠ ascii "cells") :
    ∃ L, ms.mapM (memberCells? lib) = some L ∧ L.flatten = [] := by
  induction ms with
  | nil => exact ⟨[], rfl, rfl⟩
  | cons m ms ih =>
    obtain ⟨L, hL, hflat⟩ := ih fun m hm => h m (List.mem_cons_of_mem _ hm)
    have hm : memberCells? lib m = some [] := by
      rw [memberCells?]
      split
      · rw [if_neg (h m List.mem_cons_self)]
      · rfl
    exact ⟨[] :: L, by rw [List.mapM_cons, hm, hL]; rfl, by simpa using hflat⟩

variable (lib) in
/-- A row with written cells has a layout, with these cells. -/
theorem RowFrame.layout (f : RowFrame) {cells : List InputCell} {xs : List (Int64 × Seen)}
    (h : List.Forall₂ InputCell.Is cells xs) :
    ∃ row : RowText × Ws, row.1.text ++ row.2.bytes =
        f.text (jsonSerializeCells lib cells).flatten ∧
      row.1.pairs.map (Pair.seen lib) = xs := by
  obtain ⟨es, htext, hvalid, hes⟩ : ∃ es : List (Item Json),
      (jsonSerializeCells lib cells).flatten = (Json.arr es Ws.none).text ∧
      (Json.arr es Ws.none).Valid ∧
      CellsWritten (fun v e => ∀ y, v.Is y → e.val.cellValue? lib = some y) cells es :=
    jsonSerializeCells_written fun cell hcell => by
      obtain ⟨x, hx⟩ := exists_is_of_mem h hcell
      exact hx.2.serialized
  -- The members around the cells carry no cells.
  obtain ⟨L₁, hbefore, hflat₁⟩ := memberCells?_others lib f.before
    fun m hm => (f.wf m (List.mem_append_left _ hm)).1
  obtain ⟨L₂, hafter, hflat₂⟩ := memberCells?_others lib f.after
    fun m hm => (f.wf m (List.mem_append_right _ hm)).1
  have hmember : memberCells? lib (f.member es) = some xs := by
    simp [memberCells?, member, hes.cells? h]
  have hwf : ∀ m ∈ f.before ++ f.member es :: f.after,
      isStringBody m.key.raw = true ∧ m.val.Valid := by
    intro m hm
    rcases List.mem_append.1 hm with hm | hm
    · exact (f.wf m (List.mem_append_left _ hm)).2
    · rcases List.mem_cons.1 hm with rfl | hm
      · exact ⟨rfl, hvalid⟩
      · exact (f.wf m (List.mem_append_right _ hm)).2
  have hrowCells : (Json.obj (f.before ++ f.member es :: f.after) f.w).row? lib = some xs := by
    simp [Json.row?, List.mapM_append, List.mapM_cons, hbefore, hmember, hafter, hflat₁, hflat₂]
  obtain ⟨row, hrow, hseen⟩ := rowText_of_row?
    (e := ⟨f.pre, .obj (f.before ++ f.member es :: f.after) f.w, f.post⟩)
    (.obj (fun m hm => (hwf m hm).1) fun m hm => (hwf m hm).2) hrowCells
  refine ⟨row, ?_, hseen⟩
  rw [hrow, itemText, Json.text, membersText_append, text, htext]
  simp [member, memberText, itemText, Json.text, Ws.none]

/-- What is written for the cells of a row is read back as these cells, from any
    response it is a row of. -/
theorem decodePage_serialized {rows : List (RowFrame × List InputCell)}
    {xss : List (List (Int64 × Seen))}
    (hrows : List.Forall₂ (fun row xs => List.Forall₂ InputCell.Is row.2 xs) rows xss)
    {l : Lead} {r : Bytes} {h₀ h : Heap}
    (hsize : (rowsResponse l (rows.map fun row =>
      row.1.text (jsonSerializeCells lib row.2).flatten) r).length ≤ MONGRELDB_MAX_RESPONSE_BYTES)
    (hheap₀ : h₀.Succeeds) (hheap : h.Succeeds) (c : Scratch) :
    ∃ out c' h', decodePage lib
        (rowsResponse l (rows.map fun row => row.1.text (serializedCells lib h₀ row.2)) r) c h =
        .ok (.ok, out, c', h') ∧ out.seen? c' = some xss := by
  -- All of what is written fits into its buffer.
  have hwritten : ∀ row ∈ rows,
      serializedCells lib h₀ row.2 = (jsonSerializeCells lib row.2).flatten := by
    intro row hrow
    have hle := length_le_commaSep (List.mem_map_of_mem
      (f := fun row : RowFrame × List InputCell =>
        row.1.text (jsonSerializeCells lib row.2).flatten) hrow)
    have hmax : MONGRELDB_MAX_RESPONSE_BYTES < SIZE_MAX := by decide
    simp only [rowsResponse, RowFrame.text, List.length_append, List.length_cons] at hsize hle
    exact AppendsFit.data ⟨hheap₀.granted _, by omega⟩
  rw [List.map_congr_left fun row hrow => by rw [hwritten row hrow]]
  -- Each row has a layout.
  have hlayout : ∃ rs : List (RowText × Ws), rs.map (fun r => r.1.text ++ r.2.bytes) =
      (rows.map fun row => row.1.text (jsonSerializeCells lib row.2).flatten) ∧
      seenRows lib rs = xss := by
    clear hwritten hsize
    induction hrows with
    | nil => exact ⟨[], rfl, rfl⟩
    | @cons row xs rows xss hcells _ ih =>
      obtain ⟨rs, hrs, hseen⟩ := ih
      obtain ⟨r, hr, hxs⟩ := row.1.layout lib hcells
      exact ⟨r :: rs, by simp [hr, hrs], by simp [seenRows, hxs, hseen]⟩
  obtain ⟨rs, hrs, rfl⟩ := hlayout
  obtain ⟨⟨found, trunc⟩, htrunc, -⟩ := jsonGetBool_ends
    (rowsResponse l (rows.map fun row => row.1.text (jsonSerializeCells lib row.2).flatten) r)
    (.lit "truncated")
  have hrecv : rowsResponse l (rows.map fun row =>
      row.1.text (jsonSerializeCells lib row.2).flatten) r =
      l.text ++ (rowsText rs Ws.none ++ r) := by
    rw [rowsResponse, ← hrs, rowsText, spacedText, Ws.none]
    simp
  obtain ⟨e, s, hs, ⟨rfl, -, hseen⟩ | ⟨-, href⟩⟩ := decodePage_rows lib c h htrunc hrecv
    (lt_of_le_of_lt hsize (by decide))
  · exact ⟨s.out, s.c, s.heap, hs, hseen⟩
  · exact absurd hheap href.not_succeeds

/-- A row with nothing but its cells. -/
def RowFrame.plain : RowFrame :=
  ⟨.none, [], .none, .none, .none, .none, [], .none, .none, fun _ hm => absurd hm List.not_mem_nil⟩

/-- Two rows that are written and read back. -/
theorem decodePage_serialized_rows : ∃ out c' h', decodePage Libc.zero
    (rowsResponse ⟨.none, [], .none, .none, .none, by decide⟩
      ([(RowFrame.plain, [⟨1, .str (some (.lit "],"))⟩, ⟨2, .bool 1⟩]), (RowFrame.plain, [])].map
        fun row => row.1.text (serializedCells Libc.zero Heap.unlimited row.2)) (ascii "\x7d"))
      Scratch.freed Heap.unlimited = .ok (.ok, out, c', h') ∧
    out.seen? c' = some [[(1, .str (ascii "],")), (2, .bool true)], []] :=
  decodePage_serialized
    (.cons (.cons ⟨rfl, .str _⟩ (.cons ⟨rfl, .bool true⟩ .nil)) (.cons .nil .nil)) (by decide)
    Heap.unlimited_succeeds Heap.unlimited_succeeds _

end MongrelDB
