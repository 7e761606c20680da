import MongrelDB.Page.Resolve

/-!
# What a result shows

A result is read the way its caller reads it, through its pointers
(`PageResult.seen?`): reading fails at a pointer that is not to be used. What the
layout read so far will show is a function of it (`Pair.seen`), and is kept as
the buffers grow: a string stays where it is in the buffer of strings, and the
cells of a row stay where they are in the array of cells.
-/

namespace MongrelDB

open Ascii Prog

/-! ## Reading -/

/-- What a caller finds in a value. -/
inductive Seen where
  | null
  | bool (b : Bool)
  | int64 (i : Int64)
  | double (d : F64)
  | str (s : Bytes)
  | json (t : Bytes)
  deriving DecidableEq

/-- The string at an offset of a buffer, if it ends in the buffer. -/
def Sbuf.strAt? (b : Sbuf) (off : Nat) : Option Bytes :=
  if (0 : UInt8) ∈ b.data.drop off then some (CStr.at (b.data.drop off)).bytes else none

/-- A value, with the buffer of strings it points into. -/
def Value.seen? (blob : Sbuf) : Value → Option Seen
  | .null => some .null
  | .bool b => some (.bool b)
  | .int64 i => some (.int64 i)
  | .double d => some (.double d)
  | .str (.final off) => (blob.strAt? off).map .str
  | .json (.final off) => (blob.strAt? off).map .json
  | .str (.early _) => none
  | .json (.early _) => none

/-- A cell: its column and its value. -/
def Cell.seen? (blob : Sbuf) (cell : Cell) : Option (Int64 × Seen) :=
  (cell.value.seen? blob).map (cell.columnId, ·)

/-- The cells of a row. -/
def Row.seen? (c : Scratch) (row : Row) : Option (List (Int64 × Seen)) :=
  match row.cells with
  | .unset => none
  | .null => if row.count = 0 then some [] else none
  | .at start => (c.cellsArr.read? start row.count).bind (·.mapM (Cell.seen? c.valuesBlob))

/-- The rows of a result. Once the array of rows is moved, a pointer to it is not to be used. -/
def PageResult.seen? (c : Scratch) (out : PageResult) : Option (List (List (Int64 × Seen))) :=
  match out.rows with
  | .null => if out.count = 0 then some [] else none
  | .array cap =>
    if cap = c.rowsCap then (c.rowsArr.read? 0 out.count).bind (·.mapM (Row.seen? c)) else none

/-! ## What a layout shows -/

/-- What the caller finds in a decoded value. -/
def Json.seen (lib : Libc) : Json → Seen
  | .str t => .str (CStr.at (unescape t.raw ++ [0])).bytes
  | .lit t => if t.text.head? = some lowerN then .null else .bool (t.text == ascii "true")
  | .num t =>
    let buf := clipTok 64 t.text
    if looksInt buf then .int64 (strtoll buf) else .double (lib.strtod buf)
  | j => .json (CStr.at (j.text ++ [0])).bytes

/-- What the caller finds in a decoded pair. -/
def Pair.seen (lib : Libc) (p : Pair) : Int64 × Seen :=
  (strtoll (clipTok 32 p.id.text), p.val.seen lib)

/-- The cells, pointed to their texts, show `l`. -/
def Contents.Shows (K : Contents) (l : List (Int64 × Seen)) : Prop :=
  List.Forall₂ (fun cell x => cell.seen? K.blob = some x)
    (List.zipWith Cell.resolve K.cells K.offs) l

/-- A row, pointed to its cells, shows the part `x` of `l`. -/
def Row.Shows (l : List (Int64 × Seen)) (row : Row) (x : List (Int64 × Seen)) : Prop :=
  row.count = x.length ∧
    (row.cells = .null ∧ x = [] ∨ ∃ as bs, l = as ++ (x ++ bs) ∧ row.cells = .at as.length)

/-- The rows, pointed to their cells, show the parts `L` of `l`. -/
def Contents.ShowsRows (K : Contents) (l : List (Int64 × Seen)) (L : List (List (Int64 × Seen))) :
    Prop :=
  List.Forall₂ (Row.Shows l) (List.zipWith Row.resolve K.rows K.starts) L

/-! ## Strings -/

/-- A string stays where it is. -/
theorem Sbuf.strAt?_append {b : Sbuf} {off : Nat} {x : Bytes} (h : b.strAt? off = some x)
    (t : Bytes)
    (cap : Nat) : (Sbuf.mk (b.data ++ t) cap).strAt? off = some x := by
  rw [strAt?] at h ⊢
  split_ifs at h with hmem
  have hoff : off ≤ b.data.length := by
    rcases Nat.lt_or_ge b.data.length off with hlt | hge
    · rw [List.drop_eq_nil_of_le hlt.le] at hmem
      simp at hmem
    · exact hge
  rw [List.drop_append_of_le_length hoff, if_pos (List.mem_append_left _ hmem), CStr.at_append hmem]
  exact h

/-- A string that was just kept. -/
theorem Sbuf.strAt?_kept (data bytes : Bytes) (cap : Nat) :
    (Sbuf.mk (data ++ (bytes ++ [0])) cap).strAt? data.length =
      some (CStr.at (bytes ++ [0])).bytes := by
  simp [strAt?]

theorem Cell.seen?_append {blob : Sbuf} {cell : Cell} {x : Int64 × Seen}
    (h : cell.seen? blob = some x) (t : Bytes) (cap : Nat) :
    cell.seen? ⟨blob.data ++ t, cap⟩ = some x := by
  obtain ⟨v, hv, rfl⟩ := Option.map_eq_some_iff.1 h
  refine Option.map_eq_some_iff.2 ⟨v, ?_, rfl⟩
  unfold Value.seen? at hv ⊢
  split <;> simp_all only [Option.map_eq_some_iff, reduceCtorEq]
  · obtain ⟨s, hs, rfl⟩ := hv
    exact ⟨s, Sbuf.strAt?_append hs t cap, rfl⟩
  · obtain ⟨s, hs, rfl⟩ := hv
    exact ⟨s, Sbuf.strAt?_append hs t cap, rfl⟩

/-! ## Growing -/

variable {K : Contents} {lib : Libc} {l : List (Int64 × Seen)} {L : List (List (Int64 × Seen))}

/-- More cells behind do not change what a row shows. -/
theorem Row.Shows.append {row : Row} {x : List (Int64 × Seen)} (h : row.Shows l x)
    (t : List (Int64 × Seen)) : row.Shows (l ++ t) x := by
  refine ⟨h.1, h.2.imp_right ?_⟩
  rintro ⟨as, bs, rfl, hc⟩
  exact ⟨as, bs ++ t, by simp, hc⟩

/-- What a kept value adds to the buffer of strings. -/
def Json.keptBytes (v : Json) : Bytes :=
  match v.kept? with
  | none => []
  | some (_, bytes) => bytes ++ [0]

namespace Contents

theorem keep_blob (v : Json) :
    ∃ cap, (K.keep v).blob = ⟨K.blob.data ++ v.keptBytes, cap⟩ := by
  cases hk : v.kept? with
  | none => exact ⟨K.blob.cap, by simp [keep, Json.keptBytes, hk]⟩
  | some lb =>
    simp only [keep, Json.keptBytes, hk, reserve]
    split_ifs <;> exact ⟨_, rfl⟩

theorem addCell_blob (lib : Libc) (colid : Int64) (v : Json) :
    ∃ cap, (K.addCell lib colid v).blob = ⟨K.blob.data ++ v.keptBytes, cap⟩ := by
  obtain ⟨cap, h⟩ := keep_blob (K := K.growCells.growOffs) v
  rw [growOffs_blob, growCells_blob] at h
  exact ⟨cap, h⟩

/-- A value that was just decoded. -/
theorem seen?_stored (v : Json) (colid : Int64) (data : Bytes) (cap : Nat)
    (hoff : data.length ≠ NO_OFFSET) :
    (Cell.resolve ⟨colid, v.stored lib data.length⟩ (v.strOff data.length)).seen?
      ⟨data ++ v.keptBytes, cap⟩ = some (colid, v.seen lib) := by
  have hkept : ∀ bytes : Bytes, (Sbuf.mk (data ++ (bytes ++ [0])) cap).strAt? data.length =
      some (CStr.at (bytes ++ [0])).bytes := fun bytes => Sbuf.strAt?_kept data bytes cap
  cases v with
  | lit t =>
    by_cases hc : t.text.head? = some lowerN <;>
      simp [Json.stored, Json.seen, Json.strOff, Json.kept?, Cell.resolve, Cell.seen?,
      Value.seen?, hc]
  | num t =>
    by_cases hc : looksInt (clipTok 64 t.text) = true <;>
      simp [Json.stored, Json.seen, Json.strOff, Json.kept?, Cell.resolve, Cell.seen?,
      Value.seen?, hc]
  | str t =>
    simp [Json.stored, Json.seen, Json.strOff, Json.kept?, Json.keptBytes, Cell.resolve, Cell.seen?,
      Value.resolve, Value.seen?, hoff, hkept]
  | arr es w =>
    simp [Json.stored, Json.seen, Json.strOff, Json.kept?, Json.keptBytes, Cell.resolve, Cell.seen?,
      Value.resolve, Value.seen?, hoff, hkept]
  | obj ms w =>
    simp [Json.stored, Json.seen, Json.strOff, Json.kept?, Json.keptBytes, Cell.resolve, Cell.seen?,
      Value.resolve, Value.seen?, hoff, hkept]

/-- One more cell is shown behind the others. -/
theorem Shows.addCell (lib : Libc) (h : K.Shows l) (hK : K.Aligned) (hoff : K.blob.len ≠ NO_OFFSET)
    (colid : Int64) (v : Json) :
    (K.addCell lib colid v).Shows (l ++ [(colid, v.seen lib)]) := by
  obtain ⟨cap, hblob⟩ := addCell_blob (K := K) lib colid v
  rw [Shows] at h ⊢
  rw [addCell_cells, addCell_offs, hblob, List.zipWith_append hK.offs.symm]
  refine List.rel_append (h.imp fun _ _ hx => Cell.seen?_append hx _ cap) (.cons ?_ .nil)
  exact seen?_stored v colid K.blob.data cap hoff

/-- The buffer of strings only grows. -/
theorem blob_le_addPairs (ps : List Pair) : K.blob.len ≤ (K.addPairs lib ps).blob.len := by
  induction ps generalizing K with
  | nil => exact Nat.le_refl _
  | cons p ps ih =>
    obtain ⟨cap, hblob⟩ := addCell_blob (K := K) lib (strtoll (clipTok 32 p.id.text)) p.val
    refine le_trans ?_ (ih (K := K.addPair lib p))
    rw [Contents.addPair, hblob, Sbuf.len, Sbuf.len, List.length_append]
    omega

/-- The pairs of a row are shown behind the others. -/
theorem Shows.addPairs (h : K.Shows l) (hK : K.Aligned) (ps : List Pair)
    (hoff : (K.addPairs lib ps).blob.len < NO_OFFSET) :
    (K.addPairs lib ps).Shows (l ++ ps.map (Pair.seen lib)) := by
  induction ps generalizing K l with
  | nil => simpa using h
  | cons p ps ih =>
    have hstep := h.addCell lib hK ((blob_le_addPairs (p :: ps)).trans_lt hoff).ne
      (strtoll (clipTok 32 p.id.text)) p.val
    have := ih hstep (hK.addCell _ _) hoff
    rwa [List.append_assoc] at this

theorem Shows.length (h : K.Shows l) (hK : K.Aligned) : K.cells.length = l.length := by
  rw [← List.Forall₂.length_eq h, List.length_zipWith, hK.offs, Nat.min_self]

/-- Recording a row does not change what the cells show. -/
theorem Shows.record (h : K.Shows l) (start inRow : Nat) : (K.record start inRow).Shows l := by
  rw [Shows] at h ⊢
  rwa [record_cells, record_offs, record_blob]

/-- A row is shown behind the others. -/
theorem ShowsRows.addRow (h : K.ShowsRows l L) (hl : K.Shows l) (hK : K.Whole) (r : RowText) :
    (K.addRow lib r).ShowsRows (l ++ r.pairs.map (Pair.seen lib))
      (L ++ [r.pairs.map (Pair.seen lib)]) := by
  rw [ShowsRows] at h ⊢
  rw [Contents.addRow, record_rows, record_starts, addPairs_rows, addPairs_starts,
    List.zipWith_append hK.starts.symm]
  refine List.rel_append (h.imp fun _ _ hx => hx.append _) (.cons ?_ .nil)
  rw [Row.resolve]
  split_ifs with hpos
  · refine ⟨by simp, .inr ⟨l, [], by simp, ?_⟩⟩
    rw [hl.length hK.toAligned]
  · have hnil : r.pairs = [] := List.eq_nil_of_length_eq_zero (by simpa using hpos)
    exact ⟨by simp, .inl ⟨rfl, by simp [hnil]⟩⟩

theorem blob_le_addRows (rs : List (RowText × Ws)) : K.blob.len ≤ (K.addRows lib rs).blob.len := by
  induction rs generalizing K with
  | nil => exact Nat.le_refl _
  | cons r rs ih =>
    refine le_trans ?_ (ih (K := K.addRow lib r.1))
    rw [addRow_blob]
    exact blob_le_addPairs r.1.pairs

/-- The rows of a layout are shown behind the others. -/
theorem addRows_shows (lib : Libc) (hl : K.Shows l) (hL : K.ShowsRows l L) (hK : K.Whole)
    (rs : List (RowText × Ws)) (hoff : (K.addRows lib rs).blob.len < NO_OFFSET) :
    ∃ l', (K.addRows lib rs).Shows l' ∧
      (K.addRows lib rs).ShowsRows l' (L ++ rs.map fun r => r.1.pairs.map (Pair.seen lib)) := by
  induction rs generalizing K l L with
  | nil =>
    rw [List.map_nil, List.append_nil]
    exact ⟨l, hl, hL⟩
  | cons r rs ih =>
    have hr : (K.addPairs lib r.1.pairs).blob.len < NO_OFFSET := by
      rw [← addRow_blob]
      exact (blob_le_addRows rs).trans_lt hoff
    have hl' := ((hl.addPairs hK.toAligned r.1.pairs hr).record K.cells.length
      r.1.pairs.length)
    obtain ⟨l', h₁, h₂⟩ := ih hl' (hL.addRow hl hK r.1) (hK.addRow r.1) hoff
    rw [List.append_assoc] at h₂
    exact ⟨l', h₁, h₂⟩

end Contents

/-! ## The end -/

/-- A part of an array whose elements are read as `xs`. -/
theorem IsArray.read? {α β : Type} {b : Block α} {ys : List α} {cap : Nat} (h : IsArray b ys cap)
    {f : α → Option β} {as xs bs : List β}
    (hf : List.Forall₂ (fun y x => f y = some x) ys (as ++ (xs ++ bs))) :
    (b.read? as.length xs.length).bind (·.mapM f) = some xs := by
  have hdrop := List.forall₂_drop_append _ _ _ hf
  have htake := List.forall₂_take_append _ _ _ hdrop
  have hlen := hf.length_eq
  simp only [List.length_append] at hlen
  have hsplit : b.Holds (ys.take as.length ++
      ((ys.drop as.length).take xs.length ++ (ys.drop as.length).drop xs.length)) := by
    simpa only [List.take_append_drop] using h.holds
  have hread := hsplit.read?
  rw [List.length_take, List.length_take, List.length_drop, Nat.min_eq_left (by omega),
    Nat.min_eq_left (by omega)] at hread
  rw [hread, Option.bind_some]
  exact mapM_eq_some_iff.2 htake

/-- Once the pointers are resolved, the caller finds what the contents show. -/
theorem Resolved.seen? {trunc : Bool} {s : PageState} (h : Resolved K trunc s) (hl : K.Shows l)
    (hL : K.ShowsRows l L) (hK : K.Whole) : s.out.seen? s.c = some L := by
  have hlen : K.rows.length = L.length := by
    rw [← List.Forall₂.length_eq hL, List.length_zipWith, hK.starts, Nat.min_self]
  have hrow : ∀ row x, Row.Shows l row x → row.seen? s.c = some x := by
    rintro row x ⟨hcount, ⟨hc, rfl⟩ | ⟨as, bs, rfl, hc⟩⟩
    · simp [Row.seen?, hc, hcount]
    · rw [Row.seen?, hc, hcount, h.blob]
      exact h.cells.read? hl
  rw [h.out, PageResult.seen?, Contents.shown]
  by_cases hnil : K.rows = []
  · have hL' : L = [] := List.eq_nil_of_length_eq_zero (by rw [← hlen, hnil]; rfl)
    simp [hnil, hL']
  · rw [if_neg hnil]
    simp only [h.rowsCap, if_true, hlen]
    have hall : List.Forall₂ (fun row x => row.seen? s.c = some x)
        (List.zipWith Row.resolve K.rows K.starts) ([] ++ (L ++ [])) := by
      rw [List.nil_append, List.append_nil]
      exact List.Forall₂.imp hrow hL
    exact h.rows.read? hall

/-- No row is shown whose cells are not resolved. -/
theorem Resolved.cells_ne {trunc : Bool} {s : PageState} (h : Resolved K trunc s) (hK : K.Whole) :
    ∀ i < s.out.count, ∃ row, s.c.rowsArr.get? i = some row ∧ row.cells ≠ .unset := by
  intro i hi
  have hi' : i < (List.zipWith Row.resolve K.rows K.starts).length := by
    rw [h.out] at hi
    rwa [List.length_zipWith, hK.starts, Nat.min_self]
  refine ⟨_, h.rows.holds.get? hi', ?_⟩
  rw [List.getElem_zipWith, Row.resolve]
  split_ifs <;> exact fun h => by cases h

end MongrelDB
