import MongrelDB.Page.Body
import MongrelDB.Lookup.Strings

/-!
# Well-formed responses

What a well-formed response says (`Carries`): the rows of its first array named
`rows`, the cells of each from its arrays named `cells`, and the flag named
`truncated`. Names are compared as they are written.

Such a response has a layout the decoding accepts, so that exactly its rows are
delivered, whatever earlier calls have left in the buffers (`decodePage_carries`).
-/

namespace MongrelDB

open Ascii Prog

/-! ## What a response says -/

/-- An integer of 64 bits. -/
def int64? (i : Int) : Option Int64 :=
  if -2 ^ 63 ≤ i ∧ i < 2 ^ 63 then some (Int64.ofInt i) else none

/-- What a value of a cell stands for: an integer of 64 bits, a double by what
    `strtod` makes of its token, a string by its bytes, and an array or an object
    by its text. A number token is shorter than 64 bytes. -/
def Json.cellValue? (lib : Libc) (v : Json) : Option Seen :=
  match v.datum? with
  | none => none
  | some .null => some .null
  | some (.bool b) => some (.bool b)
  | some (.int i) => (int64? i).map .int64
  | some (.num t) => if t.length < 64 then some (.double (lib.strtod t)) else none
  | some (.str s) => some (.str s)
  | some (.raw t) => some (.json t)

/-- The id of a column: an integer of 64 bits. -/
def Json.columnId? (v : Json) : Option Int64 :=
  match v.datum? with
  | some (.int i) => int64? i
  | _ => none

/-- The cells of an array of ids and values, in turn. -/
def cells? (lib : Libc) : List (Item Json) → Option (List (Int64 × Seen))
  | [] => some []
  | [_] => none
  | id :: v :: r => do
    let colid ← id.val.columnId?
    let value ← v.val.cellValue? lib
    return (colid, value) :: (← cells? lib r)

/-- The cells of a member of a row: those of an array named `cells`. -/
def memberCells? (lib : Libc) (m : Member Json) : Option (List (Int64 × Seen)) :=
  match m.val with
  | .arr es _ => if m.key.raw = ascii "cells" then cells? lib es else some []
  | _ => some []

/-- The cells of a row object. -/
def Json.row? (lib : Libc) : Json → Option (List (Int64 × Seen))
  | .obj ms _ => (ms.mapM (memberCells? lib)).map List.flatten
  | _ => none

/-- A response carries these rows, and this flag. -/
def Carries (lib : Libc) (recv : Bytes) (rows : List (List (Int64 × Seen))) (trunc : Bool) : Prop :=
  ∃ (pre : Ws) (ms : List (Member Json)) (w post : Ws),
    recv = objText pre ms w post.bytes ∧ (Json.obj ms w).Valid ∧
    (∃ m es v, ms.find? isRowsMember = some m ∧ m.val = .arr es v ∧
      es.mapM (fun e => e.val.row? lib) = some rows) ∧
    trunc = (match rawField? Json.isBool (ascii "truncated") ms with
      | some v => v.text == ascii "true"
      | none => false)

/-! ## Values -/

variable {lib : Libc}

/-- Neither a fraction nor an exponent has a character an integer has. -/
theorem eq_nil_of_isFraction {s : Bytes} (h : isFraction s = true) (hint : looksInt s = true) :
    s = [] := by
  cases s with
  | nil => rfl
  | cons c s =>
    rw [looksInt, List.all_cons, Bool.and_eq_true, Bool.and_eq_true, Bool.and_eq_true] at hint
    obtain ⟨⟨⟨hdot, he⟩, hE⟩, -⟩ := hint
    simp only [bne_iff_ne, ne_eq] at hdot he hE
    simp [isFraction, hdot, isExponent, he, hE] at h

/-- A number without sign, fraction and exponent is a run of digits. -/
theorem isNatText_of_isUnsigned {s : Bytes} (h : isUnsigned s = true) (hint : looksInt s = true) :
    isNatText s = true := by
  cases s with
  | nil => exact h
  | cons c s =>
    have hs : looksInt s = true := by
      rw [looksInt, List.all_cons, Bool.and_eq_true] at hint
      exact hint.2
    rw [isUnsigned] at h
    split_ifs at h with hc
    · rw [hc, eq_nil_of_isFraction h hs]
      decide
    · rw [Bool.and_eq_true] at h
      have hdrop : looksInt (s.dropWhile isDigit) = true :=
        List.all_eq_true.2 fun d hd => List.all_eq_true.1 hs d ((List.dropWhile_sublist _).mem hd)
      have hall : s.all isDigit = true :=
        List.all_eq_true.2 (List.dropWhile_eq_nil_iff.1 (eq_nil_of_isFraction h.2 hdrop))
      simp [isNatText, h.1, hall, hc]

/-- A number without fraction and exponent is an integer. -/
theorem intVal?_of_looksInt {t : Bytes} (h : isNumber t = true) (hint : looksInt t = true) :
    (intVal? t).isSome = true := by
  cases t with
  | nil => exact h
  | cons c s =>
    have hs : looksInt s = true := by
      rw [looksInt, List.all_cons, Bool.and_eq_true] at hint
      exact hint.2
    rw [isNumber] at h
    rw [intVal?]
    split_ifs at h with hc
    · rw [if_pos hc, if_pos (isNatText_of_isUnsigned h hs), Option.isSome_some]
    · rw [if_neg hc, if_pos (isNatText_of_isUnsigned h hint), Option.isSome_some]

/-- An integer has neither. -/
theorem looksInt_of_intVal? {t : Bytes} {i : Int} (h : intVal? t = some i) : looksInt t = true := by
  cases t with
  | nil => rfl
  | cons c ds =>
    rw [intVal?] at h
    split_ifs at h with hc hn hn
    · rw [hc, looksInt, List.all_cons]
      exact looksInt_of_digits (isNatText_all hn)
    · exact looksInt_of_digits (isNatText_all hn)

theorem int64?_eq_some {i : Int} {c : Int64} (h : int64? i = some c) :
    (-2 ^ 63 ≤ i ∧ i < 2 ^ 63) ∧ Int64.ofInt i = c := by
  rw [int64?] at h
  split_ifs at h with hr
  exact ⟨hr, Option.some.inj h⟩

/-- An integer of 64 bits is read exactly, from a buffer of more than 20 bytes. -/
theorem strtoll_clipTok_eq {size : Nat} (hsize : 20 < size) {t : Bytes} {i : Int} {c : Int64}
    (ht : intVal? t = some i) (hi : int64? i = some c) : strtoll (clipTok size t) = c := by
  obtain ⟨⟨hlo, hhi⟩, hc⟩ := int64?_eq_some hi
  rw [← hc, ← strtoll_clipTok hsize ht hlo hhi, Int64.ofInt_toInt]

/-- The integer a value stands for is that of a number token. -/
theorem Json.num_of_datum? {v : Json} {i : Int} (h : v.datum? = some (.int i)) :
    ∃ t, v = .num t ∧ intVal? t.text = some i := by
  cases v with
  | num t =>
    rw [datum?] at h
    cases ht : intVal? t.text with
    | none => simp [ht] at h
    | some j =>
      simp only [ht, Option.some.injEq, Datum.int.injEq] at h
      exact ⟨t, rfl, h ▸ ht⟩
  | lit t =>
    rw [datum?] at h
    split_ifs at h <;> simp at h
  | str t => simp [datum?] at h
  | arr es w => simp [datum?] at h
  | obj ms w => simp [datum?] at h

/-- The id of a column is read exactly. -/
theorem Json.columnId?_eq_some {v : Json} {c : Int64} (h : v.columnId? = some c) :
    ∃ t, v = .num t ∧ strtoll (clipTok 32 t.text) = c := by
  rw [columnId?] at h
  split at h
  · rename_i i hi
    obtain ⟨t, rfl, ht⟩ := num_of_datum? hi
    exact ⟨t, rfl, strtoll_clipTok_eq (by decide) ht h⟩
  · simp at h

/-- What the caller finds in a decoded value is what it stands for. -/
theorem Json.seen_of_cellValue? {v : Json} {x : Seen} (hv : v.Valid)
    (h : v.cellValue? lib = some x) : v.seen lib = x := by
  rw [cellValue?] at h
  cases hv with
  | true ht => simp +decide [datum?, ht] at h; simp +decide [seen, ht, ← h]
  | false ht => simp +decide [datum?, ht] at h; simp +decide [seen, ht, ← h]
  | null ht => simp +decide [datum?, ht] at h; simp +decide [seen, ht, ← h]
  | @num t ht =>
    rw [datum?] at h
    -- `intVal?` and the reader's `looksInt` agree on what an integer is.
    cases hi : intVal? t.text with
    | some i =>
      simp only [hi, Option.map_eq_some_iff] at h
      obtain ⟨c, hc, rfl⟩ := h
      obtain ⟨⟨hlo, hhi⟩, -⟩ := int64?_eq_some hc
      have hlen := length_le_of_intVal? hi hlo hhi
      have hclip : clipTok 64 t.text = t.text := clipTok_of_lt (by omega)
      rw [seen, ← strtoll_clipTok_eq (by decide : 20 < 64) hi hc, hclip, looksInt_of_intVal? hi]
      rfl
    | none =>
      have hint : looksInt t.text = false := by
        rw [← Bool.not_eq_true]
        intro hint
        have := intVal?_of_looksInt ht hint
        rw [hi] at this
        exact absurd this (by decide)
      simp only [hi] at h
      split_ifs at h with hlen
      rw [seen, clipTok_of_lt hlen, hint, ← Option.some.inj h]
      rfl
  | @str t ht =>
    rw [datum?] at h
    cases hs : MongrelDB.strVal? t.raw with
    | none => simp [hs] at h
    | some b =>
      simp only [hs, Option.map_some, Option.some.injEq] at h
      rw [seen, unescape_of_strVal? hs, CStr.at_append_nul (zero_notMem_of_strVal? ht hs), h]
  | @arr es w hes =>
    have htext := (Valid.arr hes (w := w)).zero_notMem
    change some (Seen.json (Json.arr es w).text) = some x at h
    rw [← Option.some.inj h]
    exact congrArg Seen.json (CStr.at_append_nul htext [])
  | @obj ms w hkeys hms =>
    have htext := (Valid.obj hkeys hms (w := w)).zero_notMem
    change some (Seen.json (Json.obj ms w).text) = some x at h
    rw [← Option.some.inj h]
    exact congrArg Seen.json (CStr.at_append_nul htext [])

/-! ## Layouts -/

/-- The elements of a list of values, each of which has a layout. -/
theorem spacedText_items {X Y : Type} {f : X → Bytes} {g : X → Y} {es : List (Item Json)}
    {ys : List Y} {P : Item Json → Y → Prop} (h : List.Forall₂ P es ys)
    (hP : ∀ e ∈ es, ∀ y, P e y → ∃ x : X × Ws, f x.1 ++ x.2.bytes = itemText e ∧ g x.1 = y) :
    ∃ xs : List (X × Ws), spacedText f xs = itemsText es ∧ xs.map (fun x => g x.1) = ys := by
  have hlist : ∃ xs : List (X × Ws), xs.map (fun x => f x.1 ++ x.2.bytes) = es.map itemText ∧
      xs.map (fun x => g x.1) = ys := by
    induction h with
    | nil => exact ⟨[], rfl, rfl⟩
    | @cons e y es ys he _ ih =>
      obtain ⟨x, hx, hy⟩ := hP e List.mem_cons_self y he
      obtain ⟨xs, hxs, hys⟩ := ih fun e he => hP e (List.mem_cons_of_mem _ he)
      exact ⟨x :: xs, by simp [hx, hxs], by simp [hy, hys]⟩
  obtain ⟨xs, hxs, hys⟩ := hlist
  exact ⟨xs, by rw [spacedText, hxs, itemsText_eq], hys⟩

/-- An array of ids and values is one of pairs. -/
theorem pairs_of_cells? : ∀ {es : List (Item Json)} {xs : List (Int64 × Seen)},
    (∀ e ∈ es, e.val.Valid) → cells? lib es = some xs →
    ∃ ps : List (Pair × Ws), spacedText Pair.text ps = itemsText es ∧
      ps.map (fun p => p.1.seen lib) = xs
  | [], xs, _, h => ⟨[], by simp [spacedText, commaSep, itemsText], by simpa [cells?] using h⟩
  | [_], xs, _, h => by simp [cells?] at h
  | ⟨pre, id, mid⟩ :: ⟨sep, v, post⟩ :: r, xs, hvalid, h => by
    simp only [cells?, Option.bind_eq_bind, Option.bind_eq_some_iff] at h
    obtain ⟨c, hc, x, hx, l, hl, heq⟩ := h
    obtain ⟨t, rfl, ht⟩ := Json.columnId?_eq_some hc
    have hseen := Json.seen_of_cellValue? (hvalid ⟨sep, v, post⟩ (by simp)) hx
    obtain ⟨ps, hps, hxs⟩ := pairs_of_cells? (fun e he => hvalid e (by simp [he])) hl
    let p : Pair := ⟨pre, t, mid, some sep, v, fun h => by simp at h⟩
    refine ⟨(p, post) :: ps, ?_, ?_⟩
    · rw [spacedText_cons]
      -- Cells come in pairs, so the rest is empty exactly when there are no more pairs.
      cases ps with
      | nil =>
        have hr : r = [] := by
          cases r with
          | nil => rfl
          | cons e r =>
            cases r with
            | nil => simp [cells?] at hl
            | cons e' r => simp [cells?, ← hxs, Option.bind_eq_some_iff] at hl
        simp [p, hr, restText, Pair.text, sepText, itemsText, itemText, Json.text]
      | cons q qs =>
        obtain ⟨e, r', rfl⟩ : ∃ e r', r = e :: r' := by
          cases r with
          | nil => simp [cells?, ← hxs] at hl
          | cons e r' => exact ⟨e, r', rfl⟩
        rw [restText, hps]
        simp [p, Pair.text, sepText, itemsText, itemText, Json.text]
    · rw [List.map_cons, hxs, ← Option.some.inj heq]
      simp only [Pair.seen, p, ht, hseen]

/-- A member of a row has a layout. -/
theorem rowMember_of_cells? {m : Member Json} {xs : List (Int64 × Seen)} (hm : m.val.Valid)
    (h : memberCells? lib m = some xs) :
    ∃ x : RowMember × Ws, x.1.text ++ x.2.bytes = memberText m ∧
      x.1.val.pairs.map (Pair.seen lib) = xs := by
  obtain ⟨pre, k, mid, ipre, v, post⟩ := m
  -- A member to skip.
  have hother : (k.raw = ascii "cells" → v.isArr = false) → some [] = some xs →
      ∃ x : RowMember × Ws, x.1.text ++ x.2.bytes = memberText ⟨pre, k, mid, ipre, v, post⟩ ∧
        x.1.val.pairs.map (Pair.seen lib) = xs := fun hkey hxs =>
    ⟨(⟨pre, k, mid, ipre, .other v, hkey⟩, post),
      by simp [RowMember.text, RowField.text, memberText, itemText],
      by simpa [RowField.pairs] using Option.some.inj hxs⟩
  cases v with
  | arr es w =>
    simp only [memberCells?] at h
    split_ifs at h with hk
    · have hes : ∀ e ∈ es, e.val.Valid := by cases hm; assumption
      obtain ⟨ps, hps, hxs⟩ := pairs_of_cells? hes h
      refine ⟨(⟨pre, k, mid, ipre, .cells ps w, hk⟩, post), ?_, ?_⟩
      · simp [RowMember.text, RowField.text, memberText, itemText, Json.text, hps]
      · rw [RowField.pairs, List.map_map]
        exact hxs
    · exact hother (fun hk' => absurd hk' hk) h
  | lit t => exact hother (fun _ => rfl) h
  | num t => exact hother (fun _ => rfl) h
  | str t => exact hother (fun _ => rfl) h
  | obj ms w => exact hother (fun _ => rfl) h

/-- A row object has a layout. -/
theorem rowText_of_row? {e : Item Json} {xs : List (Int64 × Seen)} (he : e.val.Valid)
    (h : e.val.row? lib = some xs) :
    ∃ x : RowText × Ws, x.1.text ++ x.2.bytes = itemText e ∧
      x.1.pairs.map (Pair.seen lib) = xs := by
  obtain ⟨pre, v, post⟩ := e
  cases v with
  | obj ms w =>
    obtain ⟨L, hL, rfl⟩ := Option.map_eq_some_iff.1 h
    have hms : ∀ m ∈ ms, m.val.Valid := by cases he; assumption
    -- Each member of the row is read on its own.
    have hlist : ∃ xs : List (RowMember × Ws),
        xs.map (fun x => x.1.text ++ x.2.bytes) = ms.map memberText ∧
        xs.map (fun x => x.1.val.pairs.map (Pair.seen lib)) = L := by
      have hall := mapM_eq_some_iff.1 hL
      clear hL h he
      induction hall with
      | nil => exact ⟨[], rfl, rfl⟩
      | @cons m y ms L hm _ ih =>
        obtain ⟨x, hx, hy⟩ := rowMember_of_cells? (hms m List.mem_cons_self) hm
        obtain ⟨xs, hxs, hys⟩ := ih fun m hm => hms m (List.mem_cons_of_mem _ hm)
        exact ⟨x :: xs, by simp [hx, hxs], by simp [hy, hys]⟩
    obtain ⟨members, htext, hpairs⟩ := hlist
    refine ⟨(⟨pre, members, w⟩, post), ?_, ?_⟩
    · simp [RowText.text, itemText, Json.text, spacedText, htext, membersText_eq]
    · rw [RowText.pairs, List.map_flatMap, List.flatMap_def, hpairs]
  | lit t => simp [Json.row?] at h
  | num t => simp [Json.row?] at h
  | str t => simp [Json.row?] at h
  | arr es w => simp [Json.row?] at h

/-- Members behind another one, each with the comma in front of it. -/
def trailingText (ms : List (Member Json)) : Bytes := ms.flatMap fun m => comma :: memberText m

theorem membersText_cons (m : Member Json) (ms : List (Member Json)) :
    membersText (m :: ms) = memberText m ++ trailingText ms := by
  induction ms generalizing m with
  | nil => simp [membersText, trailingText]
  | cons m' ms ih =>
    rw [membersText, ih, trailingText, trailingText, List.flatMap_cons, List.cons_append]

theorem membersText_append (ms : List (Member Json)) (m : Member Json) (ms' : List (Member Json)) :
    membersText (ms ++ m :: ms') = skippedText ms ++ (memberText m ++ trailingText ms') := by
  induction ms with
  | nil => rw [List.nil_append, membersText_cons, skippedText, List.flatMap_nil, List.nil_append]
  | cons m₀ ms ih =>
    have hcons : membersText (m₀ :: (ms ++ m :: ms')) =
        memberText m₀ ++ comma :: membersText (ms ++ m :: ms') := by
      cases ms <;> simp [membersText]
    rw [List.cons_append, hcons, ih]
    simp [skippedText]

/-- A response that carries rows has a layout the decoding accepts, with those rows. -/
theorem Carries.layout {recv : Bytes} {rows : List (List (Int64 × Seen))} {trunc : Bool}
    (h : Carries lib recv rows trunc) :
    ∃ (l : Lead) (rs : List (RowText × Ws)) (w : Ws) (r : Bytes),
      recv = l.text ++ (rowsText rs w ++ r) ∧ seenRows lib rs = rows := by
  obtain ⟨pre, ms, w, post, hrecv, hvalid, ⟨m, es, v, hfind, hm, hrows⟩, -⟩ := h
  obtain ⟨hrow, before, after, hms, hbefore⟩ := List.find?_eq_some_iff_append.1 hfind
  have hmvalid : m.val.Valid := by
    cases hvalid with
    | obj _ hms => exact hms m (List.mem_of_find?_eq_some hfind)
  obtain ⟨kpre, k, mid, ipre, val, ipost⟩ := m
  obtain rfl : val = .arr es v := hm
  have hes : ∀ e ∈ es, e.val.Valid := by cases hmvalid; assumption
  obtain ⟨rs, hrs, hseen⟩ := spacedText_items (f := RowText.text)
    (g := fun r => r.pairs.map (Pair.seen lib)) (mapM_eq_some_iff.1 hrows)
    fun e he y hy => rowText_of_row? (hes e he) hy
  have hk : k.raw = ascii "rows" := by simpa [isRowsMember, Json.isArr] using hrow
  refine ⟨⟨pre, before, kpre, mid, ipre, fun m hm => by simpa using hbefore m hm⟩, rs, v,
    ipost.bytes ++ (trailingText after ++ (w.bytes ++ rbrace :: post.bytes)), ?_, hseen⟩
  rw [hrecv, objText, hms, Json.text, membersText_append]
  simp [Lead.text, rowsText, rowsKeyText, memberText, itemText, Json.text, hk, hrs]

/-- On a well-formed response, allocations succeeding, `mongreldb_query_page`
    returns `MDB_OK` with exactly its rows and its flag, whatever earlier calls
    have left in the buffers. -/
theorem decodePage_carries {recv : Bytes} {rows : List (List (Int64 × Seen))} {trunc : Bool}
    {h : Heap} (hcarries : Carries lib recv rows trunc)
    (hsize : recv.length ≤ MONGRELDB_MAX_RESPONSE_BYTES) (hheap : h.Succeeds) (c : Scratch) :
    (∃ out c' h', decodePage lib recv c h = .ok (.ok, out, c', h') ∧
        out.seen? c' = some rows ∧ out.truncated = trunc) ∧
      ∀ c₂, decodePage lib recv c₂ h = decodePage lib recv c h := by
  refine ⟨?_, fun _ => rfl⟩
  obtain ⟨l, rs, w, r, hrecv, hseen⟩ := hcarries.layout
  obtain ⟨pre, ms, w', post, hobj, hvalid, -, htrunc⟩ := hcarries
  have hms : ∀ m ∈ ms, m.val.Valid := by cases hvalid; assumption
  have hbool : ∃ found, jsonGetBool recv (.lit "truncated") = .ok (found, trunc) := by
    rw [hobj, jsonGetBool_obj _ hms, htrunc]
    have hkey : (CStr.lit "truncated").bytes = ascii "truncated" := rfl
    rw [hkey]
    cases hf : rawField? Json.isBool (ascii "truncated") ms with
    | none => exact ⟨_, rfl⟩
    | some v =>
      obtain ⟨t, rfl⟩ : ∃ t, v = .lit t := by
        obtain ⟨m, hm, rfl⟩ := Option.map_eq_some_iff.1 hf
        have hkind := (Bool.and_eq_true _ _ ▸ List.find?_some hm).2
        cases hv : m.val <;> simp_all [Json.isBool]
      exact ⟨true, by simp only [Json.text]⟩
  obtain ⟨found, hbool⟩ := hbool
  obtain ⟨e, s, hdecode, ⟨rfl, htr, hs⟩ | ⟨-, hrefused⟩⟩ := decodePage_rows lib c h hbool hrecv
    (lt_of_le_of_lt hsize (by decide))
  · exact ⟨s.out, s.c, s.heap, hdecode, hseen ▸ hs, htr⟩
  · exact absurd hheap hrefused.not_succeeds

/-- A member with nothing but its key and its value. -/
def plainMember (key : Bytes) (hkey : isClosed key = true) (v : Json) : Member Json :=
  ⟨Ws.none, ⟨key, hkey⟩, Ws.none, Ws.none, v, Ws.none⟩

/-- A row with the cell `"a"` in the column 1. -/
def rowA : Json :=
  .obj [plainMember (ascii "cells") (Eq.refl true)
    (.arr [⟨Ws.none, .num ⟨ascii "1", Eq.refl true⟩, Ws.none⟩,
    ⟨Ws.none, .str ⟨ascii "a", Eq.refl true⟩, Ws.none⟩] Ws.none)] Ws.none

/-- The members of a response with this row. -/
def membersA : List (Member Json) :=
  [plainMember (ascii "rows") (by decide) (.arr [⟨Ws.none, rowA, Ws.none⟩] Ws.none)]

theorem membersA_carries :
    Carries Libc.zero (ascii "\x7b\"rows\":[\x7b\"cells\":[1,\"a\"]\x7d]\x7d")
      [[(1, .str (ascii "a"))]] false := by
  have hrow : rowA.Valid := by
    refine .obj (by simp +decide) ?_
    simp only [plainMember, List.mem_singleton, forall_eq]
    refine .arr ?_
    simp only [List.mem_cons, List.not_mem_nil, or_false, forall_eq_or_imp, forall_eq]
    exact ⟨.num (by decide), .str (by decide)⟩
  refine ⟨Ws.none, membersA, Ws.none, Ws.none, by decide, .obj (by simp +decide) ?_,
    ⟨_, _, _, rfl, rfl, by decide⟩, by decide⟩
  simp only [membersA, plainMember, List.mem_singleton, forall_eq]
  refine .arr ?_
  simp only [List.mem_singleton, forall_eq]
  exact hrow

/-- The decoding of such a response. -/
theorem decodePage_membersA :
    (∃ out c' h', decodePage Libc.zero (ascii "\x7b\"rows\":[\x7b\"cells\":[1,\"a\"]\x7d]\x7d")
          Scratch.freed Heap.unlimited = .ok (.ok, out, c', h') ∧
        out.seen? c' = some [[(1, .str (ascii "a"))]] ∧ out.truncated = false) ∧
      ∀ c₂, decodePage Libc.zero (ascii "\x7b\"rows\":[\x7b\"cells\":[1,\"a\"]\x7d]\x7d") c₂
        Heap.unlimited = decodePage Libc.zero
          (ascii "\x7b\"rows\":[\x7b\"cells\":[1,\"a\"]\x7d]\x7d") Scratch.freed Heap.unlimited :=
  decodePage_carries membersA_carries (by decide) Heap.unlimited_succeeds Scratch.freed

end MongrelDB
