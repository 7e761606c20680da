import MongrelDB.Lib.Number
import MongrelDB.Page.Cutoff

/-!
# The numbers of a page

An accepted page keeps the numbers of its cells: a column id is the number its
token denotes, and a value is that number, if it comes back as an integer of 64
bits. This fails for the ids that have a fraction or an exponent that matters,
since these are not looked at, and for the integers beyond 64 bits, which saturate.
Nothing else can go wrong (`decodePage_keeps_iff`): in particular the buffers of 32
and of 64 bytes the tokens are copied to are long enough.
-/

namespace MongrelDB

open Ascii

/-! ## Tokens -/

/-- What is copied of a token. -/
theorem clipTok_eq_take {size : Nat} (hsize : 0 < size) (t : Bytes) :
    clipTok size t = t.take (size - 1) := by
  rw [clipTok, clip]
  split_ifs with h
  · rfl
  · rw [List.take_length, List.take_of_length_le (by omega)]

/-- A pair keeps its numbers, in the cell it is decoded to: the id of the column is
    the number its token denotes, and a number is decoded to an integer it is, or to
    a double. -/
def Pair.Keeps (p : Pair) (cell : Int64 × Seen) : Prop :=
  (isNumber p.id.text = true → (cell.1.toInt : ℚ) = numVal p.id.text) ∧
    ∀ t : NumTok, p.val = .num t → isNumber t.text = true →
      (∃ i, cell.2 = .int64 i ∧ (i.toInt : ℚ) = numVal t.text) ∨ ∃ d, cell.2 = .double d

/-- The numbers of a pair fit 64 bits as they are written: the id, and a value that
    has neither point nor exponent in its first 63 characters. -/
def Pair.Fits (p : Pair) : Prop :=
  (isNumber p.id.text = true → FitsInt64 p.id.text) ∧
    ∀ t : NumTok, p.val = .num t → isNumber t.text = true → looksInt (t.text.take 63) = true →
      FitsInt64 t.text

/-- A pair keeps its numbers exactly if they fit. -/
theorem Pair.keeps_iff (lib : Libc) (p : Pair) : p.Keeps (p.seen lib) ↔ p.Fits := by
  refine and_congr (forall_congr' fun hid => ?_) (forall_congr' fun t => forall_congr' fun hval =>
    forall_congr' fun ht => ?_)
  · rw [Pair.seen, clipTok_eq_take (by decide), strtoll_take hid (by decide), clamp_leadInt_iff]
  · simp only [Pair.seen, hval, Json.seen, clipTok_eq_take (show 0 < 64 by decide)]
    by_cases hint : looksInt (t.text.take 63) = true
    · simp only [hint, if_true, Seen.int64.injEq, reduceCtorEq, exists_false, or_false,
        exists_eq_left', forall_const]
      rw [strtoll_take ht (by decide), clamp_leadInt_iff]
    · rw [if_neg hint]
      exact iff_of_true (.inr ⟨_, rfl⟩) fun h => absurd h hint

/-! ## Pages -/

variable {lib : Libc} {recv : Bytes} {c c' : Scratch} {h h' : Heap} {out : PageResult}
  {l : Lead} {rs : List (RowText × Ws)} {w : Ws} {r : Bytes}

/-- The rows of a result keep the numbers of the rows of a layout, cell by cell. -/
def KeepsNumbers (rs : List (RowText × Ws)) (rows : List (List (Int64 × Seen))) : Prop :=
  List.Forall₂ (fun r cells => List.Forall₂ Pair.Keeps r.1.pairs cells) rs rows

/-- An accepted page delivers the rows of its layout. -/
theorem seen?_of_ok (hrecv : recv = l.text ++ (rowsText rs w ++ r))
    (hsize : recv.length < SIZE_MAX) (hok : decodePage lib recv c h = .ok (.ok, out, c', h')) :
    out.seen? c' = some (seenRows lib rs) := by
  obtain ⟨⟨found, trunc⟩, htrunc, -⟩ := jsonGetBool_ends recv (.lit "truncated")
  obtain ⟨e, s, hs, ⟨-, -, hseen⟩ | ⟨he, -⟩⟩ := decodePage_rows lib c h htrunc hrecv hsize
  · obtain ⟨-, rfl, rfl, -⟩ : (Code.ok, out, c', h') = (e, s.out, s.c, s.heap) :=
      Except.ok.inj (hok.symm.trans hs)
    exact hseen
  · exact absurd (congrArg Prod.fst (Except.ok.inj (hok.symm.trans hs))).symm he

/-- The numbers of every array of cells of an accepted page are kept, exactly if
    they fit 64 bits as they are written. -/
theorem decodePage_keeps_iff (hrecv : recv = l.text ++ (rowsText rs w ++ r))
    (hsize : recv.length ≤ MONGRELDB_MAX_RESPONSE_BYTES)
    (hok : decodePage lib recv c h = .ok (.ok, out, c', h')) :
    (∃ rows, out.seen? c' = some rows ∧ KeepsNumbers rs rows) ↔
      ∀ r ∈ rs, ∀ p ∈ r.1.pairs, p.Fits := by
  have hseen := seen?_of_ok hrecv (lt_of_le_of_lt hsize (by decide)) hok
  have hkeeps : KeepsNumbers rs (seenRows lib rs) ↔ ∀ r ∈ rs, ∀ p ∈ r.1.pairs, p.Fits := by
    simp only [KeepsNumbers, seenRows, List.forall₂_map_right_iff, List.forall₂_same,
      Pair.keeps_iff]
  rw [← hkeeps]
  constructor
  · rintro ⟨rows, hrows, hk⟩
    rwa [← Option.some.inj (hrows.symm.trans hseen)]
  · intro hk
    exact ⟨_, hseen, hk⟩

/-! ## An id with an exponent -/

/-- A row with a single cell. -/
def oneCell (id val : NumTok) : RowText × Ws :=
  (⟨Ws.none, [(⟨Ws.none, ⟨ascii "cells", Eq.refl true⟩, Ws.none, Ws.none,
    .cells [(⟨Ws.none, id, Ws.none, some Ws.none, .num val, fun h => by simp at h⟩, Ws.none)]
      Ws.none, rfl⟩, Ws.none)], Ws.none⟩, Ws.none)

/-- What stands in front of the rows of a response, if they come first. -/
def rowsFirst : Lead := ⟨Ws.none, [], Ws.none, Ws.none, Ws.none, by simp⟩

/-- The value `5` in the column `1`. -/
theorem decodePage_keeps_plain : ∃ out c' h',
    decodePage Libc.zero (ascii "\x7b\"rows\":[\x7b\"cells\":[1,5]\x7d]\x7d") Scratch.freed
        Heap.unlimited = .ok (.ok, out, c', h') ∧
      ∃ rows, out.seen? c' = some rows ∧
        KeepsNumbers [oneCell ⟨ascii "1", by decide⟩ ⟨ascii "5", by decide⟩] rows := by
  have hrecv : ascii "\x7b\"rows\":[\x7b\"cells\":[1,5]\x7d]\x7d" = rowsFirst.text ++
      (rowsText [oneCell ⟨ascii "1", by decide⟩ ⟨ascii "5", by decide⟩] Ws.none ++ [rbrace]) := by
    decide
  have hret : Returns Libc.zero _ Scratch.freed Heap.unlimited .ok :=
    (Accepted.rows _ _ _ _ hrecv).returns_ok (by decide) Heap.unlimited_succeeds
  obtain ⟨out, c', h', hok⟩ := hret
  refine ⟨out, c', h', hok, (decodePage_keeps_iff hrecv (by decide) hok).2 ?_⟩
  rintro r hr p hp
  obtain rfl := List.mem_singleton.1 hr
  obtain rfl := List.mem_singleton.1 hp
  refine ⟨fun _ => .inl (by decide +kernel), fun t ht _ _ => ?_⟩
  obtain rfl := Json.num.inj ht
  exact .inl (by decide +kernel)

/-- The id `1e3` denotes 1000, and its cell is that of the column 1. -/
theorem exponentId_shortened : ∃ out c' h',
    decodePage Libc.zero (ascii "\x7b\"rows\":[\x7b\"cells\":[1e3,5]\x7d]\x7d") Scratch.freed
        Heap.unlimited = .ok (.ok, out, c', h') ∧
      out.seen? c' = some [[(1, .int64 5)]] ∧
      isNumber (ascii "1e3") = true ∧ numVal (ascii "1e3") = 1000 ∧
      ¬∃ rows, out.seen? c' = some rows ∧
        KeepsNumbers [oneCell ⟨ascii "1e3", by decide⟩ ⟨ascii "5", by decide⟩] rows := by
  have hrecv : ascii "\x7b\"rows\":[\x7b\"cells\":[1e3,5]\x7d]\x7d" = rowsFirst.text ++
      (rowsText [oneCell ⟨ascii "1e3", by decide⟩ ⟨ascii "5", by decide⟩] Ws.none ++ [rbrace]) := by
    decide
  have hret : Returns Libc.zero _ Scratch.freed Heap.unlimited .ok :=
    (Accepted.rows _ _ _ _ hrecv).returns_ok (by decide) Heap.unlimited_succeeds
  obtain ⟨out, c', h', hok⟩ := hret
  have hseen := seen?_of_ok hrecv (by decide) hok
  have hval : numVal (ascii "1e3") = 1000 := by decide +kernel
  refine ⟨out, c', h', hok, hseen.trans (by decide), by decide, hval, ?_⟩
  rintro ⟨rows, hrows, hk⟩
  obtain rfl := Option.some.inj (hseen.symm.trans hrows)
  simp only [KeepsNumbers, seenRows, List.forall₂_map_right_iff, List.forall₂_same, oneCell] at hk
  have hid := (hk _ (List.mem_singleton_self _) _ (List.mem_singleton_self _)).1 (by decide)
  rw [Pair.seen, hval] at hid
  exact absurd hid (by decide)

end MongrelDB
